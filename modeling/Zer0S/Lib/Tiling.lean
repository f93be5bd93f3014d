import Mathlib.Tactic

/-!
# First-fit allocation in a tiled region

A region is cut into blocks that follow one another without gaps. Each block has a
header of `hdr` bytes and a payload, used or free; only the payload sizes and the used
flags are kept, since the addresses follow from them (`place`).

* `firstFit` takes the first free block that is large enough and cuts off the rest when
  that leaves a block of at least `minSize` bytes.
* `release` frees the block at an address and merges the next block into it when that
  one is free too.

Both keep the span of the region and the divisibility of the sizes, and both leave the
used blocks other than the one they are about where they are (`usedAt_firstFit`,
`usedAt_release`). Taking a block leaves no free neighbours (`merged_firstFit`), freeing one
may (`merged_merge`), and then they stay free neighbours (`merged_of_merge`). Without free
neighbours, freeing the block just taken undoes the request (`release_firstFit`).

`Room r l`: a request for `r` bytes succeeds. Freeing a block loses no room (`room_merge`).
-/

namespace Lib

/-- A block without its address. -/
structure Seg where
  size : ℕ
  used : Bool
deriving DecidableEq, Repr

namespace Tiling

variable (hdr minSize : ℕ)

/-- The bytes a list of blocks covers. -/
def span (l : List Seg) : ℕ := (l.map fun s => hdr + s.size).sum

/-- The blocks with the addresses of their headers, the first at `a`. -/
def place : ℕ → List Seg → List (ℕ × Seg)
  | _, [] => []
  | a, s :: l => (a, s) :: place (a + (hdr + s.size)) l

/-- What a request for `r` bytes makes of the free block `s`. -/
def split (r : ℕ) (s : Seg) : List Seg :=
  if r + hdr + minSize ≤ s.size then [⟨r, true⟩, ⟨s.size - r - hdr, false⟩] else [⟨s.size, true⟩]

/-- The payload a request for `r` bytes gets from the free block `s`. -/
def taken (r : ℕ) (s : Seg) : ℕ := if r + hdr + minSize ≤ s.size then r else s.size

/-- Take the first free block of at least `r` bytes: its address and the new blocks. -/
def firstFit (r : ℕ) : ℕ → List Seg → Option (ℕ × List Seg)
  | _, [] => none
  | a, s :: l =>
    if s.used = false ∧ r ≤ s.size then some (a, split hdr minSize r s ++ l)
    else (firstFit r (a + (hdr + s.size)) l).map fun (p, l') => (p, s :: l')

/-- Free `s` and merge the next block into it if that is free. -/
def merge (s : Seg) : List Seg → List Seg
  | [] => [⟨s.size, false⟩]
  | t :: l => if t.used then ⟨s.size, false⟩ :: t :: l else ⟨s.size + (hdr + t.size), false⟩ :: l

/-- Free the block whose header is at `p`. -/
def release (p : ℕ) : ℕ → List Seg → List Seg
  | _, [] => []
  | a, s :: l => if a = p then merge hdr s l else s :: release p (a + (hdr + s.size)) l

variable {hdr minSize} {a p q r n d : ℕ} {s t : Seg} {l l' pre post : List Seg}

/-! ## Addresses -/

@[simp] theorem span_nil : span hdr [] = 0 := rfl

@[simp] theorem span_cons : span hdr (s :: l) = hdr + s.size + span hdr l := by simp [span]

@[simp] theorem span_append : span hdr (l ++ l') = span hdr l + span hdr l' := by simp [span]

@[simp] theorem place_nil : place hdr a [] = [] := rfl

@[simp] theorem place_cons :
    place hdr a (s :: l) = (a, s) :: place hdr (a + (hdr + s.size)) l := rfl

theorem place_append : place hdr a (l ++ l') = place hdr a l ++ place hdr (a + span hdr l) l' := by
  induction l generalizing a with
  | nil => simp
  | cons s l ih => simp [ih, Nat.add_assoc]

theorem mem_place_append {x : ℕ × Seg} :
    x ∈ place hdr a (l ++ l') ↔ x ∈ place hdr a l ∨ x ∈ place hdr (a + span hdr l) l' := by
  rw [place_append, List.mem_append]

/-- A placed block lies inside the region. -/
theorem place_bounds {x : ℕ × Seg} (hx : x ∈ place hdr a l) :
    a ≤ x.1 ∧ x.1 + (hdr + x.2.size) ≤ a + span hdr l := by
  induction l generalizing a with
  | nil => simp at hx
  | cons s l ih =>
    rw [place_cons, List.mem_cons] at hx
    rw [span_cons]
    rcases hx with rfl | hx
    · exact ⟨le_rfl, by simp only; omega⟩
    · have := ih hx
      omega

/-- Placing blocks does not change them. -/
theorem map_snd_place (hdr a : ℕ) (l : List Seg) : (place hdr a l).map Prod.snd = l := by
  induction l generalizing a with
  | nil => rfl
  | cons s l ih => simp [ih]

theorem span_eq : span hdr l = hdr * l.length + (l.map Seg.size).sum := by
  induction l with
  | nil => rfl
  | cons s l ih => rw [span_cons, ih, List.length_cons, List.map_cons, List.sum_cons]; ring

/-- Addresses are multiples of what divides the start, the header and the sizes. -/
theorem dvd_place (hd : d ∣ hdr) (ha : d ∣ a) (hl : ∀ s ∈ l, d ∣ s.size) :
    ∀ x ∈ place hdr a l, d ∣ x.1 := by
  induction l generalizing a with
  | nil => simp
  | cons s l ih =>
    rw [List.forall_mem_cons] at hl
    rw [place_cons, List.forall_mem_cons]
    exact ⟨ha, ih (ha.add (hd.add hl.1)) hl.2⟩

/-- **Blocks do not overlap**: each ends before the next begins. -/
theorem place_pairwise :
    (place hdr a l).Pairwise fun x y => x.1 + (hdr + x.2.size) ≤ y.1 := by
  induction l generalizing a with
  | nil => exact List.Pairwise.nil
  | cons s l ih => exact List.pairwise_cons.2 ⟨fun y hy => (place_bounds hy).1, ih⟩

/-- Where a placed block sits in the list. -/
theorem exists_split_of_mem {x : ℕ × Seg} (hx : x ∈ place hdr a l) :
    ∃ pre post, l = pre ++ x.2 :: post ∧ x.1 = a + span hdr pre := by
  induction l generalizing a with
  | nil => simp at hx
  | cons s l ih =>
    rw [place_cons, List.mem_cons] at hx
    rcases hx with rfl | hx
    · exact ⟨[], l, rfl, by simp⟩
    · obtain ⟨pre, post, rfl, h⟩ := ih hx
      exact ⟨s :: pre, post, rfl, by rw [h, span_cons]; omega⟩

/-- Two blocks of the region are the same or do not overlap. -/
theorem place_disjoint {x y : ℕ × Seg} (hx : x ∈ place hdr a l) (hy : y ∈ place hdr a l) :
    x = y ∨ x.1 + (hdr + x.2.size) ≤ y.1 ∨ y.1 + (hdr + y.2.size) ≤ x.1 := by
  induction l generalizing a with
  | nil => simp at hx
  | cons s l ih =>
    rw [place_cons, List.mem_cons] at hx hy
    rcases hx with rfl | hx <;> rcases hy with rfl | hy
    · exact Or.inl rfl
    · exact Or.inr (Or.inl (place_bounds hy).1)
    · exact Or.inr (Or.inr (place_bounds hx).1)
    · exact ih hx hy

/-- The address of a block determines it. -/
theorem place_inj (hh : 0 < hdr) {x y : ℕ × Seg} (hx : x ∈ place hdr a l) (hy : y ∈ place hdr a l)
    (h : x.1 = y.1) : x = y := by
  rcases place_disjoint hx hy with h' | h' | h'
  · exact h'
  · omega
  · omega

/-! ## Taking a block -/

theorem span_split (_ : r ≤ s.size) : span hdr (split hdr minSize r s) = hdr + s.size := by
  unfold split
  split_ifs <;> simp only [span_cons, span_nil] <;> omega

/-- What `firstFit` does: the first block that is free and large enough is split. -/
theorem firstFit_spec (h : firstFit hdr minSize r a l = some (p, l')) :
    ∃ pre s post, l = pre ++ s :: post ∧ s.used = false ∧ r ≤ s.size ∧ p = a + span hdr pre ∧
      l' = pre ++ split hdr minSize r s ++ post ∧ ∀ t ∈ pre, t.used = true ∨ t.size < r := by
  induction l generalizing a p l' with
  | nil => simp [firstFit] at h
  | cons s l ih =>
    unfold firstFit at h
    split at h
    · rename_i hs
      simp only [Option.some.injEq, Prod.mk.injEq] at h
      obtain ⟨rfl, rfl⟩ := h
      exact ⟨[], s, l, rfl, hs.1, hs.2, by simp, by simp, by simp⟩
    · rename_i hs
      obtain ⟨⟨p', l₁⟩, h1, h2⟩ := Option.map_eq_some_iff.1 h
      simp only [Prod.mk.injEq] at h2
      obtain ⟨rfl, rfl⟩ := h2
      obtain ⟨pre, t, post, rfl, h3, h4, h5, rfl, h6⟩ := ih h1
      refine ⟨s :: pre, t, post, rfl, h3, h4, by rw [h5, span_cons]; omega, rfl, ?_⟩
      intro u hu
      rcases List.mem_cons.1 hu with rfl | hu
      · by_cases hf : u.used = true
        · exact Or.inl hf
        · exact Or.inr (by by_contra hc; exact hs ⟨by simpa using hf, by omega⟩)
      · exact h6 u hu

/-- `firstFit` fails when no free block is large enough. -/
theorem firstFit_eq_none : firstFit hdr minSize r a l = none ↔ ∀ s ∈ l, s.used = true ∨ s.size < r := by
  induction l generalizing a with
  | nil => simp [firstFit]
  | cons s l ih =>
    unfold firstFit
    split
    · rename_i hs
      simp [hs]
    · rename_i hs
      rw [Option.map_eq_none_iff, ih, List.forall_mem_cons, and_iff_right]
      by_cases hf : s.used = true
      · exact Or.inl hf
      · exact Or.inr (by by_contra hc; exact hs ⟨by simpa using hf, by omega⟩)

/-- A request for `r` bytes finds a free block that is large enough. -/
def Room (r : ℕ) (l : List Seg) : Prop := ∃ s ∈ l, s.used = false ∧ r ≤ s.size

theorem room_iff (hdr minSize a : ℕ) : Room r l ↔ ∃ p l', firstFit hdr minSize r a l = some (p, l') := by
  have hnone : firstFit hdr minSize r a l = none ↔ ¬ Room r l := by
    rw [firstFit_eq_none]
    unfold Room
    push Not
    exact forall₂_congr fun s _ => by cases s.used <;> simp
  cases hf : firstFit hdr minSize r a l with
  | none => simp [hnone.1 hf]
  | some y =>
    refine iff_of_true (by_contra ?_) ⟨y.1, y.2, rfl⟩
    intro h
    rw [hnone.2 h] at hf
    cases hf

theorem span_firstFit (h : firstFit hdr minSize r a l = some (p, l')) : span hdr l' = span hdr l := by
  obtain ⟨pre, s, post, rfl, -, hr, -, rfl, -⟩ := firstFit_spec h
  simp only [span_append, span_cons, span_split hr]; omega

theorem dvd_firstFit (hd : d ∣ hdr) (hr : d ∣ r) (hl : ∀ s ∈ l, d ∣ s.size)
    (h : firstFit hdr minSize r a l = some (p, l')) : ∀ s ∈ l', d ∣ s.size := by
  obtain ⟨pre, s, post, rfl, -, -, -, rfl, -⟩ := firstFit_spec h
  have hs : d ∣ s.size := hl s (by simp)
  intro t ht
  simp only [List.mem_append] at ht
  rcases ht with (ht | ht) | ht
  · exact hl t (by simp [ht])
  · unfold split at ht
    split_ifs at ht
    · simp only [List.mem_cons, List.not_mem_nil, or_false] at ht
      rcases ht with rfl | rfl
      · exact hr
      · exact Nat.dvd_sub (Nat.dvd_sub hs hr) hd
    · simp only [List.mem_cons, List.not_mem_nil, or_false] at ht
      subst ht; exact hs
  · exact hl t (by simp [ht])

/-! ## Freeing a block -/

@[simp] theorem span_merge : span hdr (merge hdr s l) = hdr + s.size + span hdr l := by
  cases l with
  | nil => simp [merge]
  | cons t l =>
    simp only [merge]
    split_ifs
    · rfl
    · simp only [span_cons]; omega

/-- What `release` does to a block of the region. -/
theorem release_spec (hh : 0 < hdr) :
    release hdr (a + span hdr pre) a (pre ++ s :: post) = pre ++ merge hdr s post := by
  induction pre generalizing a with
  | nil => simp [release]
  | cons t pre ih =>
    have h1 : a ≠ a + span hdr (t :: pre) := by rw [span_cons]; omega
    have h2 : a + span hdr (t :: pre) = a + (hdr + t.size) + span hdr pre := by rw [span_cons]; omega
    rw [List.cons_append, release, if_neg h1, h2, ih]
    rfl

theorem dvd_merge (hd : d ∣ hdr) (hs : d ∣ s.size) (hl : ∀ t ∈ l, d ∣ t.size) :
    ∀ t ∈ merge hdr s l, d ∣ t.size := by
  cases l with
  | nil => simpa [merge] using hs
  | cons t l =>
    simp only [merge]
    rw [List.forall_mem_cons] at hl
    split_ifs
    · simpa [hs] using hl
    · simpa [Nat.dvd_add hs (Nat.dvd_add hd hl.1)] using hl.2

/-- A freed block has room for what it held. -/
theorem room_merge_self (hr : r ≤ s.size) : Room r (pre ++ merge hdr s post) := by
  cases post with
  | nil => exact ⟨⟨s.size, false⟩, by simp [merge], rfl, hr⟩
  | cons t post =>
    cases ht : t.used with
    | true => exact ⟨⟨s.size, false⟩, by simp [merge, ht], rfl, hr⟩
    | false => exact ⟨⟨s.size + (hdr + t.size), false⟩, by simp [merge, ht], rfl, by simp only; omega⟩

/-- **Freeing a block loses no room**: a free block that is merged becomes part of a larger one. -/
theorem room_merge (h : Room r (pre ++ s :: post)) (hs : s.used = true) : Room r (pre ++ merge hdr s post) := by
  obtain ⟨b, hb, hf, hr⟩ := h
  rw [List.mem_append, List.mem_cons] at hb
  rcases hb with hb | rfl | hb
  · exact ⟨b, List.mem_append_left _ hb, hf, hr⟩
  · rw [hs] at hf
    cases hf
  · cases post with
    | nil => cases hb
    | cons t post =>
      cases ht : t.used with
      | true => exact ⟨b, by simp only [merge, ht, if_true]; simp [List.mem_cons.1 hb], hf, hr⟩
      | false =>
        rcases List.mem_cons.1 hb with rfl | hb
        · exact ⟨⟨s.size + (hdr + b.size), false⟩, by simp [merge, ht], rfl, by simp only; omega⟩
        · exact ⟨b, by simp [merge, ht, hb], hf, hr⟩

/-! ## Used blocks -/

/-- A used block with its header at `q` and a payload of `n` bytes. -/
def UsedAt (hdr a : ℕ) (l : List Seg) (q n : ℕ) : Prop := (q, ⟨n, true⟩) ∈ place hdr a l

theorem UsedAt.bounds (h : UsedAt hdr a l q n) : a ≤ q ∧ q + (hdr + n) ≤ a + span hdr l :=
  place_bounds h

/-- **Taking a block** adds one used block, at an address where there was none, with a
payload of at least the size asked for. -/
theorem usedAt_firstFit (hh : 0 < hdr) (h : firstFit hdr minSize r a l = some (p, l')) :
    ∃ m, r ≤ m ∧ (∀ k, ¬ UsedAt hdr a l p k) ∧
      ∀ q n, UsedAt hdr a l' q n ↔ UsedAt hdr a l q n ∨ q = p ∧ n = m := by
  obtain ⟨pre, s, post, rfl, hf, hr, rfl, rfl, -⟩ := firstFit_spec h
  refine ⟨taken hdr minSize r s, ?_, ?_, ?_⟩
  · unfold taken; split_ifs <;> omega
  · intro k hu
    have hs : (a + span hdr pre, s) ∈ place hdr a (pre ++ s :: post) := by
      rw [mem_place_append]; right; simp
    have := place_inj hh hu hs rfl
    simp only [Prod.mk.injEq, true_and] at this
    simp [← this] at hf
  · intro q n
    have hs : (⟨n, true⟩ : Seg) ≠ s := by rintro rfl; simp at hf
    unfold UsedAt
    rw [List.append_assoc, mem_place_append, mem_place_append, mem_place_append, span_split hr,
      place_cons, List.mem_cons]
    have hsplit : (q, (⟨n, true⟩ : Seg)) ∈ place hdr (a + span hdr pre) (split hdr minSize r s) ↔
        q = a + span hdr pre ∧ n = taken hdr minSize r s := by
      unfold split taken
      split_ifs <;> simp
    rw [hsplit]
    simp only [Prod.mk.injEq, hs, and_false, false_or]
    tauto

/-- **Freeing a block** removes that used block and no other. -/
theorem usedAt_release (hh : 0 < hdr) {k : ℕ} (hp : UsedAt hdr a l p k) :
    UsedAt hdr a (release hdr p a l) q n ↔ UsedAt hdr a l q n ∧ q ≠ p := by
  obtain ⟨pre, post, hl, hpa⟩ := exists_split_of_mem hp
  simp only at hl hpa
  subst hl hpa
  rw [release_spec hh]
  unfold UsedAt
  rw [mem_place_append, mem_place_append, place_cons, List.mem_cons]
  -- blocks before and after the freed one are at other addresses
  have hpre : (q, (⟨n, true⟩ : Seg)) ∈ place hdr a pre → q ≠ a + span hdr pre := by
    intro h; have := (place_bounds h).2; simp only at this; omega
  have hpost : (q, (⟨n, true⟩ : Seg)) ∈ place hdr (a + span hdr pre + (hdr + k)) post →
      q ≠ a + span hdr pre := by
    intro h; have := (place_bounds h).1; simp only at this; omega
  have hm : (q, (⟨n, true⟩ : Seg)) ∈ place hdr (a + span hdr pre) (merge hdr ⟨k, true⟩ post) ↔
      (q, (⟨n, true⟩ : Seg)) ∈ place hdr (a + span hdr pre + (hdr + k)) post := by
    cases post with
    | nil => simp [merge]
    | cons t post =>
      cases ht : t.used with
      | true => simp [merge, ht]
      | false =>
        have hne : (⟨n, true⟩ : Seg) ≠ t := by rintro rfl; simp at ht
        simp [merge, ht, hne, Nat.add_assoc]
  rw [hm]
  simp only [Prod.mk.injEq]
  tauto

/-! ## Free neighbours -/

/-- No two neighbouring blocks are free. -/
def Merged (l : List Seg) : Prop := l.IsChain fun s t => s.used = true ∨ t.used = true

/-- Cutting a free block in two does not make free neighbours: its first part is used. -/
theorem merged_split (h : Merged (pre ++ s :: post)) (hf : s.used = false) :
    Merged (pre ++ split hdr minSize r s ++ post) := by
  unfold Merged at h ⊢
  obtain ⟨h1, h2⟩ := List.isChain_split.1 h
  have hpre : ∀ t : Seg, t.used = true → List.IsChain (fun s t : Seg => s.used = true ∨ t.used = true) (pre ++ [t]) := by
    intro t ht
    refine (List.IsChain.left_of_append h1).append (List.isChain_singleton t) fun x _ y hy => Or.inr ?_
    simp only [List.head?_cons, Option.mem_some_iff] at hy
    exact hy ▸ ht
  -- after a free block the next one is used
  have hnext : ∀ t : Seg, List.IsChain (fun s t : Seg => s.used = true ∨ t.used = true) (t :: post) := by
    intro t
    refine (List.isChain_cons.1 h2).2.cons fun y hy => Or.inr ?_
    exact ((List.isChain_cons.1 h2).1 y hy).resolve_left (by simp [hf])
  rw [List.append_assoc]
  unfold split
  split_ifs
  · exact List.isChain_append_cons_cons.2 ⟨hpre _ rfl, Or.inl rfl, hnext _⟩
  · exact List.isChain_split.2 ⟨hpre _ rfl, hnext _⟩

theorem merged_firstFit (hm : Merged l) (h : firstFit hdr minSize r a l = some (p, l')) : Merged l' := by
  obtain ⟨pre, s, post, rfl, hf, -, -, rfl, -⟩ := firstFit_spec h
  exact merged_split hm hf

/-- **Freeing a block** behind a used one, or the first one, leaves no free neighbours. -/
theorem merged_merge (h : Merged (pre ++ s :: post)) (hpre : ∀ t ∈ pre.getLast?, t.used = true) :
    Merged (pre ++ merge hdr s post) := by
  unfold Merged at h ⊢
  obtain ⟨h1, h2⟩ := List.isChain_split.1 h
  have h1 := List.IsChain.left_of_append h1
  have htail := (List.isChain_cons.1 h2).2
  refine h1.append ?_ fun x hx y _ => Or.inl (hpre x hx)
  cases post with
  | nil => exact List.isChain_singleton _
  | cons t post =>
    simp only [merge]
    split_ifs with ht
    · exact htail.cons fun y hy => Or.inr (by simp only [List.head?_cons, Option.mem_some_iff] at hy; exact hy ▸ ht)
    · -- the block after the two that are merged is used
      obtain ⟨h3, h4⟩ := List.isChain_cons.1 htail
      exact h4.cons fun y hy => Or.inr ((h3 y hy).resolve_left ht)

/-- **Freeing the block just taken undoes the request**, when there were no free neighbours. -/
theorem release_firstFit (hh : 0 < hdr) (hm : Merged l) (h : firstFit hdr minSize r a l = some (p, l')) :
    release hdr p a l' = l := by
  obtain ⟨pre, s, post, rfl, hf, hr, rfl, rfl, -⟩ := firstFit_spec h
  rw [List.append_assoc]
  unfold split
  split_ifs with hs
  · -- the rest is merged into the block it was cut off
    rw [List.cons_append, release_spec hh, List.singleton_append, merge, if_neg (by simp)]
    have hsize : r + (hdr + (s.size - r - hdr)) = s.size := by omega
    simp only [hsize, ← hf]
  · rw [List.singleton_append, release_spec hh]
    cases post with
    | nil => rw [merge, ← hf]
    | cons t post =>
      -- the next block is used, so nothing is merged
      have ht : t.used = true := by
        have h2 := (List.isChain_split.1 hm).2
        exact ((List.isChain_cons_cons.1 h2).1).resolve_left (by simp [hf])
      rw [merge, if_pos ht, ← hf]

/-- **Free neighbours stay** when a block is freed. -/
theorem merged_of_merge (h : Merged (pre ++ merge hdr s post)) (hu : s.used = true) :
    Merged (pre ++ s :: post) := by
  unfold Merged at h ⊢
  obtain ⟨h1, h2, -⟩ := List.isChain_append.1 h
  refine h1.append ?_ fun x _ y hy => Or.inr ?_
  · refine List.IsChain.cons ?_ fun y _ => Or.inl hu
    cases post with
    | nil => exact List.isChain_nil
    | cons t post =>
      simp only [merge] at h2
      split_ifs at h2 with ht
      · exact (List.isChain_cons.1 h2).2
      · obtain ⟨h3, h4⟩ := List.isChain_cons.1 h2
        exact h4.cons fun y hy => Or.inr ((h3 y hy).resolve_left (by simp))
  · simp only [List.head?_cons, Option.mem_some_iff] at hy
    exact hy ▸ hu

/-- Without used blocks, and without free neighbours, there is one block. -/
theorem merged_free (h : Merged l) (hf : ∀ s ∈ l, s.used = false) (hl : l ≠ []) : ∃ s, l = [s] := by
  match l, hl with
  | [s], _ => exact ⟨s, rfl⟩
  | s :: t :: l, _ =>
    rcases (List.isChain_cons_cons.1 h).1 with h | h
    · rw [hf s List.mem_cons_self] at h
      cases h
    · rw [hf t (by simp)] at h
      cases h

end Tiling

end Lib
