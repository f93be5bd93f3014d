import Zer0S.Proof.Overlap
import Zer0S.Proof.Search

/-!
# Copies that go wrong, and those that do not

The loops of `memcpy`, `strcpy` and `strncpy` go up. When the destination starts inside what is still to be
read, they read their own writes: `memcpy` repeats the first bytes, and `strcpy` never finds the NUL, which
it has overwritten.

* `memcpy_memmove_iff`: when `memcpy` does the same as `memmove`, and what it does otherwise.
* `strcpy_returns_iff`: when `strcpy` returns, and what it does then.
* `strncpy_pads`: `strncpy` on a destination that does not start inside.
-/

namespace Zer0S

open Lib

variable {m m' : Mem} {dest src n : Word} {s : List Byte}

/-- The destination starts behind the source, at most `b` bytes. -/
def StartsInside (dest src : Word) (b : ℕ) : Prop := 0 < (dest - src).toNat ∧ (dest - src).toNat ≤ b

instance (dest src : Word) (b : ℕ) : Decidable (StartsInside dest src b) := inferInstanceAs (Decidable (_ ∧ _))

/-- Bytes that are still to be read are not written. -/
theorem not_startsInside_ne {b i j : ℕ} (h : ¬ StartsInside dest src b) (hij : i < j) (hj : j ≤ b) (hb : b < 2 ^ 64) :
    dest + BitVec.ofNat 64 i ≠ src + BitVec.ofNat 64 j := by
  intro he
  have hdist : dest - src = BitVec.ofNat 64 (j - i) := by bv_omega
  have hlen : (dest - src).toNat = j - i := by
    rw [hdist, BitVec.toNat_ofNat, Nat.mod_eq_of_lt (by omega)]
  exact h ⟨by omega, by omega⟩

/-! ## `memcpy` -/

/-- **An overlap** with the destination inside the source: the bytes in front of it are repeated. -/
theorem memcpy_repeats (h : StartsInside dest src (n.toNat - 1))
    (hw : src.toNat + (dest - src).toNat + n.toNat ≤ 2 ^ 64) {i : ℕ} (hi : i < n.toNat) :
    (memcpy dest src n m).2 (dest + BitVec.ofNat 64 i) = m (src + BitVec.ofNat 64 (i % (dest - src).toNat)) := by
  have hdest : dest = src + BitVec.ofNat 64 (dest - src).toNat := by
    rw [BitVec.ofNat_toNat, BitVec.setWidth_eq]
    bv_omega
  generalize hk : (dest - src).toNat = k at h hw hdest
  have hper := copyUp_periodic (k := k) (by have := h.1; omega) n.toNat src m (by omega) (k + i) (by omega)
  rw [Nat.add_mod_left] at hper
  rw [memcpy, hdest, BitVec.add_assoc, ← BitVec.ofNat_add]
  exact hper

/-- **`memcpy` and `memmove`** do the same for all memories, on ranges that do not wrap around, unless the
destination starts inside the source; then `memcpy` repeats the bytes in front of it. -/
theorem memcpy_memmove_iff (hd : dest.toNat + n.toNat ≤ 2 ^ 64) (hs : src.toNat + n.toNat ≤ 2 ^ 64) :
    ((∀ m, memcpy dest src n m = memmove dest src n m) ↔ ¬ StartsInside dest src (n.toNat - 1)) ∧
      (StartsInside dest src (n.toNat - 1) → ∀ m, ∀ i < n.toNat, (memcpy dest src n m).2 (dest + BitVec.ofNat 64 i) =
        m (src + BitVec.ofNat 64 (i % (dest - src).toNat))) := by
  have hrepeats : StartsInside dest src (n.toNat - 1) → ∀ m, ∀ i < n.toNat,
      (memcpy dest src n m).2 (dest + BitVec.ofNat 64 i) = m (src + BitVec.ofNat 64 (i % (dest - src).toNat)) := by
    intro h m i hi
    refine memcpy_repeats h ?_ hi
    obtain ⟨h0, hle⟩ := h
    rw [BitVec.toNat_sub] at h0 hle ⊢
    omega
  refine ⟨⟨?_, ?_⟩, hrepeats⟩
  · -- a memory that tells the first byte from that at the destination
    intro hsame h
    obtain ⟨h0, hle⟩ := h
    generalize hk : (dest - src).toNat = k at *
    set m : Mem := fun a => if a = src then 1 else 0 with hm
    have hcpy := hrepeats ⟨by omega, by omega⟩ m k (by omega)
    have hmove := (memmove_copied m hd hs).bytes k (by omega)
    have hne : src + BitVec.ofNat 64 k ≠ src := by bv_omega
    rw [Nat.mod_self, hsame m, hmove, hm] at hcpy
    simp [hne] at hcpy
  · intro h m
    have hcopied : Copied m (memcpy dest src n m).2 dest src n.toNat :=
      copyUp_copied _ _ _ _ n.isLt fun i j hij hj => not_startsInside_ne h hij (by omega) (by omega)
    apply Prod.ext
    · rw [memmove_fst]
      rfl
    · exact hcopied.unique (memmove_copied m hd hs)

/-- Four bytes up by one. -/
theorem memcpy_memmove_iff_one : (memcpy 0x101 0x100 4 fun a => a.setWidth 8).2 0x104 = 0 ∧
    ∃ m, memcpy 0x101 0x100 4 m ≠ memmove 0x101 0x100 4 m := by
  have hd : (0x101 : Word).toNat + (4 : Word).toNat ≤ 2 ^ 64 := by decide
  have hs : (0x100 : Word).toNat + (4 : Word).toNat ≤ 2 ^ 64 := by decide
  obtain ⟨hiff, hrepeats⟩ := memcpy_memmove_iff hd hs
  have hinside : StartsInside 0x101 0x100 ((4 : Word).toNat - 1) := by decide
  constructor
  · exact hrepeats hinside (fun a => a.setWidth 8) 3 (by decide)
  · by_contra hall
    push Not at hall
    exact hiff.1 hall hinside

/-! ## `strcpy` -/

/-- A string fits in the address space. -/
theorem StringAt.length_lt (hs : StringAt m src s) : s.length < 2 ^ 64 := by
  by_contra hge
  -- the byte 2 ^ 64 in front of the NUL is the NUL
  have hchar := hs.ne_nul (i := s.length - 2 ^ 64) (by omega)
  have hoffset : BitVec.ofNat 64 (s.length - 2 ^ 64) = BitVec.ofNat 64 s.length := by
    apply BitVec.eq_of_toNat_eq
    rw [BitVec.toNat_ofNat, BitVec.toNat_ofNat, ← Nat.mod_eq_sub_mod (by omega)]
  have hsame : bytesFrom m src (s.length - 2 ^ 64) = bytesFrom m src s.length :=
    congrArg (fun o => m (src + o)) hoffset
  exact hchar (hsame.trans hs.nul)

/-- The bytes of a string and its NUL. -/
theorem StringAt.getD (hs : StringAt m src s) {i : ℕ} (hi : i ≤ s.length) :
    m (src + BitVec.ofNat 64 i) = s.getD i 0 := by
  rcases Nat.lt_or_eq_of_le hi with hlt | rfl
  · rw [List.getD_eq_getElem s 0 hlt]
    exact hs.chars i hlt
  · rw [List.getD_eq_default s 0 le_rfl]
    exact hs.nul

theorem StringAt.getD_ne (hs : StringAt m src s) {i : ℕ} (hi : i < s.length) : s.getD i 0 ≠ 0 := by
  rw [List.getD_eq_getElem s 0 hi]
  exact hs.noNul _ (List.getElem_mem hi)

/-- What is written is a string. -/
theorem written_stringAt {k : ℕ} (hw : Written m m' dest k fun i => s.getD i 0) (hk : s.length < k)
    (hs : ∀ c ∈ s, c ≠ 0) : StringAt m' dest s where
  chars i hi := (hw.bytes i (by omega)).trans (List.getD_eq_getElem s 0 hi)
  nul := (hw.bytes s.length hk).trans (List.getD_eq_default s 0 le_rfl)
  noNul := hs

/-- The loop of `strcpy`, after `i` rounds. -/
theorem strcpyLoop (hs : StringAt m src s) (h : ¬ StartsInside dest src s.length) : ∀ (d i : ℕ) (m₁ : Mem),
    i + d = s.length → Written m m₁ dest i (fun i => s.getD i 0) →
    ∃ m', loop strcpyBody (d + 1) (dest + BitVec.ofNat 64 i, src + BitVec.ofNat 64 i, m₁) = some m' ∧
      Written m m' dest (s.length + 1) fun i => s.getD i 0 := by
  have hlt := hs.length_lt
  intro d
  induction d with
  | zero =>
    intro i m₁ hi hw
    obtain rfl : i = s.length := hi
    have hread : m₁ (src + BitVec.ofNat 64 s.length) = s.getD s.length 0 :=
      (hw.frame _ fun j hj => (not_startsInside_ne h hj le_rfl hlt).symm).trans (hs.getD le_rfl)
    have hzero : s.getD s.length 0 = 0 := List.getD_eq_default s 0 le_rfl
    refine ⟨_, loop_done ?_, hw.snoc (by omega)⟩
    simp only [strcpyBody, hread, hzero]
    rfl
  | succ d ih =>
    intro i m₁ hi hw
    have hread : m₁ (src + BitVec.ofNat 64 i) = s.getD i 0 :=
      (hw.frame _ fun j hj => (not_startsInside_ne h hj (by omega) hlt).symm).trans (hs.getD (by omega))
    obtain ⟨m', hloop, hw'⟩ := ih (i + 1) _ (by omega) (hw.snoc (by omega))
    refine ⟨m', ?_, hw'⟩
    rw [← hloop, ← offset_next, ← offset_next]
    apply loop_next
    simp only [strcpyBody, hread]
    exact if_pos (hs.getD_ne (by omega))

/-- With the destination inside the string, the bytes between the two pointers are never NUL. -/
theorem strcpy_never (hs : StringAt m src s) (h : StartsInside dest src s.length) (rounds : ℕ) :
    strcpy rounds dest src m = none := by
  have hlt := hs.length_lt
  obtain ⟨h0, hle⟩ := h
  have hdest : dest = src + BitVec.ofNat 64 (dest - src).toNat := by
    rw [BitVec.ofNat_toNat, BitVec.setWidth_eq]
    bv_omega
  generalize (dest - src).toNat = k at *
  have hloop : loop strcpyBody rounds (dest, src, m) = none := by
    refine loop_never (I := fun x => x.1 = x.2.1 + BitVec.ofNat 64 k ∧
      ∀ i < k, x.2.2 (x.2.1 + BitVec.ofNat 64 i) ≠ 0) ?_ ⟨hdest, fun i hi => hs.ne_nul (by omega)⟩
    rintro ⟨d, p, m₁⟩ ⟨hd, hbytes⟩
    obtain rfl : d = p + BitVec.ofNat 64 k := hd
    have hc : m₁ p ≠ 0 := by simpa using hbytes 0 h0
    refine ⟨_, if_pos hc, ?_, ?_⟩
    · show p + BitVec.ofNat 64 k + 1 = p + 1 + BitVec.ofNat 64 k
      rw [offset_next, offset_succ]
    · intro i hi
      show m₁.set (p + BitVec.ofNat 64 k) (m₁ p) (p + 1 + BitVec.ofNat 64 i) ≠ 0
      rw [offset_succ]
      by_cases hlast : i + 1 = k
      · rw [hlast, Mem.set_self]
        exact hc
      · have hne : p + BitVec.ofNat 64 (i + 1) ≠ p + BitVec.ofNat 64 k := fun he =>
          hlast (offset_inj (by omega) (by omega) he)
        rw [Mem.set_ne hne]
        exact hbytes (i + 1) (by omega)
  rw [strcpy, hloop]
  rfl

/-- What `strcpy` leaves. -/
theorem strcpy_written (hs : StringAt m src s) (h : ¬ StartsInside dest src s.length) :
    ∃ m', Returns (fun k => strcpy k dest src m) (dest, m') ∧ Written m m' dest (s.length + 1) fun i => s.getD i 0 := by
  obtain ⟨m', hloop, hw⟩ := strcpyLoop hs h s.length 0 m (Nat.zero_add _) (.start m dest _)
  simp only [BitVec.add_zero] at hloop
  refine ⟨m', ⟨s.length + 1, fun k hk => ?_⟩, hw⟩
  show strcpy k dest src m = _
  rw [strcpy, loop_mono hk hloop]
  rfl

/-- **`strcpy` returns** exactly if the destination does not start inside the string, at its NUL at the latest; then
it has copied the string and changed nothing else. -/
theorem strcpy_returns_iff (hs : StringAt m src s) (dest : Word) :
    ((∃ r, Returns (fun k => strcpy k dest src m) r) ↔ ¬ StartsInside dest src s.length) ∧
      ∀ r, Returns (fun k => strcpy k dest src m) r → r.1 = dest ∧ StringAt r.2 dest s ∧
        ∀ a, (∀ i < s.length + 1, a ≠ dest + BitVec.ofNat 64 i) → r.2 a = m a := by
  have hnever : ∀ r, Returns (fun k => strcpy k dest src m) r → ¬ StartsInside dest src s.length := by
    rintro r ⟨k, hk⟩ h
    have hsome : strcpy k dest src m = some r := hk k le_rfl
    rw [strcpy_never hs h] at hsome
    cases hsome
  refine ⟨⟨fun ⟨r, hr⟩ => hnever r hr, fun h => ?_⟩, ?_⟩
  · obtain ⟨m', hr, -⟩ := strcpy_written hs h
    exact ⟨_, hr⟩
  · intro r hr
    obtain ⟨m', hr', hw⟩ := strcpy_written hs (hnever r hr)
    obtain rfl := hr.det hr'
    exact ⟨rfl, written_stringAt hw (Nat.lt_succ_self _) hs.noNul, hw.frame⟩

/-- The string "a", copied to a place apart and to its own NUL. -/
theorem strcpy_returns_a : (∃ r, Returns (fun k => strcpy k 0x10 1 fun x => if x = 1 then 0x61 else 0) r) ∧
    ¬ ∃ r, Returns (fun k => strcpy k 2 1 fun x => if x = 1 then 0x61 else 0) r := by
  constructor
  · exact (strcpy_returns_iff stringAt_a 0x10).1.2 (by decide)
  · rw [(strcpy_returns_iff stringAt_a 2).1]
    decide

/-! ## `strncpy` -/

/-- The first loop of `strncpy`, after `i` rounds: it ends at the NUL, or after `n` characters. -/
theorem strncpyLoop (hs : StringAt m src s) (h : ¬ StartsInside dest src (min s.length (n.toNat - 1))) :
    ∀ (d i : ℕ) (m₁ : Mem), i + d = min s.length n.toNat → Written m m₁ dest i (fun i => s.getD i 0) →
    ∃ m₂, loop (strncpyBody dest src n) (d + 1) (BitVec.ofNat 64 i, m₁) =
        some (BitVec.ofNat 64 (min s.length n.toNat), m₂) ∧
      Written m m₂ dest (min s.length n.toNat) fun i => s.getD i 0 := by
  have hlt := hs.length_lt
  have hread : ∀ i m₁, i ≤ s.length → i < n.toNat → Written m m₁ dest i (fun i => s.getD i 0) →
      m₁ (src + BitVec.ofNat 64 i) = s.getD i 0 := by
    intro i m₁ hi hn hw
    rw [hw.frame _ fun j hj => (not_startsInside_ne h hj (by omega) (by omega)).symm]
    exact hs.getD hi
  intro d
  induction d with
  | zero =>
    intro i m₁ hi hw
    obtain rfl : i = min s.length n.toNat := hi
    refine ⟨m₁, loop_done ?_, hw⟩
    apply if_neg
    rintro ⟨hin, hne⟩
    have hn := (ofNat_lt_iff (min_le_right _ _)).1 hin
    -- not all `n` characters, so this is the NUL
    have hlen : min s.length n.toNat = s.length := by omega
    refine hne ((hread _ m₁ (min_le_left _ _) hn hw).trans ?_)
    rw [hlen]
    exact List.getD_eq_default s 0 le_rfl
  | succ d ih =>
    intro i m₁ hi hw
    have hr := hread i m₁ (by omega) (by omega) hw
    obtain ⟨m₂, hloop, hw'⟩ := ih (i + 1) _ (by omega) (hw.snoc (by omega))
    refine ⟨m₂, ?_, hw'⟩
    rw [← hloop, BitVec.ofNat_add]
    apply loop_next
    have hcond : BitVec.ofNat 64 i < n ∧ m₁ (src + BitVec.ofNat 64 i) ≠ 0 :=
      ⟨(ofNat_lt_iff (by omega)).2 (by omega), by rw [hr]; exact hs.getD_ne (by omega)⟩
    rw [strncpyBody, if_pos hcond]
    dsimp only
    rw [hr]
    rfl

/-- The characters, and NULs up to `n` bytes. -/
theorem strncpy_written (hs : StringAt m src s) (h : ¬ StartsInside dest src (min s.length (n.toNat - 1))) :
    ∃ m', Returns (fun k => strncpy k dest src n m) (dest, m') ∧ Written m m' dest n.toNat fun i => s.getD i 0 := by
  obtain ⟨m₂, hloop, hw⟩ := strncpyLoop hs h (min s.length n.toNat) 0 m (Nat.zero_add _) (.start m dest _)
  have hlt : min s.length n.toNat < 2 ^ 64 := lt_of_le_of_lt (min_le_right _ _) n.isLt
  have hpad : Written m (forLoop (fun i m => m.set (dest + BitVec.ofNat 64 i) 0) (min s.length n.toNat)
      (n.toNat - min s.length n.toNat) m₂) dest n.toNat fun i => s.getD i 0 := by
    have hlast := forLoop_ind (f := fun i m => m.set (dest + BitVec.ofNat 64 i) 0)
      (fun i m' => Written m m' dest i fun i => s.getD i 0) (min s.length n.toNat)
      (n.toNat - min s.length n.toNat) m₂ hw fun i m' hi hin hw' => by
        have hzero : s.getD i 0 = 0 := List.getD_eq_default s 0 (by omega)
        have hsnoc := hw'.snoc (by omega)
        rwa [hzero] at hsnoc
    rwa [show min s.length n.toNat + (n.toNat - min s.length n.toNat) = n.toNat by omega] at hlast
  refine ⟨_, ⟨min s.length n.toNat + 1, fun k hk => ?_⟩, hpad⟩
  have hloop' : loop (strncpyBody dest src n) k (0, m) = some (BitVec.ofNat 64 (min s.length n.toNat), m₂) :=
    loop_mono hk hloop
  show strncpy k dest src n m = _
  rw [strncpy, hloop', Option.map_some]
  dsimp only
  rw [BitVec.toNat_ofNat, Nat.mod_eq_of_lt hlt]

/-- **`strncpy`**, when the destination does not start inside what it reads, writes the string and NULs up to `n`
bytes: a string again if `n` is more than its length, and no NUL otherwise. For one byte more than the length it
does what `strcpy` does, and for the empty string what `memset` to 0 does. -/
theorem strncpy_pads (hs : StringAt m src s) (h : ¬ StartsInside dest src (min s.length (n.toNat - 1))) :
    ∃ m', Returns (fun k => strncpy k dest src n m) (dest, m') ∧
      (∀ i < n.toNat, m' (dest + BitVec.ofNat 64 i) = s.getD i 0) ∧
      (∀ a, (∀ i < n.toNat, a ≠ dest + BitVec.ofNat 64 i) → m' a = m a) ∧
      (s.length < n.toNat → StringAt m' dest s) ∧
      (n.toNat ≤ s.length → ∀ i < n.toNat, m' (dest + BitVec.ofNat 64 i) ≠ 0) ∧
      (n.toNat = s.length + 1 → Returns (fun k => strcpy k dest src m) (dest, m')) ∧
      (s = [] → memset dest 0 n m = (dest, m')) := by
  obtain ⟨m', hr, hw⟩ := strncpy_written hs h
  refine ⟨m', hr, hw.bytes, hw.frame, fun hlen => written_stringAt hw hlen hs.noNul, ?_, ?_, ?_⟩
  · intro hlen i hi
    rw [hw.bytes i hi]
    exact hs.getD_ne (by omega)
  · intro hn
    rw [hn, Nat.add_sub_cancel, min_self] at h
    obtain ⟨m'', hr', hw'⟩ := strcpy_written hs h
    rw [hn] at hw
    rwa [hw.unique hw']
  · rintro rfl
    have hset := (Written.start m dest fun _ => 0).forLoop (k := n.toNat) (by have := n.isLt; omega)
    rw [Nat.zero_add] at hset
    exact congrArg (dest, ·) (hset.unique hw)

/-- The string "a" in four bytes. -/
theorem strncpy_pads_a : ∃ m', Returns (fun k => strncpy k 0x10 1 4 fun x => if x = 1 then 0x61 else 0) (0x10, m') ∧
    StringAt m' 0x10 [0x61] := by
  have h : ¬ StartsInside 0x10 1 (min [(0x61 : Byte)].length ((4 : Word).toNat - 1)) := by decide
  obtain ⟨m', hr, -, -, hstring, -⟩ := strncpy_pads stringAt_a h
  exact ⟨m', hr, hstring (by decide)⟩

end Zer0S
