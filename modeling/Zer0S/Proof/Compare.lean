import Zer0S.Proof.Handlers
import Zer0S.Spec.Strings

/-!
# One order of strings

`strcmp`, `strncmp` and `memcmp` of `string.c`, and `string_compare` of the shell, are four loops that stop
in different places. `stringCompare a b` is the comparison of two strings as lists.

* `stringCompare_order`: it is the lexicographic order of the bytes as unsigned numbers.
* `strcmp_returns`, `strncmp_returns`, `memcmp_returns`: each loop computes it, for the strings or their
  first `n` characters.
* `comparisons_agree`: all four together.
-/

namespace Zer0S

open Lib

variable {m : Mem} {p q : Word} {a b s t : List Byte}

/-- The bytes from a pointer on. -/
def bytesFrom (m : Mem) (p : Word) (i : ℕ) : Byte := m (p + BitVec.ofNat 64 i)

/-- There is a string at `p`, with a NUL behind it. -/
def StringAt (m : Mem) (p : Word) (s : List Byte) : Prop := IsLine (bytesFrom m p) s

/-! ## Strings in memory -/

theorem StringAt.lineFrom (h : StringAt m p s) : LineFrom (bytesFrom m p) 0 s := by
  unfold LineFrom
  simpa [StringAt] using h

/-- Comparing a counter with a number. -/
theorem ofNat_lt_iff {k : ℕ} {n : Word} (hk : k ≤ n.toNat) : BitVec.ofNat 64 k < n ↔ k < n.toNat := by
  have := n.isLt
  rw [BitVec.lt_def, BitVec.toNat_ofNat, Nat.mod_eq_of_lt (by omega)]

/-! ## The order -/

/-- The comparison the other way round. -/
theorem stringCompare_swap : ∀ a b : List Byte, stringCompare b a = -stringCompare a b := by
  intro a
  induction a with
  | nil =>
    intro b
    cases b <;> simp [stringCompare]
  | cons c a ih =>
    intro b
    cases b with
    | nil => simp [stringCompare]
    | cons d b =>
      unfold stringCompare
      by_cases hcd : c = d
      · subst hcd
        by_cases hc : c = 0
        · rw [if_neg fun h => h.1 hc, if_neg fun h => h.1 hc]
          omega
        · rw [if_pos ⟨hc, rfl⟩, if_pos ⟨hc, rfl⟩]
          exact ih b
      · rw [if_neg fun h => hcd h.2.symm, if_neg fun h => hcd h.2]
        omega

/-- **The order** is lexicographic, on unsigned bytes. -/
theorem stringCompare_neg : ∀ {a b : List Byte}, (∀ c ∈ a, c ≠ 0) → (∀ c ∈ b, c ≠ 0) →
    (stringCompare a b < 0 ↔ a.map BitVec.toNat < b.map BitVec.toNat) := by
  intro a
  induction a with
  | nil =>
    intro b _ hb
    cases b with
    | nil => simp [stringCompare]
    | cons d b =>
      have hd : d.toNat ≠ 0 := fun h => hb d List.mem_cons_self (BitVec.eq_of_toNat_eq h)
      simp only [stringCompare, List.headD_nil, List.headD_cons, List.map_nil, List.map_cons, List.nil_lt_cons]
      simp
      omega
  | cons c a ih =>
    intro b ha hb
    have hc : c ≠ 0 := ha c List.mem_cons_self
    cases b with
    | nil =>
      simp [stringCompare]
    | cons d b =>
      have ih := ih (fun x hx => ha x (List.mem_cons_of_mem _ hx)) fun x hx => hb x (List.mem_cons_of_mem _ hx)
      unfold stringCompare
      rw [List.map_cons, List.map_cons, List.cons_lt_cons_iff]
      by_cases hcd : c = d
      · rw [if_pos ⟨hc, hcd⟩, ih, hcd]
        simp
      · have hne : c.toNat ≠ d.toNat := fun h => hcd (BitVec.eq_of_toNat_eq h)
        rw [if_neg fun h => hcd h.2]
        constructor
        · intro h
          left
          omega
        · rintro (h | ⟨h, -⟩)
          · omega
          · exact absurd h hne

theorem stringCompare_pos (ha : ∀ c ∈ a, c ≠ 0) (hb : ∀ c ∈ b, c ≠ 0) :
    0 < stringCompare a b ↔ b.map BitVec.toNat < a.map BitVec.toNat := by
  rw [← stringCompare_neg hb ha, stringCompare_swap a b]
  omega

theorem cString_of_ne_nul (ha : ∀ c ∈ a, c ≠ 0) : cString a = a := by
  unfold cString
  exact List.takeWhile_eq_self_iff.2 fun c hc => by simpa using ha c hc

theorem stringCompare_zero (ha : ∀ c ∈ a, c ≠ 0) (hb : ∀ c ∈ b, c ≠ 0) : stringCompare a b = 0 ↔ a = b := by
  rw [stringCompare_eq_zero hb, cString_of_ne_nul ha]

/-- The order is transitive. -/
theorem stringCompare_trans {c : List Byte} (ha : ∀ x ∈ a, x ≠ 0) (hb : ∀ x ∈ b, x ≠ 0) (hc : ∀ x ∈ c, x ≠ 0)
    (hab : stringCompare a b ≤ 0) (hbc : stringCompare b c ≤ 0) : stringCompare a c ≤ 0 := by
  rw [← not_lt, stringCompare_pos ha hb, not_lt] at hab
  rw [← not_lt, stringCompare_pos hb hc, not_lt] at hbc
  rw [← not_lt, stringCompare_pos ha hc, not_lt]
  exact hab.trans hbc

/-! ## The loops -/

/-- What a loop has to do at a character of two strings: to give the difference, or to go on if the
characters are equal and no NUL. -/
theorem stringCompare_heads (a b : List Byte) : stringCompare a b =
    if a.headD 0 ≠ 0 ∧ a.headD 0 = b.headD 0 then stringCompare a.tail b.tail
    else (a.headD 0).toNat - (b.headD 0).toNat := by
  cases a with
  | nil =>
    rw [if_neg fun h => h.1 rfl]
    cases b <;> rfl
  | cons c a =>
    cases b with
    | nil =>
      rw [if_neg fun h => h.1 h.2]
      rfl
    | cons d b => rfl

/-- The line behind a character that is not its NUL. -/
theorem LineFrom.next {input : ℕ → Byte} {i : ℕ} (h : LineFrom input i s) (h0 : s.headD 0 ≠ 0) :
    LineFrom input (i + 1) s.tail := by
  cases s with
  | nil => exact absurd rfl h0
  | cons c s => exact h.tail

theorem length_tail (h0 : s.headD 0 ≠ 0) : s.tail.length + 1 = s.length := by
  cases s with
  | nil => exact absurd rfl h0
  | cons c s => rfl

/-- A line whose first character is its NUL. -/
theorem LineFrom.eq_nil {input : ℕ → Byte} {i : ℕ} (h : LineFrom input i s) (h0 : s.headD 0 = 0) : s = [] := by
  cases s with
  | nil => rfl
  | cons c s => exact absurd h0 (h.noNul c List.mem_cons_self)

theorem strcmpLoop : ∀ (n : ℕ) {u v : List Byte} {i j : ℕ}, u.length < n → LineFrom (bytesFrom m p) i u →
    LineFrom (bytesFrom m q) j v →
    loop (strcmpBody m) n (p + BitVec.ofNat 64 i, q + BitVec.ofNat 64 j) = some (stringCompare u v) := by
  intro n
  induction n with
  | zero => intro u v i j hn; omega
  | succ n ih =>
    intro u v i j hn hu hv
    have hx : m (p + BitVec.ofNat 64 i) = u.headD 0 := hu.head
    have hy : m (q + BitVec.ofNat 64 j) = v.headD 0 := hv.head
    rw [stringCompare_heads]
    by_cases hgo : u.headD 0 ≠ 0 ∧ u.headD 0 = v.headD 0
    · have hlen := length_tail hgo.1
      have hbody : strcmpBody m (p + BitVec.ofNat 64 i, q + BitVec.ofNat 64 j) =
          .inl (p + BitVec.ofNat 64 (i + 1), q + BitVec.ofNat 64 (j + 1)) := by
        rw [← offset_next, ← offset_next]
        unfold strcmpBody
        dsimp only
        rw [hx, hy, if_pos hgo]
      rw [loop_next hbody, if_pos hgo]
      exact ih (by omega) (hu.next hgo.1) (hv.next (hgo.2 ▸ hgo.1))
    · have hbody : strcmpBody m (p + BitVec.ofNat 64 i, q + BitVec.ofNat 64 j) =
          .inr ((u.headD 0).toNat - (v.headD 0).toNat) := by
        unfold strcmpBody
        dsimp only
        rw [hx, hy, if_neg hgo]
      rw [loop_done hbody, if_neg hgo]

/-- **`strcmp`** compares the strings. -/
theorem strcmp_returns (ha : StringAt m p a) (hb : StringAt m q b) :
    Returns (fun n => strcmp n p q m) (stringCompare a b) := by
  have hloop := strcmpLoop (a.length + 1) (Nat.lt_succ_self _) ha.lineFrom hb.lineFrom
  rw [BitVec.add_zero, BitVec.add_zero] at hloop
  exact loop_returns hloop

theorem take_heads (r : ℕ) (s : List Byte) :
    (s.take (r + 1)).headD 0 = s.headD 0 ∧ (s.take (r + 1)).tail = s.tail.take r := by
  cases s with
  | nil => exact ⟨rfl, by simp⟩
  | cons c s => exact ⟨rfl, rfl⟩

theorem strncmpLoop {n : Word} : ∀ (r : ℕ) {u v : List Byte} {k : ℕ}, k + r = n.toNat →
    LineFrom (bytesFrom m p) k u → LineFrom (bytesFrom m q) k v →
    loop (strncmpBody p q n m) (r + 1) (BitVec.ofNat 64 k) = some (stringCompare (u.take r) (v.take r)) := by
  intro r
  induction r with
  | zero =>
    intro u v k hk _ _
    have hend : ¬ BitVec.ofNat 64 k < n := by
      rw [ofNat_lt_iff (by omega)]
      omega
    have hbody : strncmpBody p q n m (BitVec.ofNat 64 k) = .inr 0 := if_neg hend
    rw [loop_done hbody, List.take_zero, List.take_zero]
    rfl
  | succ r ih =>
    intro u v k hk hu hv
    have hlt : BitVec.ofNat 64 k < n := (ofNat_lt_iff (by omega)).2 (by omega)
    have hx : m (p + BitVec.ofNat 64 k) = u.headD 0 := hu.head
    have hy : m (q + BitVec.ofNat 64 k) = v.headD 0 := hv.head
    obtain ⟨hu1, hu2⟩ := take_heads r u
    obtain ⟨hv1, hv2⟩ := take_heads r v
    rw [stringCompare_heads, hu1, hu2, hv1, hv2]
    by_cases hgo : u.headD 0 ≠ 0 ∧ u.headD 0 = v.headD 0
    · have hbody : strncmpBody p q n m (BitVec.ofNat 64 k) = .inl (BitVec.ofNat 64 (k + 1)) := by
        have hnot : ¬ (u.headD 0 ≠ v.headD 0 ∨ u.headD 0 = 0) := by
          rintro (h | h)
          · exact h hgo.2
          · exact hgo.1 h
        unfold strncmpBody
        rw [if_pos hlt, hx, hy, if_neg hnot, BitVec.ofNat_add]
        rfl
      rw [loop_next hbody, if_pos hgo]
      exact ih (by omega) (hu.next hgo.1) (hv.next (hgo.2 ▸ hgo.1))
    · have hbody : strncmpBody p q n m (BitVec.ofNat 64 k) = .inr ((u.headD 0).toNat - (v.headD 0).toNat) := by
        have hstop : u.headD 0 ≠ v.headD 0 ∨ u.headD 0 = 0 := by
          by_contra hnot
          rw [not_or, not_not] at hnot
          exact hgo ⟨hnot.2, hnot.1⟩
        unfold strncmpBody
        rw [if_pos hlt, hx, hy, if_pos hstop]
      rw [loop_done hbody, if_neg hgo]

/-- **`strncmp`** compares the first `n` characters. -/
theorem strncmp_returns (ha : StringAt m p a) (hb : StringAt m q b) (n : Word) :
    Returns (fun r => strncmp r p q n m) (stringCompare (a.take n.toNat) (b.take n.toNat)) :=
  loop_returns (strncmpLoop n.toNat (Nat.zero_add _) ha.lineFrom hb.lineFrom)

/-- One round of `memcmp` inside the strings. -/
theorem memcmpBody_eq {n : Word} {k : ℕ} {u v : List Byte} (hk : k < n.toNat) (hu : LineFrom (bytesFrom m p) k u)
    (hv : LineFrom (bytesFrom m q) k v) : memcmpBody p q n m (BitVec.ofNat 64 k) =
      if u.headD 0 ≠ v.headD 0 then .inr ((u.headD 0).toNat - (v.headD 0).toNat)
      else .inl (BitVec.ofNat 64 (k + 1)) := by
  have hx : m (p + BitVec.ofNat 64 k) = u.headD 0 := hu.head
  have hy : m (q + BitVec.ofNat 64 k) = v.headD 0 := hv.head
  unfold memcmpBody
  rw [if_pos ((ofNat_lt_iff hk.le).2 hk), hx, hy, BitVec.ofNat_add]
  rfl

theorem memcmpLoop {n : Word} : ∀ (r : ℕ) {u v : List Byte} {k : ℕ}, min u.length v.length = r →
    k + r + 1 = n.toNat → LineFrom (bytesFrom m p) k u → LineFrom (bytesFrom m q) k v →
    loop (memcmpBody p q n m) (r + 2) (BitVec.ofNat 64 k) = some (stringCompare u v) := by
  intro r
  induction r with
  | zero =>
    intro u v k hr hk hu hv
    have hlt : k < n.toNat := by omega
    have hround := memcmpBody_eq hlt hu hv
    rw [stringCompare_heads]
    by_cases hxy : u.headD 0 = v.headD 0
    · -- one string is empty, so both are: the NULs are equal, and nothing is left to compare
      have hnul : u.headD 0 = 0 := by
        by_contra h0
        have h0' : v.headD 0 ≠ 0 := hxy ▸ h0
        have hlu := length_tail h0
        have hlv := length_tail h0'
        omega
      have hend : memcmpBody p q n m (BitVec.ofNat 64 (k + 1)) = .inr 0 := by
        have hge : ¬ BitVec.ofNat 64 (k + 1) < n := by
          rw [ofNat_lt_iff (by omega)]
          omega
        exact if_neg hge
      rw [if_neg (not_not.2 hxy)] at hround
      rw [loop_next hround, loop_done hend, if_neg fun h => h.1 hnul, hxy, sub_self]
    · rw [if_pos hxy] at hround
      rw [loop_done hround, if_neg fun h => hxy h.2]
  | succ r ih =>
    intro u v k hr hk hu hv
    have hlt : k < n.toNat := by omega
    have hround := memcmpBody_eq hlt hu hv
    rw [stringCompare_heads]
    by_cases hxy : u.headD 0 = v.headD 0
    · have h0 : u.headD 0 ≠ 0 := by
        intro h0
        rw [hu.eq_nil h0, List.length_nil] at hr
        omega
      have h0' : v.headD 0 ≠ 0 := hxy ▸ h0
      have hlu := length_tail h0
      have hlv := length_tail h0'
      rw [if_neg (not_not.2 hxy)] at hround
      rw [loop_next hround, if_pos ⟨h0, hxy⟩]
      exact ih (by omega) (by omega) (hu.next h0) (hv.next h0')
    · rw [if_pos hxy] at hround
      rw [loop_done hround, if_neg fun h => hxy h.2]

/-- **`memcmp`** over the shorter string and its NUL compares the strings. -/
theorem memcmp_returns (ha : StringAt m p a) (hb : StringAt m q b) {n : Word}
    (hn : n.toNat = min a.length b.length + 1) : Returns (fun r => memcmp r p q n m) (stringCompare a b) := by
  have hk : 0 + min a.length b.length + 1 = n.toNat := by omega
  exact loop_returns (memcmpLoop _ rfl hk ha.lineFrom hb.lineFrom)

/-- **`string_compare`** of the shell does not look behind the NULs. -/
theorem stringCompare_nul (ha : ∀ c ∈ a, c ≠ 0) (hb : ∀ c ∈ b, c ≠ 0) (s t : List Byte) :
    stringCompare (a ++ 0 :: s) (b ++ 0 :: t) = stringCompare a b := by
  have hcut : ∀ {a : List Byte} (s : List Byte), (∀ c ∈ a, c ≠ 0) → cString (a ++ 0 :: s) = a := by
    intro a s ha
    unfold cString
    rw [List.takeWhile_append_of_pos fun c hc => by simpa using ha c hc]
    exact List.append_nil a
  rw [← stringCompare_cString, hcut s ha, stringCompare_swap, ← stringCompare_cString, hcut t hb,
    stringCompare_swap, neg_neg]

/-- **One order.** The value of `strcmp` has the sign of the lexicographic order of the unsigned bytes; it
is antisymmetric and transitive. `strncmp` has the sign of `strcmp` on the strings cut to `n` characters,
`memcmp` over the shorter string and its NUL that of `strcmp`, and `string_compare` its value. -/
theorem comparisons_agree (ha : StringAt m p a) (hb : StringAt m q b) :
    ∃ r, Returns (fun k => strcmp k p q m) r ∧
      (r < 0 ↔ a.map BitVec.toNat < b.map BitVec.toNat) ∧ (r = 0 ↔ a = b) ∧
      (0 < r ↔ b.map BitVec.toNat < a.map BitVec.toNat) ∧
      (∃ r', Returns (fun k => strcmp k q p m) r' ∧ r'.sign = -r.sign) ∧
      (∀ z c, StringAt m z c → ∃ r₁ r₂, Returns (fun k => strcmp k q z m) r₁ ∧
        Returns (fun k => strcmp k p z m) r₂ ∧ (r ≤ 0 → r₁ ≤ 0 → r₂ ≤ 0)) ∧
      (∀ n : Word, ∃ r', Returns (fun k => strncmp k p q n m) r' ∧
        ∀ m' p' q', StringAt m' p' (a.take n.toNat) → StringAt m' q' (b.take n.toNat) →
          ∃ r'', Returns (fun k => strcmp k p' q' m') r'' ∧ r'.sign = r''.sign) ∧
      (∀ n : Word, n.toNat = min a.length b.length + 1 →
        ∃ r', Returns (fun k => memcmp k p q n m) r' ∧ r'.sign = r.sign) ∧
      ∀ s t, stringCompare (a ++ 0 :: s) (b ++ 0 :: t) = r := by
  refine ⟨stringCompare a b, strcmp_returns ha hb, stringCompare_neg ha.noNul hb.noNul,
    stringCompare_zero ha.noNul hb.noNul, stringCompare_pos ha.noNul hb.noNul, ?_, ?_, ?_, ?_,
    stringCompare_nul ha.noNul hb.noNul⟩
  · refine ⟨stringCompare b a, strcmp_returns hb ha, ?_⟩
    rw [stringCompare_swap, Int.sign_neg]
  · intro z c hc
    refine ⟨stringCompare b c, stringCompare a c, strcmp_returns hb hc, strcmp_returns ha hc, ?_⟩
    exact stringCompare_trans ha.noNul hb.noNul hc.noNul
  · intro n
    refine ⟨_, strncmp_returns ha hb n, ?_⟩
    intro m' p' q' ha' hb'
    exact ⟨_, strcmp_returns ha' hb', rfl⟩
  · intro n hn
    exact ⟨_, memcmp_returns ha hb hn, rfl⟩

/-- A byte above 127 comes behind the letters. -/
theorem comparisons_agree_high : ∃ r,
    Returns (fun k => strcmp k 1 3 fun x => if x = 1 then 0x80 else if x = 3 then 0x61 else 0) r ∧ 0 < r := by
  have ha : StringAt (fun x => if x = 1 then 0x80 else if x = 3 then 0x61 else 0) 1 [0x80] := by
    refine ⟨?_, ?_, ?_⟩ <;> decide
  have hb : StringAt (fun x => if x = 1 then 0x80 else if x = 3 then 0x61 else 0) 3 [0x61] := by
    refine ⟨?_, ?_, ?_⟩ <;> decide
  obtain ⟨r, hr, -, -, hpos, -⟩ := comparisons_agree ha hb
  exact ⟨r, hr, hpos.2 (by decide)⟩

end Zer0S
