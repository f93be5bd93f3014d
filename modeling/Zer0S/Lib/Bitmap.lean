import Mathlib.Tactic
import Zer0S.Lib.Mem

/-!
# Byte-packed bitmaps

Bit `i` of a bitmap is bit `i % 8` of byte `i / 8`. The three byte operations are
the ones C code uses: the byte is promoted to a 32-bit `int`, combined with
`1 << k`, and cut back to 8 bits.

`Packed f g` says that the bytes `f` hold the bits `g`; `Packed.set` and
`Packed.clear` are the effect of the byte operations on it.
-/

namespace Lib

/-- `b | (1 << k)` -/
def byteSet (b : Byte) (k : ℕ) : Byte := (b.setWidth 32 ||| 1#32 <<< k).setWidth 8

/-- `b & ~(1 << k)` -/
def byteClear (b : Byte) (k : ℕ) : Byte := (b.setWidth 32 &&& ~~~(1#32 <<< k)).setWidth 8

/-- `(b & (1 << k)) != 0` -/
def byteTest (b : Byte) (k : ℕ) : Bool := b.setWidth 32 &&& 1#32 <<< k != 0

variable {b : Byte} {j k : ℕ}

/-- The only bit of `1 << k` is bit `k`. -/
theorem getLsbD_one_shift (hj : j < 32) : (1#32 <<< k).getLsbD j = decide (j = k) := by
  rcases lt_trichotomy j k with h | h | h
  · simp [h, h.ne]
  · subst h; simp [hj]
  · simp [h.ne', hj, show ¬ j < k by omega, show j - k ≠ 0 by omega]

theorem getLsbD_byteSet (hj : j < 8) : (byteSet b k).getLsbD j = (b.getLsbD j || decide (j = k)) := by
  rw [byteSet, BitVec.getLsbD_setWidth, BitVec.getLsbD_or, getLsbD_one_shift (by omega)]
  simp [hj, show j < 32 by omega]

theorem getLsbD_byteClear (hj : j < 8) :
    (byteClear b k).getLsbD j = (b.getLsbD j && !decide (j = k)) := by
  rw [byteClear, BitVec.getLsbD_setWidth, BitVec.getLsbD_and, BitVec.getLsbD_not,
    getLsbD_one_shift (by omega)]
  simp [hj, show j < 32 by omega]

theorem byteTest_eq (hk : k < 8) : byteTest b k = b.getLsbD k := by
  have hbit : (b.setWidth 32 &&& 1#32 <<< k).getLsbD k = b.getLsbD k := by
    rw [BitVec.getLsbD_and, getLsbD_one_shift (by omega)]
    simp [show k < 32 by omega]
  unfold byteTest
  cases hb : b.getLsbD k with
  | true =>
    rw [bne_iff_ne]
    intro h0
    rw [h0, hb] at hbit
    simp at hbit
  | false =>
    rw [bne_eq_false_iff_eq]
    apply BitVec.eq_of_getLsbD_eq
    intro i hi
    by_cases hik : i = k
    · subst hik; rw [hbit, hb]; simp
    · rw [BitVec.getLsbD_and, getLsbD_one_shift hi, decide_eq_false hik]; simp

/-- The bytes `f` hold the bits `g`, for the first `n` bits. -/
def Packed (f : ℕ → Byte) (n : ℕ) (g : ℕ → Bool) : Prop := ∀ i < n, (f (i / 8)).getLsbD (i % 8) = g i

variable {f f' : ℕ → Byte} {n i : ℕ} {g : ℕ → Bool}

/-- **Setting a bit** of a packed bitmap. -/
theorem Packed.set (h : Packed f n g) (h0 : f' (i / 8) = byteSet (f (i / 8)) (i % 8))
    (h1 : ∀ j < n, j / 8 ≠ i / 8 → f' (j / 8) = f (j / 8)) :
    Packed f' n (Function.update g i true) := by
  intro j hj
  by_cases hq : j / 8 = i / 8
  · rw [hq, h0, getLsbD_byteSet (Nat.mod_lt _ (by omega)), ← hq, h j hj]
    by_cases hji : j = i
    · subst hji; simp
    · rw [Function.update_of_ne hji, decide_eq_false (by omega), Bool.or_false]
  · rw [h1 j hj hq, h j hj, Function.update_of_ne (by rintro rfl; exact hq rfl)]

/-- **Clearing a bit** of a packed bitmap. -/
theorem Packed.clear (h : Packed f n g) (h0 : f' (i / 8) = byteClear (f (i / 8)) (i % 8))
    (h1 : ∀ j < n, j / 8 ≠ i / 8 → f' (j / 8) = f (j / 8)) :
    Packed f' n (Function.update g i false) := by
  intro j hj
  by_cases hq : j / 8 = i / 8
  · rw [hq, h0, getLsbD_byteClear (Nat.mod_lt _ (by omega)), ← hq, h j hj]
    by_cases hji : j = i
    · subst hji; simp
    · rw [Function.update_of_ne hji, decide_eq_false (by omega), Bool.not_false, Bool.and_true]
  · rw [h1 j hj hq, h j hj, Function.update_of_ne (by rintro rfl; exact hq rfl)]

/-! ## Counting -/

/-- How many of the first `n` bits are set. -/
def popcount (n : ℕ) (g : ℕ → Bool) : ℕ := ((Finset.range n).filter fun i => g i = true).card

theorem popcount_le (n : ℕ) (g : ℕ → Bool) : popcount n g ≤ n :=
  (Finset.card_filter_le _ _).trans_eq (Finset.card_range n)

theorem popcount_congr {g' : ℕ → Bool} (h : ∀ i < n, g i = g' i) : popcount n g = popcount n g' := by
  unfold popcount
  refine congrArg _ (Finset.filter_congr ?_)
  intro i hi
  rw [h i (Finset.mem_range.1 hi)]

theorem popcount_set (hi : i < n) (hg : g i = false) :
    popcount n (Function.update g i true) = popcount n g + 1 := by
  unfold popcount
  rw [← Finset.card_insert_of_notMem (a := i) (by simp [hg])]
  congr 1
  ext j
  by_cases hj : j = i
  · subst hj; simp [hi]
  · simp [hj]

theorem popcount_clear (hi : i < n) (hg : g i = true) :
    popcount n (Function.update g i false) + 1 = popcount n g := by
  have h := popcount_set (g := Function.update g i false) hi (by simp)
  rw [← h, Function.update_idem, ← hg, Function.update_eq_self]

/-- Bits set exactly on an interval. -/
theorem popcount_interval (lo hi : ℕ) (hn : hi ≤ n) (hg : ∀ i < n, g i = true ↔ lo ≤ i ∧ i < hi) :
    popcount n g = hi - lo := by
  unfold popcount
  rw [← Nat.card_Ico lo hi]
  congr 1
  ext i
  simp only [Finset.mem_filter, Finset.mem_range, Finset.mem_Ico]
  constructor
  · rintro ⟨h1, h2⟩; exact (hg i h1).1 h2
  · rintro ⟨h1, h2⟩; exact ⟨by omega, (hg i (by omega)).2 ⟨h1, h2⟩⟩

end Lib
