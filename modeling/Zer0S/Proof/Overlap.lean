import Zer0S.Spec.Strings

/-!
# `memmove` on ranges that overlap

`memmove` copies up when the destination is below the source, and down when it is not. In both directions a
byte that is still to be read is ahead of the bytes that were written.

* `memcpy_copied`: `memcpy` is right on disjoint ranges.
* `memmove_copied`: `memmove` is right on all ranges that do not wrap around.
* `memmove_overlap`: both byte by byte.
-/

namespace Zer0S

open Lib

variable {dest src n : Word}

/-- The ranges have no byte in common. -/
def DisjointRanges (dest src n : Word) : Prop :=
  ∀ i < n.toNat, ∀ j < n.toNat, dest + BitVec.ofNat 64 i ≠ src + BitVec.ofNat 64 j

/-- The address of a byte in a range that does not wrap around. -/
theorem toNat_offset {a : Word} {i : ℕ} (ha : a.toNat + n.toNat ≤ 2 ^ 64) (hi : i < n.toNat) :
    (a + BitVec.ofNat 64 i).toNat = a.toNat + i := by
  have := n.isLt
  rw [BitVec.toNat_add, BitVec.toNat_ofNat, Nat.mod_eq_of_lt (show i < 2 ^ 64 by omega),
    Nat.mod_eq_of_lt (by omega)]

theorem memcpy_copied (m : Mem) (h : DisjointRanges dest src n) : Copied m (memcpy dest src n m).2 dest src n.toNat := by
  unfold memcpy
  apply copyUp_copied _ _ _ _ n.isLt
  intro i j hij hj
  exact h i (by omega) j hj

/-- **`memmove`** copies, however the ranges overlap. -/
theorem memmove_copied (m : Mem) (hd : dest.toNat + n.toNat ≤ 2 ^ 64) (hs : src.toNat + n.toNat ≤ 2 ^ 64) :
    Copied m (memmove dest src n m).2 dest src n.toNat := by
  unfold memmove
  by_cases hlt : dest < src
  · -- what is written is below what is still to be read
    have hlt' : dest.toNat < src.toNat := hlt
    rw [if_pos hlt]
    apply copyUp_copied _ _ _ _ n.isLt
    intro i j hij hj heq
    have := congrArg BitVec.toNat heq
    rw [toNat_offset hd (by omega), toNat_offset hs hj] at this
    omega
  · -- what is written is above what is still to be read
    have hle : src.toNat ≤ dest.toNat := not_lt.1 hlt
    have hdown : Copied m (copyDown n.toNat (dest + BitVec.ofNat 64 n.toNat) (src + BitVec.ofNat 64 n.toNat) m)
        dest src n.toNat := by
      apply copyDown_copied _ _ n.isLt
      intro i j hij hj heq
      have := congrArg BitVec.toNat heq
      rw [toNat_offset hd hj, toNat_offset hs (by omega)] at this
      omega
    rw [BitVec.ofNat_toNat, BitVec.setWidth_eq] at hdown
    rw [if_neg hlt]
    exact hdown

theorem memmove_fst (dest src n : Word) (m : Mem) : (memmove dest src n m).1 = dest := by
  unfold memmove
  split_ifs <;> rfl

/-- **Overlap.** For ranges that do not wrap around, `memmove` puts at each byte of the destination what
was in the source before, changes no other byte, and does the same as `memcpy` if the ranges are
disjoint. -/
theorem memmove_overlap (m : Mem) (hd : dest.toNat + n.toNat ≤ 2 ^ 64) (hs : src.toNat + n.toNat ≤ 2 ^ 64) :
    (∀ i < n.toNat, (memmove dest src n m).2 (dest + BitVec.ofNat 64 i) = m (src + BitVec.ofNat 64 i)) ∧
      (∀ a, (∀ i < n.toNat, a ≠ dest + BitVec.ofNat 64 i) → (memmove dest src n m).2 a = m a) ∧
      (DisjointRanges dest src n → memmove dest src n m = memcpy dest src n m) := by
  have hmove := memmove_copied m hd hs
  refine ⟨hmove.bytes, hmove.frame, ?_⟩
  intro hdis
  apply Prod.ext
  · rw [memmove_fst]
    rfl
  · exact hmove.unique (memcpy_copied m hdis)

/-- Three bytes up by one, at the end of the address space. -/
theorem memmove_overlap_end :
    (memmove 0xFFFFFFFFFFFFFFFD 0xFFFFFFFFFFFFFFFC 3 fun a => a.setWidth 8).2 0xFFFFFFFFFFFFFFFF = 0xFE := by
  have hd : (0xFFFFFFFFFFFFFFFD : Word).toNat + (3 : Word).toNat ≤ 2 ^ 64 := by decide
  have hs : (0xFFFFFFFFFFFFFFFC : Word).toNat + (3 : Word).toNat ≤ 2 ^ 64 := by decide
  exact (memmove_overlap (fun a => a.setWidth 8) hd hs).1 2 (by decide)

end Zer0S
