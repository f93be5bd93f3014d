import Zer0S.Proof.Frames

/-!
# `alloc_frame` as seen by its caller

The address of a frame is the number of its page times the page size. For page 0 it is NULL, so a
caller that gets page 0 sees a failure, and `free_frame` ignores it. `memory_init` leaves page 0
free, and the first call of `alloc_frame` takes it.

* `FramesInv.same`: the bits determine the bytes of the bitmap and both counters.
* `frameUndo_iff`: NULL means failure, and a free undoes an allocation, exactly while page 0 is in use.
-/

namespace Zer0S

open Lib

variable {s s' : Memory} {g : ℕ → Bool}

/-- The same memory, with the bitmap in it, and the same counters; text may have been printed. -/
structure SameFrames (s s' : Memory) : Prop where
  bitmap : s'.frameBitmap = s.frameBitmap
  total : s'.totalPages = s.totalPages
  used : s'.usedPages = s.usedPages
  free : s'.freePages = s.freePages
  mem : s'.mem = s.mem

/-- No bit below `total_pages` is clear. -/
def AllUsed (s : Memory) : Prop := ∀ i < s.totalPages.toNat, frameBit s i = true

/-- `alloc_frame` returns NULL when there is no free frame, and only then, and it changes nothing
then; when there is a free frame, `free_frame` undoes what `alloc_frame` did. -/
structure FrameUndo (s : Memory) : Prop where
  null : (allocFrame s).1 = 0 ↔ AllUsed s
  unchanged : AllUsed s → SameFrames s (allocFrame s).2
  undo : ¬ AllUsed s → SameFrames s (freeFrame (allocFrame s).1 (allocFrame s).2)

theorem FramesInv.allUsed_iff (hi : FramesInv s g) : AllUsed s ↔ ∀ i < pageCount, g i = true := by
  rw [AllUsed, hi.total]
  exact forall₂_congr fun i hlt => by rw [hi.bit hlt]

/-- **The bits determine the rest**: the bytes of the bitmap, as there are 8 bits to each of its
2048 bytes, and the counters. -/
theorem FramesInv.same (hi : FramesInv s g) (hi' : FramesInv s' g) (hk : HeapKept s s') : SameFrames s s' where
  bitmap := hi'.bitmap.trans hi.bitmap.symm
  total := BitVec.eq_of_toNat_eq (hi'.total.trans hi.total.symm)
  used := BitVec.eq_of_toNat_eq (hi'.used.trans hi.used.symm)
  free := by
    have hu := hi'.used.trans hi.used.symm
    have hc := hi.counts
    have hc' := hi'.counts
    exact BitVec.eq_of_toNat_eq (by omega)
  mem := by
    funext x
    have hb : bitmapAddr.toNat = 12582912 := rfl
    by_cases hx : x.toNat < bitmapAddr.toNat ∨ bitmapAddr.toNat + 2048 ≤ x.toNat
    · exact hk.outside x hx
    · -- a byte of the bitmap, bit by bit
      obtain ⟨q, hq, rfl⟩ : ∃ q < 2048, x = bitmapAddr + BitVec.ofNat 64 q :=
        ⟨x.toNat - bitmapAddr.toNat, by omega, by bv_omega⟩
      apply BitVec.eq_of_getLsbD_eq
      intro j hj
      have hlt : 8 * q + j < pageCount := by
        unfold pageCount
        omega
      have h := (hi'.packed _ hlt).trans (hi.packed _ hlt).symm
      rwa [show (8 * q + j) / 8 = q by omega, show (8 * q + j) % 8 = j by omega] at h

/-- The address of a frame is NULL for page 0 only. -/
theorem frameAddr_eq_zero {j : ℕ} (hj : j < pageCount) : BitVec.ofNat 64 (j * 4096) = 0 ↔ j = 0 := by
  unfold pageCount at hj
  constructor
  · intro h
    have h := congrArg BitVec.toNat h
    rw [BitVec.toNat_ofNat, Nat.mod_eq_of_lt (by omega)] at h
    simp at h
    exact h
  · rintro rfl
    rfl

/-- **Page 0 decides**, in any state that keeps the invariant. -/
theorem FramesInv.undo_iff (hi : FramesInv s g) : FrameUndo s ↔ g 0 = true := by
  obtain ⟨hk, ⟨hall, -, h0, hsame⟩ | ⟨j, hj, hg, hlow, -, haddr, htook⟩⟩ := allocFrame_cases hi
  · -- no frame is free
    have hused := hi.allUsed_iff.2 hall
    exact iff_of_true ⟨iff_of_true h0 hused, fun _ => hi.same hsame hk, fun h => absurd hused h⟩
      (hall 0 (by decide))
  · have hfree : ¬ AllUsed s := fun h => by
      rw [hi.allUsed_iff.1 h j hj] at hg
      cases hg
    constructor
    · -- page 0 is not the one taken, as its address is NULL
      intro hu
      refine hlow 0 (Nat.pos_of_ne_zero fun h => hfree (hu.null.1 ?_))
      rw [haddr, h]
      rfl
    · -- page 0 is in use, so the address is not NULL, and the bit is cleared again
      intro hg0
      have hj0 : j ≠ 0 := by
        rintro rfl
        rw [hg0] at hg
        cases hg
      have haddr0 := (frameAddr_eq_zero hj).not.2 hj0
      refine ⟨iff_of_false (haddr ▸ haddr0) hfree, fun h => absurd h hfree, ?_⟩
      intro _
      have hdiv : (allocFrame s).1.toNat / 4096 = j := by
        unfold pageCount at hj
        rw [haddr, BitVec.toNat_ofNat, Nat.mod_eq_of_lt (by omega), Nat.mul_div_cancel _ (by omega)]
      obtain ⟨hk', ⟨-, hback⟩ | ⟨hnot, -⟩⟩ := freeFrame_cases htook (allocFrame s).1
      · rw [hdiv, Function.update_idem, ← hg, Function.update_eq_self] at hback
        exact hi.same hback (hk.trans hk')
      · refine absurd ⟨haddr ▸ haddr0, hdiv ▸ hj, ?_⟩ hnot
        rw [hdiv, Function.update_self]

/-- **NULL means failure and a free undoes an allocation**, after `memory_init` and any calls with
any addresses, exactly when page 0 is in use. -/
theorem frameUndo_iff (m : Mem) (ops : List FrameOp) :
    FrameUndo (ops.foldl frameExec (memoryInit (Memory.boot m))) ↔
      frameBit (ops.foldl frameExec (memoryInit (Memory.boot m))) 0 = true := by
  obtain ⟨g, hi⟩ := framesInv_run (framesInv_memoryInit (s := Memory.boot m) rfl rfl).1 ops
  rw [hi.bit (by decide), hi.undo_iff]

/-- Right after `memory_init`: frames are free, `alloc_frame` returns NULL, and the page that it
marked stays marked when NULL is freed. -/
theorem alloc_page_zero : ∃ s, s = memoryInit (Memory.boot fun _ => 0) ∧ ¬ AllUsed s ∧ (allocFrame s).1 = 0 ∧
    ¬ SameFrames s (freeFrame (allocFrame s).1 (allocFrame s).2) := by
  have hi := (framesInv_memoryInit (s := Memory.boot fun _ => 0) rfl rfl).1
  refine ⟨_, rfl, ?_⟩
  generalize memoryInit (Memory.boot fun _ => 0) = s at hi
  have hfree : ¬ AllUsed s := fun h => absurd (hi.allUsed_iff.1 h 0 (by decide)) (by decide)
  obtain ⟨-, ⟨hall, -⟩ | ⟨j, hj, -, hlow, -, haddr, htook⟩⟩ := allocFrame_cases hi
  · exact absurd (hi.allUsed_iff.2 hall) hfree
  obtain rfl : j = 0 := by
    by_contra hj0
    exact absurd (hlow 0 (Nat.pos_of_ne_zero hj0)) (by decide)
  have haddr : (allocFrame s).1 = 0 := haddr
  refine ⟨hfree, haddr, ?_⟩
  intro hs
  have hnull : freeFrame (allocFrame s).1 (allocFrame s).2 = (allocFrame s).2 := by
    rw [freeFrame, if_pos (Or.inr haddr)]
  have hbit : frameBit (allocFrame s).2 0 = frameBit s 0 := by
    rw [hnull] at hs
    rw [frameBit, frameBit, hs.bitmap, hs.mem]
  rw [htook.bit hj, hi.bit hj, Function.update_self] at hbit
  exact absurd hbit (by decide)

end Zer0S
