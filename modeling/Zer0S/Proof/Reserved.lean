import Zer0S.Proof.Frames

/-!
# The pages that `memory_init` marks

`memory_init` marks the pages of the kernel and of the bitmap, so that `alloc_frame` does not take
them. `free_frame` tells a page of the kernel from a frame that was handed out as little as the
bitmap does, and clears its bit.

* `reserved_iff`: the pages that are marked.
* `reserved_kept_iff`: they stay marked, and `alloc_frame` returns none of them, exactly when none of
  them is freed.
-/

namespace Zer0S

open Lib

variable {s : Memory} {g : ℕ → Bool} {m : Mem} {i : ℕ}

/-- The state after `memory_init` and some calls. -/
def framesAfter (m : Mem) (ops : List FrameOp) : Memory := ops.foldl frameExec (memoryInit (Memory.boot m))

/-- A page that `memory_init` marks. -/
def Reserved (m : Mem) (i : ℕ) : Prop := i < pageCount ∧ frameBit (framesAfter m []) i = true

/-- Throughout the calls, the reserved pages stay marked, and `alloc_frame` returns none of them. -/
structure ReservedKept (m : Mem) (ops : List FrameOp) : Prop where
  marked : ∀ pre, pre <+: ops → ∀ i, Reserved m i → frameBit (framesAfter m pre) i = true
  notTaken : ∀ pre, pre <+: ops → ¬ Reserved m ((allocFrame (framesAfter m pre)).1.toNat / 4096)

/-- The call frees an address in a reserved page. -/
def FreesReserved (m : Mem) : FrameOp → Prop
  | .alloc => False
  | .free addr => Reserved m (addr.toNat / 4096)

/-- **The reserved pages** are those from 1 MiB through the bitmap. -/
theorem reserved_iff : Reserved m i ↔ 256 ≤ i ∧ i < 3073 := by
  have hi : FramesInv (framesAfter m []) kernelPage := (framesInv_memoryInit (s := Memory.boot m) rfl rfl).1
  constructor
  · rintro ⟨hlt, hbit⟩
    rw [hi.bit hlt] at hbit
    exact of_decide_eq_true hbit
  · intro h
    have hlt : i < pageCount := by unfold pageCount; omega
    exact ⟨hlt, (hi.bit hlt).trans (decide_eq_true h)⟩

/-- The bits `g` of the bitmap, with the reserved pages among those that are set. -/
structure ReservedInv (m : Mem) (s : Memory) (g : ℕ → Bool) : Prop where
  frames : FramesInv s g
  marked : ∀ i, Reserved m i → g i = true

theorem ReservedInv.bit (h : ReservedInv m s g) (hr : Reserved m i) : frameBit s i = true :=
  (h.frames.bit hr.1).trans (h.marked i hr)

/-- `alloc_frame` takes a page that is clear, or returns NULL, which is not in a reserved page. -/
theorem ReservedInv.notTaken (h : ReservedInv m s g) : ¬ Reserved m ((allocFrame s).1.toNat / 4096) := by
  intro hr
  obtain ⟨-, ⟨-, -, h0, -⟩ | ⟨j, hj, hg, -, -, haddr, -⟩⟩ := allocFrame_cases h.frames
  · rw [h0, reserved_iff] at hr
    exact absurd hr.1 (by decide)
  · have hpage : (allocFrame s).1.toNat / 4096 = j := by
      unfold pageCount at hj
      rw [haddr, BitVec.toNat_ofNat, Nat.mod_eq_of_lt (by omega), Nat.mul_div_cancel _ (by omega)]
    rw [hpage] at hr
    rw [h.marked j hr] at hg
    cases hg

/-- **Step.** A call that frees no reserved page. -/
theorem reserved_step {op : FrameOp} (h : ReservedInv m s g) (hop : ¬ FreesReserved m op) :
    ∃ g', ReservedInv m (frameExec s op) g' := by
  cases op with
  | alloc =>
    obtain ⟨-, ⟨-, -, -, hi⟩ | ⟨j, -, -, -, -, -, hi⟩⟩ := allocFrame_cases h.frames
    · exact ⟨g, hi, h.marked⟩
    · refine ⟨_, hi, ?_⟩
      intro i hr
      rw [Function.update_apply]
      split_ifs
      · rfl
      · exact h.marked i hr
  | free addr =>
    obtain ⟨-, ⟨-, hi⟩ | ⟨-, hi⟩⟩ := freeFrame_cases h.frames addr
    · -- the page that is cleared is not reserved
      refine ⟨_, hi, ?_⟩
      intro i hr
      have hne : i ≠ addr.toNat / 4096 := by
        rintro rfl
        exact hop hr
      rw [Function.update_of_ne hne]
      exact h.marked i hr
    · exact ⟨g, hi, h.marked⟩

/-- **Run.** Calls that free no reserved page. -/
theorem reserved_run {ops : List FrameOp} (h : ReservedInv m s g) (hops : ∀ op ∈ ops, ¬ FreesReserved m op) :
    ∃ g', ReservedInv m (ops.foldl frameExec s) g' := by
  induction ops generalizing s g with
  | nil => exact ⟨g, h⟩
  | cons op ops ih =>
    obtain ⟨hop, hops⟩ := List.forall_mem_cons.1 hops
    obtain ⟨g', h'⟩ := reserved_step h hop
    exact ih h' hops

theorem reservedInv_start (m : Mem) : ReservedInv m (framesAfter m []) kernelPage :=
  ⟨(framesInv_memoryInit (s := Memory.boot m) rfl rfl).1, fun _ hr => decide_eq_true (reserved_iff.1 hr)⟩

/-- A reserved page that is freed is clear afterwards. -/
theorem free_reserved {addr : Word} (hi : FramesInv s g) (hr : Reserved m (addr.toNat / 4096))
    (hbit : frameBit s (addr.toNat / 4096) = true) :
    frameBit (frameExec s (.free addr)) (addr.toNat / 4096) = false := by
  have h0 : addr ≠ 0 := by
    rintro rfl
    exact absurd (reserved_iff.1 hr).1 (by decide)
  obtain ⟨-, ⟨-, h⟩ | ⟨hno, -⟩⟩ := freeFrame_cases hi addr
  · exact (h.bit hr.1).trans (Function.update_self ..)
  · exact absurd ⟨h0, hr.1, (hi.bit hr.1).symm.trans hbit⟩ hno

/-- A call that frees a reserved page, at the first time or later. -/
theorem ReservedKept.not_freed {ops : List FrameOp} (h : ReservedKept m ops) : ∀ op ∈ ops, ¬ FreesReserved m op := by
  intro op hop hfree
  cases op with
  | alloc => exact hfree
  | free addr =>
    obtain ⟨pre, post, rfl⟩ := List.append_of_mem hop
    -- its bit is set before the call, and clear after it
    have hbefore := h.marked pre (List.prefix_append ..) _ hfree
    have hafter := h.marked (pre ++ [.free addr]) ⟨post, by simp⟩ _ hfree
    obtain ⟨g, hi⟩ := framesInv_run (framesInv_memoryInit (s := Memory.boot m) rfl rfl).1 pre
    rw [framesAfter, List.foldl_append] at hafter
    have hclear := free_reserved hi hfree hbefore
    exact absurd (hafter.symm.trans hclear) (by decide)

/-- **Reserved pages** stay marked, and are never taken, in any sequence of calls with any addresses,
exactly when no call frees an address in one of them. -/
theorem reserved_kept_iff (m : Mem) (ops : List FrameOp) :
    ReservedKept m ops ↔ ∀ op ∈ ops, ¬ FreesReserved m op := by
  refine ⟨ReservedKept.not_freed, ?_⟩
  intro hops
  have hinv : ∀ pre, pre <+: ops → ∃ g, ReservedInv m (framesAfter m pre) g := fun pre hpre =>
    reserved_run (reservedInv_start m) fun op hop => hops op (hpre.subset hop)
  constructor
  · intro pre hpre i hr
    obtain ⟨g, h⟩ := hinv pre hpre
    exact h.bit hr
  · intro pre hpre
    obtain ⟨g, h⟩ := hinv pre hpre
    exact h.notTaken

/-- The page at 1 MiB, where the kernel is, is freed. -/
theorem kernel_page_freed : Reserved (fun _ => 0) 256 ∧ ¬ ReservedKept (fun _ => 0) [.free 0x100000] := by
  have hpage : (0x100000 : Word).toNat / 4096 = 256 := rfl
  have hr : Reserved (fun _ => 0) 256 := reserved_iff.2 (by decide)
  refine ⟨hr, fun h => h.not_freed _ List.mem_cons_self ?_⟩
  show Reserved _ ((0x100000 : Word).toNat / 4096)
  rw [hpage]
  exact hr

end Zer0S
