import Zer0S.Proof.FramePool
import Zer0S.Proof.HeapSafe
import Zer0S.Spec.Boot

/-!
# Frames and the rest of the kernel's memory

The frame allocator and the heap work on one memory and do not disturb each other
(`memInv_step`). But `memory_init` marks only the pages from 1 MiB up to the end of the
bitmap, so the first two requests get page 0, which is in nobody's way, and page 1, where
`boot.asm` put the page tables.

`isolated_iff`: the frames taken stay clear of all fixed regions exactly when
`alloc_frame` is only called while the bit of page 0 is clear, that is at most once.
-/

namespace Zer0S

open Lib Tiling

/-- The fixed regions, from the first address to the one behind the last: the page tables
of `boot.asm`, the cells of `VGA_MEMORY`, 1 MiB up to the end of the bitmap, the heap. -/
def fixedRegions : List (ℕ × ℕ) :=
  [(0x1000, 0x4000), (0xB8000, 0xB8000 + 2 * (80 * 25)), (1024 * 1024, 0xC00000 + 2048), (heapBase, heapEnd)]

/-- Every frame marked since `memory_init` is apart from all fixed regions. -/
def Isolated (s : Memory) : Prop :=
  ∀ i < s.totalPages.toNat, frameBit s i = true → kernelPage i = false →
    ∀ r ∈ fixedRegions, Apart (i * 4096) 4096 r.1 (r.2 - r.1)

/-- `alloc_frame` is called only while the bit of page 0 is clear. -/
def FirstAlloc (a : MemoryState) : MemoryOp → Prop
  | .frame .alloc => frameBit a.s 0 = false
  | _ => True

/-- The invariant of both allocators. -/
structure MemInv (a : MemoryState) (l : List Seg) (g : ℕ → Bool) (P : Pool pages) : Prop where
  heap : RunInv ⟨a.s, a.live⟩ l
  frames : FrameRep ⟨a.s, a.frames⟩ g P

variable {a b : MemoryState} {op : MemoryOp} {l : List Seg} {g : ℕ → Bool} {P : Pool pages}
  {s s' : Memory} {m : Mem}

/-! ## The regions of the two allocators -/

theorem bitmap_below_heap {q : ℕ} (hq : q < 2048) :
    (bitmapAddr + BitVec.ofNat 64 q).toNat < heapBase := by
  have hc : bitmapAddr.toNat = 12582912 := rfl
  rw [toNat_bitmapAddr_add hq, heapBase_eq, hc]
  omega

/-- Heap operations keep the frame allocator. -/
theorem FramesInv.of_kept (h : FramesInv s g) (hk : FramesKept s s') : FramesInv s' g where
  bitmap := hk.bitmap.trans h.bitmap
  total := by rw [hk.total, h.total]
  packed i hi := by
    have hq : i / 8 < 2048 := by unfold pageCount at hi; omega
    have hm := hk.outside _ (Or.inl (bitmap_below_heap hq))
    exact (congrArg (fun v => BitVec.getLsbD v (i % 8)) hm).trans (h.packed i hi)
  used := by rw [hk.used, h.used]
  counts := by rw [hk.used, hk.free, h.counts]
  touched := by rw [hk.touched]; exact h.touched

/-- Frame operations keep the heap. -/
theorem HeapAt.of_kept (h : HeapAt s l) (hk : HeapKept s s') : HeapAt s' l := by
  rcases h with ⟨h0, rfl⟩ | h
  · exact Or.inl ⟨hk.head.trans h0, rfl⟩
  · refine Or.inr ⟨hk.head.trans h.head, h.tiles.congr_region fun z h1 h2 => hk.outside _ (Or.inr ?_),
      h.span, h.dvd⟩
    have hc : bitmapAddr.toNat = 12582912 := rfl
    rw [h.end_eq] at h2
    have hlt := heapEnd_lt
    rw [heapBase_eq] at h1
    rw [toNat_ofNat (by omega), hc]
    omega

/-- **Step.** Each allocator keeps the other's invariant. -/
theorem memInv_step (hi : MemInv a l g P) (hs : MemoryStep a op b) : ∃ l' g' P', MemInv b l' g' P' := by
  cases hs with
  | heap hs =>
    obtain ⟨hk, l', hi'⟩ := runInv_step hi.heap hs
    exact ⟨l', g, P, hi', hi.frames.inv.of_kept hk, hi.frames.free, hi.frames.live⟩
  | frame hs =>
    obtain ⟨g', P', hr, -⟩ := frameStep_refines hi.frames hs
    refine ⟨l, g', P', ⟨hi.heap.heap.of_kept ?_, hi.heap.live, hi.heap.nodup⟩, hr⟩
    cases hs with
    | alloc => exact (allocFrame_cases hi.frames.inv).1
    | @free addr _ => exact (freeFrame_cases hi.frames.inv addr).1

/-- `memory_init` starts both invariants. -/
theorem memInv_start (m : Mem) :
    MemInv ⟨memoryInit (Memory.boot m), [], []⟩ freshHeap kernelPage (Pool.full pages) where
  heap := runInv_start (framesInv_memoryInit (s := Memory.boot m) rfl rfl).2.head
  frames := frameRep_start m

/-! ## Which frames are marked -/

/-- Page 0 is the only one marked since `memory_init`. -/
def OnlyFirst (s : Memory) : Prop :=
  ∀ i < s.totalPages.toNat, frameBit s i = true → kernelPage i = false → i = 0

theorem onlyFirst_iff (hi : FramesInv s g) :
    OnlyFirst s ↔ ∀ i < pageCount, g i = true → kernelPage i = false → i = 0 := by
  unfold OnlyFirst
  rw [hi.total]
  exact forall₂_congr fun i h => by rw [hi.bit h]

/-- Page 0 is apart from all fixed regions. -/
theorem isolated_of_onlyFirst (h : OnlyFirst s) : Isolated s := by
  intro i hi hb hk r hr
  obtain rfl := h i hi hb hk
  simp only [fixedRegions, List.mem_cons, List.not_mem_nil, or_false] at hr
  unfold Apart
  have := heapBase_eq
  rcases hr with rfl | rfl | rfl | rfl <;> simp only <;> omega

/-- A request while the bit of page 0 is clear marks page 0. -/
theorem alloc_first (hi : FramesInv s g) (h0 : g 0 = false) :
    (findFreeFrame s).1 ≠ -1 ∧ (allocFrame s).1 = 0 ∧
      FramesInv (allocFrame s).2 (Function.update g 0 true) :=
  allocFrame_lowest hi (by decide) h0 fun k hk => absurd hk (Nat.not_lt_zero k)

/-- The next request marks page 1. -/
theorem alloc_second (hi : FramesInv s g) (h0 : g 0 = true) (h1 : g 1 = false) :
    (findFreeFrame s).1 ≠ -1 ∧ (allocFrame s).1 = pml4Addr ∧
      FramesInv (allocFrame s).2 (Function.update g 1 true) :=
  allocFrame_lowest hi (by decide) h1 fun k hk => (Nat.lt_one_iff.1 hk) ▸ h0

/-- Page 1 holds the level 4 page table. -/
theorem not_isolated_of_second (hi : FramesInv s g) (h1 : g 1 = true) : ¬ Isolated s := by
  intro h
  have hlt : 1 < pageCount := by decide
  have := h 1 (by rw [hi.total]; exact hlt) ((hi.bit hlt).trans h1) (by decide) (0x1000, 0x4000)
    (by simp [fixedRegions])
  unfold Apart at this
  omega

/-- **A step that meets the condition** marks no page but page 0. -/
theorem onlyFirst_step (hi : MemInv a l g P) (ho : OnlyFirst a.s) (hc : FirstAlloc a op)
    (hs : MemoryStep a op b) : OnlyFirst b.s := by
  have ho' := (onlyFirst_iff hi.frames.inv).1 ho
  cases hs with
  | heap hs =>
    obtain ⟨hk, -⟩ := runInv_step hi.heap hs
    exact (onlyFirst_iff (hi.frames.inv.of_kept hk)).2 ho'
  | frame hs =>
    cases hs with
    | alloc =>
      have h0 : g 0 = false := (hi.frames.inv.bit (by decide)).symm.trans hc
      apply (onlyFirst_iff (alloc_first hi.frames.inv h0).2.2).2
      intro i hlt hb hk
      by_contra hne
      rw [Function.update_of_ne hne] at hb
      exact hne (ho' i hlt hb hk)
    | @free addr _ =>
      obtain ⟨-, ⟨-, h⟩ | ⟨-, h⟩⟩ := freeFrame_cases hi.frames.inv addr
      · -- one page less is marked
        refine (onlyFirst_iff h).2 fun i hlt hb hk => ho' i hlt ?_ hk
        by_cases hij : i = addr.toNat / 4096
        · rw [hij, Function.update_self] at hb
          cases hb
        · rwa [Function.update_of_ne hij] at hb
      · exact (onlyFirst_iff h).2 ho'

/-- **A step that does not** takes the page of the level 4 page table. -/
theorem not_isolated_step (hi : MemInv a l g P) (ho : OnlyFirst a.s) (hc : ¬ FirstAlloc a op)
    (hs : MemoryStep a op b) : ¬ Isolated b.s := by
  have ho' := (onlyFirst_iff hi.frames.inv).1 ho
  cases hs with
  | heap => exact absurd trivial hc
  | frame hs =>
    cases hs with
    | alloc =>
      have h0 : g 0 = true := by
        rw [← hi.frames.inv.bit (by decide)]
        simpa [FirstAlloc] using hc
      -- page 1 is not marked, as page 0 is the only one
      have h1 : g 1 = false := by
        by_contra h1
        exact absurd (ho' 1 (by decide) (by simpa using h1) (by decide)) (by decide)
      exact not_isolated_of_second (alloc_second hi.frames.inv h0 h1).2.2 (Function.update_self 1 true g)
    | free => exact absurd trivial hc

/-- **When the frames taken are apart from the fixed regions**, in every state of a run. -/
theorem isolated_iff {tr : List (Transition MemoryState MemoryOp)}
    (hr : Run MemoryStep ⟨memoryInit (Memory.boot m), [], []⟩ tr a) :
    (∀ e ∈ tr, Isolated e.post.s) ↔ ∀ e ∈ tr, FirstAlloc e.pre e.label := by
  have hstart := memInv_start m
  refine hr.always_iff (P := fun a => Isolated a.s) (I := fun a => ∃ l g P, MemInv a l g P)
    (J := fun a => OnlyFirst a.s) ⟨_, _, _, hstart⟩ ?_ ?_ ?_ (fun a => isolated_of_onlyFirst) ?_
  · apply (onlyFirst_iff hstart.frames.inv).2
    intro i _ hb hk
    rw [hb] at hk
    cases hk
  · rintro a i b ⟨l, g, P, hi⟩ hab
    exact memInv_step hi hab
  · rintro a i b ⟨l, g, P, hi⟩ ho hc hab
    exact onlyFirst_step hi ho hc hab
  · rintro a i b ⟨l, g, P, hi⟩ ho hc hab
    exact not_isolated_step hi ho hc hab

/-- The state after a call of `alloc_frame`. -/
def afterAlloc (a : MemoryState) : MemoryState :=
  ⟨(allocFrame a.s).2, a.live, if (findFreeFrame a.s).1 = -1 then a.frames else (allocFrame a.s).1 :: a.frames⟩

theorem step_afterAlloc (a : MemoryState) : MemoryStep a (.frame .alloc) (afterAlloc a) := .frame .alloc

/-- A request of each allocator, and what they gave is freed: the block, and page 0, whose address is NULL. -/
theorem isolated_iff_both : ∃ tr a ptr, Run MemoryStep ⟨memoryInit (Memory.boot fun _ => 0), [], []⟩ tr a ∧
    tr.map Transition.label = [.heap (.kmalloc 100), .frame .alloc, .heap (.kfree ptr), .frame (.free 0)] ∧
      ∀ e ∈ tr, Isolated e.post.s := by
  have hstart := memInv_start fun _ => 0
  obtain ⟨n, ⟨ptr, s⟩, hk⟩ := kmalloc_returns hstart.heap.heap 100
  have hheap : HeapStep ⟨memoryInit (Memory.boot fun _ => 0), []⟩ (.kmalloc 100) ⟨s, handOut 100 ptr s []⟩ := .kmalloc hk
  have hbit : frameBit s 0 = false :=
    (hstart.frames.inv.of_kept (runInv_step hstart.heap hheap).1).bit (by decide)
  have hptr : ptr = 0 ∨ ptr ∈ (handOut 100 ptr s []).map Alloc.ptr := by
    unfold handOut
    split_ifs with h0
    · exact Or.inl h0
    · exact Or.inr (by simp)
  have hr := Run.cons (MemoryStep.heap (a := ⟨memoryInit (Memory.boot fun _ => 0), [], []⟩) hheap)
    (.cons (step_afterAlloc _) (.cons (.heap (.kfree hptr)) (.cons (.frame (.free (Or.inl rfl))) (.nil _))))
  refine ⟨_, _, ptr, hr, rfl, (isolated_iff hr).2 ?_⟩
  simp only [List.forall_mem_cons]
  exact ⟨trivial, hbit, trivial, trivial, by simp⟩

/-- Two requests, the first while the bit of page 0 is clear. -/
theorem alloc_twice (hi : FramesInv a.s g) (h0 : g 0 = false) (h1 : g 1 = false) :
    (afterAlloc (afterAlloc a)).frames = pml4Addr :: 0 :: a.frames ∧
      ¬ Isolated (afterAlloc (afterAlloc a)).s := by
  obtain ⟨hn, ha, hi⟩ := alloc_first hi h0
  obtain ⟨hn', ha', hi'⟩ := alloc_second hi (Function.update_self ..)
    ((Function.update_of_ne (by decide) ..).trans h1)
  have h1 : afterAlloc a = ⟨(allocFrame a.s).2, a.live, 0 :: a.frames⟩ := by
    rw [afterAlloc, if_neg hn, ha]
  rw [h1, afterAlloc, if_neg hn', ha']
  exact ⟨rfl, not_isolated_of_second hi' (Function.update_self ..)⟩

/-- The second request is given the page of the level 4 page table. -/
theorem alloc_page_table : ∃ tr a, Run MemoryStep ⟨memoryInit (Memory.boot fun _ => 0), [], []⟩ tr a ∧
    tr.map Transition.label = [.frame .alloc, .frame .alloc] ∧ a.frames = [pml4Addr, 0] ∧
      ¬ Isolated a.s := by
  have hr := Run.cons (step_afterAlloc ⟨memoryInit (Memory.boot fun _ => 0), [], []⟩)
    (.cons (step_afterAlloc _) (.nil _))
  exact ⟨_, _, hr, rfl, alloc_twice (memInv_start _).frames.inv (by decide) (by decide)⟩

end Zer0S
