import Zer0S.Lib.Pool
import Zer0S.Proof.Frames

/-!
# The frame allocator hands out the least free page

`FrameRep f g P`: the bitmap and the live addresses of `f` are those of the abstract pool
`P` of page numbers. `alloc_frame` is `take` of the pool, `free_frame` is `give`, except
for page 0: `free_frame` ignores its address, so the page is lost (`frameStep_refines`).

`frames_apart`: what the pool's fields say about the addresses handed out in a run.
-/

namespace Zer0S

open Lib

variable {f f' : FrameState} {op : FrameOp} {g : ℕ → Bool} {j : ℕ}

/-- The pages the allocator may hand out. -/
def pages : Finset ℕ := (Finset.range pageCount).filter fun i => kernelPage i = false

/-- The address of a page. -/
def pageAddr (j : ℕ) : Word := BitVec.ofNat 64 (j * 4096)

theorem mem_pages : j ∈ pages ↔ j < pageCount ∧ kernelPage j = false := by
  rw [pages, Finset.mem_filter, Finset.mem_range]

theorem toNat_pageAddr (h : j < pageCount) : (pageAddr j).toNat = j * 4096 := by
  unfold pageCount at h
  rw [pageAddr, BitVec.toNat_ofNat, Nat.mod_eq_of_lt (by omega)]

theorem pageAddr_inj {i : ℕ} (hi : i < pageCount) (hj : j < pageCount) :
    pageAddr i = pageAddr j ↔ i = j := by
  refine ⟨?_, fun h => h ▸ rfl⟩
  intro h
  have := congrArg BitVec.toNat h
  rw [toNat_pageAddr hi, toNat_pageAddr hj] at this
  omega

/-- Removing an address is removing its page. -/
theorem filter_pageAddr {l : List ℕ} (hl : ∀ i ∈ l, i < pageCount) (hj : j < pageCount) :
    (l.map pageAddr).filter (· ≠ pageAddr j) = (l.filter (· ≠ j)).map pageAddr := by
  rw [List.filter_map]
  refine congrArg _ (List.filter_congr ?_)
  intro i hi
  simp only [Function.comp_apply, ne_eq, pageAddr_inj (hl i hi) hj]

/-- The state of the code stands for the pool `P`. -/
structure FrameRep (f : FrameState) (g : ℕ → Bool) (P : Pool pages) : Prop where
  inv : FramesInv f.s g
  free : ∀ i < pageCount, g i = false ↔ i ∈ P.free
  live : f.live = P.live.map pageAddr

/-- The steps of the pool. -/
inductive PoolStep : Pool pages → FrameOp → Pool pages → Prop
  | take {P P' : Pool pages} {j : ℕ} : P.take = some (j, P') → PoolStep P .alloc P'
  | empty {P : Pool pages} : P.take = none → PoolStep P .alloc P
  | give {P : Pool pages} {j : ℕ} (hj : j ∈ P.live) : j ≠ 0 → PoolStep P (.free (pageAddr j)) (P.give j hj)
  | lose {P : Pool pages} : PoolStep P (.free 0) (P.lose 0)

variable {P : Pool pages}

theorem FrameRep.lt (h : FrameRep f g P) (hj : j ∈ P.free) : j < pageCount ∧ g j = false := by
  have hlt := (mem_pages.1 (P.free_sub hj)).1
  exact ⟨hlt, (h.free j hlt).2 hj⟩

theorem live_lt (hj : j ∈ P.live) : j < pageCount := (mem_pages.1 (P.live_sub j hj)).1

/-- After `memory_init` all pages but those of the kernel are free. -/
theorem frameRep_start (m : Mem) :
    FrameRep ⟨memoryInit (Memory.boot m), []⟩ kernelPage (Pool.full pages) where
  inv := (framesInv_memoryInit rfl rfl).1
  free i hi := by simp [Pool.full, mem_pages, hi]
  live := rfl

/-- **Step.** A step of the code is a step of the pool. -/
theorem frameStep_refines (h : FrameRep f g P) (hs : FrameStep f op f') :
    ∃ g' P', FrameRep f' g' P' ∧ PoolStep P op P' := by
  cases hs with
  | alloc =>
    obtain ⟨-, ⟨hall, hn, -, hi⟩ | ⟨j, hj, hg, hmin, hn, ha, hi⟩⟩ := allocFrame_cases h.inv
    · -- all bits are set: the pool is empty
      have he : P.free = ∅ := Finset.eq_empty_of_forall_notMem fun i hf => by
        obtain ⟨hlt, hg⟩ := h.lt hf
        rw [hall i hlt] at hg
        cases hg
      exact ⟨g, P, ⟨hi, h.free, by rw [if_pos hn]; exact h.live⟩, .empty (Pool.take_eq_none he)⟩
    · -- the first clear bit is the least free page
      have hf := (h.free j hj).1 hg
      have hle : ∀ i ∈ P.free, j ≤ i := fun i hif => by
        by_contra hlt
        have := (h.lt hif).2
        rw [hmin i (by omega)] at this
        cases this
      obtain ⟨P', ht, hfree, hlive⟩ := Pool.take_eq_some hf hle
      refine ⟨_, P', ⟨hi, ?_, ?_⟩, .take ht⟩
      · intro i hi
        rw [hfree, Finset.mem_erase, ← h.free i hi]
        by_cases hij : i = j
        · simp [hij]
        · simp [hij]
      · rw [if_neg hn, ha, h.live, hlive]; rfl
  | @free addr ha =>
    have hlive : ∀ j < pageCount, f.live.filter (· ≠ pageAddr j) = (P.live.filter (· ≠ j)).map pageAddr := by
      intro j hj
      rw [h.live, filter_pageAddr (fun i hi => live_lt hi) hj]
    by_cases h0 : addr = 0
    · -- page 0 has the address NULL, so it is never given back
      subst h0
      obtain ⟨-, ⟨hfr, -⟩ | ⟨-, hi⟩⟩ := freeFrame_cases h.inv 0
      · exact absurd rfl hfr.1
      · exact ⟨g, P.lose 0, ⟨hi, h.free, hlive 0 (by decide)⟩, .lose⟩
    · have hm := ha.resolve_left h0
      rw [h.live] at hm
      obtain ⟨j, hj, rfl⟩ := List.mem_map.1 hm
      have hlt := live_lt hj
      have hd : (pageAddr j).toNat / 4096 = j := by rw [toNat_pageAddr hlt]; omega
      have hg : g j = true := by
        by_contra hg
        exact P.apart j hj ((h.free j hlt).1 (by simpa using hg))
      have hj0 : j ≠ 0 := by rintro rfl; exact h0 rfl
      obtain ⟨-, ⟨-, hi⟩ | ⟨hfr, -⟩⟩ := freeFrame_cases h.inv (pageAddr j)
      · rw [hd] at hi
        refine ⟨_, P.give j hj, ⟨hi, ?_, hlive j hlt⟩, .give hj hj0⟩
        intro i hi
        show _ ↔ i ∈ insert j P.free
        rw [Finset.mem_insert, ← h.free i hi]
        by_cases hij : i = j
        · simp [hij]
        · simp [hij]
      · exact absurd ⟨h0, by rw [hd]; exact hlt, by rw [hd]; exact hg⟩ hfr

/-- **Run.** A run of the code is a run of the pool. -/
theorem frameRep_run {tr : List (Transition FrameState FrameOp)} (h : FrameRep f g P)
    (hr : Run FrameStep f tr f') :
    (∃ g' P', FrameRep f' g' P') ∧ ∀ e ∈ tr, (∃ g' P', FrameRep e.pre g' P') ∧ ∃ g' P', FrameRep e.post g' P' :=
  hr.invariant (I := fun f => ∃ g P, FrameRep f g P) ⟨g, P, h⟩ fun _ _ _ ⟨_, _, h⟩ hs =>
    have ⟨g', P', h', _⟩ := frameStep_refines h hs
    ⟨g', P', h'⟩

/-- The addresses are those of different pages of the 64 MiB, none of them between 1 MiB
and the end of the bitmap's page. -/
structure FramesApart (live : List Word) : Prop where
  nodup : live.Nodup
  aligned : ∀ a ∈ live, 4096 ∣ a.toNat
  below : ∀ a ∈ live, a.toNat < 64 * 1024 * 1024
  notKernel : ∀ a ∈ live, a.toNat < 1024 * 1024 ∨ bitmapAddr.toNat + 4096 ≤ a.toNat

theorem FrameRep.apart (h : FrameRep f g P) : FramesApart f.live := by
  have hp : ∀ j ∈ P.live, j < pageCount ∧ ¬ (256 ≤ j ∧ j < 3073) ∧ (pageAddr j).toNat = j * 4096 := by
    intro j hj
    obtain ⟨hlt, hk⟩ := mem_pages.1 (P.live_sub j hj)
    exact ⟨hlt, by simpa [kernelPage] using hk, toNat_pageAddr hlt⟩
  rw [h.live]
  refine ⟨P.nodup.map_on fun i hi j hj he => (pageAddr_inj (live_lt hi) (live_lt hj)).1 he, ?_, ?_, ?_⟩
  · refine List.forall_mem_map.2 ?_
    intro j hj
    rw [(hp j hj).2.2]
    exact Nat.dvd_mul_left 4096 j
  · refine List.forall_mem_map.2 ?_
    intro j hj
    obtain ⟨h1, -, h3⟩ := hp j hj
    unfold pageCount at h1
    omega
  · refine List.forall_mem_map.2 ?_
    intro j hj
    obtain ⟨-, h2, h3⟩ := hp j hj
    have hb : bitmapAddr.toNat = 12582912 := rfl
    omega

/-- `alloc_frame` takes the page of the first clear bit, or there is no clear bit. -/
def TakesLowest (f f' : FrameState) : Prop :=
  (∃ j < f.s.totalPages.toNat, frameBit f.s j = false ∧ (∀ i < j, frameBit f.s i = true) ∧
      (allocFrame f.s).1 = pageAddr j ∧ frameBit f'.s j = true ∧ f'.live = pageAddr j :: f.live) ∨
    (∀ i < f.s.totalPages.toNat, frameBit f.s i = true) ∧ f'.live = f.live

theorem takesLowest (h : FramesInv f.s g) (hs : FrameStep f .alloc f') : TakesLowest f f' := by
  cases hs with
  | alloc =>
    have hn := h.total
    obtain ⟨-, ⟨hall, hf, -, -⟩ | ⟨j, hj, hg, hmin, hf, ha, hi⟩⟩ := allocFrame_cases h
    · exact Or.inr ⟨fun i hi => (h.bit (hn ▸ hi)).trans (hall i (hn ▸ hi)), if_pos hf⟩
    · refine Or.inl ⟨j, hn ▸ hj, (h.bit hj).trans hg, ?_, ha, ?_, ?_⟩
      · intro i hij
        exact (h.bit (hij.trans hj)).trans (hmin i hij)
      · exact (hi.bit hj).trans (Function.update_self j true g)
      · rw [if_neg hf, ha]; rfl

/-- **No frame is handed out twice**, in any run of callers that free what they were given. -/
theorem frames_apart {m : Mem} {tr : List (Transition FrameState FrameOp)}
    (hr : Run FrameStep ⟨memoryInit (Memory.boot m), []⟩ tr f) :
    FramesApart f.live ∧ ∀ e ∈ tr, e.label = .alloc → TakesLowest e.pre e.post := by
  obtain ⟨⟨g, P, h⟩, htr⟩ := frameRep_run (frameRep_start m) hr
  refine ⟨h.apart, ?_⟩
  intro e he hl
  obtain ⟨⟨g', P', h'⟩, -⟩ := htr e he
  have hs := hr.step_of_mem e he
  rw [hl] at hs
  exact takesLowest h'.inv hs

/-- The lowest page of those that are free is handed out. -/
theorem step_alloc (hi : FramesInv f.s g) (hj : j < pageCount) (hg : g j = false) (hmin : ∀ k < j, g k = true) :
    ∃ s, FrameStep f .alloc ⟨s, pageAddr j :: f.live⟩ ∧ FramesInv s (Function.update g j true) := by
  obtain ⟨hn, ha, hi'⟩ := allocFrame_lowest hi hj hg hmin
  have hs : FrameStep f .alloc _ := .alloc
  rw [if_neg hn, ha] at hs
  exact ⟨_, hs, hi'⟩

/-- A page other than page 0 is given back. -/
theorem step_free (hi : FramesInv f.s g) (hj : j < pageCount) (h0 : j ≠ 0) (hg : g j = true)
    (hlive : pageAddr j ∈ f.live) : ∃ s, FrameStep f (.free (pageAddr j)) ⟨s, f.live.filter (· ≠ pageAddr j)⟩ ∧
      FramesInv s (Function.update g j false) := by
  have hd : (pageAddr j).toNat / 4096 = j := by
    rw [toNat_pageAddr hj]
    omega
  obtain ⟨-, ⟨-, hi'⟩ | ⟨hno, -⟩⟩ := freeFrame_cases hi (pageAddr j)
  · rw [hd] at hi'
    exact ⟨_, .free (Or.inr hlive), hi'⟩
  · refine absurd ⟨?_, ?_, ?_⟩ hno
    · intro heq
      have hzero : (pageAddr j).toNat = 0 := congrArg BitVec.toNat heq
      rw [toNat_pageAddr hj] at hzero
      omega
    · rw [hd]
      exact hj
    · rw [hd]
      exact hg

/-- The first two pages are handed out, the second is given back and handed out again. -/
theorem frames_apart_reused : ∃ tr f, Run FrameStep ⟨memoryInit (Memory.boot fun _ => 0), []⟩ tr f ∧
    tr.map Transition.label = [.alloc, .alloc, .free 0x1000, .alloc] ∧ f.live = [0x1000, 0] ∧
      FramesApart f.live ∧ ∀ e ∈ tr, e.label = .alloc → TakesLowest e.pre e.post := by
  have h0 := (frameRep_start fun _ => 0).inv
  obtain ⟨s₁, hs₁, h1⟩ := step_alloc (j := 0) h0 (by decide) (by decide) (by simp)
  obtain ⟨s₂, hs₂, h2⟩ := step_alloc (f := ⟨s₁, _⟩) (j := 1) h1 (by decide) (by decide) (by decide)
  obtain ⟨s₃, hs₃, h3⟩ := step_free (f := ⟨s₂, _⟩) (j := 1) h2 (by decide) (by decide) (by decide) List.mem_cons_self
  obtain ⟨s₄, hs₄, -⟩ := step_alloc (f := ⟨s₃, _⟩) (j := 1) h3 (by decide) (by decide) (by decide)
  have hr := Run.cons hs₁ (.cons hs₂ (.cons hs₃ (.cons hs₄ (.nil _))))
  have hlive : pageAddr 1 :: [pageAddr 1, pageAddr 0].filter (· ≠ pageAddr 1) = [0x1000, 0] := by decide
  exact ⟨_, _, hr, rfl, hlive, frames_apart hr⟩

end Zer0S
