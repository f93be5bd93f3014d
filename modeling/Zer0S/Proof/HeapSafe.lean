import Zer0S.Proof.HeapRun

/-!
# When the ranges handed out by `kmalloc` are safe

`AllocSafe h`: the bytes asked for by each live allocation are inside the heap, overlap no
header and no other live allocation, and its header is as it was handed out.

`allocSafe_iff`: all states of a run are safe exactly when every request is at most
`2 ^ 64 - 8`, the largest number that `roundUp` does not wrap around to 0, or is made when
no block is free.
-/

namespace Zer0S

open Lib Tiling

variable {h h' : HeapState} {op : HeapOp} {l : List Seg} {e : Alloc} {s : Memory}

/-- The `n` bytes from `p` and the `k` bytes from `q` do not overlap. -/
def Apart (p n q k : ℕ) : Prop := p + n ≤ q ∨ q + k ≤ p

/-- `a` is a block of the heap's list. -/
def IsBlock (s : Memory) (a : Word) : Prop := Linked (nextBlock s.mem) (toPtr s.heapHead) a

/-- The bytes asked for are the caller's alone. -/
structure AllocSafe (h : HeapState) : Prop where
  inside : ∀ e ∈ h.live, heapBase ≤ e.ptr.toNat ∧ e.ptr.toNat + e.size.toNat ≤ heapEnd
  headers : ∀ e ∈ h.live, ∀ a, IsBlock h.s a → Apart e.ptr.toNat e.size.toNat a.toNat 24
  disjoint : h.live.Pairwise fun e e' => Apart e.ptr.toNat e.size.toNat e'.ptr.toNat e'.size.toNat
  kept : ∀ e ∈ h.live, heapBlock h.s.mem (e.ptr - sizeofHeapBlock) = e.header

/-- The heap is set up and none of its blocks is free. -/
def NoFreeBlock (s : Memory) : Prop := s.heapHead ≠ 0 ∧ ∀ a, IsBlock s a → (heapBlock s.mem a).used ≠ 0

/-- A request that is not rounded to 0, or that finds no free block. -/
def SizeOk (h : HeapState) : HeapOp → Prop
  | .kmalloc size => size.toNat ≤ 2 ^ 64 - 8 ∨ NoFreeBlock h.s
  | _ => True

/-- Every live block is as large as was asked for. -/
def Fits (h : HeapState) : Prop := ∀ e ∈ h.live, e.size.toNat ≤ e.header.size.toNat

theorem HeapInv.isBlock_iff (hi : HeapInv s l) {a : Word} : IsBlock s a ↔ a ∈ blocks heapBase l :=
  hi.chain.linked_iff

/-- Which blocks are free, in memory and in the tiling. -/
theorem noFreeBlock_iff (hi : HeapAt s l) : NoFreeBlock s ↔ ∀ b ∈ l, b.used = true := by
  rcases hi with ⟨h0, rfl⟩ | hi
  · simp [NoFreeBlock, h0, freshHeap]
  have hu : ∀ y ∈ place 24 heapBase l,
      (heapBlock s.mem (BitVec.ofNat 64 y.1)).used ≠ 0 ↔ y.2.used = true := by
    intro y hy
    rw [(hi.block hy).1, header]
    cases y.2.used <;> simp
  constructor
  · rintro ⟨-, hb⟩ b hbl
    rw [← map_snd_place 24 heapBase l] at hbl
    obtain ⟨y, hy, rfl⟩ := List.mem_map.1 hbl
    exact (hu y hy).1 (hb _ (hi.isBlock_iff.2 (List.mem_map_of_mem hy)))
  · intro hl
    refine ⟨hi.head_ne, ?_⟩
    intro a ha
    obtain ⟨y, hy, rfl⟩ := List.mem_map.1 (hi.isBlock_iff.1 ha)
    refine (hu y hy).2 (hl _ ?_)
    rw [← map_snd_place 24 heapBase l]
    exact List.mem_map_of_mem hy

/-- A live block that is large enough is safe. -/
theorem allocSafe_of_fits (hi : RunInv h l) (hf : Fits h) : AllocSafe h where
  inside := by
    intro e he
    obtain ⟨p, k, hb⟩ := hi.live e he
    have := hf e he
    have hbd := hi.heap.bounds hb.used
    rw [hb.size hi.heap] at this
    rw [hb.toNat_ptr hi.heap]
    omega
  headers := by
    intro e he a ha
    obtain ⟨p, k, hb⟩ := hi.live e he
    have hinv := hi.heap.inv_of_used hb.used
    have := hf e he
    rw [hb.size hi.heap] at this
    -- the header of the block itself is before its payload, and those of the others are apart
    obtain ⟨y, hy, rfl⟩ := List.mem_map.1 (hinv.isBlock_iff.1 ha)
    rw [hb.toNat_ptr hi.heap, (hinv.block hy).2.1]
    unfold Apart
    rcases place_disjoint hb.used hy with h' | h' | h'
    · rw [← h']; simp only; omega
    · simp only at h'; omega
    · simp only at h'; omega
  disjoint := by
    refine List.Pairwise.imp_of_mem (fun {e e'} he he' hne => ?_) (List.pairwise_map.1 hi.nodup)
    obtain ⟨p, k, hb⟩ := hi.live e he
    obtain ⟨q, j, hq⟩ := hi.live e' he'
    have h1 := hf e he
    have h2 := hf e' he'
    rw [hb.size hi.heap] at h1
    rw [hq.size hi.heap] at h2
    rw [hb.toNat_ptr hi.heap, hq.toNat_ptr hi.heap]
    unfold Apart
    rcases place_disjoint hb.used hq.used with h' | h' | h'
    · -- one block has one pointer
      simp only [Prod.mk.injEq] at h'
      exact absurd (by rw [hb.ptr, hq.ptr, h'.1]) hne
    · simp only at h'; omega
    · simp only at h'; omega
  kept := by
    intro e he
    obtain ⟨p, k, hb⟩ := hi.live e he
    exact hb.header_eq hi.heap

/-- A request that finds no free block fails. -/
theorem kmalloc_noFreeBlock (hi : HeapAt s l) (hn : NoFreeBlock s) {n : ℕ} {w ptr : Word} {s' : Memory}
    (hk : kmalloc n w s = some (ptr, s')) : ptr = 0 := by
  rcases kmalloc_cases hi hk with ⟨-, h, -⟩ | ⟨-, -, h, -⟩ | ⟨-, p, l', hff, -⟩
  · exact h
  · exact h
  · obtain ⟨pre, b, post, rfl, hb, -⟩ := firstFit_spec hff
    have := (noFreeBlock_iff hi).1 hn b (by simp)
    rw [hb] at this
    cases this

/-- **A step that meets the condition** keeps every live block large enough. -/
theorem fits_step (hi : RunInv h l) (hf : Fits h) (hc : SizeOk h op) (hs : HeapStep h op h') : Fits h' := by
  cases hs with
  | @kmalloc n w ptr s' hk =>
    obtain ⟨-, l', -, h0⟩ := kmalloc_handOut hi hk
    by_cases hp : ptr = 0
    · simpa only [Fits, handOut, if_pos hp] using hf
    · have hw : w.toNat ≤ 2 ^ 64 - 8 := hc.resolve_right fun hn => hp (kmalloc_noFreeBlock hi.heap hn hk)
      have hle := le_roundUp hw
      have hsz := (h0.resolve_left hp).2
      rw [Fits, handOut, if_neg hp, List.forall_mem_cons]
      exact ⟨hle.trans hsz, hf⟩
  | kfree => exact fun e he => hf e (List.mem_filter.1 he).1
  | write => exact hf

/-- **A step that does not** hands out a range that leaves the heap. -/
theorem not_allocSafe_step (hi : RunInv h l) (hc : ¬ SizeOk h op) (hs : HeapStep h op h') :
    ¬ AllocSafe h' := by
  cases hs with
  | @kmalloc n w ptr s' hk =>
    simp only [SizeOk, not_or, not_le] at hc
    obtain ⟨hw, hfree⟩ := hc
    have hr := roundUp_wrap hw
    rcases kmalloc_cases hi.heap hk with ⟨rfl, -⟩ | ⟨-, hnone, -⟩ | ⟨-, _, _, -, -, h0, -⟩
    · simp at hw
    · -- rounded to 0, the request fits into any free block
      rw [hr, firstFit_eq_none] at hnone
      refine absurd ((noFreeBlock_iff hi.heap).2 ?_) hfree
      intro b hb
      exact (hnone b hb).resolve_right (by omega)
    · -- a range of nearly 2 ^ 64 bytes is not inside
      intro hsafe
      have := (hsafe.inside ⟨ptr, w, _⟩ (by rw [handOut, if_neg h0]; exact List.mem_cons_self)).2
      have hlt := heapEnd_lt
      simp only at this
      omega
  | kfree => exact absurd trivial hc
  | write => exact absurd trivial hc

/-- **When all states of a run are safe.** -/
theorem allocSafe_iff {tr : List (Transition HeapState HeapOp)} (hs : s.heapHead = 0)
    (hr : Run HeapStep ⟨s, []⟩ tr h) :
    (∀ e ∈ tr, AllocSafe e.post) ↔ ∀ e ∈ tr, SizeOk e.pre e.label := by
  refine hr.always_iff (I := fun h => ∃ l, RunInv h l) (J := fun h => (∃ l, RunInv h l) ∧ Fits h)
    ⟨_, runInv_start hs⟩ ⟨⟨_, runInv_start hs⟩, by simp [Fits]⟩ ?_ ?_ ?_ ?_
  · rintro a i b ⟨l, hi⟩ hab
    exact (runInv_step hi hab).2
  · rintro a i b ⟨l, hi⟩ ⟨-, hf⟩ hc hab
    exact ⟨(runInv_step hi hab).2, fits_step hi hf hc hab⟩
  · rintro a ⟨⟨l, hi⟩, hf⟩
    exact allocSafe_of_fits hi hf
  · rintro a i b ⟨l, hi⟩ - hc hab
    exact not_allocSafe_step hi hc hab

theorem allocSafe_iff_reused : ∃ tr h, Run HeapStep ⟨Memory.boot fun _ => 0, []⟩ tr h ∧
    tr.map Transition.label = [.kmalloc 100, .kmalloc 200, .kfree 0x2000018, .kmalloc 61] ∧
    h.live.map (fun e => (e.ptr, e.size)) = [(0x2000018, 61), (0x2000098, 200)] ∧ ∀ e ∈ tr, AllocSafe e.post := by
  obtain ⟨tr, h, hr, hl, hlive⟩ := exists_reused
  refine ⟨tr, h, hr, hl, hlive, (allocSafe_iff rfl hr).2 ?_⟩
  intro e he
  have hmem : e.label ∈ tr.map Transition.label := List.mem_map_of_mem he
  rw [hl] at hmem
  simp only [List.mem_cons, List.not_mem_nil, or_false] at hmem
  rcases hmem with hlabel | hlabel | hlabel | hlabel <;> rw [hlabel]
  · exact Or.inl (by decide)
  · exact Or.inl (by decide)
  · trivial
  · exact Or.inl (by decide)

/-- A request of `2 ^ 64 - 1` bytes is granted, with a range that leaves the heap. -/
theorem kmalloc_wraps : ∃ tr h, Run HeapStep ⟨Memory.boot fun _ => 0, []⟩ tr h ∧
    tr.map Transition.label = [.kmalloc 0xFFFFFFFFFFFFFFFF] ∧
    h.live.map (fun e => (e.ptr, e.size)) = [(0x2000018, 0xFFFFFFFFFFFFFFFF)] ∧ ¬ AllocSafe h := by
  obtain ⟨tr, h, hr, hl, hc⟩ := exists_run_of_replay (heapExec_step (n := 3))
    (P := fun _ h => decide (h.live.map (fun e => (e.ptr, e.size)) = [(0x2000018, 0xFFFFFFFFFFFFFFFF)]))
    (s := ⟨Memory.boot fun _ => 0, []⟩) (l := [.kmalloc 0xFFFFFFFFFFFFFFFF]) (by decide +kernel)
  have hc := of_decide_eq_true hc
  refine ⟨tr, h, hr, hl, hc, ?_⟩
  intro hsafe
  obtain ⟨e, he, hp⟩ := List.mem_map.1 (hc ▸ List.mem_singleton_self _ : _ ∈ h.live.map _)
  have := (hsafe.inside e he).2
  simp only [Prod.mk.injEq] at hp
  rw [hp.1, hp.2, heapEnd_eq] at this
  exact absurd this (by decide)

end Zer0S
