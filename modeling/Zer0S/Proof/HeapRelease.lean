import Zer0S.Proof.HeapSafe

/-!
# Freeing everything

`kfree` merges a block with the next one, not with the one before it. So the order of the frees
decides whether the pieces rejoin (`heap_released`): when all pointers were freed, all blocks are
free, and there is one block exactly when there were no free neighbours since the last request.
No free neighbours appear when no block is freed behind a free one (`FreeOk`).

The invariant (`NoLeak`): every used block has a live pointer.
-/

namespace Zer0S

open Lib Tiling

variable {h h' : HeapState} {op : HeapOp} {l l' : List Seg} {s : Memory}

/-- Behind every used block's header is a live pointer. -/
def NoLeak (h : HeapState) (l : List Seg) : Prop :=
  ∀ p k, UsedBlock l p k → ∃ e ∈ h.live, e.ptr = BitVec.ofNat 64 p + sizeofHeapBlock

/-- The next block of a free block is used. -/
def NoFreePair (s : Memory) : Prop :=
  ∀ a, IsBlock s a → (heapBlock s.mem a).used = 0 → (heapBlock s.mem a).next ≠ 0 →
    (heapBlock s.mem (heapBlock s.mem a).next).used ≠ 0

/-- A free of a block that is not behind a free one. -/
def FreeOk (h : HeapState) : HeapOp → Prop
  | .kfree ptr => ∀ a, IsBlock h.s a → (heapBlock h.s.mem a).next = ptr - sizeofHeapBlock →
      (heapBlock h.s.mem a).used ≠ 0
  | _ => True

/-- The next request finds one free block of 8 MiB. -/
def OneBlock (s : Memory) : Prop :=
  (heapSetup s).heapHead = heapStart ∧ heapBlock (heapSetup s).mem heapStart = ⟨8 * 1024 * 1024, 0, 0⟩

instance (s : Memory) : Decidable (OneBlock s) := inferInstanceAs (Decidable (_ ∧ _))

/-! ## Memory and tiling -/

/-- A block in the middle of the list, as it is in memory. -/
theorem HeapInv.mid {pre post : List Seg} {b : Seg} (hi : HeapInv s (pre ++ b :: post)) :
    IsBlock s (BitVec.ofNat 64 (heapBase + Tiling.span 24 pre)) ∧
      heapBlock s.mem (BitVec.ofNat 64 (heapBase + Tiling.span 24 pre)) =
        header heapEnd (heapBase + Tiling.span 24 pre) b := by
  have hy : (heapBase + Tiling.span 24 pre, b) ∈ place 24 heapBase (pre ++ b :: post) := by
    rw [mem_place_append]
    right
    simp
  exact ⟨hi.isBlock_iff.2 (List.mem_map_of_mem hy), (hi.block hy).1⟩

/-- Its link to the block behind it. -/
theorem HeapInv.next_mid {pre post : List Seg} {b t : Seg} (hi : HeapInv s (pre ++ b :: t :: post)) :
    (header heapEnd (heapBase + Tiling.span 24 pre) b).next =
        BitVec.ofNat 64 (heapBase + Tiling.span 24 (pre ++ [b])) ∧
      (header heapEnd (heapBase + Tiling.span 24 pre) b).next ≠ 0 := by
  have he := hi.end_eq
  have hlt := heapEnd_lt
  simp only [span_append, span_cons, span_nil] at he ⊢
  have hn : heapBase + Tiling.span 24 pre + (24 + b.size) ≠ heapEnd := by omega
  simp only [header, nextOf, if_neg hn]
  exact ⟨by congr 1; omega, ofNat_ne_zero (by omega) (by omega)⟩

theorem header_used {e q : ℕ} {b : Seg} : (header e q b).used = 0 ↔ b.used = false := by
  cases hb : b.used <;> simp [header, hb]

/-- Free neighbours, in memory and in the tiling. -/
theorem noFreePair_iff (hi : HeapAt s l) : NoFreePair s ↔ Merged l := by
  rcases hi with ⟨h0, rfl⟩ | hi
  · refine iff_of_true ?_ (List.isChain_singleton _)
    intro a ha
    have hnil : Chain (nextBlock s.mem) (toPtr s.heapHead) [] := by rw [h0]; rfl
    exact absurd (hnil.linked_iff.1 ha) (by simp)
  constructor
  · intro hp
    apply List.isChain_iff_forall_rel_of_append_cons_cons.2
    rintro b t pre post rfl
    obtain ⟨hb, hh⟩ := hi.mid
    obtain ⟨hn, hn0⟩ := hi.next_mid
    have hi' : HeapInv s ((pre ++ [b]) ++ t :: post) := by simpa using hi
    have ht := hi'.mid.2
    by_contra hc
    simp only [not_or, Bool.not_eq_true] at hc
    have := hp _ hb (by rw [hh, header_used]; exact hc.1) (by rw [hh]; exact hn0)
    rw [hh, hn, ht] at this
    exact this (header_used.2 hc.2)
  · intro hm a ha hu hn
    obtain ⟨y, hy, rfl⟩ := List.mem_map.1 (hi.isBlock_iff.1 ha)
    obtain ⟨pre, post, rfl, hy1⟩ := exists_split_of_mem hy
    obtain ⟨-, hh⟩ := hi.mid
    rw [hy1, hh] at hu hn ⊢
    cases post with
    | nil =>
      -- the last block links to NULL
      have he := hi.end_eq
      simp only [span_append, span_cons, span_nil] at he
      exact absurd (if_pos (by omega)) hn
    | cons t post =>
      have hi' : HeapInv s ((pre ++ [y.2]) ++ t :: post) := by simpa using hi
      rw [hi.next_mid.1, hi'.mid.2, ne_eq, header_used]
      have := (List.isChain_append_cons_cons.1 hm).2.1
      simpa [header_used.1 hu] using this

/-- The first block, in memory and in the tiling. -/
theorem HeapInv.first {b : Seg} (hi : HeapInv s (b :: l)) :
    heapBlock s.mem heapStart = header heapEnd heapBase b := by
  have hi : HeapInv s ([] ++ b :: l) := hi
  have hh := hi.mid.2
  rwa [span_nil, Nat.add_zero, ← heapStart_eq] at hh

/-- One block of 8 MiB, in memory and in the tiling. -/
theorem oneBlock_iff (hi : HeapAt s l) : OneBlock s ↔ l = freshHeap := by
  have hi := hi.setup
  constructor
  · rintro ⟨-, hb⟩
    cases l with
    | nil => exact absurd rfl hi.ne_nil
    | cons b l =>
      have hh := hi.first
      rw [hb] at hh
      have hspan := hi.span
      rw [heapSpan_eq, span_cons] at hspan
      have hsize : b.size = 8388608 := by
        have := congrArg (fun x => x.size.toNat) hh
        simp only [header, toNat_ofNat (show b.size < 2 ^ 64 by omega)] at this
        exact this.symm
      have hused : b.used = false := header_used.1 (congrArg HeapBlock.used hh).symm
      have hl : l = [] := by
        cases l with
        | nil => rfl
        | cons t l =>
          rw [span_cons] at hspan
          omega
      rw [hl, freshHeap]
      cases b
      simp only at hsize hused
      rw [hsize, hused]
  · rintro rfl
    refine ⟨hi.head, ?_⟩
    have hh := hi.first
    have hn : nextOf heapEnd (heapBase + (24 + 8 * 1024 * 1024)) = 0 :=
      if_pos (by rw [heapBase_eq, heapEnd_eq])
    rw [hh, header, hn]
    rfl

/-! ## Steps -/

/-- **A request** takes a block that gets a live pointer, and leaves no free neighbours. -/
theorem kmalloc_release (hi : RunInv h l) (hn : NoLeak h l) {n : ℕ} {w ptr : Word} {s' : Memory}
    (hk : kmalloc n w h.s = some (ptr, s')) : ∃ l', RunInv ⟨s', handOut w ptr s' h.live⟩ l' ∧
      NoLeak ⟨s', handOut w ptr s' h.live⟩ l' ∧ (Merged l → Merged l') := by
  obtain ⟨-, l', hi', -⟩ := kmalloc_handOut hi hk
  refine ⟨l', hi', ?_⟩
  rcases kmalloc_cases hi.heap hk with ⟨-, rfl, rfl⟩ | ⟨-, -, rfl, hinv, -⟩ | ⟨-, p, l₁, hff, rfl, h0, hinv, -⟩
  · obtain rfl := hi'.heap.det hi.heap
    rw [handOut, if_pos rfl]
    exact ⟨hn, id⟩
  · obtain rfl := hi'.heap.det (Or.inr hinv)
    rw [handOut, if_pos rfl]
    exact ⟨hn, id⟩
  · obtain rfl := hi'.heap.det (Or.inr hinv)
    obtain ⟨m, -, -, hiff⟩ := usedAt_firstFit (by omega) hff
    refine ⟨?_, fun hm => merged_firstFit hm hff⟩
    intro q k hu
    rw [handOut, if_neg h0]
    rcases (hiff q k).1 hu with hu | ⟨rfl, -⟩
    · obtain ⟨e, he, hp⟩ := hn q k hu
      exact ⟨e, List.mem_cons_of_mem _ he, hp⟩
    · exact ⟨_, List.mem_cons_self, rfl⟩

/-- **A free** takes the live pointer of one block. Free neighbours stay, and there are new ones
only behind a free block. -/
theorem kfree_release (hi : RunInv h l) (hn : NoLeak h l) {ptr : Word} (hp : ptr = 0 ∨ ptr ∈ h.live.map Alloc.ptr) :
    ∃ l', RunInv ⟨kfree ptr h.s, h.live.filter fun e => e.ptr ≠ ptr⟩ l' ∧
      NoLeak ⟨kfree ptr h.s, h.live.filter fun e => e.ptr ≠ ptr⟩ l' ∧
      (FreeOk h (.kfree ptr) → Merged l → Merged l') ∧ (Merged l' → Merged l) := by
  obtain ⟨-, l', hi'⟩ := kfree_live hi hp
  refine ⟨l', hi', ?_⟩
  by_cases h0 : ptr = 0
  · -- NULL: nothing changes, and no live pointer is NULL
    have hk : kfree ptr h.s = h.s := by rw [kfree, if_pos h0]
    have hheap := hi'.heap
    simp only [hk] at hheap
    obtain rfl := hheap.det hi.heap
    refine ⟨?_, fun _ hm => hm, id⟩
    intro q k hu
    obtain ⟨e, he, hp⟩ := hn q k hu
    have := hi.heap.bounds hu
    refine ⟨e, List.mem_filter.2 ⟨he, decide_eq_true ?_⟩, hp⟩
    rw [hp, h0]
    exact ptr_ne_zero (by omega)
  · obtain ⟨e, he, rfl⟩ := List.mem_map.1 (hp.resolve_left h0)
    obtain ⟨p, k, hb⟩ := hi.live e he
    have hinv := hi.heap.inv_of_used hb.used
    have hfree := (heapInv_kfree hinv hb.used).1
    rw [← hb.ptr] at hfree
    obtain rfl := hi'.heap.det (Or.inr hfree)
    constructor
    · intro q j hu
      obtain ⟨hu, hqp⟩ := (usedAt_release (by omega) hb.used).1 hu
      obtain ⟨d, hd, hdp⟩ := hn q j hu
      have h1 := hi.heap.bounds hu
      have h2 := hi.heap.bounds hb.used
      refine ⟨d, List.mem_filter.2 ⟨hd, decide_eq_true fun hde => hqp ?_⟩, hdp⟩
      rw [hdp, hb.ptr] at hde
      exact ptr_inj (by omega) (by omega) hde
    · obtain ⟨pre, post, hl, hpa⟩ := exists_split_of_mem hb.used
      simp only at hl hpa
      subst hl
      rw [hpa, release_spec (by omega)]
      refine ⟨fun hok hm => merged_merge hm ?_, fun hm => merged_of_merge hm rfl⟩
      intro t ht
      -- the block before it
      obtain ⟨pre', rfl⟩ := List.getLast?_eq_some_iff.1 ht
      have hinv' : HeapInv h.s (pre' ++ t :: ⟨k, true⟩ :: post) := by simpa using hinv
      obtain ⟨hblock, hh⟩ := hinv'.mid
      have := hok _ hblock (by rw [hh, hinv'.next_mid.1, hb.addr, hpa])
      rw [hh, ne_eq, header_used] at this
      simpa using this

/-- **Step.** Every used block keeps a live pointer. A step that frees nothing behind a free
block leaves no free neighbours, and free neighbours stay unless the step is a request. -/
theorem release_step (hi : RunInv h l) (hn : NoLeak h l) (hs : HeapStep h op h') :
    ∃ l', RunInv h' l' ∧ NoLeak h' l' ∧ (FreeOk h op → Merged l → Merged l') ∧
      ((∀ w, op ≠ .kmalloc w) → Merged l' → Merged l) := by
  cases hs with
  | @kmalloc n w ptr s' hk =>
    obtain ⟨l', h1, h2, h3⟩ := kmalloc_release hi hn hk
    exact ⟨l', h1, h2, fun _ => h3, fun hop => absurd rfl (hop w)⟩
  | kfree hp =>
    obtain ⟨l', h1, h2, h3, h4⟩ := kfree_release hi hn hp
    exact ⟨l', h1, h2, h3, fun _ => h4⟩
  | write he ha => exact ⟨l, (write_payload hi he ha _).2, hn, fun _ hm => hm, fun _ hm => hm⟩

/-! ## Runs -/

/-- The invariant of a run, for some list of blocks. -/
def Released (h : HeapState) : Prop := ∃ l, RunInv h l ∧ NoLeak h l

theorem released_start (hs : s.heapHead = 0) : Released ⟨s, []⟩ :=
  ⟨freshHeap, runInv_start hs, fun _ _ hu => absurd hu not_usedBlock_fresh⟩

theorem released_step (hr : Released h) (hs : HeapStep h op h') : Released h' := by
  obtain ⟨l, hi, hn⟩ := hr
  obtain ⟨l', h1, h2, -⟩ := release_step hi hn hs
  exact ⟨l', h1, h2⟩

/-- Without a request, free neighbours stay to the end of a run. -/
theorem noFreePair_back {tr : List (Transition HeapState HeapOp)} (hr : Run HeapStep h tr h') :
    Released h → (∀ e ∈ tr, ∀ w, e.label ≠ .kmalloc w) → NoFreePair h'.s → NoFreePair h.s := by
  induction hr with
  | nil => exact fun _ _ hp => hp
  | @cons h h₁ h' op tr hs hr ih =>
    rintro ⟨l, hi, hn⟩ hop hp
    obtain ⟨l₁, h1, h2, -, h4⟩ := release_step hi hn hs
    have hp₁ := ih ⟨l₁, h1, h2⟩ (fun e he => hop e (List.mem_cons_of_mem _ he)) hp
    rw [noFreePair_iff h1.heap] at hp₁
    exact (noFreePair_iff hi.heap).2 (h4 (hop _ List.mem_cons_self) hp₁)

/-- A run that frees nothing behind a free block leaves no free neighbours. -/
theorem merged_run {tr : List (Transition HeapState HeapOp)} (hs : s.heapHead = 0)
    (hr : Run HeapStep ⟨s, []⟩ tr h) (hok : ∀ e ∈ tr, FreeOk e.pre e.label) : ∃ l, RunInv h l ∧ Merged l := by
  obtain ⟨⟨l, hi, -, hm⟩, -⟩ := hr.invariant_of (I := fun h => ∃ l, RunInv h l ∧ NoLeak h l ∧ Merged l)
    ⟨freshHeap, runInv_start hs, fun _ _ hu => absurd hu not_usedBlock_fresh, List.isChain_singleton _⟩
    (by
      rintro a i b ⟨l, hi, hn, hm⟩ hok hab
      obtain ⟨l', h1, h2, h3, -⟩ := release_step hi hn hab
      exact ⟨l', h1, h2, h3 hok hm⟩) hok
  exact ⟨l, hi, hm⟩

/-- Without live pointers there is no used block. -/
theorem all_free (hn : NoLeak h l) (hl : h.live = []) : ∀ b ∈ l, b.used = false := by
  intro b hb
  rw [← map_snd_place 24 heapBase l] at hb
  obtain ⟨⟨q, size, used⟩, hy, rfl⟩ := List.mem_map.1 hb
  cases used with
  | false => rfl
  | true =>
    obtain ⟨e, he, -⟩ := hn q size hy
    rw [hl] at he
    cases he

/-- All blocks are free, in memory and in the tiling. -/
theorem blocks_free (hi : HeapAt s l) (hf : ∀ b ∈ l, b.used = false) :
    ∀ a, IsBlock s a → (heapBlock s.mem a).used = 0 := by
  intro a ha
  rcases hi with ⟨h0, -⟩ | hi
  · have hnil : Chain (nextBlock s.mem) (toPtr s.heapHead) [] := by rw [h0]; rfl
    exact absurd (hnil.linked_iff.1 ha) (by simp)
  · obtain ⟨y, hy, rfl⟩ := List.mem_map.1 (hi.isBlock_iff.1 ha)
    rw [(hi.block hy).1, header_used]
    apply hf y.2
    rw [← map_snd_place 24 heapBase l]
    exact List.mem_map_of_mem hy

/-- Free blocks without free neighbours are one block. -/
theorem oneBlock_of_merged (hi : HeapAt s l) (hf : ∀ b ∈ l, b.used = false) (hm : Merged l) : OneBlock s := by
  rw [oneBlock_iff hi]
  have hi := hi.setup
  obtain ⟨b, rfl⟩ := merged_free hm hf hi.ne_nil
  have hspan := hi.span
  rw [heapSpan_eq, span_cons, span_nil] at hspan
  have hused := hf b List.mem_cons_self
  rw [freshHeap]
  cases b
  simp only at hspan hused ⊢
  rw [hused, show 8 * 1024 * 1024 = 8388608 from rfl]
  congr 2
  omega

/-- A heap of one free block answers a request as a fresh one does. -/
theorem kmalloc_oneBlock {fresh s' : Memory} (hi : HeapAt s l) (ho : OneBlock s) (h0 : fresh.heapHead = 0) {n : ℕ}
    {w ptr : Word} (hk : kmalloc n w fresh = some (ptr, s')) : ∃ n' s'', kmalloc n' w s = some (ptr, s'') := by
  obtain rfl := (oneBlock_iff hi).1 ho
  by_cases hw : w = 0
  · rw [kmalloc, if_pos hw] at hk
    simp only [Option.some.injEq, Prod.mk.injEq] at hk
    exact ⟨0, s, by rw [kmalloc, if_pos hw, ← hk.1]⟩
  · have h1 := kmalloc_eq (s := fresh) (Or.inl ⟨h0, rfl⟩) hw le_rfl
    have h2 := kmalloc_eq hi hw le_rfl
    cases hf : firstFit 24 32 (roundUp w).toNat heapBase freshHeap with
    | none =>
      rw [hf] at h1 h2
      have := kmalloc_det hk h1
      simp only [Prod.mk.injEq] at this
      exact ⟨_, _, this.1 ▸ h2⟩
    | some y =>
      rw [hf] at h1 h2
      have := kmalloc_det hk h1
      simp only [Prod.mk.injEq] at this
      exact ⟨_, tookBlock s w y.1, by rw [h2, this.1]⟩

/-- **Freeing everything.** At the end of a run, when no pointer is live, all blocks are free.
They are one free block of 8 MiB exactly when no state since the last request had free
neighbours, so always when no block was freed behind a free one. And then a request gets what
it gets from a fresh heap. -/
theorem heap_released {tr : List (Transition HeapState HeapOp)} (hs : s.heapHead = 0)
    (hr : Run HeapStep ⟨s, []⟩ tr h) (hl : h.live = []) :
    (∀ a, IsBlock h.s a → (heapBlock h.s.mem a).used = 0) ∧
    (OneBlock h.s ↔ ∀ tr₁ e tr₂, tr = tr₁ ++ e :: tr₂ → (∀ d ∈ tr₂, ∀ w, d.label ≠ .kmalloc w) →
      NoFreePair e.post.s) ∧
    ((∀ e ∈ tr, FreeOk e.pre e.label) → OneBlock h.s) ∧
    (OneBlock h.s → ∀ fresh n w ptr s', fresh.heapHead = 0 → kmalloc n w fresh = some (ptr, s') →
      ∃ n' s'', kmalloc n' w h.s = some (ptr, s'')) := by
  obtain ⟨⟨l, hi, hn⟩, htr⟩ := hr.invariant (released_start hs) fun _ _ _ h hs => released_step h hs
  have hf := all_free hn hl
  refine ⟨blocks_free hi.heap hf, ⟨?_, ?_⟩, ?_, ?_⟩
  · -- free neighbours would have stayed
    rintro ho tr₁ e tr₂ rfl hop
    obtain ⟨-, -, hr₂⟩ := hr.split
    apply noFreePair_back hr₂ (htr e (by simp)).2 hop
    rw [noFreePair_iff hi.heap, (oneBlock_iff hi.heap).1 ho]
    exact List.isChain_singleton _
  · intro hp
    refine oneBlock_of_merged hi.heap hf ((noFreePair_iff hi.heap).1 ?_)
    rcases List.eq_nil_or_concat tr with rfl | ⟨tr₁, e, rfl⟩
    · -- nothing happened
      cases hr
      exact (noFreePair_iff (runInv_start hs).heap).2 (List.isChain_singleton _)
    · rw [List.concat_eq_append] at hr hp
      obtain ⟨-, -, hr₂⟩ := hr.split
      cases hr₂
      exact hp tr₁ e [] rfl (by simp)
  · intro hok
    obtain ⟨l', hi', hm⟩ := merged_run hs hr hok
    obtain rfl := hi'.heap.det hi.heap
    exact oneBlock_of_merged hi.heap hf hm
  · intro ho fresh n w ptr s' h0 hk
    exact kmalloc_oneBlock hi.heap ho h0 hk

/-- Two blocks, the second freed first: the heap is one block again, and 8 MiB are granted. -/
theorem heap_released_two : ∃ tr h, Run HeapStep ⟨Memory.boot fun _ => 0, []⟩ tr h ∧
    tr.map Transition.label = [.kmalloc 64, .kmalloc 64, .kfree 0x2000070, .kfree 0x2000018] ∧
    OneBlock h.s ∧ (∀ a, IsBlock h.s a → (heapBlock h.s.mem a).used = 0) ∧
    ∃ n s', kmalloc n 0x800000 h.s = some (0x2000018, s') := by
  obtain ⟨tr, h, hr, hl, hc⟩ := exists_run_of_replay (heapExec_step (n := 4))
    (P := fun _ h => decide (OneBlock h.s ∧ h.live = []))
    (s := ⟨Memory.boot fun _ => 0, []⟩)
    (l := [.kmalloc 64, .kmalloc 64, .kfree 0x2000070, .kfree 0x2000018]) (by decide +kernel)
  obtain ⟨ho, hlive⟩ := of_decide_eq_true hc
  obtain ⟨hfree, -, -, hk⟩ := heap_released rfl hr hlive
  have hbig : ((kmalloc 2 0x800000 (Memory.boot fun _ => 0)).map Prod.fst) = some 0x2000018 := by decide +kernel
  obtain ⟨⟨ptr, s'⟩, hs', rfl⟩ := Option.map_eq_some_iff.1 hbig
  exact ⟨tr, h, hr, hl, ho, hfree, hk ho _ 2 _ _ s' rfl hs'⟩

/-- Two blocks, the first freed first: two free blocks remain, and 8 MiB are not granted, as they
are by a fresh heap. -/
theorem released_in_pieces : ∃ tr h, Run HeapStep ⟨Memory.boot fun _ => 0, []⟩ tr h ∧
    tr.map Transition.label = [.kmalloc 64, .kmalloc 64, .kfree 0x2000018, .kfree 0x2000070] ∧
    h.live = [] ∧ ¬ OneBlock h.s ∧ (kmalloc 3 0x800000 h.s).map Prod.fst = some 0 ∧
    (kmalloc 3 0x800000 (Memory.boot fun _ => 0)).map Prod.fst = some 0x2000018 := by
  obtain ⟨tr, h, hr, hl, hc⟩ := exists_run_of_replay (heapExec_step (n := 4))
    (P := fun _ h => decide (h.live = [] ∧ ¬ OneBlock h.s ∧ (kmalloc 3 0x800000 h.s).map Prod.fst = some 0 ∧
      (kmalloc 3 0x800000 (Memory.boot fun _ => 0)).map Prod.fst = some 0x2000018))
    (s := ⟨Memory.boot fun _ => 0, []⟩)
    (l := [.kmalloc 64, .kmalloc 64, .kfree 0x2000018, .kfree 0x2000070]) (by decide +kernel)
  exact ⟨tr, h, hr, hl, of_decide_eq_true hc⟩

end Zer0S
