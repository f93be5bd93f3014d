import Zer0S.Proof.FirstFit

/-!
# Nested use of the heap

A caller that frees what it got last leaves the heap as it was (`nested_no_trace`), if it found no
two free neighbours: then what a request cuts off is merged again by its free, and a block that
was handed out as a whole has no free block behind it to merge with.

The invariant (`Nested`): behind the pointers held are the tilings that the requests found.
-/

namespace Zer0S

open Lib Tiling

variable {h : HeapState} {s : Memory} {a b : NestState} {op : NestOp} {l l₀ : List Seg} {held : List Word}

/-- The requests for the pointers `held` made the tiling `l` of `l₀`, one after the other, and none
of them found free neighbours. -/
inductive Nested (l₀ : List Seg) : List Word → List Seg → Prop
  | start : Nested l₀ [] l₀
  | null {held : List Word} {l : List Seg} : Nested l₀ held l → Nested l₀ (0 :: held) l
  | took {held : List Word} {l l' : List Seg} {r p : ℕ} : Nested l₀ held l → Merged l →
      firstFit 24 32 r heapBase l = some (p, l') →
      Nested l₀ ((BitVec.ofNat 64 p + sizeofHeapBlock) :: held) l'

/-- The invariant of nested use. -/
structure NestInv (l₀ : List Seg) (a : NestState) (l : List Seg) : Prop where
  heap : HeapInv a.s l
  merged : Merged l
  nested : Nested l₀ a.held l

/-- A request. -/
theorem nest_kmalloc (hi : NestInv l₀ a l) {n : ℕ} {w ptr : Word} {s' : Memory}
    (hk : kmalloc n w a.s = some (ptr, s')) : ∃ l', NestInv l₀ ⟨s', ptr :: a.held⟩ l' := by
  rcases kmalloc_cases (Or.inr hi.heap) hk with ⟨-, rfl, rfl⟩ | ⟨-, -, rfl, hinv, -⟩ |
    ⟨-, p, l', hff, rfl, -, hinv, -⟩
  · exact ⟨l, hi.heap, hi.merged, hi.nested.null⟩
  · exact ⟨l, hinv, hi.merged, hi.nested.null⟩
  · exact ⟨l', hinv, merged_firstFit hi.merged hff, hi.nested.took hi.merged hff⟩

/-- **A free** brings back the tiling that the request found. -/
theorem nest_kfree {ptr : Word} (hi : NestInv l₀ a l) (hh : a.held = ptr :: held) :
    ∃ l', NestInv l₀ ⟨kfree ptr a.s, held⟩ l' := by
  have hn := hi.nested
  rw [hh] at hn
  cases hn with
  | null hn =>
    rw [kfree, if_pos rfl]
    exact ⟨l, hi.heap, hi.merged, hn⟩
  | @took _ l' _ r p hn hm hff =>
    -- merging undoes the split, as the block behind it was not free
    obtain ⟨k, -, -, hiff⟩ := usedAt_firstFit (by omega) hff
    have hfree := (heapInv_kfree hi.heap ((hiff p k).2 (Or.inr ⟨rfl, rfl⟩))).1
    rw [release_firstFit (by omega) hm hff] at hfree
    exact ⟨l', hfree, hm, hn⟩

/-- **Step.** -/
theorem nest_step (hi : NestInv l₀ a l) (hs : NestStep a op b) : ∃ l', NestInv l₀ b l' := by
  obtain ⟨n, h⟩ := hs
  cases op with
  | kmalloc w =>
    obtain ⟨⟨ptr, s'⟩, hk, rfl⟩ := Option.map_eq_some_iff.1 h
    exact nest_kmalloc hi hk
  | kfree =>
    rw [nestExec] at h
    cases hh : a.held with
    | nil =>
      rw [hh] at h
      cases h
    | cons ptr held =>
      rw [hh] at h
      obtain rfl := Option.some.inj h
      exact nest_kfree hi hh

/-- **Nested use leaves no trace.** From an initialised heap without free neighbours, calls that
free in reverse order what they took, and leave nothing taken, bring back the same list of blocks
with the same headers. No request gets stuck on the way. -/
theorem nested_no_trace {tr : List (Transition HeapState HeapOp)} (hs : s.heapHead = 0)
    (hr : Run HeapStep ⟨s, []⟩ tr h) (h0 : h.s.heapHead ≠ 0) (hp : NoFreePair h.s)
    {tr' : List (Transition NestState NestOp)} (hn : Run NestStep ⟨h.s, []⟩ tr' b) :
    (b.held = [] → SameBlocks h.s b.s) ∧ ∀ w, ∃ n x, kmalloc n w b.s = some x := by
  obtain ⟨⟨l, hi⟩, -⟩ := runInv_run hs hr
  have hinv := hi.heap.resolve_left fun hf => h0 hf.1
  have hstart : NestInv l ⟨h.s, []⟩ l := ⟨hinv, (noFreePair_iff hi.heap).1 hp, .start⟩
  obtain ⟨⟨l', hi'⟩, -⟩ := hn.invariant (I := fun a => ∃ l', NestInv l a l') ⟨l, hstart⟩
    fun _ _ _ ⟨_, hi⟩ hs => nest_step hi hs
  refine ⟨?_, kmalloc_returns (Or.inr hi'.heap)⟩
  intro hb
  -- nothing is held, so the tiling is the one at the start
  have hnil := hi'.nested
  rw [hb] at hnil
  cases hnil
  exact hinv.same hi'.heap

/-- Three requests, one of which fails, inside a heap with a used and a free block. -/
theorem nested_no_trace_three : ∃ tr h tr' b, Run HeapStep ⟨Memory.boot fun _ => 0, []⟩ tr h ∧
    tr.map Transition.label = [.kmalloc 64] ∧ Run NestStep ⟨h.s, []⟩ tr' b ∧
    tr'.map Transition.label = [.kmalloc 100, .kmalloc 0x800000, .kmalloc 8, .kfree, .kfree, .kfree] ∧
    SameBlocks h.s b.s := by
  obtain ⟨tr, h, hr, hl, hc⟩ := exists_run_of_replay (heapExec_step (n := 3))
    (P := fun _ h => decide (h.s.heapHead ≠ 0) && (replay (nestExec 5) ⟨h.s, []⟩
      [.kmalloc 100, .kmalloc 0x800000, .kmalloc 8, .kfree, .kfree, .kfree]).any fun r => r.2.held.isEmpty)
    (s := ⟨Memory.boot fun _ => 0, []⟩) (l := [.kmalloc 64]) (by decide +kernel)
  rw [Bool.and_eq_true] at hc
  obtain ⟨tr', b, hn, hl', hb⟩ := exists_run_of_replay nestExec_step (P := fun _ b => b.held.isEmpty) hc.2
  -- there was no free, so there are no free neighbours
  have hok : ∀ e ∈ tr, FreeOk e.pre e.label := by
    intro e he
    have he := List.mem_map_of_mem (f := Transition.label) he
    rw [hl, List.mem_singleton] at he
    rw [he]
    trivial
  obtain ⟨l, hi, hm⟩ := merged_run rfl hr hok
  exact ⟨tr, h, tr', b, hr, hl, hn, hl',
    (nested_no_trace rfl hr (of_decide_eq_true hc.1) ((noFreePair_iff hi.heap).2 hm) hn).1
      (List.isEmpty_iff.1 hb)⟩

end Zer0S
