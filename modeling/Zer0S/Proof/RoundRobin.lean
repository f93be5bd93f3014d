import Zer0S.Proof.ProcessOps

/-!
# A round of `process_yield` is a rotation

The current process and the ready queue behind it form a ring (`Ring`). A yield turns the ring
by one place (`ring_yield`), so as many yields as the ring has places bring it back, with every
link as it was (`ring_round`).

`round_robin`: this is so in every state that is reached without a destruction, when creations
succeed and nobody leaves the CPU with an empty queue (`TurnOk`).
-/

namespace Zer0S

open Lib

variable {k k' : Kernel} {c : Copy} {n : ℕ} {l t : List Slot} {p q x : Slot} {op : ProcessOp}

/-! ## Links -/

/-- **`process_yield`** changes links of queued processes and of the process put back only. -/
theorem yield_next (hq : Queue k (q :: t)) (h : processYield c n k = some k') :
    k'.next q = none ∧ k'.currentProcess = some q ∧ ∀ x, x ∉ q :: t → x ∉ back k → k'.next x = k.next x := by
  have hr : k.readyQueue = some q := (chain_cons.1 hq).1
  have hlinks := (yield_rewired h).links
  rcases processYield_cases h with ⟨hnone, -⟩ | ⟨q', k₁, hr', -, rfl⟩
  · rw [hr] at hnone
    cases hnone
  obtain rfl : q = q' := Option.some.inj (hr.symm.trans hr')
  obtain ⟨-, hn, -, hcur, -⟩ := dispatch_queue c q k₁
  refine ⟨by rw [hn, Function.update_self], hcur, ?_⟩
  intro x hx hxb
  exact hlinks x (mt hq.linked_iff.1 hx) hxb

/-- After a yield with a queue, the process that runs is RUNNING and linked to nobody. -/
theorem yield_current (hq : Queue k (q :: t)) (hb : ∀ p ∈ back k, p ∉ q :: t)
    (h : processYield c n k = some k') (p : Slot) (hp : k'.currentProcess = some p) :
    k'.state p = .running ∧ k'.next p = none := by
  obtain ⟨hn, hcur, -⟩ := yield_next hq h
  obtain rfl : q = p := Option.some.inj (hcur.symm.trans hp)
  rcases yield_cases hq hb h with ⟨hnil, -⟩ | ⟨q', t', heq, -, hst, -⟩
  · cases hnil
  · obtain ⟨rfl, rfl⟩ := List.cons.inj heq
    exact ⟨by rw [hst, if_pos rfl], hn⟩

/-! ## The ring -/

/-- The current process, RUNNING, and behind it the queue of READY processes. -/
structure Ring (k : Kernel) (p : Slot) (l : List Slot) : Prop where
  current : k.currentProcess = some p
  running : k.state p = .running
  free : k.next p = none
  queue : Queue k l
  ready : ∀ q ∈ l, k.state q = .ready

theorem Ring.back (h : Ring k p l) : back k = [p] := by
  rw [Zer0S.back, h.current]
  simp only [if_pos h.running]

theorem Ring.notMem (h : Ring k p l) : p ∉ l := by
  intro hp
  have := h.ready p hp
  rw [h.running] at this
  cases this

/-- Outside the ring nothing changes. -/
def SameOutside (r : List Slot) (k k' : Kernel) : Prop :=
  ∀ x, x ∉ r → k'.state x = k.state x ∧ k'.next x = k.next x

/-- **A yield turns the ring.** -/
theorem ring_yield (h : Ring k p (q :: t)) (hy : processYield c n k = some k') :
    Ring k' q (t ++ [p]) ∧ SameOutside (p :: q :: t) k k' ∧ k'.dispatched = (q, .ready) :: k.dispatched := by
  have hb : ∀ x ∈ Zer0S.back k, x ∉ q :: t := by
    intro x hx
    rw [h.back, List.mem_singleton] at hx
    exact hx ▸ h.notMem
  obtain ⟨hn, hcur, hout⟩ := yield_next h.queue hy
  rcases yield_cases h.queue hb hy with ⟨hnil, -⟩ | ⟨q', t', heq, hq, hst, hd⟩
  · cases hnil
  obtain ⟨rfl, rfl⟩ := List.cons.inj heq
  rw [h.back] at hst hout hq
  have hpq : p ≠ q := fun e => h.notMem (e ▸ List.mem_cons_self)
  have hqt : q ∉ t := (List.nodup_cons.1 h.queue.nodup).1
  refine ⟨⟨hcur, by rw [hst, if_pos rfl], hn, hq, ?_⟩, ?_, ?_⟩
  · intro x hx
    rw [hst]
    rcases List.mem_append.1 hx with hx | hx
    · have hxp : x ≠ p := fun e => h.notMem (e ▸ List.mem_cons_of_mem _ hx)
      rw [if_neg (by rintro rfl; exact hqt hx), if_neg (by simpa using hxp)]
      exact h.ready x (List.mem_cons_of_mem _ hx)
    · rw [if_neg (by rintro rfl; exact hpq (List.mem_singleton.1 hx).symm), if_pos hx]
  · intro x hx
    simp only [List.mem_cons, not_or] at hx
    obtain ⟨hxp, hxq, hxt⟩ := hx
    refine ⟨?_, hout x (by simp [hxq, hxt]) (by simpa using hxp)⟩
    rw [hst, if_neg hxq, if_neg (by simpa using hxp)]
  · rw [hd, h.ready q List.mem_cons_self]

/-- A yield of the only process changes nothing. -/
theorem ring_yield_alone (h : Ring k p []) (hy : processYield c n k = some k') : k' = k := by
  have hr : k.readyQueue = none := h.queue
  rcases processYield_cases hy with ⟨-, rfl⟩ | ⟨q, k₁, hq, -, -⟩
  · rfl
  · rw [hr] at hq
    cases hq

/-- The processes of the ring determine every link and state of the ring. -/
theorem ring_unique (h : Ring k p l) (h' : Ring k' p l) (hs : SameOutside (p :: l) k k') :
    k'.state = k.state ∧ k'.next = k.next := by
  have hnext := h.queue.next_eq h'.queue
  refine ⟨funext ?_, funext ?_⟩
  · intro x
    by_cases hx : x = p
    · rw [hx, h.running, h'.running]
    · by_cases hl : x ∈ l
      · rw [h.ready x hl, h'.ready x hl]
      · exact (hs x (by simp [hx, hl])).1
  · intro x
    by_cases hx : x = p
    · rw [hx, h.free, h'.free]
    · by_cases hl : x ∈ l
      · exact hnext x hl
      · exact (hs x (by simp [hx, hl])).2

/-- One yield, with any number of processes. -/
theorem ring_step (h : Ring k p l) (hy : processYield c n k = some k') :
    ∃ p' l', l ++ [p] = p' :: l' ∧ Ring k' p' l' ∧ SameOutside (p :: l) k k' ∧
      (l ≠ [] → k'.dispatched = (p', .ready) :: k.dispatched) := by
  cases l with
  | nil =>
    obtain rfl := ring_yield_alone h hy
    exact ⟨p, [], rfl, h, fun x _ => ⟨rfl, rfl⟩, fun h => absurd rfl h⟩
  | cons q t =>
    obtain ⟨h1, h2, h3⟩ := ring_yield h hy
    exact ⟨q, t ++ [p], rfl, h1, h2, fun _ => h3⟩

/-- The processes that run next, one after each of the yields of a run. -/
def turns (tr : List (Transition Kernel ProcessOp)) : List (Option Slot) :=
  tr.map fun e => e.post.currentProcess

/-- **A run of yields** turns the ring by as many places. -/
theorem ring_run {tr : List (Transition Kernel ProcessOp)} (hr : Run (ProcessStep c) k tr k') :
    ∀ {n p l}, tr.map Transition.label = List.replicate n .yield → Ring k p l →
    ∃ p' l', (p :: l).rotate n = p' :: l' ∧ Ring k' p' l' ∧ SameOutside (p :: l) k k' ∧
      turns tr = (List.range n).map (fun i => ((p :: l).rotate (i + 1)).head?) ∧
      (l ≠ [] → k'.dispatched.map (fun x => some x.1) =
        (turns tr).reverse ++ k.dispatched.map fun x => some x.1) := by
  induction hr with
  | nil k =>
    intro n p l hl h
    obtain rfl : n = 0 := by simpa using hl.symm
    exact ⟨p, l, by simp, h, fun x _ => ⟨rfl, rfl⟩, rfl, fun _ => rfl⟩
  | @cons k k₁ k' i tr hs hr ih =>
    intro n p l hl h
    obtain ⟨n, rfl⟩ : ∃ n', n = n' + 1 := by
      cases n with
      | zero => cases hl
      | succ n => exact ⟨n, rfl⟩
    rw [List.replicate_succ, List.map_cons, List.cons.injEq] at hl
    obtain ⟨rfl, hl⟩ := hl
    obtain ⟨m, hy⟩ := hs
    obtain ⟨p₁, l₁, heq, h1, hout, hd⟩ := ring_step h hy
    obtain ⟨p', l', hrot, h2, hout', hturns, hd'⟩ := ih hl h1
    -- the ring stays the same set of processes
    have hmem : ∀ x, x ∈ p₁ :: l₁ ↔ x ∈ p :: l := fun x => by rw [← heq]; simp [or_comm]
    refine ⟨p', l', ?_, h2, ?_, ?_, ?_⟩
    · rw [List.rotate_cons_succ, heq, hrot]
    · intro x hx
      obtain ⟨a1, a2⟩ := hout x hx
      obtain ⟨b1, b2⟩ := hout' x (mt (hmem x).1 hx)
      exact ⟨b1.trans a1, b2.trans a2⟩
    · rw [turns, List.map_cons, ← turns, hturns, List.range_succ_eq_map, List.map_cons, List.map_map, h1.current]
      refine List.cons_eq_cons.2 ⟨?_, List.map_congr_left ?_⟩
      · rw [List.rotate_cons_succ, heq]
        simp
      · intro i _
        rw [Function.comp_apply, List.rotate_cons_succ (n := i + 1), heq]
    · intro hne
      have hne₁ : l₁ ≠ [] := by
        rintro rfl
        have := congrArg List.length heq
        simp at this
        exact hne this
      rw [hd' hne₁, hd hne, turns, turns, List.map_cons, List.map_cons, List.reverse_cons, h1.current]
      simp

/-- The heads of all rotations of a list are its elements. -/
theorem heads_rotate (l : List Slot) : (List.range l.length).map (fun i => (l.rotate i).head?) = l.map some := by
  apply List.ext_getElem (by simp)
  intro i h1 h2
  rw [List.length_map, List.length_range] at h1
  simp only [List.getElem_map, List.getElem_range, List.head?_rotate h1, List.getElem?_eq_getElem h1]

/-- **A full round** brings the ring back. -/
theorem ring_round {tr : List (Transition Kernel ProcessOp)} (h : Ring k p l) (hr : Run (ProcessStep c) k tr k')
    (hl : tr.map Transition.label = List.replicate (l.length + 1) .yield) :
    turns tr = (l ++ [p]).map some ∧ Ring k' p l ∧ k'.state = k.state ∧ k'.next = k.next ∧
      (l ≠ [] → k'.dispatched.map (fun x => some x.1) =
        ((l ++ [p]).map some).reverse ++ k.dispatched.map fun x => some x.1) := by
  obtain ⟨p', l', hrot, h', hout, hturns, hd⟩ := ring_run hr hl h
  -- as many yields as processes
  have : (p :: l).rotate (l.length + 1) = p :: l := List.rotate_length _
  rw [this, List.cons.injEq] at hrot
  obtain ⟨rfl, rfl⟩ := hrot
  have hturns : turns tr = (l ++ [p]).map some := by
    rw [hturns, ← heads_rotate]
    simp only [List.rotate_cons_succ, List.length_append, List.length_singleton]
  obtain ⟨hst, hn⟩ := ring_unique h h' hout
  exact ⟨hturns, h', hst, hn, fun hne => hturns ▸ hd hne⟩

/-- The calls can be made: each of the yields returns. -/
theorem ring_returns (c : Copy) : ∀ n {k p l}, Ring k p l → ∃ tr k', Run (ProcessStep c) k tr k' ∧
    tr.map Transition.label = List.replicate n .yield := by
  intro n
  induction n with
  | zero => exact fun {k} {p} {l} _ => ⟨[], k, .nil k, rfl⟩
  | succ n ih =>
    intro k p l h
    obtain ⟨m, k₁, hy⟩ : ∃ m k₁, processYield c m k = some k₁ := by
      have hs := processYield_spec h.queue (fun x hx => by
        rw [h.back, List.mem_singleton] at hx
        exact hx ▸ h.notMem) c
      cases l with
      | nil => exact ⟨0, k, hs⟩
      | cons q t =>
        obtain ⟨k₁, h1, -⟩ := hs
        exact ⟨_, k₁, h1⟩
    obtain ⟨p₁, l₁, -, h1, -⟩ := ring_step h hy
    obtain ⟨tr, k', hr, hl⟩ := ih h1
    exact ⟨⟨k, .yield, k₁⟩ :: tr, k', .cons ⟨m, hy⟩ hr, by rw [List.map_cons, hl, List.replicate_succ]⟩

/-! ## Runs -/

/-- A call that keeps the ring: a creation succeeds, nothing is destroyed, and nobody leaves the
CPU with an empty queue. -/
def TurnOk (k : Kernel) : ProcessOp → Prop
  | .create name entry priority flags =>
    ∃ rounds p k', processCreate rounds name entry priority flags k = some (some p, k')
  | .destroy _ => False
  | .exit _ | .sleep _ => k.readyQueue ≠ none
  | .yield | .wakeup _ => True

/-- The queue is exact, and a current process is RUNNING and linked to nobody. -/
structure Turn (k : Kernel) (l : List Slot) : Prop where
  exact : Exact k l
  current : ∀ p, k.currentProcess = some p → k.state p = .running ∧ k.next p = none

theorem Turn.ring (h : Turn k l) (hcur : k.currentProcess = some p) : Ring k p l :=
  ⟨hcur, (h.current p hcur).1, (h.current p hcur).2, h.exact.queue, fun q hq => (h.exact.ready q).1 hq⟩

/-- A call of the class keeps the queue exact. -/
theorem Turn.queueOk (h : Turn k l) (hok : TurnOk k op) : QueueOk k op := by
  cases op with
  | create name entry priority flags =>
    right
    obtain ⟨rounds, p, k', hc⟩ := hok
    obtain ⟨-, stack, m, hk, h0⟩ := processCreate_result hc
    exact ⟨rounds, stack, m, hk, h0⟩
  | destroy proc => exact hok.elim
  | exit code => exact fun p hcur hready => by rw [(h.current p hcur).1] at hready; cases hready
  | sleep ticks => exact fun p hcur hready => by rw [(h.current p hcur).1] at hready; cases hready
  | yield => trivial
  | wakeup proc => trivial

/-- **Step.** A call of the class keeps the ring. -/
theorem turn_step (h : Turn k l) (hok : TurnOk k op) (hs : ProcessStep c k op k') : ∃ l', Turn k' l' := by
  obtain ⟨l', hx⟩ := exact_step h.exact (h.queueOk hok) hs
  refine ⟨l', hx, ?_⟩
  -- a process linked in at the head is not the current one
  have push : ∀ x v, k.state x ≠ .running → k'.state = Function.update k.state x .ready →
      k'.next = Function.update k.next x v → k'.currentProcess = k.currentProcess →
      ∀ p, k'.currentProcess = some p → k'.state p = .running ∧ k'.next p = none := by
    intro x v hx hst hn hc p hp
    obtain ⟨h1, h2⟩ := h.current p (hc ▸ hp)
    have hpx : p ≠ x := fun e => hx (e ▸ h1)
    rw [hst, hn, Function.update_of_ne hpx, Function.update_of_ne hpx]
    exact ⟨h1, h2⟩
  have leave : (∃ code, op = .exit code) ∨ (∃ ticks, op = .sleep ticks) → k.readyQueue ≠ none →
      ∀ p, k'.currentProcess = some p → k'.state p = .running ∧ k'.next p = none := by
    intro hop hne
    rcases leave_cases hop hs with ⟨-, rfl⟩ | ⟨current, v, k₁, n, hcur, -, hv, hsame, hy⟩
    · exact h.current
    · obtain ⟨hq, hb, -⟩ := leave_queue h.exact.queue hcur hv hsame
      cases l with
      | nil => exact absurd h.exact.queue hne
      | cons q t => exact yield_current hq (by simp [hb]) hy
  cases op with
  | create name entry priority flags =>
    have hc := create_current hs
    have hfree : ∀ x, findFreeProcess k = some x → k.state x ≠ .running := by
      intro x hx
      rcases findFreeProcess_state hx with hx | hx <;> rw [hx] <;> decide
    rcases create_cases hs with ⟨-, rfl⟩ | ⟨x, n, stack, m, hf, -, hst, -, ⟨-, hn, -⟩ | ⟨-, hn, -⟩⟩
    · exact h.current
    · exact push x none (hfree x hf) hst hn hc
    · exact push x k.readyQueue (hfree x hf) hst hn hc
  | destroy proc => exact hok.elim
  | exit code => exact leave (Or.inl ⟨code, rfl⟩) hok
  | sleep ticks => exact leave (Or.inr ⟨ticks, rfl⟩) hok
  | yield =>
    obtain ⟨n, hs⟩ := hs
    cases l with
    | nil =>
      have hr : k.readyQueue = none := h.exact.queue
      simp only [processExec, processYield, hr, Option.some.injEq] at hs
      exact hs ▸ h.current
    | cons q t => exact yield_current h.exact.queue h.exact.back hs
  | wakeup proc =>
    have hc := wakeup_current hs
    rcases wakeup_cases hs with rfl | ⟨x, -, hsl, hst, hn, -, -⟩
    · exact h.current
    · exact push x k.readyQueue (by rw [hsl]; decide) hst hn hc

/-- The queue is exact in every state of a run of the class, and the current process is RUNNING. -/
theorem turn_run {m : Memory} {tr : List (Transition Kernel ProcessOp)}
    (hr : Run (ProcessStep c) (processInit (Kernel.boot m)) tr k) (hok : ∀ e ∈ tr, TurnOk e.pre e.label) :
    ∃ l, Turn k l := by
  have hstart : Turn (processInit (Kernel.boot m)) [] := by
    refine ⟨exact_start m, ?_⟩
    intro p hp
    rw [(processInit_vars (Kernel.boot m)).1] at hp
    cases hp
  exact (hr.invariant_of (I := fun k => ∃ l, Turn k l) ⟨[], hstart⟩
    (fun _ _ _ ⟨_, h⟩ hok hs => turn_step h hok hs) hok).1

/-- **Round robin is a rotation.** In a state reached by calls of the class, with a current
process `p`, the queue is a list `l` of processes, as many yields as there are processes can be
made, and any such run lets the processes of `l` run in order and then `p`, and leaves the current
process, the queue, and the state and the link of every process as they were. -/
theorem round_robin {m : Memory} {tr : List (Transition Kernel ProcessOp)}
    (hr : Run (ProcessStep c) (processInit (Kernel.boot m)) tr k) (hok : ∀ e ∈ tr, TurnOk e.pre e.label)
    (hcur : k.currentProcess = some p) :
    ∃ l, Queue k l ∧ (l ++ [p]).Nodup ∧
      (∃ tr' k', Run (ProcessStep c) k tr' k' ∧
        tr'.map Transition.label = List.replicate (l.length + 1) .yield) ∧
      ∀ tr' k', Run (ProcessStep c) k tr' k' →
        tr'.map Transition.label = List.replicate (l.length + 1) .yield →
        turns tr' = (l ++ [p]).map some ∧ k'.currentProcess = k.currentProcess ∧ Queue k' l ∧
          k'.state = k.state ∧ k'.next = k.next ∧
          (l ≠ [] → k'.dispatched.map (fun x => some x.1) =
            ((l ++ [p]).map some).reverse ++ k.dispatched.map fun x => some x.1) := by
  obtain ⟨l, ht⟩ := turn_run hr hok
  have h := ht.ring hcur
  refine ⟨l, h.queue, ?_, ring_returns c _ h, ?_⟩
  · rw [List.nodup_append_comm]
    exact List.nodup_cons.2 ⟨h.notMem, h.queue.nodup⟩
  · intro tr' k' hr' hl
    obtain ⟨h1, h2, h3, h4, h5⟩ := ring_round h hr' hl
    exact ⟨h1, h2.current.trans hcur.symm, h2.queue, h3, h4, h5⟩

/-- A call of the class, as a test with a bound on the rounds of `kmalloc`. -/
def turnTest (rounds : ℕ) (k : Kernel) : ProcessOp → Bool
  | .create name entry priority flags =>
    match processCreate rounds name entry priority flags k with
    | some (some _, _) => true
    | _ => false
  | .yield | .wakeup _ => true
  | _ => false

theorem turnOk_of_test (h : turnTest n k op = true) : TurnOk k op := by
  cases op with
  | create name entry priority flags =>
    unfold turnTest at h
    simp only at h
    split at h
    · rename_i p k' hc
      exact ⟨n, p, k', hc⟩
    · cases h
  | yield => trivial
  | wakeup proc => trivial
  | destroy proc => cases h
  | exit code => cases h
  | sleep ticks => cases h

/-- A run of three creations and a yield: process 2 runs, and 1 and 0 wait. Three yields bring it back. -/
theorem round_robin_three : ∃ tr k, Run (ProcessStep .first)
      (processInit (Kernel.boot (Memory.boot fun _ => 0))) tr k ∧
    tr.map Transition.label = [.create [0x41, 0] 0x100000 128 1, .create [0x42, 0] 0x100000 128 1,
      .create [0x43, 0] 0x100000 128 1, .yield] ∧ k.currentProcess = some 2 ∧
    ∃ tr' k', Run (ProcessStep .first) k tr' k' ∧ tr'.map Transition.label = [.yield, .yield, .yield] ∧
      turns tr' = [some 1, some 0, some 2] ∧ k'.currentProcess = some 2 ∧ k'.state = k.state ∧
      k'.next = k.next := by
  obtain ⟨tr, k, hr, hl, hk⟩ := exists_run_of_replay (processExec_step (c := .first) (n := 4))
    (P := fun tr k => decide (k.currentProcess = some 2 ∧
      (k.readyQueue = some 1 ∧ k.next 1 = some 0 ∧ k.next 0 = none) ∧
      ∀ e ∈ tr, turnTest 4 e.pre e.label = true))
    (s := processInit (Kernel.boot (Memory.boot fun _ => 0)))
    (l := [.create [0x41, 0] 0x100000 128 1, .create [0x42, 0] 0x100000 128 1,
      .create [0x43, 0] 0x100000 128 1, .yield]) (by decide +kernel)
  obtain ⟨hcur, hq, hok⟩ := of_decide_eq_true hk
  obtain ⟨l, hq', -, ⟨tr', k', hr', hl'⟩, hround⟩ :=
    round_robin hr (fun e he => turnOk_of_test (hok e he)) hcur
  have hq : Queue k [1, 0] := hq
  obtain rfl : l = [1, 0] := hq'.det hq
  obtain ⟨h1, h2, -, h3, h4, -⟩ := hround tr' k' hr' hl'
  exact ⟨tr, k, hr, hl, hcur, tr', k', hr', hl', h1, h2.trans hcur, h3, h4⟩

end Zer0S
