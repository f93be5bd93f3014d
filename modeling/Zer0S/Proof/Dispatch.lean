import Zer0S.Proof.ReadyQueue

/-!
# Only READY processes run

`process_yield` does not look at the state of the process it takes from the queue. The
queue holds only READY processes as long as no call changes the state of a process that
is linked in it (`DispatchOk`); then every process dispatched was READY
(`dispatched_ready`).
-/

namespace Zer0S

open Lib

variable {k k' : Kernel} {c : Copy} {n : ℕ} {l : List Slot} {p : Slot} {op : ProcessOp}

/-- A call that leaves the states of queued processes alone. -/
def DispatchOk (k : Kernel) : ProcessOp → Prop
  | .destroy proc => ∀ p, proc = some p → ¬ Linked k.next k.readyQueue p
  | .exit _ | .sleep _ => ∀ p, k.currentProcess = some p → ¬ Linked k.next k.readyQueue p
  | _ => True

/-- Every process dispatched so far was READY when it was taken from the queue. -/
def DispatchedReady (k : Kernel) : Prop := ∀ x ∈ k.dispatched, x.2 = .ready

/-- The queue holds only READY processes, and so it was so far. -/
structure ReadyOnly (k : Kernel) (l : List Slot) : Prop where
  queue : Queue k l
  ready : ∀ p ∈ l, k.state p = .ready
  log : DispatchedReady k

/-- A process that starts to run is the latest in the log, where it is READY. -/
def RunsFromLog (k k' : Kernel) : Prop :=
  ∀ p, k'.state p = .running → k.state p = .running ∨ k'.dispatched.head? = some (p, .ready)

theorem RunsFromLog.of_state (h : ∀ p, k'.state p = .running → k.state p = .running) : RunsFromLog k k' :=
  fun p hp => Or.inl (h p hp)

/-- One slot gets a state other than RUNNING. -/
theorem RunsFromLog.update {v : ProcState} (hst : k'.state = Function.update k.state p v) (hv : v ≠ .running) :
    RunsFromLog k k' := by
  refine .of_state fun q hq => ?_
  rw [hst] at hq
  by_cases hqp : q = p
  · rw [hqp, Function.update_self] at hq
    exact absurd hq hv
  · rwa [Function.update_of_ne hqp] at hq

/-- The process `q` is dispatched, and no other one starts to run. -/
theorem runsFromLog_head {q : Slot} {log : List (Slot × ProcState)} (hd : k'.dispatched = (q, .ready) :: log)
    (h : ∀ p ≠ q, k'.state p = .running → k.state p = .running) : RunsFromLog k k' := by
  intro p hp
  by_cases hpq : p = q
  · exact Or.inr (by rw [hd, hpq]; rfl)
  · exact Or.inl (h p hpq hp)

theorem ReadyOnly.back (h : ReadyOnly k l) : ∀ p ∈ back k, p ∉ l := by
  intro p hp hl
  have := h.ready p hl
  rw [mem_back hp] at this
  cases this

theorem ReadyOnly.notMem_free (h : ReadyOnly k l) (hf : findFreeProcess k = some p) : p ∉ l := by
  intro hl
  have hst := h.ready p hl
  rcases findFreeProcess_state hf with hs | hs <;> rw [hs] at hst <;> cases hst

theorem readyOnly_push (h : ReadyOnly k l) (hp : p ∉ l) (hst : k'.state = Function.update k.state p .ready)
    (hn : k'.next = Function.update k.next p k.readyQueue) (hr : k'.readyQueue = some p)
    (hd : k'.dispatched = k.dispatched) : ReadyOnly k' (p :: l) := by
  refine ⟨by rw [Queue, hn, hr]; exact h.queue.push hp, ?_, by rw [DispatchedReady, hd]; exact h.log⟩
  rw [hst, List.forall_mem_cons, Function.update_self]
  exact ⟨rfl, fun r hl => by rw [Function.update_of_ne (by rintro rfl; exact hp hl)]; exact h.ready r hl⟩

/-- A process that is not queued leaves. -/
theorem readyOnly_leave (h : ReadyOnly k l) (hs : ProcessStep c k op k')
    (hop : (∃ code, op = .exit code) ∨ ∃ ticks, op = .sleep ticks)
    (hok : ∀ p, k.currentProcess = some p → ¬ Linked k.next k.readyQueue p) :
    (∃ l', ReadyOnly k' l') ∧ RunsFromLog k k' := by
  rcases leave_cases hop hs with ⟨-, rfl⟩ | ⟨current, v, k₁, n, hcur, -, hvr, hsame, hy⟩
  · exact ⟨⟨l, h⟩, .of_state fun _ => id⟩
  have hnot : current ∉ l := fun hl => hok current hcur (h.queue.linked_iff.2 hl)
  have hst : ∀ p ∈ l, Function.update k.state current v p = .ready := fun p hl => by
    rw [Function.update_of_ne (by rintro rfl; exact hnot hl)]; exact h.ready p hl
  rcases leave_yield h.queue hcur hvr hsame hy with ⟨rfl, h1, h2, h3⟩ | ⟨q, t, rfl, h1, h2, h3⟩
  · exact ⟨⟨[], h1, by simp, by rw [DispatchedReady, h3]; exact h.log⟩, .update h2 hvr⟩
  · have hq := (List.nodup_cons.1 h.queue.nodup).1
    refine ⟨⟨t, h1, ?_, ?_⟩, runsFromLog_head (by rw [h3, hst q List.mem_cons_self]) fun p hp hpr => ?_⟩
    · intro p hp
      rw [h2, Function.update_of_ne (by rintro rfl; exact hq hp)]
      exact hst p (List.mem_cons_of_mem _ hp)
    · rw [DispatchedReady, h3, List.forall_mem_cons]
      exact ⟨hst q List.mem_cons_self, h.log⟩
    · rw [h2, Function.update_of_ne hp] at hpr
      by_cases hpc : p = current
      · rw [hpc, Function.update_self] at hpr
        exact absurd hpr hvr
      · rwa [Function.update_of_ne hpc] at hpr

/-- The head of the queue is dispatched. -/
theorem readyOnly_yield (h : ReadyOnly k l) (hs : ProcessStep c k .yield k') :
    (∃ l', ReadyOnly k' l') ∧ RunsFromLog k k' := by
  obtain ⟨n, hs⟩ := hs
  rcases yield_cases h.queue h.back hs with ⟨-, rfl⟩ | ⟨q, t, rfl, h1, h2, h3⟩
  · exact ⟨⟨l, h⟩, .of_state fun _ => id⟩
  · have hq := (List.nodup_cons.1 h.queue.nodup).1
    have hready := h.ready q List.mem_cons_self
    refine ⟨⟨_, h1, ?_, ?_⟩, runsFromLog_head (by rw [h3, hready]) fun p hp hpr => ?_⟩
    · intro r hr
      rw [h2]
      rcases List.mem_append.1 hr with hr | hr
      · rw [if_neg (by rintro rfl; exact hq hr)]
        split_ifs
        · rfl
        · exact h.ready r (List.mem_cons_of_mem _ hr)
      · rw [if_neg (by rintro rfl; exact h.back r hr List.mem_cons_self), if_pos hr]
    · rw [DispatchedReady, h3, List.forall_mem_cons]
      exact ⟨hready, h.log⟩
    · rw [h2, if_neg hp] at hpr
      split_ifs at hpr
      exact hpr

/-- **Step.** A call that meets the condition keeps the queue READY, and dispatches a
READY process if any. -/
theorem readyOnly_step (h : ReadyOnly k l) (hok : DispatchOk k op) (hs : ProcessStep c k op k') :
    (∃ l', ReadyOnly k' l') ∧ RunsFromLog k k' := by
  cases op with
  | create name entry priority flags =>
    rcases create_cases hs with ⟨-, rfl⟩ | ⟨p, n, stack, m, hf, -, hst, hd, ⟨-, hn, hr⟩ | ⟨-, hn, hr⟩⟩
    · exact ⟨⟨l, h⟩, .of_state fun _ => id⟩
    · -- without a stack the slot is READY, but not in the queue
      have hp := h.notMem_free hf
      refine ⟨⟨l, by rw [Queue, hn, hr]; exact h.queue.update hp none, fun r hl => ?_,
        by rw [DispatchedReady, hd]; exact h.log⟩, .update hst (by decide)⟩
      rw [hst, Function.update_of_ne (by rintro rfl; exact hp hl)]
      exact h.ready r hl
    · exact ⟨⟨_, readyOnly_push h (h.notMem_free hf) hst hn hr hd⟩, .update hst (by decide)⟩
  | destroy proc =>
    cases proc with
    | none =>
      obtain rfl := destroy_none hs
      exact ⟨⟨l, h⟩, .of_state fun _ => id⟩
    | some p =>
      obtain ⟨hst, hn, hr, hd⟩ := destroy_cases hs
      have hp : p ∉ l := fun hl => hok p rfl (h.queue.linked_iff.2 hl)
      refine ⟨⟨l, by rw [Queue, hn, hr]; exact h.queue, ?_, by rw [DispatchedReady, hd]; exact h.log⟩,
        .update hst (by decide)⟩
      intro r hl
      rw [hst, Function.update_of_ne (by rintro rfl; exact hp hl)]
      exact h.ready r hl
  | exit code => exact readyOnly_leave h hs (Or.inl ⟨code, rfl⟩) hok
  | sleep ticks => exact readyOnly_leave h hs (Or.inr ⟨ticks, rfl⟩) hok
  | yield => exact readyOnly_yield h hs
  | wakeup proc =>
    rcases wakeup_cases hs with rfl | ⟨p, -, hp, hst, hn, hr, hd⟩
    · exact ⟨⟨l, h⟩, .of_state fun _ => id⟩
    · refine ⟨⟨_, readyOnly_push h ?_ hst hn hr hd⟩, .update hst (by decide)⟩
      intro hl
      rw [h.ready p hl] at hp
      cases hp

/-- **Only READY processes are dispatched**, in every run whose calls leave the states of
queued processes alone: the log has them as READY, and what starts to run is in the log. -/
theorem dispatched_ready {m : Memory} {tr : List (Transition Kernel ProcessOp)}
    (hr : Run (ProcessStep c) (processInit (Kernel.boot m)) tr k)
    (hok : ∀ e ∈ tr, DispatchOk e.pre e.label) :
    DispatchedReady k ∧ ∀ e ∈ tr, DispatchedReady e.post ∧ RunsFromLog e.pre e.post := by
  have hstart : ReadyOnly (processInit (Kernel.boot m)) [] := by
    obtain ⟨-, -, hd⟩ := processInit_spec (Kernel.boot m)
    exact ⟨(exact_start m).queue, by simp, by rw [DispatchedReady, hd]; simp [Kernel.boot]⟩
  obtain ⟨⟨l, h⟩, htr⟩ := hr.invariant_of (I := fun k => ∃ l, ReadyOnly k l) ⟨[], hstart⟩
    (fun _ _ _ ⟨_, h⟩ hok hs => (readyOnly_step h hok hs).1) hok
  refine ⟨h.log, fun e he => ?_⟩
  obtain ⟨⟨l₁, h₁⟩, ⟨l₂, h₂⟩⟩ := htr e he
  exact ⟨h₂.log, (readyOnly_step h₁ (hok e he) (hr.step_of_mem e he)).2⟩

/-- With an empty queue every call meets the condition. -/
theorem dispatchOk_of_empty (h : k.readyQueue = none) (op : ProcessOp) : DispatchOk k op := by
  have hq : Queue k [] := h
  have hn : ∀ p, ¬ Linked k.next k.readyQueue p := fun p hp => by simpa using hq.linked_iff.1 hp
  cases op <;> first | trivial | exact fun p _ => hn p

/-- A run in which a process sleeps with an empty queue, is woken and runs again. -/
theorem dispatched_ready_wakeup : ∃ tr k, Run (ProcessStep .first)
      (processInit (Kernel.boot (Memory.boot fun _ => 0))) tr k ∧
    tr.map Transition.label = [.create [0x41, 0] 0x100000 128 1, .yield, .sleep 5, .wakeup (some 0), .yield] ∧
      k.dispatched.map Prod.fst = [0, 0] ∧ DispatchedReady k ∧
      ∀ e ∈ tr, DispatchedReady e.post ∧ RunsFromLog e.pre e.post := by
  obtain ⟨tr, k, hr, hl, hk⟩ := exists_run_of_replay (processExec_step (c := .first) (n := 2))
    (P := fun tr k => decide (k.dispatched.map Prod.fst = [0, 0] ∧
      ∀ e ∈ tr, e.pre.readyQueue = none ∨ e.label = .yield))
    (s := processInit (Kernel.boot (Memory.boot fun _ => 0)))
    (l := [.create [0x41, 0] 0x100000 128 1, .yield, .sleep 5, .wakeup (some 0), .yield]) (by decide +kernel)
  obtain ⟨h1, h2⟩ := of_decide_eq_true hk
  have hok : ∀ e ∈ tr, DispatchOk e.pre e.label := fun e he => by
    rcases h2 e he with h | h
    · exact dispatchOk_of_empty h _
    · rw [h]; trivial
  exact ⟨tr, k, hr, hl, h1, dispatched_ready hr hok⟩

/-- A process that is destroyed while it is queued is dispatched. -/
theorem destroyed_runs : ∃ tr k, Run (ProcessStep .first)
      (processInit (Kernel.boot (Memory.boot fun _ => 0))) tr k ∧
    tr.map Transition.label = [.create [0x41, 0] 0x100000 128 1, .destroy (some 0), .yield] ∧
      k.dispatched = [(0, .dead)] ∧ k.state 0 = .running ∧ ¬ DispatchedReady k := by
  obtain ⟨tr, k, hr, hl, hk⟩ := exists_run_of_replay (processExec_step (c := .first) (n := 2))
    (P := fun _ k => decide (k.dispatched = [(0, .dead)] ∧ k.state 0 = .running))
    (s := processInit (Kernel.boot (Memory.boot fun _ => 0)))
    (l := [.create [0x41, 0] 0x100000 128 1, .destroy (some 0), .yield]) (by decide +kernel)
  obtain ⟨h1, h2⟩ := of_decide_eq_true hk
  refine ⟨tr, k, hr, hl, h1, h2, ?_⟩
  intro h
  have := h (0, .dead) (by rw [h1]; simp)
  cases this

end Zer0S
