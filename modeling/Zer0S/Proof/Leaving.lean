import Zer0S.Proof.ProcessOps

/-!
# Does a process that exits or sleeps give up the CPU?

`process_exit` and `process_sleep` write ZOMBIE or SLEEPING to the current process and call
`process_yield`, which does nothing without a queue, and else runs the head of the queue without
looking at its state. So the process stays current when nobody waits, and it runs again when it is
itself the head of the queue, as after `process_wakeup` of a sleeper that stayed current.

`leave_gives_up_iff`: these are the only two ways, and the calls always return.
-/

namespace Zer0S

open Lib

variable {k k' : Kernel} {c : Copy} {n : ℕ} {p : Slot} {op : ProcessOp}

/-- The two calls with which a process gives up the CPU for good, or for a while. -/
def Leaves (op : ProcessOp) : Prop := (∃ code, op = .exit code) ∨ ∃ ticks, op = .sleep ticks

/-- The process `p` is neither current nor RUNNING. -/
def GaveUp (p : Slot) (k : Kernel) : Prop := k.currentProcess ≠ some p ∧ k.state p ≠ .running

/-- The head of the ready queue is a process other than `p`. -/
def OtherWaits (p : Slot) (k : Kernel) : Prop := ∃ q, k.readyQueue = some q ∧ q ≠ p

/-- `process_yield` returns at once when nobody is put back. -/
theorem yield_returns (hb : back k = []) : ∃ k', processYield c n k = some k' := by
  cases hr : k.readyQueue with
  | none => exact ⟨k, by rw [processYield, hr]⟩
  | some q =>
    refine ⟨dispatch c q k, ?_⟩
    have h : requeue n q k = some k := by
      unfold back at hb
      unfold requeue
      cases hcur : k.currentProcess with
      | none => rfl
      | some current =>
        rw [hcur] at hb
        simp only [ite_eq_right_iff, List.cons_ne_nil, imp_false] at hb
        simp only [if_neg hb]
    rw [processYield, hr]
    simp only [h, Option.map_some]

/-- **`process_exit` and `process_sleep` return.** -/
theorem leave_returns (hop : Leaves op) (k : Kernel) : ∃ k', ProcessStep c k op k' := by
  cases hcur : k.currentProcess with
  | none =>
    rcases hop with ⟨code, rfl⟩ | ⟨ticks, rfl⟩
    · exact ⟨k, 0, by rw [processExec, processExit, hcur]⟩
    · exact ⟨k, 0, by rw [processExec, processSleep, hcur]⟩
  | some current =>
    -- a process that is no longer RUNNING is not put back, so there is no loop
    have hy : ∀ k₁ v, SameQueue k k₁ → v ≠ .running → ∃ k', processYield c 0 (k₁.setState current v) = some k' :=
      fun k₁ v hq hv => yield_returns (leave_back hcur hv hq).1
    rcases hop with ⟨code, rfl⟩ | ⟨ticks, rfl⟩
    · simp only [ProcessStep, processExec, processExit, hcur]
      split_ifs
      · obtain ⟨k', h⟩ := hy _ .zombie (sameQueue_print k _) (by decide)
        exact ⟨k', 0, h⟩
      · obtain ⟨k', h⟩ := hy k .zombie (.refl k) (by decide)
        exact ⟨k', 0, h⟩
    · simp only [ProcessStep, processExec, processSleep, hcur]
      obtain ⟨k', h⟩ := hy (k.modify current fun x => { x with sleepUntil := ticks }) .sleeping
        (sameQueue_modify _ _ _ (fun _ => rfl) fun _ => rfl) (by decide)
      exact ⟨k', 0, h⟩

/-- **Step.** The current process gives up the CPU exactly when another one is at the head of the
queue. -/
theorem leave_gaveUp (hop : Leaves op) (hcur : k.currentProcess = some p) (hs : ProcessStep c k op k') :
    GaveUp p k' ↔ OtherWaits p k := by
  rcases leave_effect hop hs with ⟨hnone, -⟩ | ⟨current, v, hc, hv, -, ⟨hr, hc', -⟩ | ⟨q, hr, hc', hst⟩⟩
  · rw [hcur] at hnone
    cases hnone
  · -- nobody waits, and the process stays current
    obtain rfl : p = current := Option.some.inj (hcur.symm.trans hc)
    apply iff_of_false (fun h => h.1 hc')
    rintro ⟨q, hq, -⟩
    rw [hr] at hq
    cases hq
  · -- the head of the queue becomes current; it may be `p` itself
    obtain rfl : p = current := Option.some.inj (hcur.symm.trans hc)
    constructor
    · intro h
      exact ⟨q, hr, fun hqp => h.1 (hqp ▸ hc')⟩
    · rintro ⟨q', hq', hne⟩
      obtain rfl : q = q' := Option.some.inj (hr.symm.trans hq')
      refine ⟨fun h => hne (Option.some.inj (hc'.symm.trans h)), ?_⟩
      rw [hst, Function.update_of_ne hne.symm, Function.update_self]
      rcases hv with rfl | rfl <;> decide

/-- **Exit and sleep give up the CPU**, at any step of any run, exactly when another process is at the
head of the queue before it; and they return in every state reached. -/
theorem leave_gives_up_iff {m : Memory} {tr : List (Transition Kernel ProcessOp)}
    (hr : Run (ProcessStep c) (processInit (Kernel.boot m)) tr k) :
    (∀ e ∈ tr, Leaves e.label → ∀ p, e.pre.currentProcess = some p →
      (GaveUp p e.post ↔ OtherWaits p e.pre)) ∧
    ∀ op, Leaves op → ∃ k', ProcessStep c k op k' :=
  ⟨fun e he hop _ hcur => leave_gaveUp hop hcur (hr.step_of_mem e he), fun _ hop => leave_returns hop k⟩

/-- Two processes, the first of which exits. -/
theorem leave_gives_up_two : ∃ tr k e, Run (ProcessStep .second)
      (processInit (Kernel.boot (Memory.boot fun _ => 0))) tr k ∧
    tr.map Transition.label =
      [.create [0x41, 0] 0x100000 128 1, .create [0x42, 0] 0x100000 128 1, .yield, .exit 0] ∧
    e ∈ tr ∧ e.label = .exit 0 ∧ e.pre.currentProcess = some 1 ∧ GaveUp 1 e.post := by
  obtain ⟨tr, k, hr, hl, hk⟩ := exists_run_of_replay (processExec_step (c := .second) (n := 3))
    (P := fun tr _ => tr.any fun e => decide (e.label = .exit 0 ∧ e.pre.currentProcess = some 1 ∧
      e.pre.readyQueue = some 0))
    (s := processInit (Kernel.boot (Memory.boot fun _ => 0)))
    (l := [.create [0x41, 0] 0x100000 128 1, .create [0x42, 0] 0x100000 128 1, .yield, .exit 0]) (by decide +kernel)
  obtain ⟨e, he, hp⟩ := List.any_eq_true.1 hk
  obtain ⟨hlab, hcur, hq⟩ := of_decide_eq_true hp
  exact ⟨tr, k, e, hr, hl, he, hlab, hcur,
    ((leave_gives_up_iff hr).1 e he (Or.inl ⟨0, hlab⟩) 1 hcur).2 ⟨0, hq, by decide⟩⟩

/-- The only process exits and stays current, as a ZOMBIE. And a sleeper that stayed current, and is
woken up, runs again when it exits. -/
theorem leaver_stays_current :
    (∃ tr k, Run (ProcessStep .second) (processInit (Kernel.boot (Memory.boot fun _ => 0))) tr k ∧
      tr.map Transition.label = [.create [0x41, 0] 0x100000 128 1, .yield, .exit 0] ∧
      k.currentProcess = some 0 ∧ k.state 0 = .zombie ∧ ¬ GaveUp 0 k) ∧
    ∃ tr k, Run (ProcessStep .second) (processInit (Kernel.boot (Memory.boot fun _ => 0))) tr k ∧
      tr.map Transition.label = [.create [0x41, 0] 0x100000 128 1, .yield, .sleep 10, .wakeup (some 0), .exit 0] ∧
      k.currentProcess = some 0 ∧ k.state 0 = .running ∧ ¬ GaveUp 0 k := by
  constructor
  · obtain ⟨tr, k, hr, hl, hk⟩ := exists_run_of_replay (processExec_step (c := .second) (n := 2))
      (P := fun _ k => decide (k.currentProcess = some 0 ∧ k.state 0 = .zombie))
      (s := processInit (Kernel.boot (Memory.boot fun _ => 0)))
      (l := [.create [0x41, 0] 0x100000 128 1, .yield, .exit 0]) (by decide +kernel)
    obtain ⟨hc, hz⟩ := of_decide_eq_true hk
    exact ⟨tr, k, hr, hl, hc, hz, fun h => h.1 hc⟩
  · obtain ⟨tr, k, hr, hl, hk⟩ := exists_run_of_replay (processExec_step (c := .second) (n := 2))
      (P := fun _ k => decide (k.currentProcess = some 0 ∧ k.state 0 = .running))
      (s := processInit (Kernel.boot (Memory.boot fun _ => 0)))
      (l := [.create [0x41, 0] 0x100000 128 1, .yield, .sleep 10, .wakeup (some 0), .exit 0]) (by decide +kernel)
    obtain ⟨hc, hz⟩ := of_decide_eq_true hk
    exact ⟨tr, k, hr, hl, hc, hz, fun h => h.1 hc⟩

end Zer0S
