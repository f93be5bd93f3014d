import Zer0S.Proof.ProcessOps

/-!
# At most one process is RUNNING

`process_yield` writes RUNNING to the head of the queue and makes it the current process
in one go. What it takes back from the old current process it takes back only when that is
RUNNING, so a RUNNING process is always the current one (`runningIsCurrent_step`). Nothing
is assumed about the queue: it may be cut or cyclic, and the current process may be dead,
or its slot reused.
-/

namespace Zer0S

open Lib

variable {k k' : Kernel} {c : Copy} {p : Slot} {op : ProcessOp}

/-- A process that is RUNNING is the current one. -/
def RunningIsCurrent (k : Kernel) : Prop := ∀ p, k.state p = .running → k.currentProcess = some p

/-- At most one process is RUNNING, and it is the current one. -/
structure SingleRunning (k : Kernel) : Prop where
  unique : ∀ p q, k.state p = .running → k.state q = .running → p = q
  current : ∀ p, k.state p = .running → k.currentProcess = some p

theorem RunningIsCurrent.single (h : RunningIsCurrent k) : SingleRunning k := by
  refine ⟨?_, h⟩
  intro p q hp hq
  exact Option.some.inj ((h p hp).symm.trans (h q hq))

/-- No process but the current one is RUNNING once that one has left the state. -/
theorem RunningIsCurrent.leave {current : Slot} {v : ProcState} (h : RunningIsCurrent k)
    (hcur : k.currentProcess = some current) (hv : v ≠ .running) :
    Function.update k.state current v p ≠ .running := by
  intro hp
  by_cases hpc : p = current
  · subst hpc
    rw [Function.update_self] at hp
    exact hv hp
  · rw [Function.update_of_ne hpc] at hp
    rw [h p hp] at hcur
    exact hpc (Option.some.inj hcur)

/-- A call that writes a state other than RUNNING to a slot, and yields to nobody. -/
theorem RunningIsCurrent.write {v : ProcState} (h : RunningIsCurrent k) (hv : v ≠ .running)
    (hst : k'.state = Function.update k.state p v) (hcur : k'.currentProcess = k.currentProcess) :
    RunningIsCurrent k' := by
  intro q hq
  rw [hst, Function.update_apply] at hq
  split_ifs at hq
  · exact absurd hq hv
  · rw [hcur]
    exact h q hq

/-- **Step.** Whatever the queue looks like, a RUNNING process is the current one after every
call that returns. -/
theorem runningIsCurrent_step (h : RunningIsCurrent k) (hs : ProcessStep c k op k') : RunningIsCurrent k' := by
  have leave : (∃ code, op = .exit code) ∨ (∃ ticks, op = .sleep ticks) → RunningIsCurrent k' := by
    intro hop
    rcases leave_effect hop hs with ⟨-, rfl⟩ | ⟨current, v, hcur, hv, -, ⟨-, hcur', hst⟩ | ⟨q, -, hcur', hst⟩⟩
    · exact h
    · have hv : v ≠ .running := by rcases hv with rfl | rfl <;> decide
      exact h.write hv hst (hcur'.trans hcur.symm)
    · -- the head of the queue is RUNNING now, and current
      intro p hp
      have hv : v ≠ .running := by rcases hv with rfl | rfl <;> decide
      rw [hst] at hp
      by_cases hpq : p = q
      · rw [hpq]
        exact hcur'
      · rw [Function.update_of_ne hpq] at hp
        exact absurd hp (h.leave hcur hv)
  cases op with
  | create name entry priority flags =>
    rcases create_effect hs with ⟨-, rfl⟩ | ⟨p, n, stack, m, proc, t, -, -, hp, -, hst, -, -, hcur, -⟩
    · exact h
    · refine h.write (v := .ready) (p := p) (by decide) ?_ hcur
      funext q
      by_cases hq : q = p
      · simp [Kernel.state, hp, hq, hst]
      · simp [Kernel.state, hp, hq]
  | destroy proc =>
    cases proc with
    | none =>
      obtain rfl := destroy_none hs
      exact h
    | some p =>
      obtain ⟨-, -, hcur, -⟩ := destroy_effect hs
      exact h.write (by decide) (destroy_cases hs).1 hcur
  | exit code => exact leave (Or.inl ⟨code, rfl⟩)
  | sleep ticks => exact leave (Or.inr ⟨ticks, rfl⟩)
  | yield =>
    obtain ⟨n, hs⟩ := hs
    rcases yield_effect hs with ⟨-, rfl⟩ | ⟨q, -, hcur, hst, -⟩
    · exact h
    · intro p hp
      rw [hst] at hp
      split_ifs at hp with hpq hpb
      · rw [hpq]
        exact hcur
      · -- `p` was running and is not the process put back, though it was the current one
        refine absurd ?_ hpb
        rw [back, h p hp]
        simp [hp]
  | wakeup proc =>
    rcases wakeup_effect hs with rfl | ⟨p, -, -, hst, hcur, -⟩
    · exact h
    · exact h.write (by decide) hst hcur

/-- **At most one process is RUNNING, and it is the current one**, in every state of every run
of calls that return. -/
theorem single_running {m : Memory} {tr : List (Transition Kernel ProcessOp)}
    (hr : Run (ProcessStep c) (processInit (Kernel.boot m)) tr k) :
    SingleRunning k ∧ ∀ e ∈ tr, SingleRunning e.post := by
  have hstart : RunningIsCurrent (processInit (Kernel.boot m)) := by
    intro p hp
    rw [Kernel.state, (processInit_spec (Kernel.boot m)).1] at hp
    cases hp
  obtain ⟨h, htr⟩ := hr.invariant hstart fun _ _ _ h hs => runningIsCurrent_step h hs
  exact ⟨h.single, fun e he => (htr e he).2.single⟩

/-- A run in which the current process is destroyed, its slot is reused, and the process that is
put back is the new one. -/
theorem single_running_reuse : ∃ tr k, Run (ProcessStep .second)
      (processInit (Kernel.boot (Memory.boot fun _ => 0))) tr k ∧
    tr.map Transition.label = [.create [0x41, 0] 0x100000 128 1, .yield, .destroy (some 0),
      .create [0x42, 0] 0x100000 128 1, .yield] ∧ k.state 0 = .running ∧ SingleRunning k ∧
      ∀ e ∈ tr, SingleRunning e.post := by
  obtain ⟨tr, k, hr, hl, hk⟩ := exists_run_of_replay (processExec_step (c := .second) (n := 2))
    (P := fun _ k => decide (k.state 0 = .running))
    (s := processInit (Kernel.boot (Memory.boot fun _ => 0)))
    (l := [.create [0x41, 0] 0x100000 128 1, .yield, .destroy (some 0), .create [0x42, 0] 0x100000 128 1,
      .yield]) (by decide +kernel)
  exact ⟨tr, k, hr, hl, of_decide_eq_true hk, single_running hr⟩

end Zer0S
