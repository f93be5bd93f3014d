import Zer0S.Proof.ProcessOps

/-!
# Three notions of a slot in use

`find_free_process` gives out slots that are UNUSED or DEAD, and `process_list` shows all others.
`process_get_by_pid` passes over UNUSED slots only, so it still returns a process that was
destroyed, until its slot is given out again.

* `processList_shows`, `processGetByPid_finds`: what the last two say about the slots, as
  `findFreeProcess_eq_some` does for the first.
* `lookup_agrees_iff`: they agree on a pid, except while it is found in DEAD slots only.
-/

namespace Zer0S

open Lib

variable {k k' : Kernel} {c : Copy} {i : Slot} {pid : Word} {op : ProcessOp}

/-- `process_list` prints a row with the pid. -/
def Shows (k : Kernel) (pid : Word) : Prop := ∃ t, processList k = k.print t ∧ Print.hex pid ∈ t

/-- `process_get_by_pid` finds the pid when `process_list` shows it, that is when a slot with the
pid is one that `find_free_process` would not give out. -/
structure LookupAgrees (k : Kernel) (pid : Word) : Prop where
  listed : processGetByPid pid k ≠ none ↔ Shows k pid
  kept : Shows k pid ↔ ∃ i, (k.processes i).pid = pid ∧ ¬ Reusable k i

/-- A DEAD slot has the pid, and no slot in use has it. -/
def DeadOnly (k : Kernel) (pid : Word) : Prop :=
  (∃ i, (k.processes i).pid = pid ∧ k.state i = .dead) ∧ ∀ i, (k.processes i).pid = pid → Reusable k i

instance (k : Kernel) (pid : Word) : Decidable (DeadOnly k pid) := inferInstanceAs (Decidable (_ ∧ _))

/-! ## The functions -/

/-- **`process_list`** shows the slots that may not be given out. -/
theorem processList_shows : Shows k pid ↔ ∃ i, (k.processes i).pid = pid ∧ ¬ Reusable k i := by
  have hrows : ∀ t, processList k = k.print t →
      (Print.hex pid ∈ t ↔ ∃ i, (k.processes i).pid = pid ∧ ¬ Reusable k i) := by
    intro t ht
    rw [← Kernel.print_inj ht]
    simp [Reusable, eq_comm, and_comm]
  constructor
  · rintro ⟨t, ht, hm⟩
    exact (hrows t ht).1 hm
  · intro h
    exact ⟨_, rfl, (hrows _ rfl).2 h⟩

/-- **`process_get_by_pid`** finds the slots that are not UNUSED. -/
theorem processGetByPid_finds :
    processGetByPid pid k ≠ none ↔ ∃ i, (k.processes i).pid = pid ∧ k.state i ≠ .unused := by
  simp [processGetByPid, List.find?_eq_none]

/-- They agree on a pid, in any state, unless it is found in DEAD slots only. -/
theorem lookupAgrees_iff : LookupAgrees k pid ↔ ¬ DeadOnly k pid := by
  constructor
  · rintro ⟨hl, -⟩ ⟨⟨i, hp, hd⟩, hall⟩
    obtain ⟨j, hj, hr⟩ := processList_shows.1 (hl.1 (processGetByPid_finds.2 ⟨i, hp, by rw [hd]; decide⟩))
    exact hr (hall j hj)
  · intro hd
    refine ⟨?_, processList_shows⟩
    rw [processGetByPid_finds, processList_shows]
    constructor
    · rintro ⟨i, hp, hu⟩
      by_contra hno
      have hall : ∀ j, (k.processes j).pid = pid → Reusable k j := fun j hj => by
        by_contra hr
        exact hno ⟨j, hj, hr⟩
      exact hd ⟨⟨i, hp, (hall i hp).resolve_left hu⟩, hall⟩
    · rintro ⟨i, hp, hr⟩
      exact ⟨i, hp, fun hu => hr (Or.inl hu)⟩

/-! ## Runs -/

/-- No slot is DEAD. -/
def NoneDead (k : Kernel) : Prop := ∀ i, k.state i ≠ .dead

theorem NoneDead.update {v : ProcState} (h : NoneDead k) (hv : v ≠ .dead)
    (hst : k'.state = Function.update k.state i v) : NoneDead k' := by
  unfold NoneDead
  rw [hst]
  exact update_ne h hv

/-- **Step.** Only `process_destroy` makes a slot DEAD. -/
theorem noneDead_step (h : NoneDead k) (hop : ∀ p, op ≠ .destroy (some p)) (hs : ProcessStep c k op k') :
    NoneDead k' := by
  have leave : (∃ code, op = .exit code) ∨ (∃ ticks, op = .sleep ticks) → NoneDead k' := by
    intro hop
    rcases leave_effect hop hs with ⟨-, rfl⟩ | ⟨current, v, -, hv, -, hst⟩
    · exact h
    · have hv : v ≠ .dead := by rcases hv with rfl | rfl <;> decide
      rcases hst with ⟨-, -, hst⟩ | ⟨q, -, -, hst⟩
      · exact h.update hv hst
      · unfold NoneDead
        rw [hst]
        exact update_ne (update_ne h hv) (by decide)
  cases op with
  | create name entry priority flags =>
    rcases create_effect hs with ⟨-, rfl⟩ | ⟨p, n, stack, m, proc, t, -, -, hp, -, hst, -⟩
    · exact h
    · intro j hj
      rw [Kernel.state, hp, Function.update_apply] at hj
      split_ifs at hj
      · rw [hst] at hj
        cases hj
      · exact h j hj
  | destroy proc =>
    cases proc with
    | none =>
      obtain rfl := destroy_none hs
      exact h
    | some p => exact absurd rfl (hop p)
  | exit code => exact leave (Or.inl ⟨code, rfl⟩)
  | sleep ticks => exact leave (Or.inr ⟨ticks, rfl⟩)
  | yield =>
    obtain ⟨n, hs⟩ := hs
    rcases yield_effect hs with ⟨-, rfl⟩ | ⟨q, -, -, hst, -⟩
    · exact h
    · intro j hj
      rw [hst] at hj
      split_ifs at hj
      exact h j hj
  | wakeup proc =>
    rcases wakeup_effect hs with rfl | ⟨p, -, -, hst, -⟩
    · exact h
    · exact h.update (by decide) hst

/-- **Lookup, listing and slot allocator agree** on a pid, in every state of every run, exactly when
it is not found in DEAD slots only; so they agree on every pid until a process is destroyed. -/
theorem lookup_agrees_iff {m : Memory} {tr : List (Transition Kernel ProcessOp)}
    (hr : Run (ProcessStep c) (processInit (Kernel.boot m)) tr k) :
    (∀ pid, LookupAgrees k pid ↔ ¬ DeadOnly k pid) ∧
      ((∀ e ∈ tr, ∀ p, e.label ≠ .destroy (some p)) → ∀ pid, LookupAgrees k pid) := by
  refine ⟨fun pid => lookupAgrees_iff, fun hno pid => lookupAgrees_iff.2 ?_⟩
  have hstart : NoneDead (processInit (Kernel.boot m)) := by
    intro p hp
    rw [Kernel.state, (processInit_spec (Kernel.boot m)).1] at hp
    cases hp
  have hdead := (hr.invariant_of (C := fun _ op => ∀ p, op ≠ .destroy (some p)) hstart
    (fun _ _ _ h hop hs => noneDead_step h hop hs) hno).1
  rintro ⟨⟨i, -, hi⟩, -⟩
  exact hdead i hi

/-- A process exits, and its slot is looked up and listed; `process_destroy` of NULL changes nothing. -/
theorem lookup_agrees_exit : ∃ tr k, Run (ProcessStep .first)
      (processInit (Kernel.boot (Memory.boot fun _ => 0))) tr k ∧
    tr.map Transition.label = [.create [0x41, 0] 0x100000 128 1, .yield, .exit 0, .destroy none] ∧
    k.state 0 = .zombie ∧ ∀ pid, LookupAgrees k pid := by
  obtain ⟨tr, k, hr, hl, hk⟩ := exists_run_of_replay (processExec_step (c := .first) (n := 2))
    (P := fun _ k => decide (k.state 0 = .zombie))
    (s := processInit (Kernel.boot (Memory.boot fun _ => 0)))
    (l := [.create [0x41, 0] 0x100000 128 1, .yield, .exit 0, .destroy none]) (by decide +kernel)
  refine ⟨tr, k, hr, hl, of_decide_eq_true hk, (lookup_agrees_iff hr).2 ?_⟩
  intro e he p hp
  have hm := List.mem_map_of_mem (f := Transition.label) he
  rw [hl, hp] at hm
  simp at hm

/-- A process is created and destroyed: it is still found by its pid, though it is not listed and its
slot may be given out. -/
theorem destroyed_is_found : ∃ tr k, Run (ProcessStep .first)
      (processInit (Kernel.boot (Memory.boot fun _ => 0))) tr k ∧
    tr.map Transition.label = [.create [0x41, 0] 0x100000 128 1, .destroy (some 0)] ∧
    processGetByPid 1 k = some 0 ∧ Reusable k 0 ∧ ¬ Shows k 1 ∧ ¬ LookupAgrees k 1 := by
  obtain ⟨tr, k, hr, hl, hk⟩ := exists_run_of_replay (processExec_step (c := .first) (n := 2))
    (P := fun _ k => decide (processGetByPid 1 k = some 0 ∧ Reusable k 0 ∧ DeadOnly k 1))
    (s := processInit (Kernel.boot (Memory.boot fun _ => 0)))
    (l := [.create [0x41, 0] 0x100000 128 1, .destroy (some 0)]) (by decide +kernel)
  obtain ⟨hf, hu, hd⟩ := of_decide_eq_true hk
  refine ⟨tr, k, hr, hl, hf, hu, ?_, fun h => lookupAgrees_iff.1 h hd⟩
  intro hs
  obtain ⟨i, hi, hn⟩ := processList_shows.1 hs
  exact hn (hd.2 i hi)

end Zer0S
