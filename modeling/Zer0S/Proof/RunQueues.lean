import Zer0S.Proof.ProcessOps
import Zer0S.Spec.Scheduler

/-!
# The run queues of `process.c` and `scheduler.c`

`ready_queue` and `ready_list` are linked through the same field `next`. A call of one module
keeps the other module's list as long as no process gets into both lists.

* `process_rewired`, `SchedEffect`: a call writes the links of the nodes of its own list, and
  of the processes it links in.
* `lists_step`: the lists stay apart, and the processes in `ready_list` are in no state from which
  `process.c` links a process in by itself (`ListsApart`).
* `queues_kept`: in a run in which `scheduler_add` gets no process of `ready_queue`, and no
  process of `ready_list` is woken up or destroyed, each module leaves the other's list alone.
-/

namespace Zer0S

open Lib

variable {k k' : Kernel} {s s' : Sched} {c : Copy} {n : ℕ} {p q : Slot} {op : ProcessOp}

/-- The states in which `process_create` and `process_yield` link a process in. -/
def Loose (v : ProcState) : Prop := v = .unused ∨ v = .dead ∨ v = .running

/-- The processes that a call may link into `ready_queue`, and the one it destroys. -/
def Enters (k : Kernel) (op : ProcessOp) (p : Slot) : Prop :=
  Loose (k.state p) ∨ op = .destroy (some p) ∨ op = .wakeup (some p) ∧ k.state p = .sleeping

/-! ## Calls of `process.c` -/

/-- **Links.** A call of `process.c` writes the links of queued processes and of those it links in. -/
theorem process_rewired (hs : ProcessStep c k op k') :
    Rewired (Enters k op) k.next k.readyQueue k'.next k'.readyQueue := by
  have leave : (∃ code, op = .exit code) ∨ (∃ ticks, op = .sleep ticks) →
      Rewired (Enters k op) k.next k.readyQueue k'.next k'.readyQueue := by
    intro hop
    rcases leave_cases hop hs with ⟨-, rfl⟩ | ⟨current, v, k₁, n, hcur, -, hv, hsame, hy⟩
    · exact .refl _ _ _
    · obtain ⟨hback, -⟩ := leave_back hcur hv hsame
      have h1 : Rewired (Enters k op) k.next k.readyQueue (k₁.setState current v).next
          (k₁.setState current v).readyQueue := by
        rw [next_setState]
        exact hsame.rewired
      have h2 := yield_rewired hy
      rw [hback] at h2
      exact h1.trans (h2.mono fun _ hp => absurd hp List.not_mem_nil)
  cases op with
  | create name entry priority flags =>
    have hfree : ∀ x, findFreeProcess k = some x → Enters k (.create name entry priority flags) x := by
      intro x hf
      rcases findFreeProcess_state hf with h | h
      · exact Or.inl (Or.inl h)
      · exact Or.inl (Or.inr (Or.inl h))
    rcases create_cases hs with ⟨-, rfl⟩ | ⟨x, n, stack, m, hf, -, -, -, ⟨-, hn, hr⟩ | ⟨-, hn, hr⟩⟩
    · exact .refl _ _ _
    · rw [hn, hr]
      exact (Rewired.clear k.next k.readyQueue x).mono fun a ha => ha ▸ hfree x hf
    · rw [hn, hr]
      exact (Rewired.push k.next k.readyQueue x).mono fun a ha => ha ▸ hfree x hf
  | destroy proc =>
    cases proc with
    | none =>
      obtain rfl := destroy_none hs
      exact .refl _ _ _
    | some x =>
      obtain ⟨-, hn, hr, -⟩ := destroy_cases hs
      rw [hn, hr]
      exact .refl _ _ _
  | exit code => exact leave (Or.inl ⟨code, rfl⟩)
  | sleep ticks => exact leave (Or.inr ⟨ticks, rfl⟩)
  | yield =>
    obtain ⟨n, hs⟩ := hs
    exact (yield_rewired hs).mono fun p hp => Or.inl (Or.inr (Or.inr (mem_back hp)))
  | wakeup proc =>
    rcases wakeup_cases hs with rfl | ⟨x, rfl, hsl, -, hn, hr, -⟩
    · exact .refl _ _ _
    · rw [hn, hr]
      exact (Rewired.push k.next k.readyQueue x).mono fun a ha => by
        subst ha
        exact Or.inr (Or.inr ⟨rfl, hsl⟩)

/-- **States.** A call of `process.c` brings no process into a loose state, but the head of the
queue and the process it destroys. -/
theorem process_loose (hs : ProcessStep c k op k') (hp : Loose (k'.state p)) :
    Linked k.next k.readyQueue p ∨ Enters k op p := by
  -- a write of another state to one process
  have write : ∀ x v, ¬ Loose v → k'.state = Function.update k.state x v →
      Linked k.next k.readyQueue p ∨ Enters k op p := by
    intro x v hv hst
    rw [hst, Function.update_apply] at hp
    split_ifs at hp
    · exact absurd hp hv
    · exact Or.inr (Or.inl hp)
  have leave : (∃ code, op = .exit code) ∨ (∃ ticks, op = .sleep ticks) →
      Linked k.next k.readyQueue p ∨ Enters k op p := by
    intro hop
    rcases leave_effect hop hs with ⟨-, rfl⟩ | ⟨current, v, -, hv, -, ⟨-, -, hst⟩ | ⟨q, hr, -, hst⟩⟩
    · exact Or.inr (Or.inl hp)
    · exact write current v (by rcases hv with rfl | rfl <;> simp [Loose]) hst
    · rw [hst, Function.update_apply] at hp
      split_ifs at hp with hpq
      · exact Or.inl (.head (hpq ▸ hr))
      · rw [Function.update_apply] at hp
        split_ifs at hp
        · rcases hv with rfl | rfl <;> simp [Loose] at hp
        · exact Or.inr (Or.inl hp)
  cases op with
  | create name entry priority flags =>
    rcases create_cases hs with ⟨-, rfl⟩ | ⟨x, n, stack, m, -, -, hst, -⟩
    · exact Or.inr (Or.inl hp)
    · exact write x .ready (by simp [Loose]) hst
  | destroy proc =>
    cases proc with
    | none =>
      obtain rfl := destroy_none hs
      exact Or.inr (Or.inl hp)
    | some x =>
      obtain ⟨hst, -⟩ := destroy_cases hs
      rw [hst, Function.update_apply] at hp
      split_ifs at hp with hpx
      · exact Or.inr (Or.inr (Or.inl (by rw [hpx])))
      · exact Or.inr (Or.inl hp)
  | exit code => exact leave (Or.inl ⟨code, rfl⟩)
  | sleep ticks => exact leave (Or.inr ⟨ticks, rfl⟩)
  | yield =>
    obtain ⟨n, hs⟩ := hs
    rcases yield_effect hs with ⟨-, rfl⟩ | ⟨q, hr, -, hst, -⟩
    · exact Or.inr (Or.inl hp)
    · rw [hst] at hp
      split_ifs at hp with hpq
      · exact Or.inl (.head (hpq ▸ hr))
      · simp [Loose] at hp
      · exact Or.inr (Or.inl hp)
  | wakeup proc =>
    rcases wakeup_cases hs with rfl | ⟨x, -, -, hst, -⟩
    · exact Or.inr (Or.inl hp)
    · exact write x .ready (by simp [Loose]) hst

/-! ## Calls of `scheduler.c` -/

/-- What a call of `scheduler.c` may do: `proc` is the process it adds, if any. -/
structure SchedEffect (proc : Option Slot) (s s' : Sched) : Prop where
  links : Rewired (fun p => proc = some p) s.k.next s.readyList s'.k.next s'.readyList
  ready : s'.k.readyQueue = s.k.readyQueue
  state : ∀ p, s'.k.state p = if proc = some p then .ready else s.k.state p

theorem SchedEffect.refl (s : Sched) : SchedEffect none s s := ⟨.refl _ _ _, rfl, fun _ => rfl⟩

theorem add_effect (proc : Option Slot) (s : Sched) : SchedEffect proc s (schedulerAdd proc s) := by
  cases proc with
  | none => exact .refl s
  | some p =>
    refine ⟨?_, rfl, ?_⟩
    · show Rewired (fun q => some p = some q) s.k.next s.readyList ((s.k.setState p .ready).setNext p s.readyList).next
        (some p)
      rw [next_setNext, next_setState]
      exact (Rewired.push s.k.next s.readyList p).mono fun q hq => congrArg some hq.symm
    · intro q
      show ((s.k.setState p .ready).setNext p s.readyList).state q = _
      rw [state_setNext, state_setState, Function.update_apply]
      simp only [Option.some.injEq, eq_comm]

/-- The place that `scheduler_remove` finds is `ready_list`, or the link of a listed process. -/
theorem removeLoop_found {current found : Option Slot} : ∀ {n : ℕ},
    loop (removeBody s p) n current = some (some found) → (∀ q, current = some q → Linked s.k.next s.readyList q) →
    s.link found = some p ∧ ∀ q, found = some q → Linked s.k.next s.readyList q
  | 0, h, _ => by cases h
  | n + 1, h, hcur => by
    cases hl : s.link current with
    | none =>
      rw [loop_done (show removeBody s p current = .inr none by simp [removeBody, hl])] at h
      cases h
    | some x =>
      have hx : Linked s.k.next s.readyList x := by
        cases current with
        | none => exact .head hl
        | some q => exact .next (hcur q rfl) hl
      by_cases hxp : x = p
      · rw [loop_done (show removeBody s p current = .inr (some current) by simp [removeBody, hl, hxp])] at h
        obtain rfl := Option.some.inj (Option.some.inj h)
        exact ⟨hxp ▸ hl, hcur⟩
      · rw [loop_next (show removeBody s p current = .inl (some x) by simp [removeBody, hl, hxp])] at h
        exact removeLoop_found h fun q hq => Option.some.inj hq ▸ hx

theorem remove_effect {proc : Option Slot} (h : schedulerRemove n proc s = some s') : SchedEffect none s s' := by
  cases proc with
  | none =>
    obtain rfl := Option.some.inj h
    exact .refl _
  | some p =>
    obtain ⟨r, hl, rfl⟩ := Option.map_eq_some_iff.1 h
    cases r with
    | none => exact .refl _
    | some found =>
      obtain ⟨hfound, hlinked⟩ := removeLoop_found hl fun q hq => by cases hq
      cases found with
      | none =>
        -- the process is the first of the list
        have hp : Linked s.k.next s.readyList p := .head hfound
        refine ⟨?_, rfl, ?_⟩
        · show Rewired _ s.k.next s.readyList (s.k.setNext p none).next (s.k.next p)
          rw [next_setNext]
          exact (Rewired.relink hp (by simp) fun b hb => .next hp hb).mono fun _ h => h.elim
        · intro q
          show (s.k.setNext p none).state q = s.k.state q
          rw [state_setNext]
      | some q =>
        -- `q` points to the process
        have hq : Linked s.k.next s.readyList q := hlinked q rfl
        have hp : Linked s.k.next s.readyList p := .next hq hfound
        refine ⟨?_, rfl, ?_⟩
        · show Rewired _ s.k.next s.readyList ((s.k.setNext q (s.k.next p)).setNext p none).next s.readyList
          rw [next_setNext, next_setNext]
          exact (Rewired.relink₂ hq hp (fun b hb => .next hp hb) (by simp) fun b hb => .head hb).mono
            fun _ h => h.elim
        · intro x
          show ((s.k.setNext q (s.k.next p)).setNext p none).state x = s.k.state x
          rw [state_setNext, state_setNext]

/-- **What `scheduler_yield` can do.** Nothing with less than two processes; else the last one found is
linked to the first. -/
theorem schedulerYield_cases (h : schedulerYield n s = some s') :
    s' = s ∧ (∀ first, s.readyList = some first → s.k.next first = none) ∨
      ∃ first second last, s.readyList = some first ∧ s.k.next first = some second ∧
        loop (lastBody s.k.next) n second = some last ∧
        s' = ⟨(s.k.setNext last (some first)).setNext first none, some second, s.tickCount⟩ := by
  unfold schedulerYield at h
  cases hf : s.readyList with
  | none =>
    rw [hf] at h
    exact Or.inl ⟨(Option.some.inj h).symm, fun _ h => by cases h⟩
  | some first =>
    rw [hf] at h
    simp only at h
    cases hs : s.k.next first with
    | none =>
      rw [hs] at h
      exact Or.inl ⟨(Option.some.inj h).symm, fun _ h => Option.some.inj h ▸ hs⟩
    | some second =>
      rw [hs] at h
      obtain ⟨last, hl, rfl⟩ := Option.map_eq_some_iff.1 h
      exact Or.inr ⟨first, second, last, rfl, hs, hl, rfl⟩

theorem schedYield_effect (h : schedulerYield n s = some s') : SchedEffect none s s' := by
  rcases schedulerYield_cases h with ⟨rfl, -⟩ | ⟨first, second, last, hf, hs, hl, rfl⟩
  · exact .refl _
  · have hfirst : Linked s.k.next s.readyList first := .head hf
    have hsecond : Linked s.k.next s.readyList second := .next hfirst hs
    have hlast := linked_lastLoop hl hsecond
    refine ⟨?_, rfl, ?_⟩
    · show Rewired _ s.k.next s.readyList ((s.k.setNext last (some first)).setNext first none).next (some second)
      rw [next_setNext, next_setNext]
      refine (Rewired.relink₂ hlast hfirst ?_ (by simp) ?_).mono fun _ h => h.elim
      · intro b hb
        exact Option.some.inj hb ▸ hfirst
      · intro b hb
        exact Option.some.inj hb ▸ hsecond
    · intro x
      show ((s.k.setNext last (some first)).setNext first none).state x = s.k.state x
      rw [state_setNext, state_setNext]

/-! ## Runs -/

/-- A call that links no process into one list while it is in the other, and destroys none that
is in `ready_list`. -/
def ListsOk (s : Sched) : SchedOp → Prop
  | .add proc => ∀ p, proc = some p → ¬ Linked s.k.next s.k.readyQueue p
  | .process (.wakeup proc) => ∀ p, proc = some p → s.k.state p = .sleeping → ¬ Linked s.k.next s.readyList p
  | .process (.destroy proc) => ∀ p, proc = some p → ¬ Linked s.k.next s.readyList p
  | _ => True

/-- A call of one module leaves the list of the other module as it was. -/
def OtherKept (s : Sched) (op : SchedOp) (s' : Sched) : Prop :=
  match op with
  | .process _ => nth s'.k.next s'.readyList = nth s.k.next s.readyList
  | _ => nth s'.k.next s'.k.readyQueue = nth s.k.next s.k.readyQueue

/-- The processes in `ready_list` are not in `ready_queue`, and `process.c` does not link them in
by itself. -/
def ListsApart (s : Sched) : Prop :=
  ∀ p, Linked s.k.next s.readyList p → ¬ Linked s.k.next s.k.readyQueue p ∧ ¬ Loose (s.k.state p)

/-- A call of `scheduler.c` that adds no queued process. -/
theorem SchedEffect.kept {proc : Option Slot} (he : SchedEffect proc s s') (h : ListsApart s)
    (hadd : ∀ p, proc = some p → ¬ Linked s.k.next s.k.readyQueue p) :
    nth s'.k.next s'.k.readyQueue = nth s.k.next s.k.readyQueue ∧ ListsApart s' := by
  -- seen from `ready_queue`
  have hd : ∀ p, Linked s.k.next s.k.readyQueue p → ¬ Linked s.k.next s.readyList p ∧ ¬ proc = some p :=
    fun p hp => ⟨fun hl => (h p hl).1 hp, fun e => hadd p e hp⟩
  rw [he.ready]
  refine ⟨he.links.nth_eq hd, fun p hp => ⟨?_, ?_⟩⟩
  · intro hl
    rw [he.ready] at hl
    exact he.links.apart hd hl hp
  · rw [he.state]
    split_ifs with hpp
    · simp [Loose]
    · exact (h p ((he.links.reach p hp).resolve_right hpp)).2

/-- **Step.** A call that meets the condition leaves the other list alone, and the lists stay apart. -/
theorem lists_step {op : SchedOp} (h : ListsApart s) (hok : ListsOk s op) (hs : SchedStep c s op s') :
    OtherKept s op s' ∧ ListsApart s' := by
  obtain ⟨n, hs⟩ := hs
  cases op with
  | process op =>
    obtain ⟨k', hk, rfl⟩ := Option.map_eq_some_iff.1 hs
    have hstep : ProcessStep c s.k op k' := ⟨n, hk⟩
    -- nothing in `ready_list` is linked in or destroyed
    have hd : ∀ p, Linked s.k.next s.readyList p → ¬ Linked s.k.next s.k.readyQueue p ∧ ¬ Enters s.k op p := by
      intro p hp
      refine ⟨(h p hp).1, ?_⟩
      rintro (hl | rfl | ⟨rfl, hsl⟩)
      · exact (h p hp).2 hl
      · exact hok p rfl hp
      · exact hok p rfl hsl hp
    have hr := process_rewired hstep
    refine ⟨hr.nth_eq hd, fun p hp => ⟨hr.apart hd hp, ?_⟩⟩
    intro hl
    have hp := hd p ((hr.linked_iff hd).1 hp)
    exact (process_loose hstep hl).elim hp.1 hp.2
  | add proc =>
    obtain rfl := Option.some.inj hs
    exact (add_effect proc s).kept h hok
  | remove proc => exact (remove_effect hs).kept h fun p hp => by cases hp
  | yield => exact (schedYield_effect hs).kept h fun p hp => by cases hp
  | tick =>
    obtain rfl := Option.some.inj hs
    exact ⟨rfl, h⟩

/-- The state in which both modules are initialised. -/
def schedBoot (m : Memory) : Sched := schedulerInit ⟨processInit (Kernel.boot m), none, 0⟩

theorem listsApart_start (m : Memory) : ListsApart (schedBoot m) := by
  intro p hp
  have : (schedBoot m).readyList = none := rfl
  rw [this] at hp
  exact absurd hp (not_linked_of_nth (n := 0) rfl (by simp))

/-- **The two lists.** In a run in which `scheduler_add` gets no process of `ready_queue`, and no
process of `ready_list` is woken up from SLEEPING or destroyed, every call leaves the sequence of
processes in the other module's list as it was. -/
theorem queues_kept {m : Memory} {tr : List (Transition Sched SchedOp)} (hr : Run (SchedStep c) (schedBoot m) tr s)
    (hok : ∀ e ∈ tr, ListsOk e.pre e.label) : ∀ e ∈ tr, OtherKept e.pre e.label e.post := by
  have hinv := (hr.invariant_of (listsApart_start m) (fun _ _ _ h hok hs => (lists_step h hok hs).2) hok).2
  intro e he
  exact (lists_step (hinv e he).1 (hok e he) (hr.step_of_mem e he)).1

/-- The condition as a test, for lists of at most `rounds` processes. -/
def listsTest (rounds : ℕ) (s : Sched) : SchedOp → Bool
  | .add (some p) => decide (nth s.k.next s.k.readyQueue rounds = none ∧
      ∀ i ∈ List.range rounds, nth s.k.next s.k.readyQueue i ≠ some p)
  | .process (.wakeup (some _)) | .process (.destroy (some _)) => false
  | _ => true

theorem listsOk_of_test {op : SchedOp} (h : listsTest n s op = true) : ListsOk s op := by
  unfold listsTest at h
  split at h
  · rename_i p
    obtain ⟨h1, h2⟩ := of_decide_eq_true h
    intro q hq
    obtain rfl := Option.some.inj hq
    exact not_linked_of_nth h1 fun i hi => h2 i (List.mem_range.2 hi)
  · cases h
  · cases h
  · rename_i h1 h2 h3
    cases op with
    | process op =>
      cases op with
      | wakeup proc => exact fun p hp => (h2 p (by rw [hp])).elim
      | destroy proc => exact fun p hp => (h3 p (by rw [hp])).elim
      | _ => trivial
    | add proc => exact fun p hp => (h1 p (by rw [hp])).elim
    | _ => trivial

/-- The running process is added to `ready_list` while the other waits in `ready_queue`. -/
theorem queues_kept_two : ∃ tr s, Run (SchedStep .first) (schedBoot (Memory.boot fun _ => 0)) tr s ∧
    tr.map Transition.label = [.process (.create [0x41, 0] 0x100000 128 1), .process .yield,
      .process (.create [0x42, 0] 0x100000 128 1), .add (some 0), .yield, .process .yield, .add (some 1),
      .yield, .remove (some 1)] ∧ s.readyList = some 0 ∧
    ∀ e ∈ tr, OtherKept e.pre e.label e.post := by
  obtain ⟨tr, s, hr, hl, hk⟩ := exists_run_of_replay (schedExec_step (c := .first) (n := 4))
    (P := fun tr s => decide (s.readyList = some 0 ∧ ∀ e ∈ tr, listsTest 3 e.pre e.label = true))
    (s := schedBoot (Memory.boot fun _ => 0))
    (l := [.process (.create [0x41, 0] 0x100000 128 1), .process .yield,
      .process (.create [0x42, 0] 0x100000 128 1), .add (some 0), .yield, .process .yield, .add (some 1),
      .yield, .remove (some 1)]) (by decide +kernel)
  obtain ⟨hlist, hok⟩ := of_decide_eq_true hk
  exact ⟨tr, s, hr, hl, hlist, queues_kept hr fun e he => listsOk_of_test (hok e he)⟩

/-- Two processes wait in `ready_queue`; the first of them is added to `ready_list`, and the second
is lost from `ready_queue`. -/
theorem add_cuts_queue : ∃ tr s, Run (SchedStep .first) (schedBoot (Memory.boot fun _ => 0)) tr s ∧
    tr.map Transition.label = [.process (.create [0x41, 0] 0x100000 128 1),
      .process (.create [0x42, 0] 0x100000 128 1), .add (some 1)] ∧
    ¬ ∀ e ∈ tr, OtherKept e.pre e.label e.post := by
  obtain ⟨tr, s, hr, hl, hk⟩ := exists_run_of_replay (schedExec_step (c := .first) (n := 4))
    (P := fun tr _ => decide (∃ e ∈ tr, e.label = .add (some 1) ∧
      nth e.pre.k.next e.pre.k.readyQueue 1 = some 0 ∧ nth e.post.k.next e.post.k.readyQueue 1 = none))
    (s := schedBoot (Memory.boot fun _ => 0))
    (l := [.process (.create [0x41, 0] 0x100000 128 1), .process (.create [0x42, 0] 0x100000 128 1),
      .add (some 1)]) (by decide +kernel)
  obtain ⟨e, he, hadd, hpre, hpost⟩ := of_decide_eq_true hk
  refine ⟨tr, s, hr, hl, ?_⟩
  intro hkept
  have := hkept e he
  rw [hadd] at this
  have h1 := congrFun this 1
  rw [hpre, hpost] at h1
  cases h1

end Zer0S
