import Zer0S.Proof.ProcessOps

/-!
# Nobody is overtaken twice by the same process

`process_yield` puts the running process behind all that wait, but `process_wakeup` links a
process in before them. So a process that sleeps and is woken again and again overtakes each
time. `overtaken_once`: otherwise nobody is overtaken twice by the same process (`OvertakeOk`).

The invariant (`Fair`): the processes that wait before `p` in the queue have not run since `p`
became READY.
-/

namespace Zer0S

open Lib

variable {k k' : Kernel} {c : Copy} {n : ℕ} {l t : List Slot} {p q x : Slot} {op : ProcessOp}

/-- A state, and for each process the number of dispatches before it last became READY (ghost). -/
structure Waiting where
  k : Kernel
  readyAt : Slot → ℕ

/-- The processes dispatched since `p` became READY, latest first. -/
def Waiting.since (w : Waiting) (p : Slot) : List Slot :=
  (w.k.dispatched.take (w.k.dispatched.length - w.readyAt p)).map Prod.fst

/-- After a call that ends in `k'`: who became READY in it was passed by nobody before. -/
def Waiting.next (w : Waiting) (k' : Kernel) : Waiting :=
  ⟨k', fun p => if w.k.state p ≠ .ready ∧ k'.state p = .ready then w.k.dispatched.length else w.readyAt p⟩

/-- A call of an operation other than `process_destroy`. -/
def WaitingStep (c : Copy) (w : Waiting) (op : ProcessOp) (w' : Waiting) : Prop :=
  (∀ proc, op ≠ .destroy proc) ∧ ProcessStep c w.k op w'.k ∧ w' = w.next w'.k

/-- No process was dispatched twice since `p` became READY, for any `p` that waits. -/
def OvertakenOnce (w : Waiting) : Prop := ∀ p, w.k.state p = .ready → (w.since p).Nodup

/-- A call that lets nobody be overtaken twice: it keeps the queue exact, and a sleeping process
is woken only when it has not run since any of those that wait became READY. -/
def OvertakeOk (w : Waiting) (op : ProcessOp) : Prop :=
  QueueOk w.k op ∧ ∀ q, op = .wakeup (some q) → w.k.state q = .sleeping →
    ∀ p, w.k.state p = .ready → q ∉ w.since p

variable {w w' : Waiting}

/-! ## The invariant -/

/-- Who waits before `p` has not run since `p` became READY. -/
structure Fair (w : Waiting) (l : List Slot) : Prop where
  exact : Exact w.k l
  alive : ∀ p, w.k.state p ≠ .dead
  ran : ∀ x ∈ w.k.dispatched, w.k.state x.1 ≠ .unused
  readyAt : ∀ p, w.readyAt p ≤ w.k.dispatched.length
  once : ∀ p ∈ l, (w.since p).Nodup
  ahead : l.Pairwise fun q p => q ∉ w.since p

theorem Fair.overtakenOnce (h : Fair w l) : OvertakenOnce w :=
  fun p hp => h.once p ((h.exact.ready p).2 hp)

/-- Who keeps waiting is passed by what is dispatched, and who starts waiting too. -/
theorem since_next (hd : ∃ d, k'.dispatched = d ++ w.k.dispatched ∧ d.map Prod.fst = t)
    (hat : w.readyAt p ≤ w.k.dispatched.length) : (w.next k').since p =
      if w.k.state p ≠ .ready ∧ k'.state p = .ready then t else t ++ w.since p := by
  obtain ⟨d, hd, rfl⟩ := hd
  unfold Waiting.since Waiting.next
  simp only [hd, List.length_append]
  split_ifs with hp
  · rw [Nat.add_sub_cancel, List.take_left]
  · rw [Nat.add_sub_assoc hat, List.take_length_add_append, List.map_append]

/-- The numbers of dispatches stay below the length of the log. -/
theorem readyAt_next (h : ∀ p, w.readyAt p ≤ w.k.dispatched.length)
    (hd : ∃ d, k'.dispatched = d ++ w.k.dispatched ∧ d.map Prod.fst = t) (p : Slot) :
    (w.next k').readyAt p ≤ (w.next k').k.dispatched.length := by
  obtain ⟨d, hd, -⟩ := hd
  have := h p
  unfold Waiting.next
  simp only [hd, List.length_append]
  split_ifs <;> omega

/-- **A process is linked in at the head.** -/
theorem fair_push (h : Fair w l) (hx : Exact k' (x :: l)) (hxl : x ∉ l)
    (hst : k'.state = Function.update w.k.state x .ready) (hd : k'.dispatched = w.k.dispatched)
    (hnew : ∀ p ∈ l, x ∉ w.since p) : Fair (w.next k') (x :: l) := by
  have hd' : ∃ d, k'.dispatched = d ++ w.k.dispatched ∧ d.map Prod.fst = ([] : List Slot) := ⟨[], hd, rfl⟩
  have hsince : ∀ p ∈ l, (w.next k').since p = w.since p := by
    intro p hp
    rw [since_next hd' (h.readyAt p), if_neg fun hc => hc.1 ((h.exact.ready p).1 hp)]
    rfl
  have hsx : (w.next k').since x = [] := by
    have hr : w.k.state x ≠ .ready := fun hr => hxl ((h.exact.ready x).2 hr)
    rw [since_next hd' (h.readyAt x), if_pos ⟨hr, by rw [hst, Function.update_self]⟩]
  refine ⟨hx, ?_, ?_, readyAt_next h.readyAt hd', ?_, ?_⟩
  · show ∀ p, k'.state p ≠ .dead
    rw [hst]
    exact update_ne h.alive (by decide)
  · intro y hy
    show k'.state y.1 ≠ .unused
    rw [hst, Function.update_apply]
    split_ifs
    · decide
    · exact h.ran y (hd ▸ hy)
  · refine List.forall_mem_cons.2 ⟨by rw [hsx]; exact List.nodup_nil, ?_⟩
    intro p hp
    rw [hsince p hp]
    exact h.once p hp
  · refine List.pairwise_cons.2 ⟨?_, ?_⟩
    · intro p hp
      rw [hsince p hp]
      exact hnew p hp
    · refine h.ahead.imp_of_mem fun {q p} _ hp hqp => ?_
      rw [hsince p hp]
      exact hqp

/-- **The head of the queue runs**, and the processes `b`, at most one, come back behind the rest. -/
theorem fair_run {b : List Slot} {v : ProcState} (h : Fair w (q :: t)) (hx : Exact k' (t ++ b)) (hb : b.length ≤ 1)
    (hbl : ∀ p ∈ b, p ∉ q :: t) (hd : k'.dispatched = (q, v) :: w.k.dispatched) (hq : k'.state q = .running)
    (hdead : ∀ p, k'.state p ≠ .dead) (hun : ∀ p, k'.state p = .unused → w.k.state p = .unused) :
    Fair (w.next k') (t ++ b) := by
  have hd' : ∃ d, k'.dispatched = d ++ w.k.dispatched ∧ d.map Prod.fst = [q] := ⟨[(q, v)], hd, rfl⟩
  have hqt : q ∉ t := (List.nodup_cons.1 h.exact.queue.nodup).1
  obtain ⟨hq1, ht⟩ := List.pairwise_cons.1 h.ahead
  -- who kept waiting was passed by `q` now, and by others before
  have hst : ∀ p ∈ t, (w.next k').since p = q :: w.since p := by
    intro p hp
    have hr := (h.exact.ready p).1 (List.mem_cons_of_mem _ hp)
    rw [since_next hd' (h.readyAt p), if_neg fun hc => hc.1 hr]
    rfl
  have hsb : ∀ p ∈ b, (w.next k').since p = [q] := by
    intro p hp
    have hr : w.k.state p ≠ .ready := fun hr => hbl p hp ((h.exact.ready p).2 hr)
    have hr' := (hx.ready p).1 (List.mem_append_right _ hp)
    rw [since_next hd' (h.readyAt p), if_pos ⟨hr, hr'⟩]
  refine ⟨hx, hdead, ?_, readyAt_next h.readyAt hd', ?_, ?_⟩
  · intro y hy
    have hy : y ∈ (q, v) :: w.k.dispatched := hd ▸ hy
    show k'.state y.1 ≠ .unused
    rcases List.mem_cons.1 hy with rfl | hy
    · rw [hq]
      decide
    · intro hu
      exact h.ran y hy (hun _ hu)
  · intro p hp
    rcases List.mem_append.1 hp with hp | hp
    · rw [hst p hp]
      exact List.nodup_cons.2 ⟨hq1 p hp, h.once p (List.mem_cons_of_mem _ hp)⟩
    · rw [hsb p hp]
      exact List.nodup_singleton q
  · refine List.pairwise_append.2 ⟨ht.imp_of_mem fun {x p} hxm hp hxp => ?_, ?_, fun x hxm p hp => ?_⟩
    · rw [hst p hp, List.mem_cons, not_or]
      exact ⟨by rintro rfl; exact hqt hxm, hxp⟩
    · match b, hb with
      | [], _ => exact List.Pairwise.nil
      | [_], _ => exact List.pairwise_singleton ..
    · rw [hsb p hp, List.mem_singleton]
      rintro rfl
      exact hqt hxm

/-- Nobody waits: there is nothing to show but the states. -/
theorem fair_nil (h : Fair w l) (hx : Exact k' []) (hd : k'.dispatched = w.k.dispatched)
    (hdead : ∀ p, k'.state p ≠ .dead) (hun : ∀ p, k'.state p = .unused → w.k.state p = .unused) :
    Fair (w.next k') [] := by
  refine ⟨hx, hdead, ?_, ?_, by simp, List.Pairwise.nil⟩
  · intro y hy hu
    exact h.ran y (hd ▸ hy) (hun _ hu)
  · exact readyAt_next h.readyAt (t := []) ⟨[], hd, rfl⟩

theorem next_self (w : Waiting) : w.next w.k = w := by
  have : (fun p => if w.k.state p ≠ .ready ∧ w.k.state p = .ready then w.k.dispatched.length else w.readyAt p) =
      w.readyAt := by
    funext p
    rw [if_neg fun h => h.1 h.2]
  rw [Waiting.next, this]

/-- A process that ran is in the log. -/
theorem mem_dispatched (h : q ∈ w.since p) : ∃ x ∈ w.k.dispatched, x.1 = q := by
  obtain ⟨x, hx, rfl⟩ := List.mem_map.1 h
  exact ⟨x, List.mem_of_mem_take hx, rfl⟩

/-! ## The calls -/

theorem fair_self (h : Fair w l) (he : k' = w.k) : ∃ l', Fair (w.next k') l' :=
  ⟨l, by rwa [he, next_self]⟩

/-- The current process gives up the processor. -/
theorem fair_leave (h : Fair w l) (hok : QueueOk w.k op) (hs : ProcessStep c w.k op k')
    (hop : (∃ code, op = .exit code) ∨ ∃ ticks, op = .sleep ticks) : ∃ l', Fair (w.next k') l' := by
  obtain ⟨l', hx⟩ := exact_step h.exact hok hs
  rcases leave_effect hop hs with ⟨-, he⟩ | ⟨current, v, hcur, hv, -, hstate⟩
  · exact fair_self h he
  have hv1 : v ≠ .dead := by rcases hv with rfl | rfl <;> decide
  have hv2 : v ≠ .unused := by rcases hv with rfl | rfl <;> decide
  have hdead : ∀ p, Function.update w.k.state current v p ≠ .dead := update_ne h.alive hv1
  have hun : ∀ p, Function.update w.k.state current v p = .unused → w.k.state p = .unused := by
    intro p hp
    rw [Function.update_apply] at hp
    split_ifs at hp
    · exact absurd hp hv2
    · exact hp
  rcases leave_cases hop hs with ⟨hnone, -⟩ | ⟨current', v', k₁, n, hcur', -, hvr, hsame, hy⟩
  · rw [hcur] at hnone
    cases hnone
  rcases leave_yield h.exact.queue hcur' hvr hsame hy with ⟨rfl, h1, -, h3⟩ | ⟨q, t, rfl, h1, -, h3⟩
  · -- nobody waits
    obtain rfl := hx.queue.det h1
    rcases hstate with ⟨-, -, hst⟩ | ⟨q, hr, -⟩
    · exact ⟨[], fair_nil h hx h3 (hst ▸ hdead) (hst ▸ hun)⟩
    · have hnone : w.k.readyQueue = none := h.exact.queue
      rw [hnone] at hr
      cases hr
  · obtain rfl := hx.queue.det h1
    have hhead : w.k.readyQueue = some q := (chain_cons.1 h.exact.queue).1
    rcases hstate with ⟨hr, -⟩ | ⟨q', hr, -, hst⟩
    · rw [hhead] at hr
      cases hr
    · obtain rfl : q = q' := Option.some.inj (hhead.symm.trans hr)
      refine ⟨_ ++ [], fair_run h (by rwa [List.append_nil]) (Nat.zero_le 1) (by simp) h3 ?_ ?_ ?_⟩
      · rw [hst, Function.update_self]
      · rw [hst]
        exact update_ne hdead (by decide)
      · intro p hp
        rw [hst, Function.update_apply] at hp
        split_ifs at hp
        exact hun p hp

/-- A process is created. -/
theorem fair_create {name : List Byte} {entry priority : Word} {flags : BitVec 32} (h : Fair w l)
    (hok : QueueOk w.k (.create name entry priority flags))
    (hs : ProcessStep c w.k (.create name entry priority flags) k') : ∃ l', Fair (w.next k') l' := by
  rcases create_cases hs with ⟨-, he⟩ | ⟨x, n, stack, m, hf, hk, hst, hd, ⟨h0, -⟩ | ⟨-, hn, hr⟩⟩
  · exact fair_self h he
  · rcases hok with hnone | ⟨n', stack', m', hk', hne⟩
    · rw [hf] at hnone
      cases hnone
    · have := kmalloc_det hk hk'
      simp only [Prod.mk.injEq] at this
      exact absurd (this.1 ▸ h0) hne
  · -- the slot was never used, so its process did not run
    have hxu : w.k.state x = .unused := (findFreeProcess_state hf).resolve_right (h.alive x)
    have hxl : x ∉ l := fun hl => by
      rw [(h.exact.ready x).1 hl] at hxu
      cases hxu
    refine ⟨_, fair_push h (exact_push h.exact hxl hst hn hr) hxl hst hd ?_⟩
    intro p _ hp
    obtain ⟨y, hy, rfl⟩ := mem_dispatched hp
    exact h.ran y hy hxu

/-- The current process lets the next one run. -/
theorem fair_yield (h : Fair w l) (hok : QueueOk w.k .yield) (hs : ProcessStep c w.k .yield k') :
    ∃ l', Fair (w.next k') l' := by
  obtain ⟨n, hy⟩ := id hs
  obtain ⟨l', hx⟩ := exact_step h.exact hok hs
  rcases yield_cases h.exact.queue h.exact.back hy with ⟨-, he⟩ | ⟨q, t, rfl, h1, hst, hd⟩
  · exact fair_self h he
  · obtain rfl := hx.queue.det h1
    refine ⟨_, fair_run h hx ?_ h.exact.back hd (by rw [hst, if_pos rfl]) ?_ ?_⟩
    · unfold back
      split
      · exact Nat.zero_le 1
      · split_ifs <;> simp
    · intro p
      rw [hst]
      split_ifs
      · decide
      · decide
      · exact h.alive p
    · intro p hp
      rw [hst] at hp
      split_ifs at hp
      exact hp

/-- **Step.** A call that meets the condition keeps the invariant. -/
theorem fair_step (h : Fair w l) (hok : OvertakeOk w op) (hs : WaitingStep c w op w') : ∃ l', Fair w' l' := by
  obtain ⟨hop, hs, hw⟩ := hs
  rw [hw]
  generalize w'.k = k' at hs
  cases op with
  | create name entry priority flags => exact fair_create h hok.1 hs
  | destroy proc => exact absurd rfl (hop proc)
  | exit code => exact fair_leave h hok.1 hs (Or.inl ⟨code, rfl⟩)
  | sleep ticks => exact fair_leave h hok.1 hs (Or.inr ⟨ticks, rfl⟩)
  | yield => exact fair_yield h hok.1 hs
  | wakeup proc =>
    rcases wakeup_cases hs with he | ⟨x, rfl, hsl, hst, hn, hr, hd⟩
    · exact fair_self h he
    · have hxl : x ∉ l := fun hl => by
        rw [(h.exact.ready x).1 hl] at hsl
        cases hsl
      refine ⟨_, fair_push h (exact_push h.exact hxl hst hn hr) hxl hst hd ?_⟩
      intro p hp
      exact hok.2 x rfl hsl p ((h.exact.ready p).1 hp)

/-! ## Runs -/

/-- The state after `process_init`, when nobody waits. -/
def waitingStart (m : Memory) : Waiting := ⟨processInit (Kernel.boot m), fun _ => 0⟩

theorem fair_start (m : Memory) : Fair (waitingStart m) [] := by
  have hst : ∀ p, (processInit (Kernel.boot m)).state p = .unused := by
    intro p
    rw [Kernel.state, (processInit_spec (Kernel.boot m)).1]
    rfl
  have hd := (processInit_spec (Kernel.boot m)).2.2
  refine ⟨exact_start m, ?_, ?_, fun p => Nat.zero_le _, by simp, List.Pairwise.nil⟩
  · intro p h
    rw [waitingStart, hst] at h
    cases h
  · intro x hx
    rw [waitingStart, hd] at hx
    cases hx

/-- **Nobody is overtaken twice by the same process**, in every run whose calls meet the
condition. -/
theorem overtaken_once {m : Memory} {tr : List (Transition Waiting ProcessOp)}
    (hr : Run (WaitingStep c) (waitingStart m) tr w) (hok : ∀ e ∈ tr, OvertakeOk e.pre e.label) :
    OvertakenOnce w ∧ ∀ e ∈ tr, OvertakenOnce e.post := by
  obtain ⟨⟨l, h⟩, htr⟩ := hr.invariant_of (I := fun w => ∃ l, Fair w l) ⟨[], fair_start m⟩
    (fun _ _ _ ⟨_, h⟩ hok hs => fair_step h hok hs) hok
  exact ⟨h.overtakenOnce, fun e he => (htr e he).2.elim fun l h => h.overtakenOnce⟩

/-- The step as a function, with a bound on the rounds of a call. -/
def waitingExec (c : Copy) (rounds : ℕ) (w : Waiting) : ProcessOp → Option Waiting
  | .destroy _ => none
  | op => (processExec c rounds w.k op).map w.next

theorem waitingExec_step (w : Waiting) (op : ProcessOp) (w' : Waiting) (h : waitingExec c n w op = some w') :
    WaitingStep c w op w' := by
  have step : (processExec c n w.k op).map w.next = some w' → (∀ proc, op ≠ .destroy proc) →
      WaitingStep c w op w' := by
    intro h hop
    obtain ⟨k', hk, rfl⟩ := Option.map_eq_some_iff.1 h
    exact ⟨hop, ⟨n, hk⟩, rfl⟩
  cases op with
  | destroy proc => cases h
  | create name entry priority flags => exact step h (by simp)
  | exit code => exact step h (by simp)
  | yield => exact step h (by simp)
  | sleep ticks => exact step h (by simp)
  | wakeup proc => exact step h (by simp)

/-- The condition as a test, with a bound on the rounds of `kmalloc`. -/
def overtakeTest (rounds : ℕ) (w : Waiting) : ProcessOp → Bool
  | .create _ _ _ _ => (kmalloc rounds procStackSize w.k.memory).any fun r => r.1 ≠ 0
  | .exit _ | .sleep _ => w.k.currentProcess.all fun p => w.k.state p ≠ .ready
  | .wakeup (some q) => (List.finRange 256).all fun p => w.k.state p ≠ .ready || (w.since p).all (· ≠ q)
  | .yield | .wakeup none => true
  | .destroy _ => false

theorem overtakeOk_of_test (h : overtakeTest n w op = true) : OvertakeOk w op := by
  have leave : (w.k.currentProcess.all fun p => w.k.state p ≠ .ready) = true →
      ∀ p, w.k.currentProcess = some p → w.k.state p = .ready → w.k.readyQueue = some p := by
    intro h p hp hr
    rw [hp] at h
    simp [hr] at h
  cases op with
  | create name entry priority flags =>
    obtain ⟨⟨stack, m⟩, hk, h0⟩ := (Option.any_eq_true _ _).1 h
    exact ⟨Or.inr ⟨n, stack, m, hk, of_decide_eq_true h0⟩, by simp⟩
  | destroy proc => cases h
  | exit code => exact ⟨leave h, by simp⟩
  | yield => exact ⟨trivial, by simp⟩
  | sleep ticks => exact ⟨leave h, by simp⟩
  | wakeup proc =>
    refine ⟨trivial, ?_⟩
    intro q hq _ p hp
    cases hq
    have hq := List.all_eq_true.1 h p (List.mem_finRange p)
    simp only [hp, ne_eq, not_true_eq_false, decide_false, Bool.false_or, List.all_eq_true,
      decide_eq_true_eq] at hq
    intro hmem
    exact hq _ hmem rfl

/-- A run in which a process sleeps, is woken and runs again after the other had its turn. -/
theorem overtaken_once_two : ∃ tr w, Run (WaitingStep .first) (waitingStart (Memory.boot fun _ => 0)) tr w ∧
    tr.map Transition.label = [.create [0x41, 0] 0x100000 128 1, .create [0x42, 0] 0x100000 128 1,
      .yield, .sleep 5, .wakeup (some 1), .yield] ∧ w.k.dispatched.map Prod.fst = [1, 0, 1] ∧
    OvertakenOnce w ∧ ∀ e ∈ tr, OvertakenOnce e.post := by
  obtain ⟨tr, w, hr, hl, hw⟩ := exists_run_of_replay (waitingExec_step (c := .first) (n := 3))
    (P := fun tr w => decide (w.k.dispatched.map Prod.fst = [1, 0, 1] ∧
      ∀ e ∈ tr, overtakeTest 3 e.pre e.label = true))
    (s := waitingStart (Memory.boot fun _ => 0))
    (l := [.create [0x41, 0] 0x100000 128 1, .create [0x42, 0] 0x100000 128 1, .yield, .sleep 5,
      .wakeup (some 1), .yield]) (by decide +kernel)
  obtain ⟨h1, hok⟩ := of_decide_eq_true hw
  exact ⟨tr, w, hr, hl, h1, overtaken_once hr fun e he => overtakeOk_of_test (hok e he)⟩

/-- Process 0 waits while process 2 runs, sleeps, is woken and runs again. -/
theorem overtaken_twice : ∃ tr w, Run (WaitingStep .first) (waitingStart (Memory.boot fun _ => 0)) tr w ∧
    tr.map Transition.label = [.create [0x41, 0] 0x100000 128 1, .create [0x42, 0] 0x100000 128 1,
      .create [0x43, 0] 0x100000 128 1, .yield, .sleep 5, .wakeup (some 2), .sleep 5] ∧
    w.k.state 0 = .ready ∧ w.since 0 = [2, 1, 2] ∧ ¬ OvertakenOnce w := by
  obtain ⟨tr, w, hr, hl, hw⟩ := exists_run_of_replay (waitingExec_step (c := .first) (n := 4))
    (P := fun _ w => decide (w.k.state 0 = .ready ∧ w.since 0 = [2, 1, 2]))
    (s := waitingStart (Memory.boot fun _ => 0))
    (l := [.create [0x41, 0] 0x100000 128 1, .create [0x42, 0] 0x100000 128 1,
      .create [0x43, 0] 0x100000 128 1, .yield, .sleep 5, .wakeup (some 2), .sleep 5]) (by decide +kernel)
  obtain ⟨h1, h2⟩ := of_decide_eq_true hw
  refine ⟨tr, w, hr, hl, h1, h2, ?_⟩
  intro h
  have := h 0 h1
  rw [h2] at this
  simp at this

end Zer0S
