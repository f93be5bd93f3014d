import Zer0S.Proof.ProcessOps
import Zer0S.Spec.Copies

/-!
# The two copies of `process.c` in lock step

One statement of `process_yield` is in the first copy only: it counts a tick of the process that it takes
from the queue. Nothing that the operations do depends on the count.

* `Alike k k'`: equal but for the counts, and the text that was printed. `exec_alike`: the copies keep it and
  return the same.
* `ticks_exec`: what a call does to the counts. `exec_text`: what it prints.
* `copies_agree`: the copies agree in all but the counts along every run, and in the counts exactly along
  the runs that take no process from the queue.
-/

namespace Zer0S

open Lib

variable {k k' a b : Kernel} {c c' : Copy} {n : ℕ} {i q : Slot} {f f' : Process → Process} {op : TableOp}

/-- A process without its count. -/
def Process.untimed (p : Process) : Process := { p with totalTicks := 0 }

/-- A memory without the text that was printed. -/
def Memory.silent (s : Memory) : Memory := { s with console := [] }

/-- Two states are equal but for the counts, and the text that was printed. -/
structure Alike (k k' : Kernel) : Prop where
  memory : k.memory.silent = k'.memory.silent
  processes : ∀ i, (k.processes i).untimed = (k'.processes i).untimed
  currentProcess : k.currentProcess = k'.currentProcess
  readyQueue : k.readyQueue = k'.readyQueue
  nextPid : k.nextPid = k'.nextPid

theorem Alike.refl (k : Kernel) : Alike k k := ⟨rfl, fun _ => rfl, rfl, rfl, rfl⟩

theorem Alike.symm (h : Alike k k') : Alike k' k :=
  ⟨h.memory.symm, fun i => (h.processes i).symm, h.currentProcess.symm, h.readyQueue.symm, h.nextPid.symm⟩

/-! ## What the operations read -/

/-- A field other than the count. -/
theorem Alike.field {β : Type*} (h : Alike k k') (g : Process → β) (hg : ∀ p, g p.untimed = g p) (i : Slot) :
    g (k.processes i) = g (k'.processes i) := by
  rw [← hg (k.processes i), h.processes, hg]

theorem Alike.state (h : Alike k k') : k.state = k'.state := by
  funext i
  exact h.field Process.state (fun _ => rfl) i

theorem Alike.next (h : Alike k k') : k.next = k'.next := by
  funext i
  exact h.field Process.next (fun _ => rfl) i

theorem Alike.findFree (h : Alike k k') : findFreeProcess k = findFreeProcess k' := by
  unfold findFreeProcess
  rw [h.state]

theorem Alike.getByPid (h : Alike k k') (pid : Word) : processGetByPid pid k = processGetByPid pid k' := by
  have hpid : ∀ i, (k.processes i).pid = (k'.processes i).pid := h.field Process.pid fun _ => rfl
  unfold processGetByPid
  rw [h.state]
  simp only [hpid]

/-! ## What they write -/

theorem Alike.modify (h : Alike k k') (i : Slot)
    (hf : (f (k.processes i)).untimed = (f' (k'.processes i)).untimed) : Alike (k.modify i f) (k'.modify i f') := by
  refine ⟨h.memory, ?_, h.currentProcess, h.readyQueue, h.nextPid⟩
  intro j
  by_cases hj : j = i
  · subst hj
    simpa [Kernel.modify] using hf
  · simpa [Kernel.modify, hj] using h.processes j

/-- The same change of other fields. -/
theorem Alike.update (h : Alike k k') (i : Slot) (hf : ∀ p, (f p).untimed = f p.untimed) :
    Alike (k.modify i f) (k'.modify i f) := by
  apply h.modify
  rw [hf, hf, h.processes]

theorem Alike.setState (h : Alike k k') (i : Slot) (v : ProcState) : Alike (k.setState i v) (k'.setState i v) :=
  h.update i fun _ => rfl

theorem Alike.setNext (h : Alike k k') (i : Slot) (v : Option Slot) : Alike (k.setNext i v) (k'.setNext i v) :=
  h.update i fun _ => rfl

theorem Alike.print (h : Alike k k') (p p' : List Print) : Alike (k.print p) (k'.print p') :=
  ⟨h.memory, h.processes, h.currentProcess, h.readyQueue, h.nextPid⟩

theorem Alike.printLeft (h : Alike k k') (p : List Print) : Alike (k.print p) k' :=
  ⟨h.memory, h.processes, h.currentProcess, h.readyQueue, h.nextPid⟩

/-- What one of the copies prints, or both. -/
theorem Alike.printIf (h : Alike k k') (c c' : Copy) (t t' : List Print) :
    Alike (if c = .first then k.print t else k) (if c' = .first then k'.print t' else k') := by
  split_ifs
  · exact h.print t t'
  · exact h.printLeft t
  · exact (h.symm.printLeft t').symm
  · exact h

/-- Counting ticks. -/
theorem Alike.tick (h : Alike k k') (i : Slot) (v : Process → Word) :
    Alike (k.modify i fun p => { p with totalTicks := v p }) k' := by
  refine ⟨h.memory, ?_, h.currentProcess, h.readyQueue, h.nextPid⟩
  intro j
  rw [← h.processes j]
  by_cases hj : j = i
  · subst hj
    simp [Kernel.modify, Process.untimed]
  · simp [Kernel.modify, hj]

/-! ## The heap -/

theorem eq_of_silent {s s' : Memory} (h : s.silent = s'.silent) : s' = { s with console := s'.console } := by
  have hback : ∀ s : Memory, s = { s.silent with console := s.console } := fun s => rfl
  rw [hback s', ← h]
  rfl

theorem heapSetup_silent {s s' : Memory} (h : s.silent = s'.silent) :
    (heapSetup s).silent = (heapSetup s').silent := by
  rw [eq_of_silent h]
  unfold heapSetup
  by_cases h0 : s.heapHead = 0
  · rw [if_pos h0, if_pos h0]
    rfl
  · rw [if_neg h0, if_neg h0]
    rfl

/-- The heap does not depend on what was printed. -/
theorem kmalloc_silent {s s' : Memory} (h : s.silent = s'.silent) (n : ℕ) (w : Word) :
    Option.Rel (fun r r' => r.1 = r'.1 ∧ r.2.silent = r'.2.silent) (kmalloc n w s) (kmalloc n w s') := by
  unfold kmalloc
  by_cases hw : w = 0
  · rw [if_pos hw, if_pos hw]
    exact .some ⟨rfl, h⟩
  · have hset := heapSetup_silent h
    have hmem : (heapSetup s).mem = (heapSetup s').mem := by
      have hmem := congrArg Memory.mem hset
      exact hmem
    have hhead : (heapSetup s).heapHead = (heapSetup s').heapHead := by
      have hhead := congrArg Memory.heapHead hset
      exact hhead
    rw [if_neg hw, if_neg hw]
    dsimp only
    rw [hmem, hhead]
    cases loop (kmallocBody (heapSetup s').mem (roundUp w)) n (heapSetup s').heapHead with
    | none => exact .none
    | some found =>
      cases found with
      | none => exact .some ⟨rfl, hset⟩
      | some current =>
        have htake := congrArg (fun m : Memory => { m with
          mem := takeBlock (roundUp w) current (heapSetup s').mem
          heapHead := (heapSetup s').heapHead }) hset
        exact .some ⟨rfl, htake⟩

theorem kfree_silent {s s' : Memory} (h : s.silent = s'.silent) (ptr : Word) :
    (kfree ptr s).silent = (kfree ptr s').silent := by
  rw [eq_of_silent h]
  unfold kfree
  by_cases h0 : ptr = 0
  · rw [if_pos h0, if_pos h0]
    rfl
  · rw [if_neg h0, if_neg h0]
    rfl

/-! ## The operations -/

theorem alike_requeue (h : Alike k k') (n : ℕ) (q : Slot) :
    Option.Rel Alike (requeue n q k) (requeue n q k') := by
  unfold requeue
  rw [← h.currentProcess]
  cases k.currentProcess with
  | none => exact .some h
  | some current =>
    dsimp only
    rw [← h.state]
    by_cases hrun : k.state current = .running
    · have hready := h.setState current .ready
      rw [if_pos hrun, if_pos hrun, ← hready.next]
      cases loop (lastBody (k.setState current .ready).next) n q with
      | none => exact .none
      | some last => exact .some ((hready.setNext last _).setNext current none)
    · rw [if_neg hrun, if_neg hrun]
      exact .some h

theorem alike_dispatch (h : Alike k k') (c c' : Copy) (q : Slot) : Alike (dispatch c q k) (dispatch c' q k') := by
  have htake : Alike { k with
        dispatched := (q, k.state q) :: k.dispatched, currentProcess := some q, readyQueue := k.next q }
      { k' with dispatched := (q, k'.state q) :: k'.dispatched, currentProcess := some q, readyQueue := k'.next q } :=
    ⟨h.memory, h.processes, rfl, congrFun h.next q, h.nextPid⟩
  have hrun := (htake.setNext q none).setState q .running
  unfold dispatch
  dsimp only
  split_ifs
  · exact ((hrun.tick q _).symm.tick q _).symm
  · exact hrun.tick q _
  · exact (hrun.symm.tick q _).symm
  · exact hrun

theorem alike_yield (h : Alike k k') (c c' : Copy) (n : ℕ) :
    Option.Rel Alike (processYield c n k) (processYield c' n k') := by
  unfold processYield
  rw [← h.readyQueue]
  cases k.readyQueue with
  | none => exact .some h
  | some q =>
    apply rel_map (alike_requeue h n q)
    intro a b hab
    exact alike_dispatch hab c c' q

theorem alike_exit (h : Alike k k') (c c' : Copy) (n : ℕ) (code : BitVec 32) :
    Option.Rel Alike (processExit c n code k) (processExit c' n code k') := by
  unfold processExit
  rw [← h.currentProcess]
  cases k.currentProcess with
  | none => exact .some h
  | some current =>
    dsimp only
    apply alike_yield
    apply Alike.setState
    exact h.printIf c c' _ _

theorem alike_sleep (h : Alike k k') (c c' : Copy) (n : ℕ) (ticks : Word) :
    Option.Rel Alike (processSleep c n ticks k) (processSleep c' n ticks k') := by
  unfold processSleep
  rw [← h.currentProcess]
  cases k.currentProcess with
  | none => exact .some h
  | some current =>
    apply alike_yield
    apply Alike.setState
    exact h.update current fun _ => rfl

theorem alike_wakeup (h : Alike k k') (proc : Option Slot) : Alike (processWakeup proc k) (processWakeup proc k') := by
  unfold processWakeup
  cases proc with
  | none => exact h
  | some p =>
    dsimp only
    rw [← h.state]
    split_ifs
    · exact h
    · have hready := h.setState p .ready
      have hlink := hready.setNext p (k.setState p .ready).readyQueue
      rw [← hready.readyQueue]
      exact ⟨hlink.memory, hlink.processes, hlink.currentProcess, rfl, hlink.nextPid⟩

/-- The stack is given back, and the process is DEAD. -/
theorem alike_release (h : Alike k k') (p : Slot) :
    Alike ((if (k.processes p).kernelStack ≠ 0 then
        { k with memory := kfree (k.processes p).kernelStack k.memory } else k).setState p .dead)
      ((if (k'.processes p).kernelStack ≠ 0 then
        { k' with memory := kfree (k'.processes p).kernelStack k'.memory } else k').setState p .dead) := by
  have hstack := h.field Process.kernelStack (fun _ => rfl) p
  apply Alike.setState
  rw [hstack]
  split_ifs
  · exact ⟨kfree_silent h.memory _, h.processes, h.currentProcess, h.readyQueue, h.nextPid⟩
  · exact h

theorem alike_destroy (h : Alike k k') (c c' : Copy) (proc : Option Slot) :
    Alike (processDestroy c proc k) (processDestroy c' proc k') := by
  unfold processDestroy
  cases proc with
  | none => exact h
  | some p =>
    apply alike_release
    exact h.printIf c c' _ _

/-- Without an answer of the heap there is none of `process_create`. -/
theorem processCreate_none {name : List Byte} {entry priority : Word} {flags : BitVec 32}
    (hf : findFreeProcess k = some i) (hk : kmalloc n procStackSize k.memory = none) :
    processCreate n name entry priority flags k = none := by
  unfold processCreate
  rw [hf]
  simp only [show ∀ (k : Kernel) i f, (k.modify i f).memory = k.memory from fun _ _ _ => rfl, hk]

/-- What both return is the same, and the states are alike. -/
def SameResult {α : Type*} (r r' : α × Kernel) : Prop := r.1 = r'.1 ∧ Alike r.2 r'.2

theorem alike_create (h : Alike k k') (n : ℕ) (name : List Byte) (entry priority : Word) (flags : BitVec 32) :
    Option.Rel SameResult (processCreate n name entry priority flags k)
      (processCreate n name entry priority flags k') := by
  cases hf : findFreeProcess k with
  | none =>
    have hf' := h.findFree.symm.trans hf
    unfold processCreate
    rw [hf, hf']
    exact .some ⟨rfl, h⟩
  | some p =>
    have hf' := h.findFree.symm.trans hf
    have hheap := kmalloc_silent h.memory n procStackSize
    generalize hk : kmalloc n procStackSize k.memory = r at hheap
    generalize hk' : kmalloc n procStackSize k'.memory = r' at hheap
    cases hheap with
    | none =>
      rw [processCreate_none hf hk, processCreate_none hf' hk']
      exact .none
    | @some x y hxy =>
      obtain ⟨stack, m⟩ := x
      obtain ⟨stack', m'⟩ := y
      obtain ⟨rfl, hmem⟩ : stack = stack' ∧ m.silent = m'.silent := hxy
      obtain ⟨t, ht⟩ := processCreate_eq hf hk name entry priority flags
      obtain ⟨t', ht'⟩ := processCreate_eq hf' hk' name entry priority flags
      have hproc : createdProcess name entry priority flags k stack =
          createdProcess name entry priority flags k' stack := by
        unfold createdProcess
        rw [h.nextPid, h.readyQueue]
      have hslot : Alike (k.modify p fun _ => createdProcess name entry priority flags k stack)
          (k'.modify p fun _ => createdProcess name entry priority flags k' stack) :=
        h.modify p (congrArg Process.untimed hproc)
      rw [ht, ht', h.nextPid, h.readyQueue]
      exact .some ⟨rfl, hmem, hslot.processes, hslot.currentProcess, rfl, rfl⟩

/-- The pid is 0 already when the first copy writes it. -/
theorem processInitCopy_eq (c : Copy) (k : Kernel) : processInitCopy c k = processInit k := by
  have hslot : ∀ (k : Kernel) (i : Slot), (if c = .first then
      ((k.modify i fun _ => .zero).setState i .unused).modify i fun p => { p with pid := 0 }
      else (k.modify i fun _ => .zero).setState i .unused) = k.modify i fun _ => .zero := by
    intro k i
    simp only [Kernel.setState, Kernel.modify, Function.update_idem, Function.update_self]
    split_ifs
    · rfl
    · rfl
  unfold processInitCopy processInit
  simp only [hslot]

theorem alike_init (h : Alike k k') : Alike (processInit k) (processInit k') := by
  obtain ⟨hp, hr, -⟩ := processInit_spec k
  obtain ⟨hp', hr', -⟩ := processInit_spec k'
  obtain ⟨hc, hn, t, hm⟩ := processInit_vars k
  obtain ⟨hc', hn', t', hm'⟩ := processInit_vars k'
  refine ⟨?_, ?_, ?_, ?_, ?_⟩
  · rw [hm, hm']
    exact h.memory
  · intro i
    rw [hp, hp']
  · rw [hc, hc', h.currentProcess]
  · rw [hr, hr', h.readyQueue]
  · rw [hn, hn', h.nextPid]

/-- **The copies in lock step.** From states that are alike both return the same, or neither returns, and the
states are alike again. -/
theorem exec_alike (h : Alike k k') (c c' : Copy) (n : ℕ) (op : TableOp) :
    Option.Rel SameResult (tableExec c n k op) (tableExec c' n k' op) := by
  cases op with
  | init =>
    unfold tableExec
    rw [processInitCopy_eq, processInitCopy_eq]
    exact .some ⟨rfl, alike_init h⟩
  | create name entry priority flags =>
    apply rel_map (alike_create h n name entry priority flags)
    intro a b hab
    exact ⟨congrArg some hab.1, hab.2⟩
  | destroy proc => exact .some ⟨rfl, alike_destroy h c c' proc⟩
  | exit code => exact rel_map (alike_exit h c c' n code) fun a b hab => ⟨rfl, hab⟩
  | yield => exact rel_map (alike_yield h c c' n) fun a b hab => ⟨rfl, hab⟩
  | sleep ticks => exact rel_map (alike_sleep h c c' n ticks) fun a b hab => ⟨rfl, hab⟩
  | wakeup proc => exact .some ⟨rfl, alike_wakeup h proc⟩
  | getCurrent => exact .some ⟨congrArg some h.currentProcess, h⟩
  | getByPid pid => exact .some ⟨congrArg some (h.getByPid pid), h⟩

/-! ## The counts -/

/-- `processes[i].stats.total_ticks` -/
def Kernel.ticks (k : Kernel) (i : Slot) : Word := (k.processes i).totalTicks

/-- The process that a call takes from the ready queue. -/
def taken (k : Kernel) : TableOp → Option Slot
  | .yield => k.readyQueue
  | .exit _ | .sleep _ => if k.currentProcess = none then none else k.readyQueue
  | _ => none

/-- A call clears a slot. -/
def Clears (k : Kernel) (i : Slot) : TableOp → Prop
  | .init => True
  | .create .. => findFreeProcess k = some i
  | _ => False

theorem ticks_modify (k : Kernel) (i : Slot) (hf : ∀ p, (f p).totalTicks = p.totalTicks) :
    (k.modify i f).ticks = k.ticks := by
  funext j
  by_cases hj : j = i
  · subst hj
    simpa [Kernel.ticks, Kernel.modify] using hf _
  · simp [Kernel.ticks, Kernel.modify, hj]

theorem ticks_setState (k : Kernel) (i : Slot) (v : ProcState) : (k.setState i v).ticks = k.ticks :=
  ticks_modify k i fun _ => rfl

theorem ticks_setNext (k : Kernel) (i : Slot) (v : Option Slot) : (k.setNext i v).ticks = k.ticks :=
  ticks_modify k i fun _ => rfl

theorem ticks_requeue (h : requeue n q k = some k') : k'.ticks = k.ticks := by
  rcases requeue_cases h with ⟨-, rfl⟩ | ⟨current, last, -, -, -, rfl⟩
  · rfl
  · rw [ticks_setNext, ticks_setNext, ticks_setState]

theorem ticks_count (k : Kernel) (q i : Slot) :
    (k.modify q fun p => { p with totalTicks := p.totalTicks + 1 }).ticks i =
      if q = i then k.ticks i + 1 else k.ticks i := by
  by_cases hq : q = i
  · subst hq
    simp [Kernel.ticks, Kernel.modify]
  · simp [Kernel.ticks, Kernel.modify, hq, Ne.symm hq]

theorem ticks_dispatch (c : Copy) (q : Slot) (k : Kernel) (i : Slot) :
    (dispatch c q k).ticks i = if c = .first ∧ q = i then k.ticks i + 1 else k.ticks i := by
  set k₁ : Kernel := { k with
    dispatched := (q, k.state q) :: k.dispatched, currentProcess := some q, readyQueue := k.next q } with hk₁
  have hrun : ((k₁.setNext q none).setState q .running).ticks = k.ticks := by
    rw [ticks_setState, ticks_setNext]
    rfl
  have hcount := ticks_count ((k₁.setNext q none).setState q .running) q i
  rw [hrun] at hcount
  unfold dispatch
  dsimp only
  by_cases hc : c = .first
  · simp only [hc, true_and]
    exact hcount
  · simp only [hc, false_and, if_false]
    exact congrFun hrun i

theorem ticks_yield (h : processYield c n k = some k') (i : Slot) :
    k'.ticks i = if c = .first ∧ k.readyQueue = some i then k.ticks i + 1 else k.ticks i := by
  rcases processYield_cases h with ⟨hr, rfl⟩ | ⟨q, k₁, hr, h1, rfl⟩
  · simp [hr]
  · rw [ticks_dispatch, ticks_requeue h1, hr]
    simp

theorem ticks_exit {code : BitVec 32} (h : processExit c n code k = some k') (i : Slot) :
    k'.ticks i = if c = .first ∧ taken k (.exit code) = some i then k.ticks i + 1 else k.ticks i := by
  unfold processExit at h
  unfold taken
  cases hcur : k.currentProcess with
  | none =>
    rw [hcur] at h
    obtain rfl := Option.some.inj h
    simp
  | some current =>
    rw [hcur] at h
    dsimp only at h
    simp only [reduceCtorEq, if_false]
    by_cases hc : c = .first
    · rw [if_pos hc] at h
      rw [ticks_yield h, ticks_setState]
      rfl
    · rw [if_neg hc] at h
      rw [ticks_yield h, ticks_setState]
      rfl

theorem ticks_sleep {ticks : Word} (h : processSleep c n ticks k = some k') (i : Slot) :
    k'.ticks i = if c = .first ∧ taken k (.sleep ticks) = some i then k.ticks i + 1 else k.ticks i := by
  unfold processSleep at h
  unfold taken
  cases hcur : k.currentProcess with
  | none =>
    rw [hcur] at h
    obtain rfl := Option.some.inj h
    simp
  | some current =>
    rw [hcur] at h
    simp only [reduceCtorEq, if_false]
    have hsleep : (k.modify current fun p => { p with sleepUntil := ticks }).ticks = k.ticks :=
      ticks_modify k current fun _ => rfl
    rw [ticks_yield h, ticks_setState, hsleep]
    rfl

theorem ticks_destroy (c : Copy) (proc : Option Slot) (k : Kernel) : (processDestroy c proc k).ticks = k.ticks := by
  cases proc with
  | none => rfl
  | some p =>
    obtain ⟨hp, -⟩ := destroy_effect (c := c) (k := k) (p := p) ⟨0, rfl⟩
    funext i
    rw [Kernel.ticks, hp]
    by_cases hi : i = p
    · subst hi
      simp [Kernel.ticks]
    · simp [Kernel.ticks, hi]

theorem ticks_wakeup (proc : Option Slot) (k : Kernel) : (processWakeup proc k).ticks = k.ticks := by
  unfold processWakeup
  cases proc with
  | none => rfl
  | some p =>
    dsimp only
    split_ifs
    · rfl
    · have hlink := ticks_setNext (k.setState p .ready) p k.readyQueue
      rw [ticks_setState] at hlink
      exact hlink

/-- A call that returns nothing. -/
theorem of_void {x : Option Kernel} {r : Option (Option Slot)} (h : x.map (fun k => (none, k)) = some (r, k')) :
    x = some k' := by
  obtain ⟨k₁, hx, hr⟩ := Option.map_eq_some_iff.1 h
  rw [hx, (Prod.mk.inj hr).2]

/-- **What a call does to the counts.** It clears those of the slots that it clears; the first copy counts a
tick of the process that it takes. -/
theorem ticks_exec {r : Option (Option Slot)} (h : tableExec c n k op = some (r, k')) (i : Slot) :
    (Clears k i op → k'.ticks i = 0) ∧
      (¬ Clears k i op → k'.ticks i = if c = .first ∧ taken k op = some i then k.ticks i + 1 else k.ticks i) := by
  cases op with
  | init =>
    obtain ⟨-, rfl⟩ := Prod.mk.inj (Option.some.inj h)
    refine ⟨?_, fun hno => absurd trivial hno⟩
    intro _
    rw [processInitCopy_eq, Kernel.ticks, (processInit_spec k).1]
    rfl
  | create name entry priority flags =>
    obtain ⟨⟨r, k₁⟩, hc, hr⟩ := Option.map_eq_some_iff.1 h
    obtain ⟨-, rfl⟩ := Prod.mk.inj hr
    simp only [Clears, taken]
    rcases processCreate_cases hc with ⟨hf, -, rfl⟩ | ⟨p, stack, m, t, hf, -, -, rfl⟩
    · simp [hf]
    · have h0 : (createdProcess name entry priority flags k stack).totalTicks = 0 := by
        unfold createdProcess
        split_ifs
        · rfl
        · rfl
      rw [hf]
      by_cases hp : p = i
      · subst hp
        simp [Kernel.ticks, Kernel.modify, h0]
      · simp [Kernel.ticks, Kernel.modify, hp, Ne.symm hp]
  | destroy proc =>
    obtain ⟨-, rfl⟩ := Prod.mk.inj (Option.some.inj h)
    simp [Clears, taken, ticks_destroy]
  | exit code =>
    exact ⟨False.elim, fun _ => ticks_exit (of_void h) i⟩
  | yield =>
    exact ⟨False.elim, fun _ => ticks_yield (of_void h) i⟩
  | sleep ticks =>
    exact ⟨False.elim, fun _ => ticks_sleep (of_void h) i⟩
  | wakeup proc =>
    obtain ⟨-, rfl⟩ := Prod.mk.inj (Option.some.inj h)
    simp [Clears, taken, ticks_wakeup]
  | getCurrent =>
    obtain ⟨-, rfl⟩ := Prod.mk.inj (Option.some.inj h)
    simp [Clears, taken]
  | getByPid pid =>
    obtain ⟨-, rfl⟩ := Prod.mk.inj (Option.some.inj h)
    simp [Clears, taken]

/-! ## The text -/

/-- The operations whose text may differ. -/
def TableOp.Speaks : TableOp → Prop
  | .create .. | .destroy _ | .exit _ => True
  | _ => False

/-- What the other operations print. -/
def said : TableOp → List Print
  | .init => [.text "\n[Process] Initializing process manager...\n", .text "[Process] Process manager ready\n"]
  | _ => []

theorem processInit_text (k : Kernel) :
    (processInit k).memory.console = k.memory.console ++ said .init := by
  unfold processInit
  rw [Kernel.print_memory, clearSlots_unchanged Kernel.memory fun _ _ => rfl, Kernel.print_memory,
    memory_print_print]
  rfl

theorem requeue_memory (h : requeue n q k = some k') : k'.memory = k.memory := by
  rcases requeue_cases h with ⟨-, rfl⟩ | ⟨_, _, -, -, -, rfl⟩
  · rfl
  · rfl

theorem dispatch_memory (c : Copy) (q : Slot) (k : Kernel) : (dispatch c q k).memory = k.memory := by
  unfold dispatch
  dsimp only
  split_ifs
  · rfl
  · rfl

theorem yield_memory (h : processYield c n k = some k') : k'.memory = k.memory := by
  rcases processYield_cases h with ⟨-, rfl⟩ | ⟨q, k₁, -, h1, rfl⟩
  · rfl
  · rw [dispatch_memory, requeue_memory h1]

theorem sleep_memory {ticks : Word} (h : processSleep c n ticks k = some k') : k'.memory = k.memory := by
  unfold processSleep at h
  cases hcur : k.currentProcess with
  | none =>
    rw [hcur] at h
    rw [Option.some.inj h]
  | some current =>
    rw [hcur] at h
    dsimp only at h
    have hmem := yield_memory h
    exact hmem

theorem wakeup_memory (proc : Option Slot) (k : Kernel) : (processWakeup proc k).memory = k.memory := by
  unfold processWakeup
  cases proc with
  | none => rfl
  | some p =>
    dsimp only
    split_ifs
    · rfl
    · rfl

/-- The text does not depend on the copy, nor on the state. -/
theorem exec_text {r : Option (Option Slot)} (h : tableExec c n k op = some (r, k')) (hop : ¬ op.Speaks) :
    k'.memory.console = k.memory.console ++ said op := by
  cases op with
  | init =>
    obtain ⟨-, rfl⟩ := Prod.mk.inj (Option.some.inj h)
    rw [processInitCopy_eq, processInit_text]
  | create | destroy | exit => exact absurd trivial hop
  | yield =>
    rw [yield_memory (of_void h)]
    exact (List.append_nil _).symm
  | sleep ticks =>
    rw [sleep_memory (of_void h)]
    exact (List.append_nil _).symm
  | wakeup proc =>
    obtain ⟨-, rfl⟩ := Prod.mk.inj (Option.some.inj h)
    rw [wakeup_memory]
    exact (List.append_nil _).symm
  | getCurrent | getByPid =>
    obtain ⟨-, rfl⟩ := Prod.mk.inj (Option.some.inj h)
    exact (List.append_nil _).symm

/-! ## Runs -/

/-- What states that are alike can differ in. -/
theorem Alike.tablesAgree_iff (h : Alike k k') : TablesAgree k k' ↔ k.ticks = k'.ticks := by
  refine ⟨?_, fun ht => ⟨funext ?_, h.currentProcess, h.readyQueue, h.nextPid⟩⟩
  · intro hs
    unfold Kernel.ticks
    rw [hs.processes]
  · intro i
    have hi : (k.processes i).totalTicks = (k'.processes i).totalTicks := congrFun ht i
    have hback : ∀ p : Process, p = { p.untimed with totalTicks := p.totalTicks } := fun p => rfl
    rw [hback (k.processes i), hback (k'.processes i), h.processes, hi]

variable {r r' : Option (Option Slot)}

theorem clears_congr (h : Alike k k') (i : Slot) (op : TableOp) : Clears k i op ↔ Clears k' i op := by
  unfold Clears
  rw [h.findFree]

/-- Without a process that is taken, the tables stay the same. -/
theorem same_of_untaken (h : Alike k k') (hs : k.ticks = k'.ticks) (h₁ : tableExec .first n k op = some (r, a))
    (h₂ : tableExec .second n k' op = some (r', b)) (ht : taken k op = none) : a.ticks = b.ticks := by
  funext i
  obtain ⟨hclear, hkeep⟩ := ticks_exec h₁ i
  obtain ⟨hclear', hkeep'⟩ := ticks_exec h₂ i
  by_cases hc : Clears k i op
  · rw [hclear hc, hclear' ((clears_congr h i op).1 hc)]
  · rw [hkeep hc, hkeep' fun h' => hc ((clears_congr h i op).2 h'), ht, hs]
    simp

/-- A process that is taken is not cleared, and only one copy counts. -/
theorem differ_of_taken {q : Slot} (h : Alike k k') (hs : k.ticks = k'.ticks)
    (h₁ : tableExec .first n k op = some (r, a)) (h₂ : tableExec .second n k' op = some (r', b))
    (ht : taken k op = some q) : a.ticks ≠ b.ticks := by
  intro he
  have hc : ¬ Clears k q op := by
    intro hc
    cases op with
    | init => cases ht
    | create => cases ht
    | _ => exact hc
  have hone := (ticks_exec h₁ q).2 hc
  have hnone := (ticks_exec h₂ q).2 fun h' => hc ((clears_congr h q op).2 h')
  rw [if_pos ⟨rfl, ht⟩, he, hs] at hone
  have hno : ¬ (Copy.second = .first ∧ taken k' op = some q) := by simp
  rw [if_neg hno, hone] at hnone
  bv_omega

/-- One step in each copy, from states that are alike. -/
theorem copyStep_alike {x y : Kernel × Kernel} {e : CopyCall} (h : Alike x.1 x.2) (hs : CopyStep x e y) :
    e.first = e.second ∧ Alike y.1 y.2 := by
  obtain ⟨n, h₁, h₂⟩ := hs
  have hrel := exec_alike h .first .second n e.op
  rw [h₁, h₂] at hrel
  have hres : SameResult (e.first, y.1) (e.second, y.2) := Option.rel_some_some.1 hrel
  exact hres

/-- Both print the same in a step, unless it is one of the operations that speak. -/
def SameText (e : Transition (Kernel × Kernel) CopyCall) : Prop :=
  e.label.op.Speaks ∨ ∃ text, e.post.1.memory.console = e.pre.1.memory.console ++ text ∧
    e.post.2.memory.console = e.pre.2.memory.console ++ text

theorem sameText_of_step {x y : Kernel × Kernel} {e : CopyCall} (hs : CopyStep x e y) : SameText ⟨x, e, y⟩ := by
  obtain ⟨n, h₁, h₂⟩ := hs
  by_cases hop : e.op.Speaks
  · exact Or.inl hop
  · exact Or.inr ⟨said e.op, exec_text h₁ hop, exec_text h₂ hop⟩

/-- **The two copies**, from the same state on. Along every run they return and print the same, and their states
are equal but for the counts of ticks and the text; one returns when the other does. The tables are the same in
every field, in every state, exactly along the runs in which no call takes a process from the ready queue. -/
theorem copies_agree {tr : List (Transition (Kernel × Kernel) CopyCall)} {t : Kernel × Kernel}
    (hr : Run CopyStep (k, k) tr t) :
    ((∀ e ∈ tr, e.label.first = e.label.second ∧ TablesAgree e.post.1 e.post.2 ∧ SameText e) ↔
        ∀ e ∈ tr, taken e.pre.1 e.label.op = none) ∧
      (∀ e ∈ tr, e.label.first = e.label.second) ∧ Alike t.1 t.2 ∧
      ∀ n op, (tableExec .first n t.1 op).isSome ↔ (tableExec .second n t.2 op).isSome := by
  obtain ⟨hend, hall⟩ := hr.invariant (I := fun x => Alike x.1 x.2) (Alike.refl k)
    fun _ _ _ hx hs => (copyStep_alike hx hs).2
  have hret : ∀ e ∈ tr, e.label.first = e.label.second := by
    intro e he
    exact (copyStep_alike (hall e he).1 (hr.step_of_mem e he)).1
  refine ⟨?_, hret, hend, ?_⟩
  · have hsame : (∀ e ∈ tr, TablesAgree e.post.1 e.post.2) ↔ ∀ e ∈ tr, taken e.pre.1 e.label.op = none := by
      refine hr.always_iff (I := fun x => Alike x.1 x.2) (J := fun x => TablesAgree x.1 x.2)
        (P := fun x => TablesAgree x.1 x.2) (C := fun x e => taken x.1 e.op = none) (Alike.refl k)
        ⟨rfl, rfl, rfl, rfl⟩ (fun _ _ _ hx hs => (copyStep_alike hx hs).2) ?_ (fun _ hx => hx) ?_
      · intro x e y hx hsame hc hs
        have hy := (copyStep_alike hx hs).2
        obtain ⟨n, h₁, h₂⟩ := hs
        exact hy.tablesAgree_iff.2 (same_of_untaken hx (hx.tablesAgree_iff.1 hsame) h₁ h₂ hc)
      · intro x e y hx hsame hc hs hp
        have hy := (copyStep_alike hx hs).2
        obtain ⟨n, h₁, h₂⟩ := hs
        obtain ⟨q, hq⟩ := Option.ne_none_iff_exists'.1 hc
        exact differ_of_taken hx (hx.tablesAgree_iff.1 hsame) h₁ h₂ hq (hy.tablesAgree_iff.1 hp)
    rw [← hsame]
    apply forall₂_congr
    intro e he
    have htext : SameText e := sameText_of_step (hr.step_of_mem e he)
    rw [and_iff_right (hret e he), and_iff_left htext]
  · intro n op
    have hrel := exec_alike hend .first .second n op
    generalize tableExec .first n t.1 op = x at hrel
    generalize tableExec .second n t.2 op = y at hrel
    cases hrel with
    | none => rfl
    | some => rfl

/-- A call in both copies, if both return what the label says. -/
def copyExec (rounds : ℕ) (x : Kernel × Kernel) (e : CopyCall) : Option (Kernel × Kernel) :=
  match tableExec .first rounds x.1 e.op, tableExec .second rounds x.2 e.op with
  | some (r, k), some (r', k') => if r = e.first ∧ r' = e.second then some (k, k') else none
  | _, _ => none

theorem copyExec_step (x : Kernel × Kernel) (e : CopyCall) (y : Kernel × Kernel) (h : copyExec n x e = some y) :
    CopyStep x e y := by
  unfold copyExec at h
  cases h₁ : tableExec .first n x.1 e.op with
  | none => simp [h₁] at h
  | some z =>
    cases h₂ : tableExec .second n x.2 e.op with
    | none => simp [h₁, h₂] at h
    | some z' =>
      simp only [h₁, h₂] at h
      split_ifs at h with hr
      obtain ⟨hfirst, hsecond⟩ := hr
      obtain rfl := Option.some.inj h
      refine ⟨n, ?_, ?_⟩
      · rw [h₁, ← hfirst]
      · rw [h₂, ← hsecond]

/-- A process is created, and found by its pid. -/
theorem copies_agree_created : ∃ tr t, Run CopyStep
      (Kernel.boot (Memory.boot fun _ => 0), Kernel.boot (Memory.boot fun _ => 0)) tr t ∧
    (tr.map Transition.label).map CopyCall.op = [.create [0x41, 0] 0x100000 128 1, .getByPid 1] ∧
      ((∀ e ∈ tr, e.label.first = e.label.second ∧ TablesAgree e.post.1 e.post.2 ∧ SameText e) ↔
        ∀ e ∈ tr, taken e.pre.1 e.label.op = none) := by
  obtain ⟨tr, t, hr, hl, -⟩ := exists_run_of_replay (copyExec_step (n := 2)) (P := fun _ _ => true)
    (s := (Kernel.boot (Memory.boot fun _ => 0), Kernel.boot (Memory.boot fun _ => 0)))
    (l := [⟨.create [0x41, 0] 0x100000 128 1, some (some 0), some (some 0)⟩,
      ⟨.getByPid 1, some (some 0), some (some 0)⟩]) (by decide +kernel)
  refine ⟨tr, t, hr, ?_, (copies_agree hr).1⟩
  rw [hl]
  rfl

/-- A process is created, and runs: only one copy counts the tick. -/
theorem copies_differ : ∃ tr t, Run CopyStep
      (Kernel.boot (Memory.boot fun _ => 0), Kernel.boot (Memory.boot fun _ => 0)) tr t ∧
    (tr.map Transition.label).map CopyCall.op = [.create [0x41, 0] 0x100000 128 1, .yield] ∧
      (t.1.processes 0).totalTicks = 1 ∧ (t.2.processes 0).totalTicks = 0 ∧ ¬ TablesAgree t.1 t.2 := by
  obtain ⟨tr, t, hr, hl, ht⟩ := exists_run_of_replay (copyExec_step (n := 2))
    (P := fun _ t => decide ((t.1.processes 0).totalTicks = 1 ∧ (t.2.processes 0).totalTicks = 0))
    (s := (Kernel.boot (Memory.boot fun _ => 0), Kernel.boot (Memory.boot fun _ => 0)))
    (l := [⟨.create [0x41, 0] 0x100000 128 1, some (some 0), some (some 0)⟩, ⟨.yield, none, none⟩])
    (by decide +kernel)
  obtain ⟨h1, h2⟩ := of_decide_eq_true ht
  refine ⟨tr, t, hr, ?_, h1, h2, ?_⟩
  · rw [hl]
    rfl
  · intro hs
    rw [hs.processes, h2] at h1
    cases h1

end Zer0S
