import Zer0S.Lib.Trace
import Zer0S.Spec.Process

/-!
# The run queue of `scheduler.c`

`scheduler.c` keeps a list of processes of its own, `ready_list`, which is linked through the
field `next` of the processes, as `ready_queue` of `process.c` is.
-/

namespace Zer0S

open Lib

/-- The static variables of `scheduler.c`, and the state of `process.c`. -/
structure Sched where
  k : Kernel
  readyList : Option Slot
  tickCount : Word

/-- `scheduler_init` -/
def schedulerInit (s : Sched) : Sched :=
  ⟨(s.k.print [.text "[Scheduler] Initializing round-robin scheduler...\n"]).print
    [.text "[Scheduler] Ready\n"], none, 0⟩

/-- `scheduler_add` -/
def schedulerAdd (proc : Option Slot) (s : Sched) : Sched :=
  match proc with
  | none => s
  | some p =>
    let k := (s.k.setState p .ready).setNext p s.readyList
    ⟨k.print [.text "[Scheduler] Added process to ready queue\n"], some p, s.tickCount⟩

/-- What `current` points to in `scheduler_remove`: the variable `ready_list` (`none`), or the
field `next` of a process. -/
def Sched.link (s : Sched) : Option Slot → Option Slot
  | none => s.readyList
  | some q => s.k.next q

/-- `*current = v` -/
def Sched.setLink (s : Sched) (current v : Option Slot) : Sched :=
  match current with
  | none => { s with readyList := v }
  | some q => { s with k := s.k.setNext q v }

/-- One round of the loop of `scheduler_remove`; it ends with the place that points to the
process, if any. -/
def removeBody (s : Sched) (proc : Slot) (current : Option Slot) : Option Slot ⊕ Option (Option Slot) :=
  match s.link current with
  | none => .inr none
  | some x => if x = proc then .inr (some current) else .inl (some x)

/-- `scheduler_remove` -/
def schedulerRemove (rounds : ℕ) (proc : Option Slot) (s : Sched) : Option Sched :=
  match proc with
  | none => some s
  | some p => (loop (removeBody s p) rounds none).map fun found =>
    match found with
    | none => s
    | some current =>
      let s := s.setLink current (s.k.next p)
      { s with k := s.k.setNext p none }

/-- `scheduler_tick` -/
def schedulerTick (s : Sched) : Sched := { s with tickCount := s.tickCount + 1 }

/-- `scheduler_yield` -/
def schedulerYield (rounds : ℕ) (s : Sched) : Option Sched :=
  match s.readyList with
  | none => some s
  | some first =>
    match s.k.next first with
    -- a process that is alone stays where it is
    | none => some s
    | some second => (loop (lastBody s.k.next) rounds second).map fun last =>
      { s with k := (s.k.setNext last (some first)).setNext first none, readyList := some second }

/-! ## Runs -/

/-- A call of an operation of either module. -/
inductive SchedOp
  | process (op : ProcessOp)
  | add (proc : Option Slot)
  | remove (proc : Option Slot)
  | yield
  | tick
deriving DecidableEq, Repr

/-- The state after a call, if it returns within `rounds` rounds. -/
def schedExec (c : Copy) (rounds : ℕ) (s : Sched) : SchedOp → Option Sched
  | .process op => (processExec c rounds s.k op).map fun k => { s with k := k }
  | .add proc => some (schedulerAdd proc s)
  | .remove proc => schedulerRemove rounds proc s
  | .yield => schedulerYield rounds s
  | .tick => some (schedulerTick s)

/-- A call that returns. -/
def SchedStep (c : Copy) (s : Sched) (op : SchedOp) (s' : Sched) : Prop :=
  ∃ rounds, schedExec c rounds s op = some s'

theorem schedExec_step {c : Copy} {n : ℕ} (s : Sched) (op : SchedOp) (s' : Sched)
    (h : schedExec c n s op = some s') : SchedStep c s op s' := ⟨n, h⟩

end Zer0S
