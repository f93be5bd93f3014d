import Zer0S.Lib.Trace
import Zer0S.Spec.Process

/-!
# The two copies of `process.c`

The nine operations that `process.c` defines twice, with what they return, as the system that has the
first definitions and the one that has the second.
-/

namespace Zer0S

open Lib

/-- `process_init` in each copy; only the first writes the pid once more. -/
def processInitCopy (c : Copy) (k : Kernel) : Kernel :=
  let k := k.print [.text "\n[Process] Initializing process manager...\n"]
  let k := (List.finRange 256).foldl (fun k i =>
    let k := k.modify i fun _ => .zero
    let k := k.setState i .unused
    if c = .first then k.modify i fun p => { p with pid := 0 } else k) k
  k.print [.text "[Process] Process manager ready\n"]

/-- `process_get_current` -/
def processGetCurrent (k : Kernel) : Option Slot := k.currentProcess

/-- A call of an operation. -/
inductive TableOp
  | init
  | create (name : List Byte) (entry priority : Word) (flags : BitVec 32)
  | destroy (proc : Option Slot)
  | exit (code : BitVec 32)
  | yield
  | sleep (ticks : Word)
  | wakeup (proc : Option Slot)
  | getCurrent
  | getByPid (pid : Word)
deriving DecidableEq, Repr

/-- A call in one of the copies: what it returns, `none` for `void`, and the state after it. -/
def tableExec (c : Copy) (rounds : ℕ) (k : Kernel) : TableOp → Option (Option (Option Slot) × Kernel)
  | .init => some (none, processInitCopy c k)
  | .create name entry priority flags =>
    (processCreate rounds name entry priority flags k).map fun (proc, k) => (some proc, k)
  | .destroy proc => some (none, processDestroy c proc k)
  | .exit code => (processExit c rounds code k).map fun k => (none, k)
  | .yield => (processYield c rounds k).map fun k => (none, k)
  | .sleep ticks => (processSleep c rounds ticks k).map fun k => (none, k)
  | .wakeup proc => some (none, processWakeup proc k)
  | .getCurrent => some (some (processGetCurrent k), k)
  | .getByPid pid => some (some (processGetByPid pid k), k)

/-- A call in both systems, and what it returns in each. -/
structure CopyCall where
  op : TableOp
  first : Option (Option Slot)
  second : Option (Option Slot)

/-- **Lock step**: the same call in a state of each system. -/
def CopyStep (a : Kernel × Kernel) (e : CopyCall) (b : Kernel × Kernel) : Prop :=
  ∃ rounds, tableExec .first rounds a.1 e.op = some (e.first, b.1) ∧
    tableExec .second rounds a.2 e.op = some (e.second, b.2)

/-- The systems agree: the process table in every field, and the other variables of `process.c`. -/
structure TablesAgree (k k' : Kernel) : Prop where
  processes : k.processes = k'.processes
  currentProcess : k.currentProcess = k'.currentProcess
  readyQueue : k.readyQueue = k'.readyQueue
  nextPid : k.nextPid = k'.nextPid

end Zer0S
