import Zer0S.Lib.Chain
import Zer0S.Spec.Memory

/-!
# Processes and the ready queue (`process.c`)

The process table is a function on the 256 slots; a pointer to a process is a slot, or
`none` for NULL. The heap is that of `memory.c`, for the kernel stacks.

`process.c` defines each operation twice; `Copy` says which of the two definitions is
meant, where they differ. Calls that walk the queue or the heap take a number of rounds
(`none`: not enough rounds).

`dispatched` is a ghost field: the processes `process_yield` took from the queue, latest
first, each with the state it was in at that moment.
-/

namespace Zer0S

open Lib

/-- `PROC_UNUSED`, ..., `PROC_DEAD` -/
inductive ProcState
  | unused | new | ready | running | waiting | sleeping | stopped | zombie | dead
deriving DecidableEq, Repr

/-- `PROC_STACK_SIZE` -/
def procStackSize : Word := 8192

/-- `PROC_NAME_MAX` -/
def procNameMax : ℕ := 64

/-- The registers of a `proc_context_t`, without `cr3`, the segments and the FPU state. -/
structure ProcContext where
  rax : Word
  rbx : Word
  rcx : Word
  rdx : Word
  rsi : Word
  rdi : Word
  rbp : Word
  rsp : Word
  r8 : Word
  r9 : Word
  r10 : Word
  r11 : Word
  r12 : Word
  r13 : Word
  r14 : Word
  r15 : Word
  rip : Word
  rflags : Word
deriving DecidableEq, Repr

/-- A context after `memset` to 0. -/
def ProcContext.zero : ProcContext := ⟨0, 0, 0, 0, 0, 0, 0, 0, 0, 0, 0, 0, 0, 0, 0, 0, 0, 0⟩

/-- A slot of `processes`, `MAX_PROCS` of them. -/
abbrev Slot := Fin 256

/-- The fields of a `process_t` that `process.c` uses. The name is kept without its NUL. -/
structure Process where
  pid : Word
  name : List Byte
  state : ProcState
  flags : BitVec 32
  priority : BitVec 32
  context : ProcContext
  kernelStack : Word
  kernelStackSize : Word
  sleepUntil : Word
  next : Option Slot
  totalTicks : Word
deriving DecidableEq, Repr

/-- A slot after `my_memset` to 0; `PROC_UNUSED` is 0. -/
def Process.zero : Process := ⟨0, [], .unused, 0, 0, .zero, 0, 0, 0, none, 0⟩

/-- The static variables of `process.c`, and the memory. -/
structure Kernel where
  memory : Memory
  processes : Slot → Process
  currentProcess : Option Slot
  readyQueue : Option Slot
  nextPid : Word
  dispatched : List (Slot × ProcState)

/-- The state before anything ran. -/
def Kernel.boot (memory : Memory) : Kernel := ⟨memory, fun _ => .zero, none, none, 1, []⟩

/-- The first or the second definition of an operation. -/
inductive Copy
  | first
  | second
deriving DecidableEq, Repr

namespace Kernel

def print (k : Kernel) (p : List Print) : Kernel := { k with memory := k.memory.print p }

@[simp] theorem print_processes (k : Kernel) (p : List Print) : (k.print p).processes = k.processes := rfl
@[simp] theorem print_readyQueue (k : Kernel) (p : List Print) : (k.print p).readyQueue = k.readyQueue := rfl
@[simp] theorem print_memory (k : Kernel) (p : List Print) : (k.print p).memory = k.memory.print p := rfl
@[simp] theorem print_currentProcess (k : Kernel) (p : List Print) :
    (k.print p).currentProcess = k.currentProcess := rfl
@[simp] theorem print_nextPid (k : Kernel) (p : List Print) : (k.print p).nextPid = k.nextPid := rfl
@[simp] theorem print_dispatched (k : Kernel) (p : List Print) : (k.print p).dispatched = k.dispatched := rfl

/-- The console tells what was printed. -/
theorem print_inj {k : Kernel} {p q : List Print} (h : k.print p = k.print q) : p = q := by
  have hconsole : k.memory.console ++ p = k.memory.console ++ q := congrArg (fun k => k.memory.console) h
  exact List.append_cancel_left hconsole

/-- Change the process in a slot. -/
def modify (k : Kernel) (i : Slot) (f : Process → Process) : Kernel :=
  { k with processes := Function.update k.processes i (f (k.processes i)) }

/-- `processes[i].state` -/
def state (k : Kernel) (i : Slot) : ProcState := (k.processes i).state

/-- `processes[i].next` -/
def next (k : Kernel) (i : Slot) : Option Slot := (k.processes i).next

/-- `processes[i].state = v` -/
def setState (k : Kernel) (i : Slot) (v : ProcState) : Kernel := k.modify i fun p => { p with state := v }

/-- `processes[i].next = v` -/
def setNext (k : Kernel) (i : Slot) (v : Option Slot) : Kernel := k.modify i fun p => { p with next := v }

end Kernel

/-- `find_free_process` -/
def findFreeProcess (k : Kernel) : Option Slot :=
  (List.finRange 256).find? fun i => k.state i = .unused ∨ k.state i = .dead

/-- `process_init` -/
def processInit (k : Kernel) : Kernel :=
  let k := k.print [.text "\n[Process] Initializing process manager...\n"]
  let k := (List.finRange 256).foldl (fun k i => k.modify i fun _ => .zero) k
  k.print [.text "[Process] Process manager ready\n"]

/-- The bytes of a C string, given the bytes from its start on. -/
def cString (s : List Byte) : List Byte := s.takeWhile (· ≠ 0)

/-- What `process_create` writes to the slot before it allocates the stack. -/
def newProcess (pid : Word) (name : List Byte) (priority : Word) (flags : BitVec 32) : Process :=
  { Process.zero with
    pid := pid
    state := .ready
    priority := priority.setWidth 32
    flags := flags
    name := (cString name).take (procNameMax - 1)
    kernelStackSize := procStackSize }

/-- `process_create`; NULL is `none` in the result. -/
def processCreate (rounds : ℕ) (name : List Byte) (entry priority : Word) (flags : BitVec 32) (k : Kernel) :
    Option (Option Slot × Kernel) :=
  match findFreeProcess k with
  | none => some (none, k)
  | some proc =>
    let k := { k.modify proc fun _ => newProcess k.nextPid name priority flags with nextPid := k.nextPid + 1 }
    match kmalloc rounds procStackSize k.memory with
    | none => none
    | some (stack, memory) =>
      let k := { k with memory := memory }
      let k := k.modify proc fun p => { p with kernelStack := stack }
      -- the slot stays READY, and the pid is not given back
      if stack = 0 then some (none, k) else
      let k := k.modify proc fun p => { p with
        context := { p.context with rsp := stack + procStackSize, rip := entry, rflags := 0x202 } }
      let k := k.setNext proc k.readyQueue
      let k := { k with readyQueue := some proc }
      some (some proc, k.print [.text "[Process] Created: ", .bytes (cString name), .text " (PID: ",
        .hex (k.processes proc).pid, .text ")\n"])

/-- `process_destroy`; only the first definition prints. -/
def processDestroy (c : Copy) (proc : Option Slot) (k : Kernel) : Kernel :=
  match proc with
  | none => k
  | some proc =>
    let k := if c = .first then
        k.print [.text "[Process] Destroying: ", .bytes (k.processes proc).name, .text " (PID: ",
          .hex (k.processes proc).pid, .text ")\n"]
      else k
    let stack := (k.processes proc).kernelStack
    -- the slot keeps the pointer, and may still be queued
    let k := if stack ≠ 0 then { k with memory := kfree stack k.memory } else k
    k.setState proc .dead

/-- The part of `process_yield` that puts a running process back at the tail of the queue
with head `head`: the loop that finds the tail, and the two links. -/
def requeue (rounds : ℕ) (head : Slot) (k : Kernel) : Option Kernel :=
  match k.currentProcess with
  | none => some k
  | some current =>
    if k.state current = .running then
      let k := k.setState current .ready
      (loop (lastBody k.next) rounds head).map fun last =>
        (k.setNext last (some current)).setNext current none
    else some k

/-- The part of `process_yield` that takes the process at the head of the queue; only the
first definition counts a tick. -/
def dispatch (c : Copy) (head : Slot) (k : Kernel) : Kernel :=
  let k := { k with dispatched := (head, k.state head) :: k.dispatched }
  let k := { k with currentProcess := some head, readyQueue := k.next head }
  let k := (k.setNext head none).setState head .running
  if c = .first then k.modify head fun p => { p with totalTicks := p.totalTicks + 1 } else k

/-- `process_yield` -/
def processYield (c : Copy) (rounds : ℕ) (k : Kernel) : Option Kernel :=
  match k.readyQueue with
  | none => some k
  | some head => (requeue rounds head k).map (dispatch c head)

/-- `process_exit`; only the first definition prints. -/
def processExit (c : Copy) (rounds : ℕ) (code : BitVec 32) (k : Kernel) : Option Kernel :=
  match k.currentProcess with
  | none => some k
  | some current =>
    let k := if c = .first then
        k.print [.text "[Process] Exit: ", .bytes (k.processes current).name, .text " with code ",
          .hex (code.signExtend 64), .text "\n"]
      else k
    processYield c rounds (k.setState current .zombie)

/-- `process_sleep` -/
def processSleep (c : Copy) (rounds : ℕ) (ticks : Word) (k : Kernel) : Option Kernel :=
  match k.currentProcess with
  | none => some k
  | some current =>
    let k := k.modify current fun p => { p with sleepUntil := ticks }
    processYield c rounds (k.setState current .sleeping)

/-- `process_wakeup` -/
def processWakeup (proc : Option Slot) (k : Kernel) : Kernel :=
  match proc with
  | none => k
  | some proc =>
    if k.state proc ≠ .sleeping then k else
    -- linked in before all that wait
    let k := k.setState proc .ready
    let k := k.setNext proc k.readyQueue
    { k with readyQueue := some proc }

/-- `process_get_by_pid` -/
def processGetByPid (pid : Word) (k : Kernel) : Option Slot :=
  (List.finRange 256).find? fun i => (k.processes i).pid = pid ∧ k.state i ≠ .unused

/-- What `process_list` prints for a state. -/
def ProcState.label : ProcState → String
  | .ready => "READY"
  | .running => "RUNNING"
  | .sleeping => "SLEEPING"
  | .zombie => "ZOMBIE"
  | _ => "UNKNOWN"

/-- `process_list` -/
def processList (k : Kernel) : Kernel :=
  let lines := (List.finRange 256).flatMap fun i =>
    if k.state i ≠ .unused ∧ k.state i ≠ .dead then
      [.hex (k.processes i).pid, .text " │ ", .bytes (k.processes i).name, .text " │ ",
        .text (k.state i).label, .text "\n"]
    else []
  k.print ([.text "\n=== Process List ===\n"] ++ lines ++ [.text "===================\n"])

/-! ## Runs -/

/-- A call of an operation on processes. -/
inductive ProcessOp
  | create (name : List Byte) (entry priority : Word) (flags : BitVec 32)
  | destroy (proc : Option Slot)
  | exit (code : BitVec 32)
  | yield
  | sleep (ticks : Word)
  | wakeup (proc : Option Slot)
deriving DecidableEq, Repr

/-- The state after a call, if it returns within `rounds` rounds. -/
def processExec (c : Copy) (rounds : ℕ) (k : Kernel) : ProcessOp → Option Kernel
  | .create name entry priority flags => (processCreate rounds name entry priority flags k).map Prod.snd
  | .destroy proc => some (processDestroy c proc k)
  | .exit code => processExit c rounds code k
  | .yield => processYield c rounds k
  | .sleep ticks => processSleep c rounds ticks k
  | .wakeup proc => some (processWakeup proc k)

/-- A call that returns. -/
def ProcessStep (c : Copy) (k : Kernel) (op : ProcessOp) (k' : Kernel) : Prop :=
  ∃ rounds, processExec c rounds k op = some k'

theorem processExec_step {c : Copy} {n : ℕ} (k : Kernel) (op : ProcessOp) (k' : Kernel)
    (h : processExec c n k op = some k') : ProcessStep c k op k' := ⟨n, h⟩

end Zer0S
