import Zer0S.Spec.Interrupts
import Zer0S.Spec.Terminal

/-!
# An interrupt from its gate to its end (`isr.c`, `isr.asm`, `idt.c`)

The processor goes through the gate, the stub at the base of the gate runs up to its C function, and then
either `isr_handler` halts after its report, or the C function returns and the rest of the stub ends with
`iretq`. The compiled C functions are a parameter for the calls that return. `Resumes` says what it is
for the interrupted program to go on.
-/

namespace Zer0S

open Lib

/-! ## `isr.c` -/

/-- `exception_messages` -/
def exceptionMessages : List String := [
  "Division By Zero",
  "Debug",
  "Non Maskable Interrupt",
  "Breakpoint",
  "Into Detected Overflow",
  "Out of Bounds",
  "Invalid Opcode",
  "No Coprocessor",
  "Double Fault",
  "Coprocessor Segment Overrun",
  "Bad TSS",
  "Segment Not Present",
  "Stack Fault",
  "General Protection Fault",
  "Page Fault",
  "Unknown Interrupt",
  "Coprocessor Fault",
  "Alignment Check",
  "Machine Check"] ++ List.replicate 13 "Reserved"

/-- What `isr_handler` prints for an exception. -/
def exceptionReport (regs : Registers) : List Print := [
  .text "\n[EXCEPTION] ",
  .text (exceptionMessages.getD regs.intNo.toNat ""),
  .text " (",
  .hex regs.intNo,
  .text ")\n",
  .text "Error code: ",
  .hex regs.errCode,
  .text "\n",
  .text "RIP: ",
  .hex regs.rip,
  .text "\n",
  .text "CS: ",
  .hex regs.cs,
  .text "\n",
  .text "RFLAGS: ",
  .hex regs.rflags,
  .text "\n",
  .text "RSP: ",
  .hex regs.rsp,
  .text "\n",
  .text "SS: ",
  .hex regs.ss,
  .text "\n"]

/-- `isr_handler`: what it prints before it halts, `none` when it returns. -/
def isrHandler (regs : Registers) : Option (List Print) :=
  if regs.intNo < 32 then some (exceptionReport regs) else none

/-- The C function that a stub calls; `irq_handler` returns. -/
def Stub.report : Stub → Registers → Option (List Print)
  | .isr _, regs | .default, regs => isrHandler regs
  | .irq _, _ | .syscallHandler, _ => none

/-! ## The processor and the stubs -/

/-- All stubs with a gate. -/
def stubs : List Stub :=
  (List.finRange 32).map .isr ++ ((List.finRange 16).map .irq ++ [.syscallHandler, .default])

/-- The stub at an address. -/
def stubAt (addr : Stub → Word) (a : Word) : Option Stub := stubs.find? fun s => addr s == a

/-- From the interrupt to the first instruction of the C function, with the stub in between; `ret` is the
return address of its call. -/
def enterHandler (addr : Stub → Word) (idt : Idt) (ret : Word) (n : BitVec 8) (err : Option Word) (m : Machine) :
    Option (Stub × StubCode × Machine) :=
  (raise idt n err m).bind fun d =>
    (stubAt addr d.rip).bind fun s =>
      s.code.bind fun code =>
        (run gdt d (code.entry ret)).map fun h => (s, code, h)

/-- What becomes of the interrupted program. -/
inductive Outcome
  | resumed (m : Machine)
  | halted (output : List Print)

/-- An interrupt, up to the end of its stub; `call` is a call of the C function that returns. -/
def runInterrupt (addr : Stub → Word) (idt : Idt) (ret : Word) (call : Machine → Machine) (n : BitVec 8)
    (err : Option Word) (m : Machine) : Option Outcome :=
  (enterHandler addr idt ret n err m).bind fun (s, code, h) =>
    match s.report (registersAt h.mem (h.regs .rdi)) with
    | some output => some (.halted output)
    | none => (run gdt (call h) code.exit).map .resumed

/-! ## What it is for -/

/-- `m'` goes on where `m` was interrupted. The flags are those that `iretq` can load at level 0. -/
structure Resumes (m m' : Machine) : Prop where
  regs : m'.regs = m.regs
  rip : m'.rip = m.rip
  cs : m'.cs = m.cs
  ss : m'.ss = m.ss
  rflags : m'.rflags &&& flagMask 0 m.rflags = m.rflags &&& flagMask 0 m.rflags

/-- The `registers_t` of a program that vector `n` interrupts in `m`. -/
def interrupted (n : BitVec 8) (err : Option Word) (m : Machine) : Registers where
  r15 := m.regs .r15
  r14 := m.regs .r14
  r13 := m.regs .r13
  r12 := m.regs .r12
  r11 := m.regs .r11
  r10 := m.regs .r10
  r9 := m.regs .r9
  r8 := m.regs .r8
  rbp := m.regs .rbp
  rdi := m.regs .rdi
  rsi := m.regs .rsi
  rdx := m.regs .rdx
  rcx := m.regs .rcx
  rbx := m.regs .rbx
  rax := m.regs .rax
  intNo := n.setWidth 64
  errCode := err.getD 0
  rip := m.rip
  cs := m.cs.setWidth 64
  rflags := m.rflags
  rsp := m.regs .rsp
  ss := m.ss.setWidth 64

end Zer0S
