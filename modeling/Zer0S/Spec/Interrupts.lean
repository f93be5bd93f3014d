import Zer0S.Lib.Loop
import Zer0S.Spec.Boot

/-!
# Interrupt stubs (`idt.c`, `isr.asm`, `isr_default.asm`, `isr.c`)

`idt_init` sets a gate for each of the 256 vectors, each with the address of a stub. A stub saves
the registers, passes its stack pointer to a C function as a `registers_t *`, restores the
registers and ends with `iretq`. A `jmp` to the common part is the common part here. `isr_common`
and `isr_default` call `isr_handler`, `irq_common` calls `irq_handler`; what these do is not part
of the stubs.

`FrameAgrees` says what the stubs and the C structure have to agree on.
-/

namespace Zer0S

open Lib

/-! ## `isr.asm`, `isr_default.asm` -/

/-- The code of a stub up to the first instruction of the C function, for the return address of
the call, and from the `ret` of the C function on. -/
structure StubCode where
  entry : Word → List Instr
  exit : List Instr

/-- The pushes of all registers. -/
def saveRegisters : List Instr := [
  .push .rax,
  .push .rbx,
  .push .rcx,
  .push .rdx,
  .push .rsi,
  .push .rdi,
  .push .rbp,
  .push .r8,
  .push .r9,
  .push .r10,
  .push .r11,
  .push .r12,
  .push .r13,
  .push .r14,
  .push .r15]

/-- The pops of all registers. -/
def restoreRegisters : List Instr := [
  .pop .r15,
  .pop .r14,
  .pop .r13,
  .pop .r12,
  .pop .r11,
  .pop .r10,
  .pop .r9,
  .pop .r8,
  .pop .rbp,
  .pop .rdi,
  .pop .rsi,
  .pop .rdx,
  .pop .rcx,
  .pop .rbx,
  .pop .rax]

/-- A stub that pushes the words `imms`, saves the registers, calls, restores the registers and
does `cleanup`. -/
def stubCode (imms : List Word) (cleanup : List Instr) : StubCode where
  entry ret := imms.map .pushImm ++ (saveRegisters ++ [.mov .rdi .rsp, .call ret])
  exit := restoreRegisters ++ cleanup ++ [.iretq]

/-- `ISR_NOERRCODE`, with `isr_common` -/
def isrNoerrcode (n : Word) : StubCode := stubCode [0, n] [.addImm .rsp 16]

/-- `ISR_ERRCODE`, with `isr_common` -/
def isrErrcode (n : Word) : StubCode := stubCode [n] [.addImm .rsp 16]

/-- `IRQ`, with `irq_common`; the first argument is only in the name of the stub. -/
def irq (n : Word) : StubCode := stubCode [0, n] [.addImm .rsp 16]

/-- `isr_default` -/
def isrDefault : StubCode := stubCode [] []

/-- The exceptions for which `isr.asm` uses `ISR_ERRCODE`. -/
def errcodeStubs : List ℕ := [8, 10, 11, 12, 13, 14, 17]

/-- The stubs with a gate: `isr0` to `isr31`, `irq0` to `irq15`, `syscall_handler`, `isr_default`. -/
inductive Stub
  | isr (n : Fin 32)
  | irq (n : Fin 16)
  | syscallHandler
  | default
deriving DecidableEq, Repr

/-- The code of a stub; that of `syscall_handler` is in `Syscall`. -/
def Stub.code : Stub → Option StubCode
  | .isr n => some (if n.val ∈ errcodeStubs then isrErrcode (BitVec.ofNat 64 n) else isrNoerrcode (BitVec.ofNat 64 n))
  | .irq n => some (Zer0S.irq (BitVec.ofNat 64 (32 + n)))
  | .syscallHandler => none
  | .default => some isrDefault

/-! ## `idt.c` -/

/-- `struct idt_entry` -/
structure IdtEntry where
  baseLow : BitVec 16
  selector : BitVec 16
  ist : BitVec 8
  flags : BitVec 8
  baseMid : BitVec 16
  baseHigh : BitVec 32
  reserved : BitVec 32
deriving DecidableEq, Repr

/-- The table `idt`. -/
abbrev Idt := BitVec 8 → IdtEntry

/-- The entry that `idt_set_gate` writes. -/
def gate (base : Word) (selector : BitVec 16) (flags : BitVec 8) : IdtEntry where
  baseLow := (base &&& 0xFFFF).setWidth 16
  baseMid := ((base >>> 16) &&& 0xFFFF).setWidth 16
  baseHigh := ((base >>> 32) &&& 0xFFFFFFFF).setWidth 32
  selector := selector
  ist := 0
  flags := flags
  reserved := 0

/-- `idt_set_gate` -/
def idtSetGate (num : BitVec 8) (base : Word) (selector : BitVec 16) (flags : BitVec 8) (idt : Idt) : Idt :=
  Function.update idt num (gate base selector flags)

/-- `idt_init`, for the addresses of the stubs. -/
def idtInit (addr : Stub → Word) (idt : Idt) : Idt :=
  -- a gate for each vector, then those that have a stub of their own
  let idt := forLoop (fun i => idtSetGate (BitVec.ofNat 8 i) (addr .default) 0x08 0x8E) 0 256 idt
  let idt := (List.finRange 32).foldl (fun idt i => idtSetGate (BitVec.ofNat 8 i.val) (addr (.isr i)) 0x08 0x8E idt) idt
  let idt := (List.finRange 16).foldl
    (fun idt i => idtSetGate (BitVec.ofNat 8 (32 + i.val)) (addr (.irq i)) 0x08 0x8E idt) idt
  idtSetGate 0x80 (addr .syscallHandler) 0x08 0xEE idt

/-! ## The processor -/

/-- The address in an entry, as the processor reads it. -/
def IdtEntry.base (e : IdtEntry) : Word :=
  e.baseLow.setWidth 64 ||| e.baseMid.setWidth 64 <<< 16 ||| e.baseHigh.setWidth 64 <<< 32

/-- What raises a vector: an exception of the processor, or an `int` instruction or a device. -/
inductive Source
  | processor
  | other
deriving DecidableEq, Repr

/-- The exceptions for which the processor pushes an error code. -/
def errorVectors : List ℕ := [8, 10, 11, 12, 13, 14, 17, 21]

/-- The processor pushes an error code. -/
def PushesError (n : BitVec 8) (src : Source) : Prop := src = .processor ∧ n.toNat ∈ errorVectors

/-- The processor goes through the gate of vector `n`, with an error code if there is one: a
present 64-bit interrupt gate. Control goes on at its base. -/
def raise (idt : Idt) (n : BitVec 8) (err : Option Word) (m : Machine) : Option Machine :=
  let e := idt n
  if e.flags.getLsbD 7 && e.flags.extractLsb' 0 4 == 0xE then
    (m.fault e.selector err).map fun m => { m with rip := e.base }
  else none

/-- Where the processor has put RIP: the error code is below it. -/
def ripAddr (err : Option Word) (m : Machine) : Word := m.regs .rsp + BitVec.ofNat 64 (8 * err.toList.length)

/-! ## `isr.c` -/

/-- `registers_t` -/
structure Registers where
  r15 : Word
  r14 : Word
  r13 : Word
  r12 : Word
  r11 : Word
  r10 : Word
  r9 : Word
  r8 : Word
  rbp : Word
  rdi : Word
  rsi : Word
  rdx : Word
  rcx : Word
  rbx : Word
  rax : Word
  intNo : Word
  errCode : Word
  rip : Word
  cs : Word
  rflags : Word
  rsp : Word
  ss : Word
deriving DecidableEq, Repr

/-- `sizeof(registers_t)` -/
def sizeofRegisters : ℕ := 0xB0

/-- The `registers_t` at `a`. -/
def registersAt (m : Mem) (a : Word) : Registers where
  r15 := m.read64 a
  r14 := m.read64 (a + 0x08)
  r13 := m.read64 (a + 0x10)
  r12 := m.read64 (a + 0x18)
  r11 := m.read64 (a + 0x20)
  r10 := m.read64 (a + 0x28)
  r9 := m.read64 (a + 0x30)
  r8 := m.read64 (a + 0x38)
  rbp := m.read64 (a + 0x40)
  rdi := m.read64 (a + 0x48)
  rsi := m.read64 (a + 0x50)
  rdx := m.read64 (a + 0x58)
  rcx := m.read64 (a + 0x60)
  rbx := m.read64 (a + 0x68)
  rax := m.read64 (a + 0x70)
  intNo := m.read64 (a + 0x78)
  errCode := m.read64 (a + 0x80)
  rip := m.read64 (a + 0x88)
  cs := m.read64 (a + 0x90)
  rflags := m.read64 (a + 0x98)
  rsp := m.read64 (a + 0xA0)
  ss := m.read64 (a + 0xA8)

/-- What a stub for vector `n` is for, when it is entered in `d` after `m` was interrupted. The C
function gets the address of a `registers_t` with the number of the vector and what the processor
pushed of `m`. And when it returns and has kept the structure, all registers are those of `m`
again at the `iretq`, and the stack pointer is at the RIP that the processor pushed. -/
def FrameAgrees (n : BitVec 8) (code : StubCode) (ret : Word) (err : Option Word) (m d : Machine) : Prop :=
  ∃ h r, run gdt d (code.entry ret) = some h ∧ r = registersAt h.mem (h.regs .rdi) ∧ r.intNo = n.setWidth 64 ∧
    [r.rip, r.cs, r.rflags, r.rsp, r.ss] = m.frame ∧
    ∀ h', SysVCall sizeofRegisters h h' → ∃ body b, code.exit = body ++ [.iretq] ∧ run gdt h' body = some b ∧
      b.regs .rsp = ripAddr err d ∧ ∀ x ≠ .rsp, b.regs x = m.regs x

end Zer0S
