import Zer0S.Spec.Boot
import Zer0S.Spec.Process

/-!
# Context switch (`switch.asm`)

`switchContext` is the code of `switch_context`, line by line. A context is read from
memory with the offsets of `proc_context_t`. `SwitchFaithful` says what a context switch
is for.
-/

namespace Zer0S

open Lib

/-- `sizeof(proc_context_t)` -/
def sizeofProcContext : ℕ := 0x2D0

/-- The `proc_context_t` at `a`. -/
def contextAt (m : Mem) (a : Word) : ProcContext where
  rax := m.read64 a
  rbx := m.read64 (a + 0x08)
  rcx := m.read64 (a + 0x10)
  rdx := m.read64 (a + 0x18)
  rsi := m.read64 (a + 0x20)
  rdi := m.read64 (a + 0x28)
  rbp := m.read64 (a + 0x30)
  rsp := m.read64 (a + 0x38)
  r8 := m.read64 (a + 0x40)
  r9 := m.read64 (a + 0x48)
  r10 := m.read64 (a + 0x50)
  r11 := m.read64 (a + 0x58)
  r12 := m.read64 (a + 0x60)
  r13 := m.read64 (a + 0x68)
  r14 := m.read64 (a + 0x70)
  r15 := m.read64 (a + 0x78)
  rip := m.read64 (a + 0x80)
  rflags := m.read64 (a + 0x88)

/-- The registers of a machine. -/
def machineContext (m : Machine) : ProcContext where
  rax := m.regs .rax
  rbx := m.regs .rbx
  rcx := m.regs .rcx
  rdx := m.regs .rdx
  rsi := m.regs .rsi
  rdi := m.regs .rdi
  rbp := m.regs .rbp
  rsp := m.regs .rsp
  r8 := m.regs .r8
  r9 := m.regs .r9
  r10 := m.regs .r10
  r11 := m.regs .r11
  r12 := m.regs .r12
  r13 := m.regs .r13
  r14 := m.regs .r14
  r15 := m.regs .r15
  rip := m.rip
  rflags := m.rflags

/-- `switch_context`: `rdi` is `old`, `rsi` is `new`. -/
def switchContext : List Instr := [
  -- Save current context
  .store .rdi 0x00 .rax,
  .store .rdi 0x08 .rbx,
  .store .rdi 0x10 .rcx,
  .store .rdi 0x18 .rdx,
  .store .rdi 0x20 .rsi,
  .store .rdi 0x28 .rdi,
  .store .rdi 0x30 .rbp,
  .store .rdi 0x38 .rsp,
  .store .rdi 0x40 .r8,
  .store .rdi 0x48 .r9,
  .store .rdi 0x50 .r10,
  .store .rdi 0x58 .r11,
  .store .rdi 0x60 .r12,
  .store .rdi 0x68 .r13,
  .store .rdi 0x70 .r14,
  .store .rdi 0x78 .r15,
  -- Save RIP and RFLAGS
  .load .rax .rsp 0,
  .store .rdi 0x80 .rax,
  .load .rax .rsp 8,
  .store .rdi 0x88 .rax,
  -- Load new context
  .load .rax .rsi 0x00,
  .load .rbx .rsi 0x08,
  .load .rcx .rsi 0x10,
  .load .rdx .rsi 0x18,
  .load .rbp .rsi 0x30,
  .load .r8 .rsi 0x40,
  .load .r9 .rsi 0x48,
  .load .r10 .rsi 0x50,
  .load .r11 .rsi 0x58,
  .load .r12 .rsi 0x60,
  .load .r13 .rsi 0x68,
  .load .r14 .rsi 0x70,
  .load .r15 .rsi 0x78,
  -- Load stack and return address
  .load .rsp .rsi 0x38,
  .pushMem .rsi 0x88,
  .pushMem .rsi 0x80,
  -- Load remaining registers
  .load .rsi .rsi 0x20,
  .load .rdi .rsi 0x28,
  .iretq]

/-- A call of `switch_context`, from its first instruction on. -/
def runSwitch (m : Machine) : Option Machine := run gdt m switchContext

/-- What the caller of `switch_context` has to find again when the call returns: its
registers and flags, RIP after the call and RSP without the return address. -/
def callerContext (m : Machine) : ProcContext :=
  { machineContext m with rip := m.mem.read64 (m.regs .rsp), rsp := m.regs .rsp + 8 }

/-- What a context switch from `*rdi` to `*rsi` is for: it loads the new context, it saves
the caller's, and a later switch to the saved context goes on after the call. -/
structure SwitchFaithful (m m' : Machine) : Prop where
  loads : machineContext m' = contextAt m.mem (m.regs .rsi)
  saves : contextAt m'.mem (m.regs .rdi) = callerContext m
  resumes : ∀ t, KernelMode t → t.rflags.getLsbD 14 = false → t.regs .rsi = m.regs .rdi →
    contextAt t.mem (m.regs .rdi) = contextAt m'.mem (m.regs .rdi) →
    Sep (t.regs .rdi) sizeofProcContext (t.regs .rsi) sizeofProcContext →
    ∃ t', runSwitch t = some t' ∧ machineContext t' = callerContext m

end Zer0S
