import Zer0S.Spec.Boot
import Zer0S.Spec.Terminal

/-!
# System calls (`syscall.h`, `isr.asm`, `syscall.c`)

A system call goes through three pieces of code: the wrapper `syscall` raises interrupt
0x80, the stub `syscall_handler` saves registers and calls `syscall_dispatcher`, and the
dispatcher, compiled C code, returns a value. `SyscallTransparent` says what they are for
together.

The compiled dispatcher is a parameter: a function from the machine at its first
instruction to the machine after its `ret`.
-/

namespace Zer0S

open Lib

/-- `SYS_WRITE`; the dispatcher has no case for `SYS_READ`, which is 2. -/
def sysWrite : Word := 1

/-- `SYS_PRINT_STRING` -/
def sysPrintString : Word := 3

/-- `SYS_PRINT_HEX` -/
def sysPrintHex : Word := 4

/-- `SYS_GETCHAR` -/
def sysGetchar : Word := 5

/-- `syscall_dispatcher`: the value it returns and what it prints. Both files that define it
do the same. -/
def syscallDispatcher (mem : Mem) (syscallNum arg1 arg2 _arg3 : Word) : Word × List Print :=
  if syscallNum = sysWrite then
    (arg2, (List.range arg2.toNat).map fun i => .char (mem (arg1 + BitVec.ofNat 64 i)))
  else if syscallNum = sysPrintString then (0, [.addr arg1])
  else if syscallNum = sysPrintHex then (0, [.hex arg1])
  else if syscallNum = sysGetchar then (0, [])
  else (-1, [.text "\n[ERROR] Unknown syscall: ", .hex syscallNum, .text "\n"])

/-- The registers as the wrapper `syscall` sets them before `int $0x80`. -/
def syscall (num arg1 arg2 arg3 : Word) (m : Machine) : Machine :=
  (((m.set .rax num).set .rbx arg1).set .rcx arg2).set .rdx arg3

/-- `syscall_handler` up to the call; `ret` is the address of the first `pop`. -/
def syscallHandlerEntry (ret : Word) : List Instr := [
  .swapgs,
  -- Save user registers
  .push .rax,
  .push .rbx,
  .push .rcx,
  .push .rdx,
  .push .rsi,
  .push .rdi,
  .push .rbp,
  .push .r8,
  .push .r9,
  .push .r10,
  .push .r11,
  -- Call C dispatcher
  .mov .rdi .rax,
  .mov .rsi .rbx,
  .mov .rdx .rcx,
  .mov .rcx .rdx,
  .call ret]

/-- `syscall_handler` after the call. -/
def syscallHandlerExit : List Instr := [
  -- Restore registers
  .pop .r11,
  .pop .r10,
  .pop .r9,
  .pop .r8,
  .pop .rbp,
  .pop .rdi,
  .pop .rsi,
  .pop .rdx,
  .pop .rcx,
  .pop .rbx,
  .pop .rax,
  .swapgs,
  .iretq]

/-- `int 0x80`, through the gate of `idt_init` with selector 0x08, and the stub up to the
first instruction of the dispatcher. -/
def enterDispatcher (ret : Word) (m : Machine) : Option Machine :=
  (m.interrupt 0x08).bind fun m => run gdt m (syscallHandlerEntry ret)

/-- The stub from the `ret` of the dispatcher on. -/
def leaveDispatcher (m : Machine) : Option Machine := run gdt m syscallHandlerExit

/-- A call of the compiled dispatcher, from its first instruction in `m` to the one after
its `ret` in `m'`: it follows the calling convention, for a caller with 128 bytes on the
stack, and returns what the source says. -/
structure DispatcherCall (m m' : Machine) : Prop where
  abi : SysVCall 128 m m'
  result : m'.regs .rax =
    (syscallDispatcher m.mem (m.regs .rdi) (m.regs .rsi) (m.regs .rdx) (m.regs .rcx)).1

/-- What a system call is for: the dispatcher gets the number and the arguments, and the
caller gets its value in `rax`, with all other registers as they were. -/
def SyscallTransparent (dispatch : Machine → Machine) (ret num arg1 arg2 arg3 : Word) (m : Machine) : Prop :=
  ∃ m₁ m₂, enterDispatcher ret (syscall num arg1 arg2 arg3 m) = some m₁ ∧
    (m₁.regs .rdi, m₁.regs .rsi, m₁.regs .rdx, m₁.regs .rcx) = (num, arg1, arg2, arg3) ∧
    leaveDispatcher (dispatch m₁) = some m₂ ∧ m₂.rip = m.rip ∧
    m₂.regs .rax = (dispatch m₁).regs .rax ∧
    ∀ r ≠ .rax, m₂.regs r = (syscall num arg1 arg2 arg3 m).regs r

/-! ## The whole call -/

/-- The loop of `SYS_WRITE` from its round `i` on: the characters that it passes to `terminal_writechar`. That
function stores to `own` between two rounds (its stack frame, the screen, `row` and `col`), so each
character is read from the memory as it is then. -/
inductive WriteLoop (own : Set Word) (arg1 : Word) (n : ℕ) : ℕ → Mem → List Byte → Mem → Prop
  | stop (mem : Mem) : WriteLoop own arg1 n n mem [] mem
  | char {i : ℕ} {mem mem₁ mem' : Mem} {out : List Byte} (hi : i < n) (hown : MemKept own mem mem₁)
      (h : WriteLoop own arg1 n (i + 1) mem₁ out mem') :
      WriteLoop own arg1 n i mem (mem (arg1 + BitVec.ofNat 64 i) :: out) mem'

/-- `terminal_writestring`, in the same way. -/
inductive WritestringLoop (own : Set Word) : Word → Mem → List Byte → Mem → Prop
  | stop {str : Word} {mem : Mem} (h0 : mem str = 0) : WritestringLoop own str mem [] mem
  | char {str : Word} {mem mem₁ mem' : Mem} {out : List Byte} (h0 : mem str ≠ 0) (hown : MemKept own mem mem₁)
      (h : WritestringLoop own (str + 1) mem₁ out mem') : WritestringLoop own str mem (mem str :: out) mem'

/-- A run of `syscall_dispatcher` that begins with the memory `mem` and ends with `mem'`, and the characters
that it passes to `terminal_writechar`. It and what it calls store to `own` only; the strings of its own
are not there. -/
def DispatcherRun (own : Set Word) (mem : Mem) (syscallNum arg1 arg2 : Word) (out : List Byte) (mem' : Mem) : Prop :=
  ∃ mem₀, MemKept own mem mem₀ ∧
    if syscallNum = sysWrite then WriteLoop own arg1 arg2.toNat 0 mem₀ out mem'
    else if syscallNum = sysPrintString then WritestringLoop own arg1 mem₀ out mem'
    else MemKept own mem₀ mem' ∧
      out = if syscallNum = sysPrintHex then printHex arg1
        else if syscallNum = sysGetchar then []
        else ascii "\n[ERROR] Unknown syscall: " ++ printHex syscallNum ++ ascii "\n"

/-- A call of the compiled dispatcher with its output, from its first instruction in `d`: it returns if the
source does, and it prints and stores as the source says. -/
structure CompiledDispatcher (own : Set Word) (dispatch : Machine → Option (List Byte × Machine)) (d : Machine) :
    Prop where
  returns : (∃ out mem', DispatcherRun own d.mem (d.regs .rdi) (d.regs .rsi) (d.regs .rdx) out mem') →
    ∃ out d', dispatch d = some (out, d')
  call : ∀ out d', dispatch d = some (out, d') → DispatcherCall d d' ∧
    DispatcherRun own d.mem (d.regs .rdi) (d.regs .rsi) (d.regs .rdx) out d'.mem

/-- A system call as a whole: the characters that are printed, and the machine after the `iretq`. -/
def runSyscall (dispatch : Machine → Option (List Byte × Machine)) (ret num arg1 arg2 arg3 : Word) (m : Machine) :
    Option (List Byte × Machine) :=
  (enterDispatcher ret (syscall num arg1 arg2 arg3 m)).bind fun d =>
    (dispatch d).bind fun (out, d') => (leaveDispatcher d').map fun m' => (out, m')

end Zer0S
