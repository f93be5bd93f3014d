import Zer0S.Spec.Exceptions
import Zer0S.Lib.Trace

/-!
# The way to user mode (`switch.asm`, `boot.asm`, `idt.c`)

`switch_to_user` builds the frame of an `iretq` with the selectors 0x1B and 0x23, and `idt_init` lets level 3
use the gate of the system call. A step of the processor is an instruction, or an interrupt through the
gates of `idt_init`.
-/

namespace Zer0S

open Lib

/-- What the processor does next. -/
inductive CpuEvent
  | exec (i : Instr)
  | interrupt (n : BitVec 8) (err : Option Word)
deriving DecidableEq, Repr

/-- A step of the processor: an instruction of the small machine, or an interrupt through the gates of
`idt_init`. The descriptor table is that of `boot.asm` in every step: `lgdt`, far jumps and loads of segment
registers are not among the instructions, and the kernel does none after `boot.asm`. -/
inductive CpuStep (addr : Stub → Word) (idt : Idt) : Machine → CpuEvent → Machine → Prop
  | exec {m m' i} (h : exec gdt m i = some m') : CpuStep addr idt m (.exec i) m'
  | interrupt {m m' n err} (h : raise (idtInit addr idt) n err m = some m') : CpuStep addr idt m (.interrupt n err) m'

end Zer0S
