import Zer0S.Lib.Loop
import Zer0S.Lib.X86

/-!
# The page tables and the segments (`boot.asm`)

What `setup_long_mode` writes to memory before it turns on paging: three tables of 4 KiB,
each entry 8 bytes long. The code writes the low half of an entry; the high half is 0 from
the clearing.

The kernel runs in the two segments of the descriptor table `gdt`, which nothing replaces
later.
-/

namespace Zer0S

open Lib

/-- The level 4 table. -/
def pml4Addr : Word := 0x1000

/-- The level 3 table. -/
def pdptAddr : Word := 0x2000

/-- The level 2 table. -/
def pdAddr : Word := 0x3000

/-- `rep stosd` with `ecx = 0x3000 / 4`: clears the three tables. -/
def clearTables (m : Mem) : Mem :=
  forLoop (fun i m => m.write32 (pml4Addr + BitVec.ofNat 64 (4 * i)) 0) 0 (0x3000 / 4) m

/-- The loop `.setup_pd`: 32 entries, each for 2 MiB. -/
def setupPd (m : Mem) : Mem :=
  forLoop (fun i m => m.write32 (pdAddr + BitVec.ofNat 64 (8 * i)) (0x83 + BitVec.ofNat 32 (i * 0x200000))) 0 32 m

/-- The memory writes of `setup_long_mode`. -/
def setupLongMode (m : Mem) : Mem :=
  let m := clearTables m
  let m := m.write32 pml4Addr 0x2003
  let m := m.write32 pdptAddr 0x3003
  setupPd m

/-- `gdt`: the null descriptor, the 64-bit code segment and the data segment. -/
def gdt : List Word := [0x0000000000000000, 0x00209A0000000000, 0x0000920000000000]

/-- A machine that runs kernel code, in the segments loaded at `long_mode_entry`. -/
structure KernelMode (m : Machine) : Prop where
  cs : m.cs = 0x08
  ss : m.ss = 0x10
  rip : canonical m.rip

end Zer0S
