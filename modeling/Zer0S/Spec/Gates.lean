import Zer0S.Lib.Record
import Zer0S.Spec.Interrupts

/-!
# The interrupt descriptor table in memory (`idt.c`)

`idt` is an array of packed structures of 16 bytes, at some address. `idt_set_gate` writes the fields of
one of them in its own order, each with the offset that it has in `struct idt_entry`.
-/

namespace Zer0S

open Lib

/-- `&idt[num]`, with the table at `idt`. -/
def gateAddr (idt : Word) (num : BitVec 8) : Word := idt + 16 * num.setWidth 64

/-- A call of `idt_set_gate`. -/
structure GateCall where
  num : BitVec 8
  base : Word
  selector : BitVec 16
  flags : BitVec 8
deriving DecidableEq, Repr

/-- `idt_set_gate`, on the bytes of the table. -/
def setGate (idt : Word) (m : Mem) (c : GateCall) : Mem :=
  let a := gateAddr idt c.num
  let m := m.put a 0 2 (c.base &&& 0xFFFF).toNat
  let m := m.put a 6 2 ((c.base >>> 16) &&& 0xFFFF).toNat
  let m := m.put a 8 4 ((c.base >>> 32) &&& 0xFFFFFFFF).toNat
  let m := m.put a 2 2 c.selector.toNat
  let m := m.put a 4 1 0
  let m := m.put a 5 1 c.flags.toNat
  m.put a 12 4 0

/-- The calls that `idt_init` makes, for the addresses of the stubs. -/
def idtInitCalls (addr : Stub → Word) : List GateCall :=
  (List.range 256).map (fun i => ⟨BitVec.ofNat 8 i, addr .default, 0x08, 0x8E⟩) ++
    (List.finRange 32).map (fun i => ⟨BitVec.ofNat 8 i.val, addr (.isr i), 0x08, 0x8E⟩) ++
    (List.finRange 16).map (fun i => ⟨BitVec.ofNat 8 (32 + i.val), addr (.irq i), 0x08, 0x8E⟩) ++
    [⟨0x80, addr .syscallHandler, 0x08, 0xEE⟩]

/-- The 16 bytes at `a`, read by the layout of an interrupt gate: offset bits 0 to 15, selector, IST, type,
offset bits 16 to 31, offset bits 32 to 63, reserved. -/
def readGate (m : Mem) (a : Word) : IdtEntry where
  baseLow := BitVec.ofNat 16 (m.get a 0 2)
  selector := BitVec.ofNat 16 (m.get a 2 2)
  ist := BitVec.ofNat 8 (m.get a 4 1)
  flags := BitVec.ofNat 8 (m.get a 5 1)
  baseMid := BitVec.ofNat 16 (m.get a 6 2)
  baseHigh := BitVec.ofNat 32 (m.get a 8 4)
  reserved := BitVec.ofNat 32 (m.get a 12 4)

end Zer0S
