import Zer0S.Spec.Pic

/-!
# Interrupt controllers and keyboard controller as devices (`pic.c`, `isr.c`, `keyboard.c`)

What the two 8259 controllers do with their lines, and the 8042 controller with the keyboard behind it.
The controllers are edge-triggered: a line that goes up leaves a request, and the initialisation drops
the requests there are. A request that the processor takes is in service until an end-of-interrupt
command. The slave asks on line 2 of the master.

The 8042 holds one scancode in its output buffer. Line 1 goes up when it gets one, and down when the
data port is read.
-/

namespace Zer0S

open Lib

/-! ## Interrupt controllers -/

/-- A controller with its requests (IRR) and what is in service (ISR). -/
structure Controller where
  pic : Pic
  requests : Fin 8 → Bool
  service : Fin 8 → Bool

namespace Controller

/-- Line `n` has a request that is not masked. -/
def asks (c : Controller) (n : Fin 8) : Bool := c.requests n && !c.pic.mask.getLsbD n

/-- The request that is passed on: lower lines come first, and a line in service holds back itself and
those behind it. -/
def next (c : Controller) : Option (Fin 8) :=
  match (List.finRange 8).find? fun n => c.service n || c.asks n with
  | none => none
  | some n => if c.service n then none else some n

/-- The processor takes the request of line `n`; with bit 1 of the mode nothing is in service. -/
def acknowledge (n : Fin 8) (c : Controller) : Controller :=
  { c with
    requests := Function.update c.requests n false
    service := if c.pic.mode.getLsbD 1 then c.service else Function.update c.service n true }

/-- The vector of line `n`. -/
def vector (n : Fin 8) (c : Controller) : Byte := (c.pic.offset &&& 0xF8) ||| BitVec.ofNat 8 n

/-- Line `n` goes up or down. -/
def line (n : Fin 8) (up : Bool) (c : Controller) : Controller :=
  { c with requests := Function.update c.requests n up }

/-- The end-of-interrupt command: the first line in service is done. -/
def endOfInterrupt (c : Controller) : Controller :=
  match (List.finRange 8).find? c.service with
  | none => c
  | some n => { c with service := Function.update c.service n false }

/-- A write to the command port; of the commands without bit 4 the kernel only uses 0x20. -/
def command (v : Byte) (c : Controller) : Controller :=
  if v.getLsbD 4 then ⟨c.pic.command v, fun _ => false, fun _ => false⟩
  else if v = 0x20 then c.endOfInterrupt
  else c

/-- A write to the data port. -/
def data (v : Byte) (c : Controller) : Controller := { c with pic := c.pic.data v }

end Controller

/-! ## All devices -/

/-- The 8042: the output buffer, whether it is full, and the scancodes that the keyboard has yet to
pass to it. -/
structure Ps2 where
  output : Byte
  full : Bool
  queue : List Byte
deriving DecidableEq, Repr

structure Devices where
  master : Controller
  slave : Controller
  ps2 : Ps2

namespace Devices

/-- Devices that did nothing yet. -/
def idle : Devices :=
  ⟨⟨⟨0, 0, 0, 0, []⟩, fun _ => false, fun _ => false⟩, ⟨⟨0, 0, 0, 0, []⟩, fun _ => false, fun _ => false⟩,
    ⟨0, false, []⟩⟩

/-- `outb` -/
def outb (port : BitVec 16) (v : Byte) (d : Devices) : Devices :=
  if port = pic1Command then { d with master := d.master.command v }
  else if port = pic1Data then { d with master := d.master.data v }
  else if port = pic2Command then { d with slave := d.slave.command v }
  else if port = pic2Data then { d with slave := d.slave.data v }
  else d

/-- The line of the keyboard. -/
abbrev keyboardLine : Fin 8 := 1

/-- Line `irq` of a device that is not the keyboard. -/
def line (irq : Fin 16) (up : Bool) (d : Devices) : Devices :=
  if h : irq.val < 8 then { d with master := d.master.line ⟨irq, h⟩ up }
  else { d with slave := d.slave.line ⟨irq - 8, by omega⟩ up }

/-- The processor asks for a vector. -/
def acknowledge (d : Devices) : Option (Byte × Devices) :=
  let master := d.master.line 2 d.slave.next.isSome
  match master.next, d.slave.next with
  | none, _ => none
  | some 2, some k =>
    some (d.slave.vector k, { d with master := master.acknowledge 2, slave := d.slave.acknowledge k })
  | some n, _ => some (master.vector n, { d with master := master.acknowledge n })

/-- The 8042 gets the next scancode from the keyboard. -/
def load (d : Devices) : Option Devices :=
  match d.ps2.full, d.ps2.queue with
  | false, b :: queue => some { d with ps2 := ⟨b, true, queue⟩, master := d.master.line keyboardLine true }
  | _, _ => none

/-- Bit 0 of the status port of the 8042. -/
def status (d : Devices) : Bool := d.ps2.full

/-- `inb` of the data port of the 8042. -/
def readData (d : Devices) : Byte × Devices :=
  (d.ps2.output, { d with ps2 := { d.ps2 with full := false }, master := d.master.line keyboardLine false })

end Devices

end Zer0S
