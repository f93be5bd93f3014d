import Zer0S.Lib.Bitmap

/-!
# The interrupt controllers (`pic.c`)

Two 8259 controllers, the slave on one of the lines of the master. After a command with bit 4, a controller
takes the next words on its data port as its initialisation: the offset, how the controllers are
connected, and the mode. Then what is written to the data port is the mask, and what is read there is the
mask.
-/

namespace Zer0S

open Lib

/-- `PIC1_COMMAND` -/
def pic1Command : BitVec 16 := 0x20

/-- `PIC1_DATA` -/
def pic1Data : BitVec 16 := 0x21

/-- `PIC2_COMMAND` -/
def pic2Command : BitVec 16 := 0xA0

/-- `PIC2_DATA` -/
def pic2Data : BitVec 16 := 0xA1

/-- `ICW1_INIT | ICW1_ICW4` -/
def icw1 : Byte := 0x10 ||| 0x01

/-- `ICW4_8086` -/
def icw4 : Byte := 0x01

/-- A word of the initialisation. -/
inductive InitWord
  | offset | cascade | mode
deriving DecidableEq, Repr

/-- A controller: the words of its initialisation, those it still expects, and the mask. -/
structure Pic where
  offset : Byte
  cascade : Byte
  mode : Byte
  mask : Byte
  expected : List InitWord
deriving DecidableEq, Repr

/-- A write to the command port. -/
def Pic.command (v : Byte) (p : Pic) : Pic :=
  if v.getLsbD 4 then
    -- bit 1: there is no other controller; bit 0: a mode follows
    { p with mask := 0, expected := [.offset] ++ (if v.getLsbD 1 then [] else [.cascade]) ++
      (if v.getLsbD 0 then [.mode] else []) }
  else p

/-- A write to the data port. -/
def Pic.data (v : Byte) (p : Pic) : Pic :=
  match p.expected with
  | [] => { p with mask := v }
  | .offset :: l => { p with offset := v, expected := l }
  | .cascade :: l => { p with cascade := v, expected := l }
  | .mode :: l => { p with mode := v, expected := l }

/-- Both controllers. -/
structure Pics where
  master : Pic
  slave : Pic
deriving DecidableEq, Repr

/-- `outb` -/
def outb (port : BitVec 16) (v : Byte) (s : Pics) : Pics :=
  if port = pic1Command then { s with master := s.master.command v }
  else if port = pic1Data then { s with master := s.master.data v }
  else if port = pic2Command then { s with slave := s.slave.command v }
  else if port = pic2Data then { s with slave := s.slave.data v }
  else s

/-- `inb`, for the two data ports. -/
def inb (port : BitVec 16) (s : Pics) : Byte := if port = pic1Data then s.master.mask else s.slave.mask

/-- `pic_remap` -/
def picRemap (s : Pics) : Pics :=
  let s := outb pic1Command icw1 s
  let s := outb pic2Command icw1 s
  let s := outb pic1Data 32 s
  let s := outb pic2Data 40 s
  let s := outb pic1Data 4 s
  let s := outb pic2Data 2 s
  let s := outb pic1Data icw4 s
  let s := outb pic2Data icw4 s
  let s := outb pic1Data 0xFD s
  outb pic2Data 0xFF s

/-- The port of an IRQ, and its number at that controller. -/
def irqPort (irq : BitVec 8) : BitVec 16 × BitVec 8 := if irq < 8 then (pic1Data, irq) else (pic2Data, irq - 8)

/-- `pic_enable_irq` -/
def picEnableIrq (irq : BitVec 8) (s : Pics) : Pics :=
  let (port, irq) := irqPort irq
  let value := inb port s
  outb port (byteClear value irq.toNat) s

/-- `pic_disable_irq` -/
def picDisableIrq (irq : BitVec 8) (s : Pics) : Pics :=
  let (port, irq) := irqPort irq
  let value := inb port s
  outb port (byteSet value irq.toNat) s

/-- A call of `pic_enable_irq` or `pic_disable_irq`. -/
inductive PicCall
  | enable (irq : BitVec 8)
  | disable (irq : BitVec 8)
deriving DecidableEq, Repr

def PicCall.irq : PicCall → BitVec 8
  | .enable irq => irq
  | .disable irq => irq

def picExec (s : Pics) : PicCall → Pics
  | .enable irq => picEnableIrq irq s
  | .disable irq => picDisableIrq irq s

end Zer0S
