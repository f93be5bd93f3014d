import Zer0S.Spec.Devices
import Zer0S.Spec.Keyboard

/-!
# The running system (`kernel_main.c`, `isr.c`, `keyboard.c`)

`kernel_main` as the list of what it does, one after the other, and `irq_handler` as the accesses to
devices it makes, one after the other. The devices go on in between: the keyboard sends scancodes,
the 8042 loads them, other devices use their lines. An interrupt is taken between two actions of
`kernel_main` once it has enabled them, so its texts from there on are one action for each character. The
gates disable interrupts until the `iretq`.

The IDT and the stubs are in `Interrupts`: for the vectors of the controllers, `int_no` is the vector.
-/

namespace Zer0S

open Lib

/-! ## `kernel_main` -/

/-- The writes of `pic_remap`. -/
def picRemapWrites : List (BitVec 16 × Byte) := [
  (pic1Command, icw1),
  (pic2Command, icw1),
  (pic1Data, 32),
  (pic2Data, 40),
  (pic1Data, 4),
  (pic2Data, 2),
  (pic1Data, icw4),
  (pic2Data, icw4),
  (pic1Data, 0xFD),
  (pic2Data, 0xFF)]

/-- What `kernel_main` does, without `idt_init`. -/
inductive MainAction
  | print (p : Print)
  | outb (port : BitVec 16) (v : Byte)
  | memoryInit
  | testKmalloc
  | sti
deriving DecidableEq, Repr

/-- `keyboard_init` -/
def keyboardInit : List MainAction := [
  .print (.text "[INFO] Keyboard driver initialized (ABNT2 support)\n"),
  .print (.text "[INFO] Supported: ç, á, é, í, ó, ú, â, ê, ô, ã, õ, ñ\n")]

/-- `terminal_writestring` where an interrupt may come between two characters. -/
def writestringChars (str : String) : List MainAction := (ascii str).map fun c => .print (.char c)

/-- `shell_init` -/
def shellInit : List MainAction :=
  writestringChars "\n========================================\n" ++
    writestringChars "  Zer0S Shell v1.0\n" ++
    writestringChars "========================================\n" ++
    writestringChars "Type 'help' for available commands\n\n" ++
    writestringChars "Zer0S> "

/-- `kernel_main` before `pic_remap`. -/
def mainStart : List MainAction := [
  .print .clear,
  .print (.text "========================================\n"),
  .print (.text "  Zer0S v2.0 - 64-bit Kernel!\n"),
  .print (.text "========================================\n\n"),
  .print (.text "[OK] Running in 64-bit Long Mode\n"),
  .print (.text "[OK] VGA Text Mode: 80x25\n\n"),
  .print (.text "[INFO] Initializing IDT...\n"),
  .print (.text "[OK] IDT initialized\n"),
  .print (.text "[INFO] Remapping PIC...\n")]

/-- `kernel_main` from `pic_remap` to `sti`. -/
def mainMiddle : List MainAction := [
  .print (.text "[OK] PIC remapped (IRQs 32-47)\n"),
  .print (.text "[INFO] Initializing keyboard...\n")] ++ keyboardInit ++ [
  .print (.text "[INFO] Initializing memory manager...\n"),
  .memoryInit,
  .print (.text "[OK] Memory manager initialized\n"),
  .testKmalloc,
  .print (.text "[INFO] Enabling interrupts...\n")]

/-- `kernel_main`, up to the loop that halts. -/
def kernelMain : List MainAction :=
  mainStart ++ picRemapWrites.map (fun w => .outb w.1 w.2) ++ mainMiddle ++ [.sti] ++
    writestringChars "[OK] Interrupts enabled\n\n" ++ shellInit

/-- `kmalloc(64)` and `kfree` in `kernel_main` -/
def testKmalloc (rounds : ℕ) (s : Memory) : Option Memory :=
  (kmalloc rounds 64 s).map fun (test, s) =>
    if test ≠ 0 then
      let s := s.print [.text "[TEST] kmalloc(64) successful at address: ", .hex test, .text "\n"]
      (kfree test s).print [.text "[TEST] kfree() successful\n"]
    else s

/-- Change the memory of the system. -/
def Keyboard.withMemory (m : Memory) (k : Keyboard) : Keyboard :=
  { k with console := { k.console with kernel := { k.console.kernel with memory := m } } }

/-- The memory of the system. -/
def Keyboard.memory (k : Keyboard) : Memory := k.console.kernel.memory

/-! ## The system -/

/-- Where a handler is: in the loop of `keyboard_read_scancode`, before its read of the data port,
after it, and before the commands that are left and the `iretq`. `stopped`: it does not return.
`other`: the handler of a vector that is not one of `irq_handler`. -/
inductive Handler
  | poll (intNo : Word)
  | read (intNo : Word)
  | handle (intNo : Word) (scancode : Byte)
  | finish (commands : List (BitVec 16 × Byte))
  | stopped
  | other (vector : Byte)
deriving DecidableEq, Repr

/-- The end-of-interrupt commands of `irq_handler`. -/
def endCommands (intNo : Word) : List (BitVec 16 × Byte) :=
  (if 40 ≤ intNo then [(0xA0, 0x20)] else []) ++ [(0x20, 0x20)]

/-- `irq_handler`, from its start. -/
def irqHandler (intNo : Word) : Handler := if intNo = 33 then .poll intNo else .finish (endCommands intNo)

/-- The handler of a vector: `pic_remap` puts the controllers at 32 to 47. -/
def handlerOf (vector : Byte) : Handler :=
  if 32 ≤ vector ∧ vector < 48 then irqHandler (vector.setWidth 64) else .other vector

/-- `interrupts` is set by `sti`, and `main` is what is left of `kernel_main`. -/
structure System where
  devices : Devices
  interrupts : Bool
  main : List MainAction
  handler : Option Handler
  keyboard : Keyboard

/-- Before `kernel_main`, whatever the devices have been doing. -/
def System.boot (m : Mem) (d : Devices) : System :=
  ⟨d, false, kernelMain, none, .boot ⟨.boot (.boot m), false⟩⟩

/-- An action of `kernel_main`, on the devices. -/
def MainAction.onDevices (d : Devices) : MainAction → Devices
  | .outb port v => d.outb port v
  | _ => d

/-- An action of `kernel_main`, on the rest. What it prints is added to the console; the memory has bitmap and
heap, so the stores to the screen, to the IDT and to variables are not in it. -/
def MainAction.onKeyboard (rounds : ℕ) (k : Keyboard) : MainAction → Option Keyboard
  | .print p => some (k.print [p])
  | .memoryInit => some (k.withMemory (Zer0S.memoryInit k.memory))
  | .testKmalloc => (Zer0S.testKmalloc rounds k.memory).map fun m => k.withMemory m
  | .outb _ _ => some k
  | .sti => some k

/-- The next action of `kernel_main`. A character that it prints is one action: an interrupt inside
`terminal_writechar`, between its reads and stores of `row` and `col`, can lose a cell of the screen, but it
does not change the order in which characters are sent. -/
def mainExec (rounds : ℕ) (s : System) : Option System :=
  match s.handler, s.main with
  | none, a :: main => (a.onKeyboard rounds s.keyboard).map fun k =>
      { s with
        devices := a.onDevices s.devices
        interrupts := s.interrupts || a = .sti
        main := main
        keyboard := k }
  | _, _ => none

/-- The next access of a handler. -/
def handlerExec (rounds : ℕ) (cmd args : ℕ → Byte) (s : System) : Option System :=
  match s.handler with
  | some (.poll intNo) =>
    -- the loop goes on while the buffer is empty
    if s.devices.status then some { s with handler := some (.read intNo) } else some s
  | some (.read intNo) =>
    let (scancode, d) := s.devices.readData
    some { s with devices := d, handler := some (.handle intNo scancode) }
  | some (.handle intNo scancode) => (keyboardHandler rounds cmd args scancode s.keyboard).map fun k =>
      { s with
        keyboard := k
        handler := some (if k.console.rebooting then .stopped else .finish (endCommands intNo)) }
  | some (.finish (w :: l)) => some { s with devices := s.devices.outb w.1 w.2, handler := some (.finish l) }
  | some (.finish []) => some { s with handler := none }
  | _ => none

/-- What happens next: the keyboard has a scancode to send, another device changes its line, the 8042
loads a scancode, the processor takes an interrupt, `kernel_main` or the handler goes on. -/
inductive Event
  | key (scancode : Byte)
  | line (irq : Fin 16) (up : Bool)
  | load
  | interrupt
  | main
  | handler
deriving DecidableEq, Repr

/-- What happens without the keyboard and other devices. -/
def Event.internal : Event → Bool
  | .key _ => false
  | .line _ _ => false
  | _ => true

def systemExec (rounds : ℕ) (cmd args : ℕ → Byte) (s : System) : Event → Option System
  | .key scancode =>
    let ps2 := s.devices.ps2
    some { s with devices := { s.devices with ps2 := { ps2 with queue := ps2.queue ++ [scancode] } } }
  | .line irq up => if irq = 1 then none else some { s with devices := s.devices.line irq up }
  | .load => s.devices.load.map fun d => { s with devices := d }
  | .interrupt =>
    if s.interrupts ∧ s.handler = none then
      s.devices.acknowledge.map fun (vector, d) => { s with devices := d, handler := some (handlerOf vector) }
    else none
  | .main => mainExec rounds s
  | .handler => handlerExec rounds cmd args s

/-- A step of the system; the shell's arrays may hold anything. -/
def SystemStep (s : System) (e : Event) (s' : System) : Prop :=
  ∃ rounds cmd args, systemExec rounds cmd args s e = some s'

/-- Nothing happens any more unless the keyboard or another device does something. -/
def System.Quiet (s : System) : Prop := ∀ e s', e.internal = true → ¬ SystemStep s e s'

end Zer0S
