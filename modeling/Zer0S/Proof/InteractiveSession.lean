import Zer0S.Lib.Bounded
import Zer0S.Proof.Handlers
import Zer0S.Proof.HeapRun

/-!
# A session

What keyboard and shell are for, without their variables, arrays and loops: a line editor for lines of at
most 255 characters, and a shell that gets each line as a text, has a list of heap blocks, and prints.

* `Editor.scan`: what a scancode does to the line, what it shows and what it submits.
* `ShellState.line`: what a line does.
* `Session.scan`: both together.
-/

namespace Zer0S

open Lib Tiling

/-! ## The line editor -/

/-- A line that is typed, and what decides about the next character: Shift is down, Caps Lock is on, an
accent waits for its letter. -/
structure Editor where
  shift : Bool
  caps : Bool
  accent : Option Byte
  line : Bounded 255 Byte
deriving DecidableEq

/-- What comes of a scancode: the editor, what is shown, and the line that is submitted. -/
structure Reaction where
  editor : Editor
  shown : List Print
  submitted : Option (List Byte)
deriving DecidableEq

namespace Editor

/-- No key was pressed yet. -/
def start : Editor := ⟨false, false, none, .empty⟩

/-- A character is typed. One that is not printable has no place in a line, and a full line takes none. -/
def type (c : Byte) (e : Editor) : Editor × List Print :=
  if isPrintable c ∨ c = 0x09 then
    let c := if e.caps ∧ ¬ e.shift ∧ isLower c then c - 0x61 + 0x41 else c
    if e.line.Full then (e, []) else ({ e with line := e.line.push c }, [.char c])
  else (e, [])

/-- A key is pressed. -/
def press (key : Byte) (e : Editor) : Editor × List Print :=
  let c := keyChar e.shift key
  match e.accent with
  | none => if isAccent c then ({ e with accent := some c }, []) else e.type c
  | some a =>
    -- an accent waits for a lower-case letter
    if ¬ isLower c then e.type c
    else if handleDeadKey c a ≠ c then ({ e with accent := none }, [])
    else
      let r := { e with accent := none, line := e.line.push a }.type c
      (r.1, .char a :: r.2)

/-- A scancode arrives. -/
def scan (scancode : Byte) (e : Editor) : Reaction :=
  let key := scancode &&& 0x7F
  let pressed := (scancode &&& 0x80) = 0
  if key = 0x2A ∨ key = 0x36 then ⟨{ e with shift := pressed }, [], none⟩
  else if ¬ pressed ∨ key = 0x1D ∨ key = 0x38 ∨ key = 0x45 ∨ key = 0x46 then ⟨e, [], none⟩
  else if key = 0x3A then ⟨{ e with caps := !e.caps }, [], none⟩
  else if key = 0x1C then ⟨{ e with accent := none, line := .empty }, [.char newline], some e.line.toList⟩
  else if key = 0x0E then
    if e.line.toList = [] then ⟨{ e with accent := none }, [], none⟩
    else ⟨{ e with accent := none, line := e.line.pop }, [.char backspace, .char space, .char backspace], none⟩
  else if key = 0x0F then ⟨{ e with accent := none, line := e.line.push 0x09 }, [.char 0x09], none⟩
  else if key = 0x01 then
    ⟨{ e with accent := none, line := .empty }, [.char newline, .text "^C\nZer0S> "], none⟩
  else
    let r := e.press key
    ⟨r.1, r.2, none⟩

end Editor

/-! ## The shell -/

/-- The heap blocks, `none` before the first request, and what has been printed. -/
structure ShellState where
  heap : Option (List Seg)
  output : List Print
  rebooting : Bool
deriving DecidableEq

/-- The bytes in free blocks. -/
def freeBytes (l : List Seg) : ℕ := ((l.filter fun b => !b.used).map Seg.size).sum

/-- What `heap` prints for the blocks. -/
def heapText (l : List Seg) : List Print :=
  [.text "\n=== Heap Status ===\n", .text "Blocks: ", .hex ((BitVec.ofNat 32 l.length).signExtend 64),
    .text "\nTotal: ", .hex (BitVec.ofNat 64 (l.map Seg.size).sum / 1024), .text " KB\nFree: ",
    .hex (BitVec.ofNat 64 (freeBytes l) / 1024), .text " KB\n",
    .text "==================\n"]

/-- A request of `w` bytes takes the first block that fits: what `kmalloc` prints, its result and the blocks. -/
def requested (w : Word) (l : List Seg) : List Print × Word × List Seg :=
  match firstFit 24 32 (roundUp w).toNat heapBase l with
  | none => ([.text "[ERROR] kmalloc: Out of heap memory!\n"], 0, l)
  | some (p, l) => ([], BitVec.ofNat 64 (p + 24), l)

/-- What the command `kmalloc` prints for a request and its result. -/
def requestText (size ptr : Word) : List Print :=
  [.text "\nAllocated ", .hex size, .text " bytes at ", .hex ptr, .text "\n"]

/-- All commands. -/
def allCommands : List Command :=
  [.help, .mem, .procs, .heap, .kmalloc, .clear, .info, .echo, .status, .hex, .about, .reboot]

namespace ShellState

def print (p : List Print) (s : ShellState) : ShellState := { s with output := s.output ++ p }

/-- A request of `size` bytes. -/
def request (size : Word) (s : ShellState) : ShellState :=
  let (p, ptr, l) := requested size (s.heap.getD freshHeap)
  { s with heap := some l }.print (p ++ requestText size ptr)

variable (text : Command → List Print)

/-- A command runs. Most of them print a text that is always the same. -/
def run (args : List Byte) (command : Command) (s : ShellState) : ShellState :=
  match command with
  | .echo => s.print [.text "\n", .bytes args, .text "\n"]
  | .hex => s.print [.text "\nHex: ", .hex (readNumber 0 args), .text "\n"]
  | .kmalloc =>
    if readNumber 0 args = 0 then s.print [.text "\nUsage: kmalloc <size>\n"] else s.request (readNumber 0 args)
  | .heap => s.print (heapText (s.heap.getD []))
  | .reboot => { s.print (text .reboot) with rebooting := true }
  | command => s.print (text command)

/-- A line: the characters before its first space are the command. -/
def line (w : List Byte) (s : ShellState) : ShellState :=
  if w = [] then s else
  let s :=
    match allCommands.find? fun command => tokenOf w = ascii command.name with
    | some command => s.run text ((textOf w).take 223) command
    | none =>
      if tokenOf w = [] then s
      else s.print [.text "\nUnknown command: ", .bytes ((tokenOf w).take 31), .text "\nType 'help' for commands\n"]
  if s.rebooting then s else s.print [.text "\nZer0S> "]

end ShellState

/-! ## Both -/

structure Session where
  editor : Editor
  shell : ShellState
deriving DecidableEq

/-- A scancode arrives; nothing happens any more after `reboot`. -/
def Session.scan (text : Command → List Print) (s : Session) (scancode : Byte) : Session :=
  if s.shell.rebooting then s else
  let r := s.editor.scan scancode
  let shell := s.shell.print r.shown
  ⟨r.editor, r.submitted.elim shell fun w => shell.line text w⟩

end Zer0S
