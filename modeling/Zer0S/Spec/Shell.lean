import Zer0S.Spec.Process

/-!
# The shell (`shell.c`)

`shell_handle_command` gets a pointer to a line: a function that gives the byte at each index
from the pointer on. Its arrays `cmd` and `args` are not initialised, so that they hold anything
when it starts. Loops that stop at the end of the line take a number of rounds (`none`: not enough
rounds).

`inputReads`, `cmdWrites` and `argsWrites` are ghost fields: the indices at which `input` was read,
and at which `cmd` and `args` were written, latest first.
-/

namespace Zer0S

open Lib

/-! ## Splitting the line -/

/-- The local variables of `shell_handle_command`. -/
structure ShellFrame where
  cmd : ℕ → Byte
  args : ℕ → Byte
  i : ℕ
  j : ℕ
  inputReads : List ℕ
  cmdWrites : List ℕ
  argsWrites : List ℕ

namespace ShellFrame

/-- `input[i]` is read. -/
def read (f : ShellFrame) : ShellFrame := { f with inputReads := f.i :: f.inputReads }

/-- `cmd[i] = v` -/
def setCmd (f : ShellFrame) (v : Byte) : ShellFrame :=
  { f with cmd := Function.update f.cmd f.i v, cmdWrites := f.i :: f.cmdWrites }

/-- `args[j] = v` -/
def setArgs (f : ShellFrame) (v : Byte) : ShellFrame :=
  { f with args := Function.update f.args f.j v, argsWrites := f.j :: f.argsWrites }

end ShellFrame

/-- One round of the loop that copies the command. -/
def cmdBody (input : ℕ → Byte) (f : ShellFrame) : ShellFrame ⊕ ShellFrame :=
  let f := f.read
  if input f.i ≠ 0 ∧ input f.i ≠ space ∧ f.i < 31 then
    let f := f.setCmd (input f.i)
    .inl { f with i := f.i + 1 }
  else .inr f

/-- One round of the loop that skips spaces. -/
def spaceBody (input : ℕ → Byte) (f : ShellFrame) : ShellFrame ⊕ ShellFrame :=
  let f := f.read
  if input f.i = space then .inl { f with i := f.i + 1 } else .inr f

/-- One round of the loop that copies the arguments. -/
def argsBody (input : ℕ → Byte) (f : ShellFrame) : ShellFrame ⊕ ShellFrame :=
  let f := f.read
  if input f.i ≠ 0 ∧ f.j < 223 then
    let f := f.setArgs (input f.i)
    .inl { f with i := f.i + 1, j := f.j + 1 }
  else .inr f

/-- The part of `shell_handle_command` that splits a line, after `input[0]` was tested; `cmd` and
`args` are what the arrays hold before. -/
def splitLine (rounds : ℕ) (cmd args input : ℕ → Byte) : Option ShellFrame :=
  (loop (cmdBody input) rounds ⟨cmd, args, 0, 0, [0], [], []⟩).bind fun f =>
    let f := f.setCmd 0
    (loop (spaceBody input) rounds f).bind fun f =>
      (loop (argsBody input) rounds f).map fun f => f.setArgs 0

/-! ## Commands -/

/-- `string_compare`; the arguments hold the bytes from the pointers on, and a string may leave
out its NUL at the end. -/
def stringCompare : List Byte → List Byte → ℤ
  | c :: s1, d :: s2 => if c ≠ 0 ∧ c = d then stringCompare s1 s2 else c.toNat - d.toNat
  | s1, s2 => (s1.headD 0).toNat - (s2.headD 0).toNat

/-- The handlers of `shell_handle_command`. -/
inductive Command
  | help | mem | procs | heap | kmalloc | clear | info | echo | status | hex | about | reboot
deriving DecidableEq, Repr

/-- The names that `shell_handle_command` compares `cmd` with, in order. -/
def commands : List (String × Command) :=
  [("help", .help), ("mem", .mem), ("procs", .procs), ("heap", .heap), ("kmalloc", .kmalloc),
    ("clear", .clear), ("info", .info), ("echo", .echo), ("status", .status), ("hex", .hex),
    ("about", .about), ("reboot", .reboot)]

/-- The handler that `shell_handle_command` calls for `cmd`, if any. -/
def commandOf (cmd : List Byte) : Option Command :=
  (commands.find? fun e => stringCompare cmd (ascii e.1) = 0).map Prod.snd

/-- The number that `cmd_hex` and `cmd_kmalloc` read from their arguments, with `num` so far. -/
def readNumber (num : Word) : List Byte → Word
  | [] => num
  | c :: args =>
    if BitVec.sle 0x30 c ∧ BitVec.sle c 0x39 then readNumber (num * 10 + (c.signExtend 64 - 0x30)) args
    else num

/-- The kernel that the shell runs on; `rebooting` is set by `cmd_reboot`, which never returns. -/
structure Console where
  kernel : Kernel
  rebooting : Bool

def Console.print (c : Console) (p : List Print) : Console := { c with kernel := c.kernel.print p }

theorem Console.print_print (c : Console) (p q : List Print) : (c.print p).print q = c.print (p ++ q) := by
  simp [Console.print, Kernel.print, Memory.print]

theorem Console.print_inj {c : Console} {p q : List Print} (h : c.print p = c.print q) : p = q :=
  Kernel.print_inj (congrArg Console.kernel h)

/-- `cmd_help` -/
def cmdHelp (c : Console) : Console :=
  c.print [.text "\nAvailable commands:\n", .text "  help      - Show this help\n",
    .text "  clear     - Clear screen\n", .text "  procs     - List processes\n",
    .text "  info      - Show system info\n", .text "  echo      - Print text\n",
    .text "  reboot    - Reboot system\n", .text "  status    - Show system status\n",
    .text "  hex       - Show number in hex\n", .text "  about     - About Zer0S\n",
    .text "  mem       - Show memory status\n", .text "  heap      - Show heap status\n",
    .text "  kmalloc   - Allocate memory\n"]

/-- `cmd_info` -/
def cmdInfo (c : Console) : Console :=
  c.print [.text "\n=== Zer0S System Info ===\n", .text "Version: 2.0 (64-bit)\n",
    .text "Architecture: x86_64\n", .text "Mode: Long Mode\n", .text "Interrupts: Enabled\n",
    .text "Keyboard: PS/2\n", .text "Video: VGA Text 80x25\n", .text "========================\n"]

/-- `cmd_echo` -/
def cmdEcho (args : List Byte) (c : Console) : Console :=
  c.print [.text "\n", .bytes (cString args), .text "\n"]

/-- `cmd_status` -/
def cmdStatus (c : Console) : Console :=
  c.print [.text "\n=== System Status ===\n", .text "Status: RUNNING\n", .text "Kernel: Stable\n",
    .text "Interrupts: Active\n", .text "===================\n"]

/-- `cmd_hex` -/
def cmdHex (args : List Byte) (c : Console) : Console :=
  c.print [.text "\nHex: ", .hex (readNumber 0 args), .text "\n"]

/-- `cmd_about` -/
def cmdAbout (c : Console) : Console :=
  c.print [.text "\n=== Zer0S ===\n", .text "A 64-bit hobby OS built from scratch\n",
    .text "Created by Zer0G0ld\n", .text "License: GPL-3.0\n", .text "Features:\n",
    .text "  - 64-bit Long Mode\n", .text "  - IDT with interrupt handling\n",
    .text "  - PS/2 Keyboard driver\n", .text "  - VGA Text Mode\n", .text "  - Interactive Shell\n",
    .text "========================\n"]

/-- `cmd_reboot`: it disables interrupts and never returns. -/
def cmdReboot (c : Console) : Console :=
  { c.print [.text "\nRebooting system...\n"] with rebooting := true }

/-- `cmd_kmalloc` -/
def cmdKmalloc (rounds : ℕ) (args : List Byte) (c : Console) : Option Console :=
  let size := readNumber 0 args
  if 0 < size then
    (kmalloc rounds size c.kernel.memory).map fun (ptr, memory) =>
      { c with kernel := { c.kernel with memory := memory } }.print
        [.text "\nAllocated ", .hex size, .text " bytes at ", .hex ptr, .text "\n"]
  else some (c.print [.text "\nUsage: kmalloc <size>\n"])

/-- The call of a handler. -/
def runCommand (rounds : ℕ) (args : List Byte) (c : Console) : Command → Option Console
  | .help => some (cmdHelp c)
  | .mem => some { c with kernel := { c.kernel with memory := memoryStatus c.kernel.memory } }
  | .procs => some { c with kernel := processList c.kernel }
  | .heap => (heapStatus rounds c.kernel.memory).map fun memory =>
      { c with kernel := { c.kernel with memory := memory } }
  | .kmalloc => cmdKmalloc rounds args c
  | .clear => some (c.print [.clear])
  | .info => some (cmdInfo c)
  | .echo => some (cmdEcho args c)
  | .status => some (cmdStatus c)
  | .hex => some (cmdHex args c)
  | .about => some (cmdAbout c)
  | .reboot => some (cmdReboot c)

/-- The part of `shell_handle_command` after the line was split. -/
def dispatchCommand (rounds : ℕ) (f : ShellFrame) (c : Console) : Option Console :=
  let cmd := (List.range 32).map f.cmd
  let args := (List.range 224).map f.args
  let run :=
    match commandOf cmd with
    | some command => runCommand rounds args c command
    | none =>
      if stringCompare cmd (ascii "") ≠ 0 then
        some (c.print [.text "\nUnknown command: ", .bytes (cString cmd),
          .text "\nType 'help' for commands\n"])
      else some c
  run.map fun c => if c.rebooting then c else c.print [.text "\nZer0S> "]

/-- `shell_handle_command` -/
def shellHandleCommand (rounds : ℕ) (cmd args input : ℕ → Byte) (c : Console) : Option Console :=
  if input 0 = 0 then some c else
  (splitLine rounds cmd args input).bind fun f => dispatchCommand rounds f c

end Zer0S
