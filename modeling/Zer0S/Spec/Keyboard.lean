import Zer0S.Lib.Trace
import Zer0S.Spec.Shell

/-!
# The keyboard (`keyboard.c`)

`char` is signed, and a character constant of two bytes is an `int`: it is cut to its low byte
where it is stored in a `char`, and no `char` is equal to it.

`cmd_buffer` is a function on all integer indices: nothing in its type confines an access to its
256 bytes. `cmd_pos` is a C `int`; it is an integer here, since a signed overflow has no value in C.

`accesses` is a ghost field: the indices at which `cmd_buffer` was written, latest first. The line
that Enter passes to the shell is read by the shell.
-/

namespace Zer0S

open Lib

/-! ## Tables -/

/-- The value of a character constant of two bytes, stored in a `char`. -/
def toChar (v : ℤ) : Byte := BitVec.ofInt 8 v

/-- `scancode_normal`; the rest of the table is 0. -/
def scancodeNormal : List Byte :=
  [0, 0] ++ ascii "1234567890-=" ++ [backspace] ++
    ascii "\tqwertyuiop[]\n" ++ [0] ++
    ascii "asdfghjkl;'`" ++ [0] ++ ascii "\\z" ++
    ascii "xcvbnm,./" ++ [0, 0, 0] ++ ascii " " ++ [0, 0]

/-- `scancode_shift`; the rest of the table is 0. The constant `'¨'` has the bytes C2 A8. -/
def scancodeShift : List Byte :=
  [0, 0] ++ ascii "!@#$%" ++ [toChar 0xC2A8] ++ ascii "&*()_+" ++ [backspace] ++
    ascii "\tQWERTYUIOP\x7b\x7d\n" ++ [0] ++
    ascii "ASDFGHJKL:\"~" ++ [0] ++ ascii "|Z" ++
    ascii "XCVBNM<>?" ++ [0, 0, 0] ++ ascii " " ++ [0, 0]

/-- `scancode_abnt2_normal`, from `0x27` on: `'ç'`, 0, `'~'`, 0, 0, `'^'`, `'´'`. -/
def scancodeAbnt2Normal : List Byte :=
  List.replicate 0x27 0 ++ [toChar 0xC3A7, 0] ++ ascii "~" ++ [0, 0] ++ ascii "^" ++ [toChar 0xC2B4]

/-- `scancode_abnt2_shift`, from `0x27` on: `'Ç'`, 0, `'^'`, 0, 0, `'~'` and a grave accent. -/
def scancodeAbnt2Shift : List Byte :=
  List.replicate 0x27 0 ++ [toChar 0xC387, 0] ++ ascii "^" ++ [0, 0] ++ ascii "~`"

/-- The entry of a table; the entries that are not given are 0. -/
def entry (table : List Byte) (key : Byte) : Byte := table.getD key.toNat 0

/-- The combinations of an accent in `handle_dead_key`: a letter, and the constant returned. -/
def composed (letters : String) (constants : List ℤ) (baseChar : Byte) : Byte :=
  (((ascii letters).zip constants).lookup baseChar).elim baseChar toChar

/-- `'´'`, of the bytes C2 B4. -/
def acute : ℤ := 0xC2B4

/-- `handle_dead_key`; the constants are `'á'` (C3 A1) and so on. -/
def handleDeadKey (baseChar accent : Byte) : Byte :=
  if accent.toInt = acute then
    composed "aeiouAEIOU"
      [0xC3A1, 0xC3A9, 0xC3AD, 0xC3B3, 0xC3BA, 0xC381, 0xC389, 0xC38D, 0xC393, 0xC39A] baseChar
  else if accent = 0x60 then  -- the grave accent
    composed "aeiouAEIOU"
      [0xC3A0, 0xC3A8, 0xC3AC, 0xC3B2, 0xC3B9, 0xC380, 0xC388, 0xC38C, 0xC392, 0xC399] baseChar
  else if accent = 0x5E then  -- the circumflex
    composed "aeiouAEIOU"
      [0xC3A2, 0xC3AA, 0xC3AE, 0xC3B4, 0xC3BB, 0xC382, 0xC38A, 0xC38E, 0xC394, 0xC39B] baseChar
  else if accent = 0x7E then  -- the tilde
    composed "anoANO" [0xC3A3, 0xC3B1, 0xC3B5, 0xC383, 0xC391, 0xC395] baseChar
  else baseChar

/-! ## State -/

/-- The static variables of `keyboard.c`, and the system around it. -/
structure Keyboard where
  shiftPressed : Bool
  ctrlPressed : Bool
  altPressed : Bool
  capsLock : Bool
  numLock : Bool
  scrollLock : Bool
  deadKey : Bool
  deadChar : Byte
  cmdBuffer : ℤ → Byte
  cmdPos : ℤ
  accesses : List ℤ
  console : Console

/-- The state before the first scancode: static variables are zero. -/
def Keyboard.boot (c : Console) : Keyboard :=
  ⟨false, false, false, false, false, false, false, 0, fun _ => 0, 0, [], c⟩

namespace Keyboard

def print (k : Keyboard) (p : List Print) : Keyboard := { k with console := k.console.print p }

/-- `terminal_writechar(c)` -/
def echo (k : Keyboard) (c : Byte) : Keyboard := k.print [.char c]

/-- `cmd_buffer[i] = v` -/
def store (k : Keyboard) (i : ℤ) (v : Byte) : Keyboard :=
  { k with cmdBuffer := Function.update k.cmdBuffer i v, accesses := i :: k.accesses }

/-- `cmd_buffer[cmd_pos++] = v` -/
def push (k : Keyboard) (v : Byte) : Keyboard :=
  let k := k.store k.cmdPos v
  { k with cmdPos := k.cmdPos + 1 }

/-- The line that starts at `cmd_buffer`. -/
def input (k : Keyboard) (i : ℕ) : Byte := k.cmdBuffer i

/-- `if (dead_key) dead_key = 0;` -/
def dropDeadKey (k : Keyboard) : Keyboard := if k.deadKey then { k with deadKey := false } else k

end Keyboard

/-! ## Key presses -/

/-- `c >= 'a' && c <= 'z'` -/
def isLower (c : Byte) : Bool := BitVec.sle 0x61 c && BitVec.sle c 0x7A

/-- `c >= ' ' && c <= '~'` -/
def isPrintable (c : Byte) : Bool := BitVec.sle 0x20 c && BitVec.sle c 0x7E

/-- The character of a key: four keys have tables of their own. -/
def keyChar (shift : Bool) (key : Byte) : Byte :=
  if key = 0x27 ∨ key = 0x29 ∨ key = 0x2C ∨ key = 0x2D then
    if shift then entry scancodeAbnt2Shift key else entry scancodeAbnt2Normal key
  else
    if shift then entry scancodeShift key else entry scancodeNormal key

/-- What `keyboard_handler` does with a pending dead key; the character of the key may change. -/
def combineDeadKey (ascii : Byte) (k : Keyboard) : Byte × Keyboard :=
  if k.deadKey ∧ ascii ≠ 0 ∧ isLower ascii then
    let result := handleDeadKey ascii k.deadChar
    if result ≠ ascii then (result, { k with deadKey := false })
    else
      -- the letter takes no accent: the accent is typed before it
      let k := k.echo k.deadChar
      let k := if k.cmdPos < 255 then k.push k.deadChar else k
      (ascii, { k with deadKey := false })
  else (ascii, k)

/-- The characters that `keyboard_handler` takes for dead keys. -/
def isAccent (ascii : Byte) : Bool := ascii.toInt = acute ∨ ascii = 0x60 ∨ ascii = 0x5E ∨ ascii = 0x7E

/-- What `keyboard_handler` does with a character that is no dead key. -/
def insertChar (ascii : Byte) (k : Keyboard) : Keyboard :=
  if ascii ≠ 0 ∧ isPrintable ascii then
    let ascii := if k.capsLock ∧ ¬ k.shiftPressed ∧ isLower ascii then ascii - 0x61 + 0x41 else ascii
    if k.cmdPos < 255 then (k.push ascii).echo ascii else k
  else if ascii = 0x09 then
    if k.cmdPos < 255 then (k.push ascii).echo ascii else k
  else k

/-- The press of a key that is no modifier, lock or editing key. -/
def pressKey (key : Byte) (k : Keyboard) : Keyboard :=
  let (ascii, k) := combineDeadKey (keyChar k.shiftPressed key) k
  if ¬ k.deadKey ∧ isAccent ascii then { k with deadKey := true, deadChar := ascii }
  else insertChar ascii k

/-! ## The handler -/

/-- What `keyboard_handler` has done when it returns, or calls `shell_handle_command` with
`cmd_buffer`. -/
inductive Handled
  | done (k : Keyboard)
  | enter (k : Keyboard)

/-- `keyboard_handler` up to the call of `shell_handle_command`, if there is one. -/
def handleScancode (scancode : Byte) (k : Keyboard) : Handled :=
  let key := scancode &&& 0x7F
  let pressed := (scancode &&& 0x80) = 0
  if key = 0x2A ∨ key = 0x36 then .done { k with shiftPressed := pressed }
  else if key = 0x1D then .done { k with ctrlPressed := pressed }
  else if key = 0x38 then .done { k with altPressed := pressed }
  else if key = 0x3A ∧ pressed then .done { k with capsLock := !k.capsLock }
  else if key = 0x45 ∧ pressed then .done { k with numLock := !k.numLock }
  else if key = 0x46 ∧ pressed then .done { k with scrollLock := !k.scrollLock }
  else if key = 0x1C ∧ pressed then
    let k := k.dropDeadKey.echo newline
    .enter (k.store k.cmdPos 0)
  else if key = 0x0E ∧ pressed then
    let k := k.dropDeadKey
    if 0 < k.cmdPos then
      let k := { k with cmdPos := k.cmdPos - 1 }
      .done (((k.echo backspace).echo space).echo backspace)
    else .done k
  else if key = 0x0F ∧ pressed then
    let k := k.dropDeadKey.echo 0x09
    -- it is shown even when there is no room for it
    .done (if k.cmdPos < 255 then k.push 0x09 else k)
  else if key = 0x01 ∧ pressed then
    let k := (k.dropDeadKey.echo newline).print [.text "^C\nZer0S> "]
    .done ({ k with cmdPos := 0 }.store 0 0)
  else if pressed then .done (pressKey key k)
  else .done k

/-- `keyboard_handler`; `cmd` and `args` are what is on the stack where the shell has its arrays.
The shell does not return when it reboots. -/
def keyboardHandler (rounds : ℕ) (cmd args : ℕ → Byte) (scancode : Byte) (k : Keyboard) : Option Keyboard :=
  match handleScancode scancode k with
  | .done k => some k
  | .enter k => (shellHandleCommand rounds cmd args k.input k.console).map fun c =>
      if c.rebooting then { k with console := c }
      else { k with console := c, cmdPos := 0 }.store 0 0

/-- A scancode is delivered and the handler returns. None is delivered while the system reboots. -/
def KeyStep (k : Keyboard) (scancode : Byte) (k' : Keyboard) : Prop :=
  k.console.rebooting = false ∧ ∃ rounds cmd args, keyboardHandler rounds cmd args scancode k = some k'

/-- A step, with arrays of the shell that hold zeros before. -/
def keyExec (k : Keyboard) (scancode : Byte) : Option Keyboard :=
  if k.console.rebooting then none else keyboardHandler 256 (fun _ => 0) (fun _ => 0) scancode k

theorem keyExec_step (k : Keyboard) (scancode : Byte) (k' : Keyboard) (h : keyExec k scancode = some k') :
    KeyStep k scancode k' := by
  unfold keyExec at h
  split_ifs at h with hr
  exact ⟨by simpa using hr, _, _, _, h⟩

end Zer0S
