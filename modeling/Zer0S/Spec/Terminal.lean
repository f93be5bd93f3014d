import Mathlib.Tactic
import Zer0S.Lib.Mem
import Zer0S.Lib.Loop

/-!
# The VGA text terminal (`kernel_main.c`)

`VGA_MEMORY` is a pointer to 16-bit cells, so it is modelled as a function on all
integer indices: nothing in the code confines an access to the 80 × 25 cells of the
screen. `row` and `col` are C `int`s; they are integers here, since a signed overflow
has no value in C.

`accesses` is a ghost field: every access to `VGA_MEMORY`, in order, latest first.
-/

namespace Zer0S

open Lib

/-- `VGA_WIDTH` -/
def vgaWidth : ℤ := 80

/-- `VGA_HEIGHT` -/
def vgaHeight : ℤ := 25

/-- An access to `VGA_MEMORY`: of the cell under the cursor, or at an index of a loop. -/
inductive VgaAccess
  | cell (row col : ℤ)
  | index (i : ℤ)
deriving DecidableEq, Repr

/-- The index of an access. -/
def VgaAccess.toIndex : VgaAccess → ℤ
  | .cell row col => row * vgaWidth + col
  | .index i => i

structure Terminal where
  vga : ℤ → BitVec 16
  row : ℤ
  col : ℤ
  accesses : List VgaAccess

/-- `'\n'` -/
def newline : Byte := 0x0A

/-- `'\b'` -/
def backspace : Byte := 0x08

/-- `' '` -/
def space : Byte := 0x20

/-- `(unsigned short)c | (0x0F << 8)`; `char` is signed, so the cast extends the sign. -/
def cellOf (c : Byte) : BitVec 16 := c.signExtend 16 ||| 0x0F00

/-- `(unsigned short)' ' | (0x0F << 8)` -/
def blank : BitVec 16 := cellOf 0x20

/-- `VGA_MEMORY[row * VGA_WIDTH + col] = v` -/
def Terminal.putCell (t : Terminal) (v : BitVec 16) : Terminal :=
  { t with
    vga := Function.update t.vga (t.row * vgaWidth + t.col) v
    accesses := .cell t.row t.col :: t.accesses }

/-- `VGA_MEMORY[i] = v` -/
def Terminal.setCell (i : ℤ) (v : BitVec 16) (t : Terminal) : Terminal :=
  { t with vga := Function.update t.vga i v, accesses := .index i :: t.accesses }

/-- `VGA_MEMORY[i] = VGA_MEMORY[i + VGA_WIDTH]` -/
def Terminal.copyCell (i : ℤ) (t : Terminal) : Terminal :=
  let t := { t with accesses := .index (i + vgaWidth) :: t.accesses }
  t.setCell i (t.vga (i + vgaWidth))

/-- The two loops that move the screen up by one line. -/
def Terminal.scroll (t : Terminal) : Terminal :=
  let t := forLoop (fun i => Terminal.copyCell (i : ℤ)) 0 ((vgaHeight - 1) * vgaWidth).toNat t
  forLoop (fun i => Terminal.setCell (i : ℤ) blank) ((vgaHeight - 1) * vgaWidth).toNat vgaWidth.toNat t

/-- `terminal_writechar` -/
def terminalWritechar (c : Byte) (t : Terminal) : Terminal :=
  if c = newline then
    -- the screen is not scrolled here
    { t with col := 0, row := t.row + 1 }
  else if c = backspace then
    if 0 < t.col then
      { t with col := t.col - 1 }.putCell blank
    else t
  else
    let t := t.putCell (cellOf c)
    let t := { t with col := t.col + 1 }
    let t := if vgaWidth ≤ t.col then { t with col := 0, row := t.row + 1 } else t
    if vgaHeight ≤ t.row then { t.scroll with row := vgaHeight - 1 } else t

/-- `terminal_writestring`; the argument holds the bytes from `str` on, and the loop
stops at the first NUL. -/
def terminalWritestring : List Byte → Terminal → Terminal
  | [], t => t
  | c :: str, t => if c = 0 then t else terminalWritestring str (terminalWritechar c t)

/-- `terminal_clear` -/
def terminalClear (t : Terminal) : Terminal :=
  let t := forLoop (fun i => Terminal.setCell (i : ℤ) blank) 0 (vgaWidth * vgaHeight).toNat t
  { t with row := 0, col := 0 }

/-! ## Numbers -/

/-- The bytes of a string literal of ASCII characters, without its NUL. -/
def ascii (s : String) : List Byte := s.toList.map fun c => BitVec.ofNat 8 c.toNat

/-- The array `hex` of `print_hex`. -/
def hexChars : List Byte := ascii "0123456789ABCDEF"

/-- The characters that `print_hex` has passed to `terminal_writechar` so far, and its variable
`started`. -/
structure HexOutput where
  chars : List Byte
  started : Bool
deriving DecidableEq, Repr

/-- One round of the loop of `print_hex`. -/
def hexRound (value : Word) (j : ℕ) (o : HexOutput) : HexOutput :=
  let digit := hexChars.getD ((value >>> j) &&& 0xF).toNat 0
  if digit ≠ 0x30 ∨ o.started ∨ j = 0 then ⟨o.chars ++ [digit], true⟩ else o

/-- `print_hex`: the characters that it passes to `terminal_writechar`; `j` is 60, 56, ..., 0. -/
def printHex (value : Word) : List Byte :=
  (forLoop (fun i => hexRound value (60 - 4 * i)) 0 16 ⟨ascii "0x", false⟩).chars

/-! ## Calls of the printing functions -/

/-- A call of a printing function of `kernel_main.c` made by another file: the text of
a literal, the bytes of a string in a kernel structure, a string at an address, one
character, or a number through `print_hex`; or a call of `terminal_clear`. -/
inductive Print
  | text (s : String)
  | bytes (s : List Byte)
  | addr (a : Word)
  | char (c : Byte)
  | hex (v : Word)
  | clear
deriving DecidableEq, Repr

/-! ## Sequences of calls -/

/-- What a call does to the terminal, one character or one clearing at a time. -/
inductive ScreenEvent
  | char (c : Byte)
  | clear
deriving DecidableEq, Repr

def screenStep (t : Terminal) : ScreenEvent → Terminal
  | .char c => terminalWritechar c t
  | .clear => terminalClear t

/-- A call of one of the three functions. -/
inductive ScreenOp
  | writechar (c : Byte)
  | writestring (str : List Byte)
  | clear
deriving DecidableEq, Repr

def screenExec (t : Terminal) : ScreenOp → Terminal
  | .writechar c => terminalWritechar c t
  | .writestring str => terminalWritestring str t
  | .clear => terminalClear t

/-- The events of a call. -/
def ScreenOp.events : ScreenOp → List ScreenEvent
  | .writechar c => [.char c]
  | .writestring str => (str.takeWhile (· ≠ 0)).map .char
  | .clear => [.clear]

/-- A screen that was just cleared, whatever it was before. -/
def clearedScreen (vga : ℤ → BitVec 16) (row col : ℤ) : Terminal := terminalClear ⟨vga, row, col, []⟩

end Zer0S
