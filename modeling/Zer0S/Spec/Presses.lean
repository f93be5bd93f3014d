import Zer0S.Spec.Keyboard

/-!
# The key presses that a line comes from

Which scancodes are the press of a key for a character, which key is held, and, for each character
of the line, which presses it comes from. This is ghost state: `keyboard.c` keeps none of it.
-/

namespace Zer0S

open Lib

/-! ## Scancodes -/

/-- The keys with a branch of their own in `keyboard_handler`: modifiers, locks and editing keys. -/
def specialKeys : List Byte := [0x2A, 0x36, 0x1D, 0x38, 0x3A, 0x45, 0x46, 0x1C, 0x0E, 0x0F, 0x01]

/-- The press of any other key. -/
def IsPress (scancode : Byte) : Prop := scancode &&& 0x80 = 0 ∧ scancode ∉ specialKeys

instance (scancode : Byte) : Decidable (IsPress scancode) := inferInstanceAs (Decidable (_ ∧ _))

/-- The press of Enter, Backspace, Tab or Escape. -/
def IsEdit (scancode : Byte) : Prop :=
  scancode = 0x1C ∨ scancode = 0x0E ∨ scancode = 0x0F ∨ scancode = 0x01

instance (scancode : Byte) : Decidable (IsEdit scancode) := inferInstanceAs (Decidable (_ ∨ _ ∨ _ ∨ _))

/-- The latest event of the key in a sequence of scancodes is a press. -/
def held (key : Byte) (scancodes : List Byte) : Bool :=
  (scancodes.filter fun s => s &&& 0x7F = key).getLast? = some key

/-! ## Characters of the line -/

/-- What a character of the line comes from: the key just pressed, the pending dead key, or both. -/
inductive CharSource
  | key
  | dead
  | both
deriving DecidableEq, Repr

/-- The character that `insertChar` puts into the line if there is room. -/
def inserted (ascii : Byte) (k : Keyboard) : Option Byte :=
  if ascii ≠ 0 ∧ isPrintable ascii then
    some (if k.capsLock ∧ ¬ k.shiftPressed ∧ isLower ascii then ascii - 0x61 + 0x41 else ascii)
  else if ascii = 0x09 then some ascii
  else none

/-- The pending accent and the letter become one character. -/
def Composes (k : Keyboard) (ascii : Byte) : Prop :=
  k.deadKey = true ∧ isLower ascii = true ∧ handleDeadKey ascii k.deadChar ≠ ascii

instance (k : Keyboard) (ascii : Byte) : Decidable (Composes k ascii) := inferInstanceAs (Decidable (_ ∧ _ ∧ _))

/-- The letter takes no accent, so the pending accent becomes a character before it. -/
def ShowsAccent (k : Keyboard) (ascii : Byte) : Prop :=
  k.deadKey = true ∧ isLower ascii = true ∧ handleDeadKey ascii k.deadChar = ascii

instance (k : Keyboard) (ascii : Byte) : Decidable (ShowsAccent k ascii) := inferInstanceAs (Decidable (_ ∧ _ ∧ _))

/-- The character is kept as a dead key. -/
def Waits (k : Keyboard) (ascii : Byte) : Prop := k.deadKey = false ∧ isAccent ascii = true

instance (k : Keyboard) (ascii : Byte) : Decidable (Waits k ascii) := inferInstanceAs (Decidable (_ ∧ _))

/-- The characters that the press of a key has for the line, in order. -/
def pressChars (key : Byte) (k : Keyboard) : List (Byte × CharSource) :=
  let ascii := keyChar k.shiftPressed key
  let put (c : Byte) (src : CharSource) : List (Byte × CharSource) := (inserted c k).toList.map fun v => (v, src)
  if Composes k ascii then
    let result := handleDeadKey ascii k.deadChar
    if isAccent result then [] else put result .both
  else if ShowsAccent k ascii then (k.deadChar, .dead) :: put ascii .key
  else if Waits k ascii then []
  else put ascii .key

/-- Those that get into the line, which has room for 255 characters. -/
def pressStores (key : Byte) (k : Keyboard) : List (Byte × CharSource) :=
  (pressChars key k).take (255 - k.cmdPos).toNat

/-! ## Numbers of presses -/

/-- The scancodes of a run so far, by number: how many there were, the one that left the pending dead
key, and those that each character of the line comes from. -/
structure Origins where
  count : ℕ
  dead : Option ℕ
  line : List (List ℕ)

/-- At the start of a run the characters of the line come from none of its scancodes. -/
def Origins.start (k : Keyboard) : Origins := ⟨0, none, List.replicate k.cmdPos.toNat []⟩

/-- The scancodes that a character comes from. -/
def Origins.source (o : Origins) : CharSource → List ℕ
  | .key => [o.count]
  | .dead => o.dead.toList
  | .both => o.dead.toList ++ [o.count]

/-- One more scancode. -/
def Origins.step (o : Origins) (e : Transition Keyboard Byte) : Origins where
  count := o.count + 1
  dead := if e.pre.deadKey = false ∧ e.post.deadKey = true then some o.count else o.dead
  line := if IsPress e.label then o.line ++ (pressStores e.label e.pre).map (o.source ·.2) else o.line

/-- The origins after a run from `k`. -/
def origins (k : Keyboard) (tr : List (Transition Keyboard Byte)) : Origins :=
  tr.foldl Origins.step (Origins.start k)

/-- The character of the key that is pressed: its entry in the table that is selected. -/
def charOf (e : Transition Keyboard Byte) : Byte := keyChar e.pre.shiftPressed e.label

/-- The character as the line has it: Caps Lock makes a lower-case letter a capital. -/
def typedChar (e : Transition Keyboard Byte) : Byte :=
  if e.pre.capsLock ∧ ¬ e.pre.shiftPressed ∧ isLower (charOf e) then charOf e - 0x61 + 0x41 else charOf e

/-- What a scancode puts into the line if it is the press of a key for a character. -/
def stored (e : Transition Keyboard Byte) : List (Byte × CharSource) :=
  if IsPress e.label then pressStores e.label e.pre else []

/-- The character `v` comes from the scancodes with the numbers `l`: it is that of the one press, or, if
there is none, the dead key that was pending at the start. -/
def FromPress (k₀ : Keyboard) (tr : List (Transition Keyboard Byte)) (v : Byte) (l : List ℕ) : Prop :=
  (∃ i e, l = [i] ∧ tr[i]? = some e ∧ IsPress e.label ∧ v = typedChar e) ∨
    l = [] ∧ k₀.deadKey = true ∧ v = k₀.deadChar

end Zer0S
