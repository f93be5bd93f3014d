import Mathlib.Tactic

/-!
# Text in lines of limited width

A text is a list of characters and of line breaks (`none`). A `Page` is a text broken into lines:
a line ends at a line break, and after its `w`-th character. The cursor is on the last line, which
may be empty. A screen of `h` rows shows the last `h` lines.

* `Page.ofText`: the page of a text, one character after the other.
* `Page.cell h`: the character in a row and column of the screen, if there is one.
* `Page.cell_newline_room`, `Page.cell_newline_full`, `Page.cell_char`: what a new line and a new
  character change on the screen.
-/

namespace Lib

/-- A text in lines: those above the cursor, and the one the cursor is on. -/
structure Page (α : Type*) where
  above : List (List α)
  line : List α

namespace Page

variable {α : Type*}

def empty : Page α := ⟨[], []⟩

def lines (p : Page α) : List (List α) := p.above ++ [p.line]

/-- The cursor goes to a new line. -/
def newline (p : Page α) : Page α := ⟨p.lines, []⟩

/-- A character at the cursor. -/
def char (p : Page α) (x : α) : Page α := ⟨p.above, p.line ++ [x]⟩

/-- One more character of the text, or a line break. -/
def put (w : ℕ) (p : Page α) : Option α → Page α
  | none => p.newline
  | some x => if p.line.length + 1 = w then (p.char x).newline else p.char x

/-- The page of a text. -/
def ofText (w : ℕ) (text : List (Option α)) : Page α := text.foldl (put w) empty

/-- The line that a screen of `h` rows shows first. -/
def top (p : Page α) (h : ℕ) : ℕ := p.above.length + 1 - h

/-- The row of the cursor on a screen of `h` rows. -/
def row (p : Page α) (h : ℕ) : ℕ := p.above.length - p.top h

/-- The character in row `r` and column `c` of a screen of `h` rows. -/
def cell (p : Page α) (h r c : ℕ) : Option α := (p.lines[p.top h + r]?).bind (·[c]?)

variable {p : Page α} {h r c : ℕ} {x : α}

theorem length_lines (p : Page α) : p.lines.length = p.above.length + 1 := by
  rw [lines, List.length_append, List.length_singleton]

/-- The cursor goes down to the last row and stays there. -/
theorem row_eq (p : Page α) (h0 : 0 < h) : p.row h = min p.above.length (h - 1) := by
  unfold row top
  omega

theorem length_above_newline (p : Page α) : p.newline.above.length = p.above.length + 1 := length_lines p

theorem length_line_char (p : Page α) (x : α) : (p.char x).line.length = p.line.length + 1 := by
  rw [char, List.length_append, List.length_singleton]

theorem lines_newline_lt {i : ℕ} (hi : i < p.lines.length) : p.newline.lines[i]? = p.lines[i]? :=
  List.getElem?_append_left hi

/-- The new line is empty, and there is none behind it. -/
theorem lines_newline_ge {i : ℕ} (hi : p.lines.length ≤ i) : (p.newline.lines[i]?).bind (·[c]?) = none := by
  show ((p.lines ++ [[]])[i]?).bind (·[c]?) = none
  rw [List.getElem?_append_right hi]
  cases i - p.lines.length with
  | zero => simp
  | succ j => simp

/-- **A new line with room for it** shows nothing else. -/
theorem cell_newline_room (hr : p.above.length + 1 < h) (r c : ℕ) : p.newline.cell h r c = p.cell h r c := by
  have ht : p.top h = 0 := by unfold top; omega
  have ht' : p.newline.top h = 0 := by
    unfold top newline
    rw [length_lines]
    omega
  unfold cell
  rw [ht, ht', Nat.zero_add]
  by_cases hi : r < p.lines.length
  · rw [lines_newline_lt hi]
  · rw [lines_newline_ge (not_lt.1 hi), List.getElem?_eq_none (not_lt.1 hi), Option.bind_none]

/-- **A new line without room** moves the lines up by one. -/
theorem cell_newline_full (hf : h ≤ p.above.length + 1) (hr : r < h) :
    p.newline.cell h r c = if r + 1 < h then p.cell h (r + 1) c else none := by
  have ht : p.top h + h = p.lines.length := by
    rw [length_lines]
    unfold top
    omega
  have ht' : p.newline.top h = p.top h + 1 := by
    unfold top newline
    rw [length_lines]
    omega
  unfold cell
  rw [ht']
  split_ifs with hlast
  · rw [lines_newline_lt (by omega), Nat.add_right_comm, Nat.add_assoc]
  · exact lines_newline_ge (by omega)

/-- **A character** is shown under the cursor. -/
theorem cell_char (p : Page α) (x : α) (h0 : 0 < h) (r c : ℕ) : (p.char x).cell h r c =
    if r = p.row h ∧ c = p.line.length then some x else p.cell h r c := by
  unfold cell lines char row top
  dsimp only
  rcases Nat.lt_trichotomy (p.above.length + 1 - h + r) p.above.length with hlt | heq | hgt
  · rw [if_neg (by omega), List.getElem?_append_left hlt, List.getElem?_append_left hlt]
  · rw [heq, List.getElem?_concat_length, List.getElem?_concat_length, Option.bind_some, Option.bind_some]
    by_cases hc : c = p.line.length
    · rw [if_pos ⟨by omega, hc⟩, hc, List.getElem?_concat_length]
    · rw [if_neg fun h => hc h.2]
      rcases Nat.lt_or_gt_of_ne hc with hc | hc
      · exact List.getElem?_append_left hc
      · rw [List.getElem?_eq_none (by simp; omega), List.getElem?_eq_none (by omega)]
  · rw [if_neg (by omega), List.getElem?_eq_none (by simp; omega), List.getElem?_eq_none (by simp; omega)]

end Page

end Lib
