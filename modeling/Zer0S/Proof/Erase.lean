import Zer0S.Proof.Echo
import Zer0S.Proof.ScreenText

/-!
# Erasing a character from the screen

When Backspace removes a character, `keyboard_handler` sends a backspace, a space and a backspace. The
last column is where this fails: a character written there moves the cursor to the next row, and a
backspace does not leave the first column.

* `backspace_sends`: what the handler sends.
* `erase_undoes_iff`: it undoes the character exactly when that is not in the last column.
-/

namespace Zer0S

open Lib

variable {t : Terminal} {c : Byte} {k k' : Keyboard}

/-- What the handler sends to the terminal when Backspace removes a character. -/
def eraseChars : List Byte := [backspace, space, backspace]

/-- `terminal_writechar` for each of the characters. -/
def writechars (cs : List Byte) (t : Terminal) : Terminal := cs.foldl (fun t c => terminalWritechar c t) t

/-- The row in which a character written under the cursor is shown: at the end of the screen, the write
moves it up. -/
def shownRow (t : Terminal) : ℤ := if t.row = 24 ∧ t.col = 79 then 23 else t.row

/-- The character `c`, written under the cursor of `t`, is undone by the three characters: the cursor is
where it was shown, that cell is blank, and the others are as they were after it was written. -/
structure Undone (t : Terminal) (c : Byte) : Prop where
  row : (writechars eraseChars (terminalWritechar c t)).row = shownRow t
  col : (writechars eraseChars (terminalWritechar c t)).col = t.col
  cell : (writechars eraseChars (terminalWritechar c t)).vga (shownRow t * 80 + t.col) = blank
  others : ∀ i, 0 ≤ i → i < 2000 → i ≠ shownRow t * 80 + t.col →
    (writechars eraseChars (terminalWritechar c t)).vga i = (terminalWritechar c t).vga i

/-- Backspace on a line that is not empty sends these characters. -/
theorem backspace_sends (hs : KeyStep k 0x0E k') (h0 : 0 < k.cmdPos) :
    k'.console = k.console.print (eraseChars.map .char) := by
  obtain ⟨-, hcons, hpos⟩ := line_dropDeadKey k
  obtain ⟨-, rounds, cmd, args, hs⟩ := hs
  rw [keyboardHandler, handleScancode_backspace, if_pos (hpos ▸ h0)] at hs
  obtain rfl := Option.some.inj hs
  show ((k.dropDeadKey.console.print [.char backspace]).print [.char space]).print [.char backspace] = _
  rw [hcons, Console.print_print, Console.print_print]
  rfl

/-! ## The four writes -/

theorem isCell_printable : ∀ c : Byte, isPrintable c = true → IsCell c := by decide +kernel

/-- Before the last column, a character is written and the cursor moves on. -/
theorem writechar_inside (hc : IsCell c) (hr : t.row < 25) (hcol : t.col < 79) :
    terminalWritechar c t = { t.putCell (cellOf c) with col := t.col + 1 } := by
  rw [terminalWritechar_cell hc, wrapCol, vgaWidth, if_neg (by dsimp only; omega)]
  exact wrapRow_room (t := { t.putCell (cellOf c) with col := t.col + 1 }) hr

/-- In the last column, the cursor goes to the start of the next row. -/
theorem writechar_last (hc : IsCell c) (hcol : t.col = 79) :
    terminalWritechar c t = wrapRow { t.putCell (cellOf c) with col := 0, row := t.row + 1 } := by
  rw [terminalWritechar_cell hc, wrapCol, vgaWidth, if_pos (by dsimp only; omega)]
  rfl

/-- There it is in the first column of a row of the screen. -/
theorem writechar_last_cursor (hc : IsCell c) (hcol : t.col = 79) :
    (terminalWritechar c t).col = 0 ∧ (terminalWritechar c t).row < 25 := by
  rw [writechar_last hc hcol]
  by_cases hlast : 25 ≤ t.row + 1
  · obtain ⟨-, hrow, hcol'⟩ :=
      wrapRow_scroll (t := { t.putCell (cellOf c) with col := 0, row := t.row + 1 }) hlast
    exact ⟨hcol', by omega⟩
  · rw [wrapRow_room (t := { t.putCell (cellOf c) with col := 0, row := t.row + 1 }) (not_le.1 hlast)]
    exact ⟨rfl, not_le.1 hlast⟩

/-- **Where a character is shown**, also when the screen moves up. -/
theorem vga_shown (hc : IsCell c) (h0 : 0 ≤ t.row) (hr : t.row < 25) (h0' : 0 ≤ t.col) (hcol : t.col < 80) :
    (terminalWritechar c t).vga (shownRow t * 80 + t.col) = cellOf c := by
  have hput : ∀ i, i = t.row * 80 + t.col → (t.putCell (cellOf c)).vga i = cellOf c := by
    rintro i rfl
    exact Function.update_self ..
  by_cases hlast : t.col < 79
  · rw [writechar_inside hc hr hlast, shownRow, if_neg (by omega)]
    exact hput _ rfl
  · rw [writechar_last hc (by omega)]
    set u : Terminal := { t.putCell (cellOf c) with col := 0, row := t.row + 1 } with hu
    by_cases hbot : t.row = 24
    · -- the cell moves up from the last row to the one above it
      have hrow : 25 ≤ u.row := by rw [hu]; dsimp only; omega
      rw [(wrapRow_scroll hrow).1, shownRow, if_pos (by omega), vga_scroll _ (by omega) (by omega),
        if_pos (by omega)]
      exact hput _ (by omega)
    · have hrow : u.row < 25 := by rw [hu]; dsimp only; omega
      rw [wrapRow_room hrow, shownRow, if_neg (by omega)]
      exact hput _ rfl

/-! ## The three characters -/

/-- Behind the first column, the cursor moves back and the cell it leaves is the only one that changes. -/
theorem eraseChars_inside (hr : t.row < 25) (h0 : 0 < t.col) (hcol : t.col < 80) :
    (writechars eraseChars t).row = t.row ∧ (writechars eraseChars t).col = t.col - 1 ∧
      (writechars eraseChars t).vga = Function.update t.vga (t.row * 80 + (t.col - 1)) blank := by
  set u : Terminal := { t with col := t.col - 1 }.putCell blank with hu
  have h1 : terminalWritechar backspace t = u := by rw [writechar_backspace, if_pos h0]
  have h2 : terminalWritechar space u = { u.putCell blank with col := u.col + 1 } :=
    writechar_inside ⟨by decide, by decide⟩ hr (by show t.col - 1 < 79; omega)
  have h3 : terminalWritechar backspace { u.putCell blank with col := u.col + 1 } =
      { u.putCell blank with col := u.col + 1 - 1 }.putCell blank := by
    rw [writechar_backspace, if_pos (by show 0 < t.col - 1 + 1; omega)]
  have hrun : writechars eraseChars t = { u.putCell blank with col := u.col + 1 - 1 }.putCell blank := by
    show terminalWritechar backspace (terminalWritechar space (terminalWritechar backspace t)) = _
    rw [h1, h2, h3]
  have hback : u.col + 1 - 1 = t.col - 1 := by show t.col - 1 + 1 - 1 = _; omega
  rw [hrun, hback]
  refine ⟨rfl, rfl, ?_⟩
  -- the same cell is written three times
  set i : ℤ := t.row * 80 + (t.col - 1)
  show Function.update (Function.update (Function.update t.vga i blank) i blank) i blank = Function.update t.vga i blank
  rw [Function.update_idem, Function.update_idem]

/-- In the first column, the backspace before the space does nothing. -/
theorem eraseChars_first (hr : t.row < 25) (hcol : t.col = 0) : (writechars eraseChars t).col = 0 := by
  have h1 : terminalWritechar backspace t = t := by rw [writechar_backspace, if_neg (by omega)]
  have h2 : terminalWritechar space t = { t.putCell blank with col := t.col + 1 } :=
    writechar_inside ⟨by decide, by decide⟩ hr (by omega)
  show (terminalWritechar backspace (terminalWritechar space (terminalWritechar backspace t))).col = 0
  rw [h1, h2, writechar_backspace, if_pos (by show 0 < t.col + 1; omega)]
  show t.col + 1 - 1 = 0
  omega

/-- **Erasing.** When Backspace removes a character, the handler sends `eraseChars`. On every screen, with the
cursor at any cell, a printable character is undone by these three, in the cell where it is shown, exactly
when that is not in the last column. -/
theorem erase_undoes_iff (h0 : 0 ≤ t.row) (hr : t.row < 25) (h0' : 0 ≤ t.col) (hcol : t.col < 80)
    (hp : isPrintable c = true) :
    (∀ k k', KeyStep k 0x0E k' → 0 < k.cmdPos → k'.console = k.console.print (eraseChars.map .char)) ∧
    (terminalWritechar c t).vga (shownRow t * 80 + t.col) = cellOf c ∧ (Undone t c ↔ t.col < 79) := by
  have hc := isCell_printable c hp
  refine ⟨fun k k' => backspace_sends, vga_shown hc h0 hr h0' hcol, ?_⟩
  constructor
  · -- otherwise the cursor ends in the first column
    intro h
    by_contra hlast
    obtain ⟨hcol', hrow'⟩ := writechar_last_cursor (t := t) hc (by omega)
    have := h.col.symm.trans (eraseChars_first hrow' hcol')
    omega
  · intro hlast
    have hw := writechar_inside hc hr hlast
    have hrow : shownRow t = t.row := if_neg (by omega)
    set w : Terminal := { t.putCell (cellOf c) with col := t.col + 1 } with hwdef
    have hback : w.col - 1 = t.col := by show t.col + 1 - 1 = _; omega
    obtain ⟨h1, h2, h3⟩ := eraseChars_inside (t := w) hr (by show 0 < t.col + 1; omega) (by show t.col + 1 < 80; omega)
    rw [hback] at h2 h3
    refine ⟨?_, ?_, ?_, ?_⟩
    · rw [hw, h1, hrow]
      rfl
    · rw [hw, h2]
    · rw [hw, h3, hrow]
      exact Function.update_self ..
    · intro i _ _ hi
      rw [hrow] at hi
      rw [hw, h3]
      exact Function.update_of_ne hi _ _

/-- In the middle of the last row. -/
theorem erase_undoes_middle : Undone ⟨fun _ => 0, 24, 40, []⟩ 0x61 :=
  (erase_undoes_iff (by decide) (by decide) (by decide) (by decide) (by decide)).2.2.2 (by decide)

/-- In the last column of the first row, the cursor is not moved back and the character stays. -/
theorem last_column_stays : ¬ Undone ⟨fun _ => 0, 0, 79, []⟩ 0x61 ∧
    (writechars eraseChars (terminalWritechar 0x61 ⟨fun _ => 0, 0, 79, []⟩)).vga 79 = cellOf 0x61 := by
  refine ⟨fun h => absurd h.col (by decide +kernel), by decide +kernel⟩

end Zer0S
