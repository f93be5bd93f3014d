import Zer0S.Lib.Page
import Zer0S.Proof.Screen

/-!
# What the screen shows of a text

The terminal shows the last 25 lines of a text, with one exception: `terminal_writechar` scrolls
when a character leaves the screen, not when a newline does. A run of newlines on the bottom row
moves the cursor below the screen; the next character is written there and lost, and then the
screen scrolls by one line.

* `screen_text`: after `terminal_clear` and `terminal_writestring`, the screen shows the text in
  which such a run is one newline, and the character after it a space (`shownText`).
* `screen_text_iff`: so it shows the text exactly when the last 25 lines of the two are the same.
-/

namespace Zer0S

open Lib

variable {t t' : Terminal} {p : Page Byte} {c : Byte}

/-! ## The loops over the screen -/

/-- A loop that fills cells with blanks. -/
theorem vga_fill (lo n : ℕ) (t : Terminal) (i : ℤ) :
    (forLoop (fun i => Terminal.setCell (i : ℤ) blank) lo n t).vga i =
      if (lo : ℤ) ≤ i ∧ i < lo + n then blank else t.vga i := by
  have h := forLoop_ind (f := fun i => Terminal.setCell (i : ℤ) blank)
    (fun m t' => ∀ i : ℤ, t'.vga i = if (lo : ℤ) ≤ i ∧ i < m then blank else t.vga i) lo n t ?_ ?_
  · simpa using h i
  · intro i
    rw [if_neg (by omega)]
  · intro m t' hm _ ih i
    show Function.update t'.vga (m : ℤ) blank i = _
    rw [Function.update_apply, ih]
    split_ifs <;> first | rfl | omega

/-- The loop that moves the rows up. -/
theorem vga_copy (n : ℕ) (t : Terminal) (i : ℤ) :
    (forLoop (fun i => Terminal.copyCell (i : ℤ)) 0 n t).vga i =
      if 0 ≤ i ∧ i < n then t.vga (i + 80) else t.vga i := by
  have h := forLoop_ind (f := fun i => Terminal.copyCell (i : ℤ))
    (fun m t' => ∀ i : ℤ, t'.vga i = if 0 ≤ i ∧ i < m then t.vga (i + 80) else t.vga i) 0 n t ?_ ?_
  · simpa using h i
  · intro i
    rw [if_neg (by omega)]
  · intro m t' _ _ ih i
    -- the cell that is read is ahead of the cells written so far
    have hread : t'.vga (m + 80) = t.vga (m + 80) := by rw [ih, if_neg (by omega)]
    show Function.update t'.vga (m : ℤ) (t'.vga (m + 80)) i = _
    rw [Function.update_apply, hread, ih]
    split_ifs with h1 <;> first | rfl | omega | rw [h1]

theorem vga_scroll (t : Terminal) {i : ℤ} (h0 : 0 ≤ i) (hi : i < 2000) :
    t.scroll.vga i = if i < 1920 then t.vga (i + 80) else blank := by
  have h1 : ((vgaHeight - 1) * vgaWidth).toNat = 1920 := rfl
  have h2 : vgaWidth.toNat = 80 := rfl
  unfold Terminal.scroll
  simp only [h1, h2]
  rw [vga_fill, vga_copy]
  push_cast
  split_ifs <;> first | rfl | omega

theorem vga_clear (t : Terminal) {i : ℤ} (h0 : 0 ≤ i) (hi : i < 2000) : (terminalClear t).vga i = blank := by
  have h1 : (vgaWidth * vgaHeight).toNat = 2000 := rfl
  unfold terminalClear
  rw [h1]
  dsimp only
  rw [vga_fill, if_pos ⟨by simpa using h0, by simpa using hi⟩]

/-! ## Pages on the screen -/

/-- The screen shows the last 25 lines of the page, and blanks elsewhere. -/
def Displays (t : Terminal) (p : Page Byte) : Prop :=
  ∀ r c : ℕ, r < 25 → c < 80 → t.vga (r * 80 + c) = (p.cell 25 r c).elim blank cellOf

/-- The cursor is at the end of the page. -/
structure AtEnd (t : Terminal) (p : Page Byte) : Prop where
  shows : Displays t p
  row : t.row = p.row 25
  col : t.col = p.line.length
  room : p.line.length < 80

/-- The cursor is below the screen, after a newline on the bottom row. -/
structure BelowEnd (t : Terminal) (p : Page Byte) : Prop where
  shows : Displays t p
  row : 25 ≤ t.row
  col : t.col = 0
  full : 24 ≤ p.above.length

theorem Displays.of_vga (h : Displays t p) (hv : t'.vga = t.vga) : Displays t' p := by
  intro r c hr hc
  rw [hv]
  exact h r c hr hc

/-- The screen after it was scrolled shows the page with a new line. -/
theorem Displays.scroll (h : Displays t p) (hf : 24 ≤ p.above.length) : Displays t.scroll p.newline := by
  intro r c hr hc
  rw [vga_scroll t (by omega) (by omega), Page.cell_newline_full (by omega) hr]
  by_cases hlast : r + 1 < 25
  · have := h (r + 1) c hlast hc
    rw [if_pos (by omega), if_pos hlast, ← this]
    congr 1
    push_cast
    ring
  · rw [if_neg (by omega), if_neg hlast]
    rfl

/-- A new line for which there is room shows nothing else. -/
theorem Displays.newLine (h : Displays t p) (hr : p.above.length < 24) : Displays t p.newline := by
  intro r c hr' hc
  rw [Page.cell_newline_room (by omega)]
  exact h r c hr' hc

/-- A character written to the cell under the cursor. -/
theorem Displays.putCell (h : Displays t p) (hrow : t.row = p.row 25) (hcol : t.col = p.line.length)
    (hroom : p.line.length < 80) (c : Byte) : Displays (t.putCell (cellOf c)) (p.char c) := by
  intro r c' hr hc
  have hrow25 : p.row 25 < 25 := by
    unfold Page.row Page.top
    omega
  rw [Page.cell_char p c (by norm_num)]
  show Function.update t.vga (t.row * vgaWidth + t.col) (cellOf c) (r * 80 + c') = _
  rw [Function.update_apply, hrow, hcol, vgaWidth]
  by_cases heq : r = p.row 25 ∧ c' = p.line.length
  · rw [if_pos heq, if_pos (by rw [heq.1, heq.2])]
    rfl
  · rw [if_neg heq, if_neg]
    · exact h r c' hr hc
    · intro hi
      exact heq (by omega)

/-! ## One character -/

/-- A newline above the bottom row. -/
theorem AtEnd.putNewline (h : AtEnd t p) (hr : p.above.length < 24) : AtEnd (terminalWritechar newline t) p.newline := by
  rw [writechar_newline]
  refine ⟨h.shows.newLine hr, ?_, rfl, by norm_num [Page.newline]⟩
  show t.row + 1 = (p.newline.row 25 : ℤ)
  rw [h.row, Page.row_eq p (by norm_num), Page.row_eq _ (by norm_num), Page.length_above_newline]
  omega

/-- A newline on the bottom row: nothing scrolls. -/
theorem AtEnd.below (h : AtEnd t p) (hf : 24 ≤ p.above.length) : BelowEnd (terminalWritechar newline t) p := by
  rw [writechar_newline]
  refine ⟨h.shows, ?_, rfl, hf⟩
  show 25 ≤ t.row + 1
  rw [h.row, Page.row_eq p (by norm_num)]
  omega

/-- A newline below the screen. -/
theorem BelowEnd.putNewline (h : BelowEnd t p) : BelowEnd (terminalWritechar newline t) p := by
  rw [writechar_newline]
  refine ⟨h.shows, ?_, rfl, h.full⟩
  have := h.row
  show 25 ≤ t.row + 1
  omega

/-- Below the bottom row the screen is scrolled. -/
theorem wrapRow_scroll (hr : 25 ≤ t.row) :
    (wrapRow t).vga = t.scroll.vga ∧ (wrapRow t).row = 24 ∧ (wrapRow t).col = t.col := by
  have hs := (scanned_scroll t).col
  unfold wrapRow vgaHeight
  rw [if_pos hr]
  dsimp only
  exact ⟨rfl, by norm_num, hs⟩

theorem wrapRow_room (hr : t.row < 25) : wrapRow t = t := by
  unfold wrapRow vgaHeight
  rw [if_neg (by omega)]

/-- The cursor moves to a new line, and the screen up if there is no room for it. -/
theorem Displays.wrapRow (h : Displays t p) (hrow : t.row = p.row 25 + 1) (hcol : t.col = 0) :
    AtEnd (wrapRow t) p.newline := by
  have hr := Page.row_eq p (h := 25) (by norm_num)
  have hr' := Page.row_eq p.newline (h := 25) (by norm_num)
  rw [Page.length_above_newline] at hr'
  have hroom : p.newline.line.length < 80 := by norm_num [Page.newline]
  by_cases hfull : 25 ≤ t.row
  · obtain ⟨hv, hrow', hcol'⟩ := wrapRow_scroll hfull
    refine ⟨(h.scroll (by omega)).of_vga hv, ?_, hcol'.trans hcol, hroom⟩
    rw [hrow']
    omega
  · rw [wrapRow_room (by omega)]
    exact ⟨h.newLine (by omega), by omega, hcol, hroom⟩

/-- **A character** at the end of the page. -/
theorem AtEnd.putChar (h : AtEnd t p) (hc : IsCell c) : AtEnd (terminalWritechar c t) (p.put 80 (some c)) := by
  have hrow := Page.row_eq p (h := 25) (by norm_num)
  have hcol := h.col
  have hroom := h.room
  have hput : Displays { t.putCell (cellOf c) with col := t.col + 1 } (p.char c) :=
    h.shows.putCell h.row h.col h.room c
  rw [terminalWritechar_cell hc, wrapCol, vgaWidth]
  by_cases hlast : p.line.length + 1 = 80
  · rw [Page.put, if_pos hlast, if_pos (by dsimp only; omega)]
    refine Displays.wrapRow (p := p.char c) hput ?_ rfl
    show t.row + 1 = (p.row 25 : ℤ) + 1
    rw [h.row]
  · rw [Page.put, if_neg hlast, if_neg (by dsimp only; omega), Zer0S.wrapRow, vgaHeight, if_neg]
    · refine ⟨hput, h.row, ?_, ?_⟩
      · rw [Page.length_line_char]
        show t.col + 1 = _
        rw [hcol]
        norm_cast
      · rw [Page.length_line_char]
        omega
    · have hr : t.row = (p.row 25 : ℤ) := h.row
      show ¬ (25 : ℤ) ≤ t.row
      omega

/-- **A character below the screen** is lost: the screen scrolls by one line, and its cell is blank. -/
theorem BelowEnd.putChar (h : BelowEnd t p) (hc : IsCell c) :
    AtEnd (terminalWritechar c t) (p.newline.char space) := by
  have hr := h.row
  have hcol := h.col
  have hf := h.full
  set u : Terminal := { t.putCell (cellOf c) with col := t.col + 1 } with hu
  -- the cell under the cursor is behind the screen
  have hput : Displays u p := by
    intro r c' hr' hc'
    show Function.update t.vga (t.row * vgaWidth + t.col) (cellOf c) (r * 80 + c') = _
    have hne : (r * 80 + c' : ℤ) ≠ t.row * vgaWidth + t.col := by
      rw [hcol, vgaWidth]
      omega
    rw [Function.update_of_ne hne]
    exact h.shows r c' hr' hc'
  have hwrap : wrapCol u = u := by
    rw [wrapCol, vgaWidth, if_neg]
    show ¬ (80 : ℤ) ≤ t.col + 1
    omega
  obtain ⟨hv, hrow', hcol'⟩ := wrapRow_scroll (t := u) hr
  rw [terminalWritechar_cell hc, ← hu, hwrap]
  have hrow := Page.row_eq (p.newline.char space) (h := 25) (by norm_num)
  have habove : (p.newline.char space).above.length = p.above.length + 1 := Page.length_above_newline p
  refine ⟨?_, by omega, ?_, by norm_num [Page.char, Page.newline]⟩
  · -- the first cell of the new line is blank, as a space is
    intro r c' hr' hc'
    have hcell := (hput.scroll hf).of_vga hv r c' hr' hc'
    rw [Page.cell_char p.newline space (by norm_num), hcell]
    split_ifs with heq
    · have hempty : p.newline.cell 25 r c' = none := by
        rw [Page.cell_newline_full (by omega) hr', if_neg]
        have := Page.row_eq p.newline (h := 25) (by norm_num)
        rw [Page.length_above_newline] at this
        omega
      rw [hempty]
      rfl
    · rfl
  · rw [hcol']
    show t.col + 1 = _
    rw [hcol]
    rfl

/-! ## Texts -/

/-- The bytes of a text: newlines, and printable ASCII characters. -/
def IsText (c : Byte) : Prop := c = newline ∨ 0x20 ≤ c ∧ c ≤ 0x7E

instance (c : Byte) : Decidable (IsText c) := inferInstanceAs (Decidable (_ ∨ _ ∧ _))

/-- A string as a text. -/
def toText (s : List Byte) : List (Option Byte) := s.map fun c => if c = newline then none else some c

/-- The text that the screen shows: a run of newlines on the bottom row is one newline, and the
character after it a space. `p` is the page so far, and `below` says that the text so far ends with
such a run. -/
def shownText (p : Page Byte) (below : Bool) : List (Option Byte) → List (Option Byte)
  | [] => []
  | none :: s =>
    if below ∨ 24 ≤ p.above.length then shownText p true s
    else none :: shownText p.newline false s
  | some c :: s =>
    if below then none :: some space :: shownText (p.newline.char space) false s
    else some c :: shownText (p.put 80 (some c)) false s

theorem isText_cases (h : IsText c) : c ≠ 0 ∧ (c = newline ∨ c ≠ newline ∧ IsCell c) := by
  have key : ∀ c : Byte, IsText c → c ≠ 0 ∧ (c = newline ∨ c ≠ newline ∧ c ≠ backspace) := by decide +kernel
  obtain ⟨h0, h | ⟨h1, h2⟩⟩ := key c h
  · exact ⟨h0, Or.inl h⟩
  · exact ⟨h0, Or.inr ⟨h1, h1, h2⟩⟩

/-- **Run.** What the screen shows when a text is written from the end of a page on. -/
theorem displays_writestring : ∀ (s : List Byte) (t : Terminal) (p : Page Byte), (∀ c ∈ s, IsText c) →
    (AtEnd t p → Displays (terminalWritestring s t) ((shownText p false (toText s)).foldl (Page.put 80) p)) ∧
      (BelowEnd t p → Displays (terminalWritestring s t) ((shownText p true (toText s)).foldl (Page.put 80) p)) := by
  intro s
  induction s with
  | nil => exact fun t p _ => ⟨fun h => h.shows, fun h => h.shows⟩
  | cons c s ih =>
    intro t p hs
    obtain ⟨h0, hc⟩ := isText_cases (hs c List.mem_cons_self)
    have ih := fun t p => ih t p fun d hd => hs d (List.mem_cons_of_mem _ hd)
    rw [terminalWritestring, if_neg h0, toText, List.map_cons, ← toText]
    rcases hc with rfl | ⟨hnl, hcell⟩
    · rw [if_pos rfl]
      constructor
      · intro h
        by_cases hfull : 24 ≤ p.above.length
        · rw [shownText, if_pos (Or.inr hfull)]
          exact (ih _ p).2 (h.below hfull)
        · rw [shownText, if_neg (by simpa using hfull), List.foldl_cons]
          exact (ih _ p.newline).1 (h.putNewline (not_le.1 hfull))
      · intro h
        rw [shownText, if_pos (Or.inl rfl)]
        exact (ih _ p).2 h.putNewline
    · rw [if_neg hnl]
      constructor
      · intro h
        rw [shownText, if_neg (by simp), List.foldl_cons]
        exact (ih _ _).1 (h.putChar hcell)
      · intro h
        rw [shownText, if_pos rfl, List.foldl_cons, List.foldl_cons]
        exact (ih _ _).1 (h.putChar hcell)

/-- The screen after `terminal_clear`. -/
theorem atEnd_cleared (vga : ℤ → BitVec 16) (row col : ℤ) : AtEnd (clearedScreen vga row col) Page.empty := by
  have hs := scanned_clear ⟨vga, row, col, []⟩
  refine ⟨?_, hs.row, hs.col, by norm_num [Page.empty]⟩
  intro r c hr hc
  have hcell : (Page.empty : Page Byte).cell 25 r c = none := by
    cases r with
    | zero => rfl
    | succ r => simp [Page.cell, Page.lines, Page.empty, Page.top]
  rw [hcell, clearedScreen, vga_clear _ (by omega) (by omega)]
  rfl

variable {vga : ℤ → BitVec 16} {row col : ℤ} {s : List Byte}

/-- **What the screen shows**: the text in which a run of newlines on the bottom row is one newline,
and the character after it a space. -/
theorem screen_text (vga : ℤ → BitVec 16) (row col : ℤ) (hs : ∀ c ∈ s, IsText c) :
    Displays (terminalWritestring s (clearedScreen vga row col))
      (Page.ofText 80 (shownText Page.empty false (toText s))) :=
  (displays_writestring s _ _ hs).1 (atEnd_cleared vga row col)

/-- The last 25 lines of the two pages are the same; where a line has ended, it reads as spaces. -/
def SameLastLines (p q : Page Byte) : Prop :=
  ∀ r c : ℕ, r < 25 → c < 80 → (p.cell 25 r c).getD space = (q.cell 25 r c).getD space

/-- A cell tells its character. -/
theorem cellOf_inj {a b : Byte} (h : cellOf a = cellOf b) : a = b := by
  have low : ∀ a : Byte, (cellOf a).setWidth 8 = a := by decide +kernel
  rw [← low a, h, low b]

theorem cellOf_getD (x : Option Byte) : x.elim blank cellOf = cellOf (x.getD space) := by
  cases x <;> rfl

theorem Displays.iff (h : Displays t p) (q : Page Byte) : Displays t q ↔ SameLastLines q p := by
  constructor
  · intro hq r c hr hc
    have h1 := h r c hr hc
    rw [hq r c hr hc, cellOf_getD, cellOf_getD] at h1
    exact cellOf_inj h1
  · intro hsame r c hr hc
    rw [h r c hr hc, cellOf_getD, cellOf_getD, hsame r c hr hc]

/-- Without a newline on the bottom row, the text is shown as it is. -/
theorem shownText_self : ∀ {s : List (Option Byte)} {p : Page Byte},
    (∀ pre post, s = pre ++ none :: post → (pre.foldl (Page.put 80) p).above.length < 24) →
    shownText p false s = s
  | [], _, _ => rfl
  | none :: s, p, h => by
    have h0 := h [] s rfl
    rw [List.foldl_nil] at h0
    rw [shownText, if_neg (by simpa using h0), shownText_self]
    rintro pre post rfl
    exact h (none :: pre) post rfl
  | some c :: s, p, h => by
    rw [shownText, if_neg (by simp), shownText_self]
    rintro pre post rfl
    exact h (some c :: pre) post rfl

/-- Each newline of the text comes before the bottom row is reached. -/
def NewlinesAbove (s : List Byte) : Prop :=
  ∀ pre post, toText s = pre ++ none :: post → (Page.ofText 80 pre).above.length < 24

/-- **Screen.** For every text, the screen shows its last 25 lines, and blanks elsewhere, exactly when
they are those of the text that is shown; so it does if no newline comes after the 24th line break. -/
theorem screen_text_iff (vga : ℤ → BitVec 16) (row col : ℤ) (hs : ∀ c ∈ s, IsText c) :
    (Displays (terminalWritestring s (clearedScreen vga row col)) (Page.ofText 80 (toText s)) ↔
      SameLastLines (Page.ofText 80 (toText s)) (Page.ofText 80 (shownText Page.empty false (toText s)))) ∧
    (NewlinesAbove s →
      Displays (terminalWritestring s (clearedScreen vga row col)) (Page.ofText 80 (toText s))) := by
  refine ⟨(screen_text vga row col hs).iff _, ?_⟩
  intro habove
  have hshown := screen_text vga row col hs
  rwa [shownText_self habove] at hshown

/-- A text that fills more than the screen, without newlines. -/
theorem screen_text_iff_wrapped : Displays
    (terminalWritestring (List.replicate 2001 0x41) (clearedScreen (fun _ => 0) 0 0))
    (Page.ofText 80 (toText (List.replicate 2001 0x41))) := by
  have hs : ∀ c ∈ List.replicate 2001 (0x41 : Byte), IsText c := by
    intro c hc
    rw [List.eq_of_mem_replicate hc]
    decide
  apply (screen_text_iff (fun _ => 0) 0 0 hs).2
  intro pre post h
  have hmem : none ∈ toText (List.replicate 2001 0x41) := by
    rw [h]
    exact List.mem_append_right _ List.mem_cons_self
  obtain ⟨c, hc, hnone⟩ := List.mem_map.1 hmem
  rw [List.eq_of_mem_replicate hc] at hnone
  cases hnone

/-- After 25 newlines, the character `A` is lost. -/
theorem newlines_lose_char : ¬ Displays
    (terminalWritestring (List.replicate 25 newline ++ [0x41]) (clearedScreen (fun _ => 0) 0 0))
    (Page.ofText 80 (toText (List.replicate 25 newline ++ [0x41]))) := by
  intro h
  have hsame := ((screen_text (fun _ => 0) 0 0 (by decide)).iff _).1 h 24 0 (by norm_num) (by norm_num)
  exact absurd hsame (by decide)

end Zer0S
