import Zer0S.Proof.Erase

/-!
# The attribute of the cells

A cell holds its character in the low byte and its attribute in the high byte, which
`terminal_writechar` or-s in. `char` is signed, and a byte from 0x80 on widens to a value whose high
byte is already 0xFF; the UTF-8 texts of the kernel contain such bytes.

* `attrByte_cellOf`: for which bytes the attribute is 0x0F.
* `uniformText_iff`: on a screen that was cleared, all cells always have it exactly when no other byte
  is written.
-/

namespace Zer0S

open Lib

variable {t : Terminal} {c : Byte} {es : List ScreenEvent} {vga : ℤ → BitVec 16} {row col : ℤ}

/-- The high byte of a cell. -/
def attrByte (v : BitVec 16) : Byte := v.extractLsb' 8 8

/-- The low byte of a cell. -/
def charByte (v : BitVec 16) : Byte := v.setWidth 8

/-- All cells of the screen have the attribute 0x0F. -/
def Uniform (t : Terminal) : Prop := ∀ i, 0 ≤ i → i < 2000 → attrByte (t.vga i) = 0x0F

/-- The cursor is at a cell of the screen. -/
def CursorOk (t : Terminal) : Prop := (VgaAccess.cell t.row t.col).Ok

/-- In the sequence `es` from `t`, all cells always have the attribute, and a cell that was just written
holds the byte. -/
structure UniformText (t : Terminal) (es : List ScreenEvent) : Prop where
  uniform : ∀ pre, pre <+: es → Uniform (pre.foldl screenStep t)
  fresh : ∀ pre c, pre ++ [.char c] <+: es → IsCell c →
    charByte ((terminalWritechar c (pre.foldl screenStep t)).vga
      (shownRow (pre.foldl screenStep t) * 80 + (pre.foldl screenStep t).col)) = c

/-! ## Cells -/

theorem attrByte_cellOf : ∀ c : Byte, attrByte (cellOf c) = 0x0F ↔ c < 0x80 := by decide +kernel

theorem charByte_cellOf : ∀ c : Byte, charByte (cellOf c) = c := by decide +kernel

theorem attrByte_blank : attrByte blank = 0x0F := by decide

theorem isCell_high : ∀ c : Byte, ¬ c < 0x80 → IsCell c := by decide +kernel

/-! ## One event -/

theorem Uniform.of_vga {t' : Terminal} (h : Uniform t) (hv : t'.vga = t.vga) : Uniform t' := by
  intro i h0 hi
  rw [hv]
  exact h i h0 hi

theorem Uniform.putCell (h : Uniform t) {v : BitVec 16} (hv : attrByte v = 0x0F) : Uniform (t.putCell v) := by
  intro i h0 hi
  show attrByte (Function.update t.vga _ v i) = 0x0F
  rw [Function.update_apply]
  split_ifs
  · exact hv
  · exact h i h0 hi

/-- The rows that move up keep their attribute, and the new one is blank. -/
theorem Uniform.scroll (h : Uniform t) : Uniform t.scroll := by
  intro i h0 hi
  rw [vga_scroll t h0 hi]
  split_ifs with hlast
  · exact h (i + 80) (by omega) (by omega)
  · exact attrByte_blank

theorem uniform_clear (t : Terminal) : Uniform (terminalClear t) := by
  intro i h0 hi
  rw [vga_clear t h0 hi]
  exact attrByte_blank

theorem Uniform.wrap (h : Uniform t) : Uniform (wrapRow (wrapCol t)) := by
  have hcol : Uniform (wrapCol t) := by
    unfold wrapCol
    split_ifs
    · exact h.of_vga rfl
    · exact h
  unfold wrapRow
  split_ifs
  · exact hcol.scroll.of_vga rfl
  · exact hcol

/-- **Step.** An event that writes no byte from 0x80 on. -/
theorem uniform_step {e : ScreenEvent} (h : Uniform t) (he : ∀ c, e = .char c → c < 0x80) :
    Uniform (screenStep t e) := by
  cases e with
  | clear => exact uniform_clear t
  | char c =>
    rcases char_cases c with rfl | rfl | hc
    · rw [screenStep, writechar_newline]
      exact h.of_vga rfl
    · rw [screenStep, writechar_backspace]
      split_ifs
      · exact Uniform.putCell (t := { t with col := t.col - 1 }) (h.of_vga rfl) attrByte_blank
      · exact h
    · have hput : Uniform (t.putCell (cellOf c)) := h.putCell ((attrByte_cellOf c).2 (he c rfl))
      rw [screenStep, terminalWritechar_cell hc]
      exact Uniform.wrap (hput.of_vga rfl)

/-! ## Sequences -/

/-- **Run.** Events that write no byte from 0x80 on. -/
theorem uniform_run (h : Uniform t) (hes : ∀ c, .char c ∈ es → c < 0x80) : Uniform (es.foldl screenStep t) := by
  induction es using List.reverseRecOn with
  | nil => exact h
  | append_singleton es e ih =>
    rw [List.foldl_append]
    apply uniform_step (ih fun c hc => hes c (List.mem_append_left _ hc))
    rintro c rfl
    exact hes c (List.mem_append_right _ List.mem_cons_self)

/-- A cell written with the cursor on the screen. -/
theorem vga_fresh (hc : IsCell c) (hok : CursorOk t) :
    (terminalWritechar c t).vga (shownRow t * 80 + t.col) = cellOf c ∧
      0 ≤ shownRow t * 80 + t.col ∧ shownRow t * 80 + t.col < 2000 := by
  obtain ⟨h1, h2, h3, h4⟩ := hok
  refine ⟨vga_shown hc h1 h2 h3 h4, ?_⟩
  unfold shownRow
  split_ifs with hend
  · omega
  · omega

/-- A byte from 0x80 on is in a cell of the screen right after it was written. -/
theorem UniformText.byte_lt {pre : List ScreenEvent} (h : UniformText t es) (hpre : pre ++ [.char c] <+: es)
    (hok : CursorOk (pre.foldl screenStep t)) : c < 0x80 := by
  by_contra hhigh
  obtain ⟨hv, h0, hi⟩ := vga_fresh (isCell_high c hhigh) hok
  have hu := h.uniform _ hpre _ h0 hi
  rw [List.foldl_append, List.foldl_cons, List.foldl_nil, screenStep, hv] at hu
  exact hhigh ((attrByte_cellOf c).1 hu)

/-- **Attribute.** After any calls from a cleared screen that keep the cursor on it, all cells have the
attribute in all states, and a written cell holds the byte, exactly when no byte from 0x80 on is
written. -/
theorem uniformText_iff (ops : List ScreenOp) (hon : ∀ pre, pre <+: ops.flatMap ScreenOp.events →
    CursorOk (pre.foldl screenStep (clearedScreen vga row col))) :
    UniformText (clearedScreen vga row col) (ops.flatMap ScreenOp.events) ↔
      ∀ c, .char c ∈ ops.flatMap ScreenOp.events → c < 0x80 := by
  have hshorter : ∀ pre c, pre ++ [.char c] <+: ops.flatMap ScreenOp.events →
      CursorOk (pre.foldl screenStep (clearedScreen vga row col)) := fun pre c hpre =>
    hon pre ((List.prefix_append _ _).trans hpre)
  constructor
  · intro h c hmem
    obtain ⟨pre, post, hes⟩ := List.append_of_mem hmem
    have hpre : pre ++ [.char c] <+: ops.flatMap ScreenOp.events := ⟨post, by rw [hes]; simp⟩
    exact h.byte_lt hpre (hshorter pre c hpre)
  · intro h
    constructor
    · intro pre hpre
      exact uniform_run (uniform_clear _) fun c hc => h c (hpre.subset hc)
    · intro pre c hpre hc
      rw [(vga_fresh hc (hshorter pre c hpre)).1]
      exact charByte_cellOf c

/-- A text of less than a row keeps the cursor in the first row. -/
theorem cursor_short (hes : ∀ e ∈ es, ∃ c, e = .char c ∧ IsCell c) (hlen : es.length < 80) :
    (es.foldl screenStep (clearedScreen vga row col)).row = 0 ∧
      (es.foldl screenStep (clearedScreen vga row col)).col = es.length := by
  induction es using List.reverseRecOn with
  | nil =>
    have hs := scanned_clear ⟨vga, row, col, []⟩
    exact ⟨hs.row, hs.col⟩
  | append_singleton es e ih =>
    rw [List.length_append, List.length_singleton] at hlen
    obtain ⟨hrow, hcol⟩ := ih (fun e he => hes e (List.mem_append_left _ he)) (by omega)
    obtain ⟨c, rfl, hc⟩ := hes e (List.mem_append_right _ List.mem_cons_self)
    rw [List.foldl_append, List.foldl_cons, List.foldl_nil, screenStep,
      writechar_inside hc (by omega) (by omega), List.length_append]
    exact ⟨hrow, by show Terminal.col _ + 1 = _; rw [hcol]; rfl⟩

/-- So it stays on the screen. -/
theorem cursorOk_writestring {str : List Byte} (hs : ∀ c ∈ str, IsCell c) (hlen : str.length < 80)
    (pre : List ScreenEvent) (hpre : pre <+: [ScreenOp.writestring str].flatMap ScreenOp.events) :
    CursorOk (pre.foldl screenStep (clearedScreen vga row col)) := by
  rw [List.flatMap_singleton, ScreenOp.events] at hpre
  have hcells : ∀ e ∈ pre, ∃ c, e = .char c ∧ IsCell c := by
    intro e he
    obtain ⟨c, hc, rfl⟩ := List.mem_map.1 (hpre.subset he)
    exact ⟨c, rfl, hs c ((List.takeWhile_prefix _).subset hc)⟩
  have hle := hpre.length_le
  rw [List.length_map] at hle
  have hshort : pre.length < 80 := by
    have := (List.takeWhile_prefix (l := str) (· ≠ 0)).length_le
    omega
  have hcur : (pre.foldl screenStep (clearedScreen vga row col)).row = 0 ∧
      (pre.foldl screenStep (clearedScreen vga row col)).col = pre.length := cursor_short hcells hshort
  exact ⟨by omega, by omega, by omega, by omega⟩

/-- `OK` on a cleared screen. -/
theorem uniformText_ok : UniformText (clearedScreen (fun _ => 0) 0 0)
    ([ScreenOp.writestring [0x4F, 0x4B]].flatMap ScreenOp.events) :=
  (uniformText_iff [.writestring [0x4F, 0x4B]] (cursorOk_writestring (by decide) (by decide))).2 (by decide)

/-- The two bytes of a `c` with a cedilla: the first cell has the attribute 0xFF. -/
theorem cedilla_attribute :
    (∀ pre, pre <+: [ScreenOp.writestring [0xC3, 0xA7]].flatMap ScreenOp.events →
      CursorOk (pre.foldl screenStep (clearedScreen (fun _ => 0) 0 0))) ∧
    ¬ UniformText (clearedScreen (fun _ => 0) 0 0)
      ([ScreenOp.writestring [0xC3, 0xA7]].flatMap ScreenOp.events) := by
  have hon : ∀ pre, pre <+: [ScreenOp.writestring [0xC3, 0xA7]].flatMap ScreenOp.events →
      CursorOk (pre.foldl screenStep (clearedScreen (fun _ => 0) 0 0)) :=
    cursorOk_writestring (by decide) (by decide)
  refine ⟨hon, ?_⟩
  intro h
  have hlow : (0xC3 : Byte) < 0x80 := h.byte_lt ⟨[.char 0xA7], rfl⟩ (hon [] List.nil_prefix)
  exact absurd hlow (by decide)

end Zer0S
