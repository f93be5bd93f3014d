import Zer0S.Spec.Terminal

/-!
# Bounds of the screen accesses

`ScreenBounds t`: every access to `VGA_MEMORY` so far was inside the screen. A newline
moves the cursor down without the check that scrolls, so on the last row it leaves the
screen, and the next character is written there.

`screenBounds_iff`: from a cleared screen, all accesses are inside the screen exactly when
no newline written on the last row, or below it, is followed by a character for a cell,
with at most backspaces between the two.
-/

namespace Zer0S

open Lib

/-- The access is inside the 80 × 25 cells. -/
def VgaAccess.Ok : VgaAccess → Prop
  | .cell row col => 0 ≤ row ∧ row < 25 ∧ 0 ≤ col ∧ col < 80
  | .index i => 0 ≤ i ∧ i < 80 * 25

/-- The accesses so far are inside the screen, also as indices. -/
def ScreenBounds (t : Terminal) : Prop :=
  ∀ a ∈ t.accesses, a.Ok ∧ 0 ≤ a.toIndex ∧ a.toIndex < 80 * 25

/-- A character that is written to a cell. -/
def IsCell (c : Byte) : Prop := c ≠ newline ∧ c ≠ backspace

instance (c : Byte) : Decidable (IsCell c) := inferInstanceAs (Decidable (_ ∧ _))

/-- No newline at the bottom is followed by a character for a cell: in the sequence `es`
from `t`, where such a character follows a newline with only backspaces between, the
newline is written above the last row. -/
def NewlineOk (t : Terminal) (es : List ScreenEvent) : Prop :=
  ∀ pre bs c post, es = pre ++ .char newline :: bs ++ .char c :: post → (∀ b ∈ bs, b = .char backspace) →
    IsCell c → (pre.foldl screenStep t).row < 24

variable {t : Terminal} {c : Byte} {es : List ScreenEvent}

theorem VgaAccess.Ok.toIndex {a : VgaAccess} (h : a.Ok) : 0 ≤ a.toIndex ∧ a.toIndex < 80 * 25 := by
  cases a with
  | cell row col =>
    obtain ⟨h1, h2, h3, h4⟩ := h
    simp only [VgaAccess.toIndex, vgaWidth]
    omega
  | index i => exact h

/-! ## Loops over the screen -/

/-- The accesses so far are fine and the cursor is where it was. -/
structure Scanned (t t' : Terminal) : Prop where
  row : t'.row = t.row
  col : t'.col = t.col
  ok : (∀ a ∈ t.accesses, a.Ok) → ∀ a ∈ t'.accesses, a.Ok
  mono : t.accesses ⊆ t'.accesses

theorem Scanned.refl (t : Terminal) : Scanned t t := ⟨rfl, rfl, id, List.Subset.refl _⟩

theorem Scanned.trans {t' t'' : Terminal} (h : Scanned t t') (h' : Scanned t' t'') : Scanned t t'' :=
  ⟨h'.row.trans h.row, h'.col.trans h.col, h'.ok ∘ h.ok, fun _ ha => h'.mono (h.mono ha)⟩

/-- Moving the cursor before and after. -/
theorem Scanned.move {t' : Terminal} (h : Scanned t t') (r c : ℤ) :
    Scanned { t with row := r, col := c } { t' with row := r, col := c } :=
  ⟨rfl, rfl, h.ok, h.mono⟩

theorem scanned_setCell {i : ℕ} (h : i < 2000) (v : BitVec 16) : Scanned t (t.setCell i v) :=
  ⟨rfl, rfl, fun ht => List.forall_mem_cons.2 ⟨⟨by omega, by omega⟩, ht⟩, List.subset_cons_self _ _⟩

theorem scanned_copyCell {i : ℕ} (h : i < 1920) : Scanned t (t.copyCell i) := by
  refine ⟨rfl, rfl, ?_, fun a ha => List.mem_cons_of_mem _ (List.mem_cons_of_mem _ ha)⟩
  intro ht
  refine List.forall_mem_cons.2 ⟨⟨by omega, by omega⟩, List.forall_mem_cons.2 ⟨⟨?_, ?_⟩, ht⟩⟩
  · unfold vgaWidth; omega
  · unfold vgaWidth; omega

/-- A counted loop of such steps. -/
theorem scanned_forLoop {f : ℕ → Terminal → Terminal} {lo n : ℕ}
    (hf : ∀ i t, lo ≤ i → i < lo + n → Scanned t (f i t)) : Scanned t (forLoop f lo n t) :=
  forLoop_ind (fun _ t' => Scanned t t') lo n t (.refl t) fun i _ h1 h2 h => h.trans (hf i _ h1 h2)

theorem scanned_scroll (t : Terminal) : Scanned t t.scroll := by
  have h1 : ((vgaHeight - 1) * vgaWidth).toNat = 1920 := rfl
  have h2 : vgaWidth.toNat = 80 := rfl
  unfold Terminal.scroll
  simp only [h1, h2]
  exact (scanned_forLoop fun i t _ hi => scanned_copyCell (by omega)).trans
    (scanned_forLoop fun i t _ hi => scanned_setCell (by omega) _)

theorem scanned_clear (t : Terminal) : Scanned { t with row := 0, col := 0 } (terminalClear t) := by
  have h1 : (vgaWidth * vgaHeight).toNat = 2000 := rfl
  have h : Scanned t (forLoop (fun i => Terminal.setCell (i : ℤ) blank) 0 2000 t) :=
    scanned_forLoop fun i t _ hi => scanned_setCell (by omega) _
  unfold terminalClear
  rw [h1]
  exact h.move 0 0

/-! ## One event -/

/-- The end of a row: the cursor goes to the next one. -/
def wrapCol (t : Terminal) : Terminal :=
  if vgaWidth ≤ t.col then { t with col := 0, row := t.row + 1 } else t

/-- The end of the screen: the screen moves up. -/
def wrapRow (t : Terminal) : Terminal :=
  if vgaHeight ≤ t.row then { t.scroll with row := vgaHeight - 1 } else t

theorem terminalWritechar_cell (hc : IsCell c) (t : Terminal) :
    terminalWritechar c t = wrapRow (wrapCol { t.putCell (cellOf c) with col := t.col + 1 }) := by
  rw [terminalWritechar, if_neg hc.1, if_neg hc.2]
  rfl

theorem wrapCol_spec (t : Terminal) : (wrapCol t).accesses = t.accesses ∧
    (0 ≤ t.row → t.row < 25 → 0 ≤ t.col → t.col ≤ 80 →
      0 ≤ (wrapCol t).row ∧ (wrapCol t).row ≤ 25 ∧ 0 ≤ (wrapCol t).col ∧ (wrapCol t).col < 80) := by
  unfold wrapCol vgaWidth
  split_ifs with h
  · exact ⟨rfl, fun h1 h2 _ _ => by dsimp only; omega⟩
  · exact ⟨rfl, fun h1 h2 h3 h4 => by omega⟩

theorem wrapRow_spec (t : Terminal) : t.accesses ⊆ (wrapRow t).accesses ∧
    ((∀ a ∈ t.accesses, a.Ok) → ∀ a ∈ (wrapRow t).accesses, a.Ok) ∧ (wrapRow t).col = t.col ∧
    (0 ≤ t.row → t.row ≤ 25 → 0 ≤ (wrapRow t).row ∧ (wrapRow t).row < 25) := by
  have hs := scanned_scroll t
  unfold wrapRow vgaHeight
  split_ifs with h
  · dsimp only
    exact ⟨hs.mono, hs.ok, hs.col, fun _ _ => by norm_num⟩
  · exact ⟨List.Subset.refl _, id, rfl, fun h1 h2 => by omega⟩

/-- A character for a cell is written under the cursor, wherever that is. -/
theorem mem_accesses_cell (hc : IsCell c) (t : Terminal) :
    VgaAccess.cell t.row t.col :: t.accesses ⊆ (terminalWritechar c t).accesses := by
  rw [terminalWritechar_cell hc]
  have h := (wrapRow_spec (wrapCol { t.putCell (cellOf c) with col := t.col + 1 })).1
  rw [(wrapCol_spec _).1] at h
  exact h

/-- **A character for a cell**, with the cursor on the screen: the cursor stays there. -/
theorem writechar_cell (hc : IsCell c) (hok : (VgaAccess.cell t.row t.col).Ok)
    (ht : ∀ a ∈ t.accesses, a.Ok) :
    (∀ a ∈ (terminalWritechar c t).accesses, a.Ok) ∧
      (VgaAccess.cell (terminalWritechar c t).row (terminalWritechar c t).col).Ok := by
  -- the write comes first, then the end of the row, then the end of the screen
  obtain ⟨h1, h2, h3, h4⟩ := hok
  obtain ⟨a1, a2⟩ := wrapCol_spec { t.putCell (cellOf c) with col := t.col + 1 }
  obtain ⟨b1, b2, b3, b4⟩ := a2 h1 h2 (by dsimp only; omega) (by dsimp only; omega)
  obtain ⟨-, d2, d3, d4⟩ := wrapRow_spec (wrapCol { t.putCell (cellOf c) with col := t.col + 1 })
  rw [terminalWritechar_cell hc]
  refine ⟨d2 ?_, (d4 b1 b2).1, (d4 b1 b2).2, by rw [d3]; exact b3, by rw [d3]; exact b4⟩
  rw [a1]
  exact List.forall_mem_cons.2 ⟨⟨h1, h2, h3, h4⟩, ht⟩

theorem writechar_newline (t : Terminal) :
    terminalWritechar newline t = { t with col := 0, row := t.row + 1 } := by
  rw [terminalWritechar, if_pos rfl]

theorem writechar_backspace (t : Terminal) :
    terminalWritechar backspace t = if 0 < t.col then { t with col := t.col - 1 }.putCell blank else t := by
  rw [terminalWritechar, if_neg (by decide), if_pos rfl]

/-- The three kinds of characters. -/
theorem char_cases (c : Byte) : c = newline ∨ c = backspace ∨ IsCell c := by
  by_cases h1 : c = newline
  · exact Or.inl h1
  · by_cases h2 : c = backspace
    · exact Or.inr (Or.inl h2)
    · exact Or.inr (Or.inr ⟨h1, h2⟩)

/-- What an event leaves in the log stays there. -/
theorem screenStep_mono (t : Terminal) (e : ScreenEvent) : t.accesses ⊆ (screenStep t e).accesses := by
  cases e with
  | clear => exact (scanned_clear t).mono
  | char c =>
    rcases char_cases c with rfl | rfl | hc
    · rw [screenStep, writechar_newline]; exact List.Subset.refl _
    · rw [screenStep, writechar_backspace]
      split_ifs
      · exact List.subset_cons_self _ _
      · exact List.Subset.refl _
    · intro a ha
      exact mem_accesses_cell hc t (List.mem_cons_of_mem _ ha)

theorem foldl_mono (es : List ScreenEvent) (t : Terminal) :
    t.accesses ⊆ (es.foldl screenStep t).accesses := by
  induction es generalizing t with
  | nil => exact List.Subset.refl _
  | cons e es ih => exact fun a ha => ih _ (screenStep_mono t e ha)

/-! ## Sequences of events -/

/-- `es` ends with a newline written on the last row or below it, and backspaces. -/
def BelowScreen (t : Terminal) (es : List ScreenEvent) : Prop :=
  ∃ pre bs, es = pre ++ .char newline :: bs ∧ (∀ b ∈ bs, b = .char backspace) ∧
    24 ≤ (pre.foldl screenStep t).row

/-- Below the screen the cursor is at the start of a row, where a backspace does nothing. -/
theorem belowScreen_cursor (h : BelowScreen t es) :
    25 ≤ (es.foldl screenStep t).row ∧ (es.foldl screenStep t).col = 0 := by
  obtain ⟨pre, bs, rfl, hbs, hrow⟩ := h
  rw [List.foldl_append, List.foldl_cons, screenStep, writechar_newline]
  generalize hu : pre.foldl screenStep t = u at *
  have hstay : ∀ (bs : List ScreenEvent) (u : Terminal), (∀ b ∈ bs, b = .char backspace) → u.col = 0 →
      bs.foldl screenStep u = u := by
    intro bs
    induction bs with
    | nil => intro u _ _; rfl
    | cons b bs ih =>
      intro u hb hcol
      rw [List.forall_mem_cons] at hb
      rw [List.foldl_cons, hb.1, screenStep, writechar_backspace, if_neg (by omega)]
      exact ih u hb.2 hcol
  rw [hstay bs _ hbs rfl]
  exact ⟨by dsimp only; omega, rfl⟩

/-- The invariant of a sequence of events that meets the condition. -/
structure OnScreen (t : Terminal) (es : List ScreenEvent) : Prop where
  ok : ∀ a ∈ (es.foldl screenStep t).accesses, a.Ok
  cursor : (VgaAccess.cell (es.foldl screenStep t).row (es.foldl screenStep t).col).Ok ∨ BelowScreen t es

theorem NewlineOk.prefix {e : ScreenEvent} (h : NewlineOk t (es ++ [e])) : NewlineOk t es := by
  rintro pre bs c post rfl hbs hc
  exact h pre bs c (post ++ [e]) (by simp) hbs hc

/-- **Step.** One more event that meets the condition. -/
theorem onScreen_step {e : ScreenEvent} (h : OnScreen t es) (hok : NewlineOk t (es ++ [e])) :
    OnScreen t (es ++ [e]) := by
  have hstep : (es ++ [e]).foldl screenStep t = screenStep (es.foldl screenStep t) e := by simp
  obtain ⟨ha, hcur⟩ := h
  cases e with
  | clear =>
    have hs := scanned_clear (es.foldl screenStep t)
    refine ⟨by rw [hstep]; exact hs.ok ha, Or.inl ?_⟩
    rw [hstep, screenStep, hs.row, hs.col]
    norm_num [VgaAccess.Ok]
  | char c =>
    rcases char_cases c with rfl | rfl | hc
    · -- a newline on the last row leaves the screen, without an access
      rw [screenStep, writechar_newline] at hstep
      refine ⟨by rw [hstep]; exact ha, ?_⟩
      by_cases hrow : 24 ≤ (es.foldl screenStep t).row
      · exact Or.inr ⟨es, [], rfl, by simp, hrow⟩
      · left
        rcases hcur with hcur | hcur
        · rw [hstep]
          exact ⟨by have := hcur.1; dsimp only; omega, by dsimp only; omega, le_rfl, by norm_num⟩
        · exact absurd (belowScreen_cursor hcur).1 (by omega)
    · rw [screenStep, writechar_backspace] at hstep
      rcases hcur with hcur | hcur
      · obtain ⟨h1, h2, h3, h4⟩ := hcur
        by_cases hcol : 0 < (es.foldl screenStep t).col
        · rw [if_pos hcol] at hstep
          have hnew : (VgaAccess.cell (es.foldl screenStep t).row ((es.foldl screenStep t).col - 1)).Ok :=
            ⟨h1, h2, by omega, by omega⟩
          exact ⟨by rw [hstep]; exact List.forall_mem_cons.2 ⟨hnew, ha⟩, Or.inl (by rw [hstep]; exact hnew)⟩
        · rw [if_neg hcol] at hstep
          exact ⟨by rw [hstep]; exact ha, Or.inl (by rw [hstep]; exact ⟨h1, h2, h3, h4⟩)⟩
      · -- below the screen a backspace changes nothing
        have hcol := (belowScreen_cursor hcur).2
        rw [if_neg (by omega)] at hstep
        refine ⟨by rw [hstep]; exact ha, Or.inr ?_⟩
        obtain ⟨pre, bs, rfl, hbs, hrow⟩ := hcur
        refine ⟨pre, bs ++ [.char backspace], by simp, ?_, hrow⟩
        intro b hb
        rcases List.mem_append.1 hb with hb | hb
        · exact hbs b hb
        · exact List.mem_singleton.1 hb
    · rcases hcur with hcur | hcur
      · obtain ⟨h1, h2⟩ := writechar_cell hc hcur ha
        exact ⟨by rw [hstep]; exact h1, Or.inl (by rw [hstep]; exact h2)⟩
      · -- the condition rules out a character below the screen
        obtain ⟨pre, bs, rfl, hbs, hrow⟩ := hcur
        exact absurd (hok pre bs c [] (by simp) hbs hc) (by omega)

/-- **Run.** A sequence of events that meets the condition. -/
theorem onScreen_run (hstart : OnScreen t []) (h : NewlineOk t es) : OnScreen t es := by
  induction es using List.reverseRecOn with
  | nil => exact hstart
  | append_singleton es e ih => exact onScreen_step (ih h.prefix) h

/-- A sequence that does not meet the condition writes below the screen. -/
theorem newlineOk_of_bounds (h : ∀ a ∈ (es.foldl screenStep t).accesses, a.Ok) : NewlineOk t es := by
  rintro pre bs c post rfl hbs hc
  by_contra hrow
  have hcur := (belowScreen_cursor ⟨pre, bs, rfl, hbs, not_lt.1 hrow⟩).1
  rw [List.foldl_append, List.foldl_cons] at h
  generalize (pre ++ .char newline :: bs).foldl screenStep t = u at *
  have hmem := foldl_mono post _ (mem_accesses_cell hc u List.mem_cons_self)
  have := (h _ hmem).2.1
  omega

/-! ## Calls -/

theorem screenExec_events (t : Terminal) (op : ScreenOp) :
    screenExec t op = op.events.foldl screenStep t := by
  cases op with
  | writechar c => rfl
  | clear => rfl
  | writestring str =>
    induction str generalizing t with
    | nil => rfl
    | cons c str ih =>
      by_cases hc : c = 0
      · simp [screenExec, terminalWritestring, ScreenOp.events, hc]
      · have ht : (c :: str).takeWhile (· ≠ 0) = c :: str.takeWhile (· ≠ 0) :=
          List.takeWhile_cons_of_pos (by simpa using hc)
        rw [screenExec, terminalWritestring, if_neg hc, ScreenOp.events, ht, List.map_cons, List.foldl_cons]
        exact ih (terminalWritechar c t)

theorem screenRun_events (ops : List ScreenOp) (t : Terminal) :
    ops.foldl screenExec t = (ops.flatMap ScreenOp.events).foldl screenStep t := by
  induction ops generalizing t with
  | nil => rfl
  | cons op ops ih => rw [List.foldl_cons, ih, screenExec_events, List.flatMap_cons, List.foldl_append]

theorem onScreen_start (vga : ℤ → BitVec 16) (row col : ℤ) : OnScreen (clearedScreen vga row col) [] := by
  have hs := scanned_clear ⟨vga, row, col, []⟩
  refine ⟨hs.ok (by simp), Or.inl ?_⟩
  rw [List.foldl_nil, clearedScreen, hs.row, hs.col]
  norm_num [VgaAccess.Ok]

/-- **When all accesses are inside the screen**, for any calls from a cleared screen. -/
theorem screenBounds_iff (vga : ℤ → BitVec 16) (row col : ℤ) (ops : List ScreenOp) :
    ScreenBounds (ops.foldl screenExec (clearedScreen vga row col)) ↔
      NewlineOk (clearedScreen vga row col) (ops.flatMap ScreenOp.events) := by
  rw [screenRun_events]
  constructor
  · intro h
    exact newlineOk_of_bounds fun a ha => (h a ha).1
  · intro h a ha
    have := (onScreen_run (onScreen_start vga row col) h).ok a ha
    exact ⟨this, this.toIndex⟩

/-- After 25 newlines a character is written below the screen. -/
theorem newlines_leave_screen : ¬ ScreenBounds ([ScreenOp.writestring
    (List.replicate 25 newline ++ [0x41])].foldl screenExec (clearedScreen (fun _ => 0) 0 0)) := by
  rw [screenRun_events]
  intro h
  have hrow := newlineOk_of_bounds (fun a ha => (h a ha).1) (List.replicate 24 (.char newline)) [] 0x41 []
    rfl (by simp) ⟨by decide, by decide⟩
  exact absurd hrow (by decide +kernel)

end Zer0S
