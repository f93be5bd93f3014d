import Zer0S.Proof.Echo
import Zer0S.Proof.InteractiveSession

/-!
# The keyboard is the line editor of a session

* `EditorShows`: the editor that a keyboard shows.
* `insertChar_shows`, `pressKey_shows`: characters and keys.
* `handleScancode_shows`: a scancode does what `Editor.scan` says.
-/

namespace Zer0S

open Lib

variable {k k' : Keyboard} {e e' : Editor} {a v : Byte}

/-- **A keyboard shows** an editor: its modifiers, its pending dead key and its line. -/
structure EditorShows (k : Keyboard) (e : Editor) : Prop where
  inv : LineInv k
  shift : k.shiftPressed = e.shift
  caps : k.capsLock = e.caps
  accent : e.accent = if k.deadKey then some k.deadChar else none
  line : k.line = e.line.toList

theorem editorShows_boot (c : Console) : EditorShows (Keyboard.boot c) .start :=
  ⟨lineInv_boot c, rfl, rfl, rfl, rfl⟩

/-- The line is full when `cmd_pos` is 255. -/
theorem EditorShows.full_iff (h : EditorShows k e) : e.line.Full ↔ ¬ k.cmdPos < 255 := by
  have hlen := congrArg List.length h.line
  have hpos := h.inv.pos
  rw [Keyboard.length_line] at hlen
  unfold Bounded.Full
  omega

theorem EditorShows.console (h : EditorShows k e) (c : Console) : EditorShows { k with console := c } e :=
  ⟨⟨h.inv.pos, h.inv.accesses, h.inv.dead, h.inv.chars⟩, h.shift, h.caps, h.accent, h.line⟩

theorem EditorShows.echo (h : EditorShows k e) (c : Byte) : EditorShows (k.echo c) e := h.console _

/-- The same line and the same modifiers. -/
theorem EditorShows.same (h : EditorShows k e) (hs : SameLine k k') :
    EditorShows k' { e with shift := k'.shiftPressed, caps := k'.capsLock } := by
  refine ⟨h.inv.same hs, rfl, rfl, ?_, ?_⟩
  · show e.accent = _
    rw [h.accent, hs.deadKey, hs.deadChar]
  · show _ = e.line.toList
    rw [← h.line]
    unfold Keyboard.line
    rw [hs.cmdPos, hs.cmdBuffer]

theorem EditorShows.push (h : EditorShows k e) (hroom : k.cmdPos < 255) (hv : Enterable v) :
    EditorShows (k.push v) { e with line := e.line.push v } := by
  have hfull : ¬ e.line.Full := fun hf => h.full_iff.1 hf hroom
  refine ⟨h.inv.push hroom hv, h.shift, h.caps, h.accent, ?_⟩
  rw [line_push h.inv.pos.1, h.line]
  exact (Bounded.toList_push hfull v).symm

/-- No accent waits any more. -/
theorem EditorShows.noAccent (h : EditorShows k e) :
    EditorShows { k with deadKey := false } { e with accent := none } := by
  have hdead : ¬ ({ k with deadKey := false } : Keyboard).deadKey = true := Bool.false_ne_true
  exact ⟨⟨h.inv.pos, h.inv.accesses, fun hd => absurd hd hdead, h.inv.chars⟩, h.shift, h.caps, rfl, h.line⟩

/-- The pending dead key is dropped. -/
theorem EditorShows.dropDeadKey (h : EditorShows k e) : EditorShows k.dropDeadKey { e with accent := none } := by
  unfold Keyboard.dropDeadKey
  split_ifs with hd
  · exact h.noAccent
  · refine ⟨h.inv, h.shift, h.caps, ?_, h.line⟩
    rw [if_neg hd]

/-- The line is cleared. -/
theorem EditorShows.clear (h : EditorShows k e) :
    EditorShows ({ k with cmdPos := 0 }.store 0 0) { e with line := .empty } :=
  ⟨h.inv.clear, h.shift, h.caps, h.accent, rfl⟩

/-! ## Characters -/

theorem console_print_nil (c : Console) : c.print [] = c := by
  simp [Console.print, Kernel.print, Memory.print]

theorem type_eq (h : EditorShows k e) (a : Byte) :
    e.type a = (inserted a k).elim (e, []) fun v =>
      if e.line.Full then (e, []) else ({ e with line := e.line.push v }, [.char v]) := by
  have htab : isLower 0x09 = false := by decide
  unfold Editor.type inserted
  rw [h.caps, h.shift]
  by_cases hp : isPrintable a = true
  · have h0 : a ≠ 0 ∧ isPrintable a = true := ⟨printable_ne a hp, hp⟩
    rw [if_pos (Or.inl hp), if_pos h0]
    rfl
  · by_cases ht : a = 0x09
    · have hno : ¬ (a ≠ 0 ∧ isPrintable a = true) := fun h => hp h.2
      rw [if_pos (Or.inr ht), if_neg hno, if_pos ht, ht, htab]
      simp only [Bool.false_eq_true, and_false, if_false, Option.elim_some]
    · rw [if_neg (not_or.2 ⟨hp, ht⟩), if_neg fun h => hp h.2, if_neg ht]
      rfl

theorem inserted_enterable (ha : a ≠ 0 → Enterable a) (h : inserted a k = some v) : Enterable v := by
  unfold inserted at h
  split_ifs at h with hp hcaps ht
  · obtain rfl := Option.some.inj h
    exact upper_enterable a hcaps.2.2
  · obtain rfl := Option.some.inj h
    exact ha hp.1
  · obtain rfl := Option.some.inj h
    rw [ht]
    decide

/-- **A character** that is typed. -/
theorem insertChar_shows (h : EditorShows k e) (ha : a ≠ 0 → Enterable a) :
    EditorShows (insertChar a k) (e.type a).1 ∧ (insertChar a k).console = k.console.print (e.type a).2 := by
  rw [type_eq h]
  by_cases hroom : k.cmdPos < 255
  · rw [insertChar_eq hroom]
    cases hins : inserted a k with
    | none => exact ⟨h, (console_print_nil _).symm⟩
    | some v =>
      have hfull : ¬ e.line.Full := fun hf => h.full_iff.1 hf hroom
      simp only [Option.elim_some, if_neg hfull]
      exact ⟨(h.push hroom (inserted_enterable ha hins)).echo v, rfl⟩
  · rw [insertChar_full (not_lt.1 hroom)]
    cases inserted a k with
    | none => exact ⟨h, (console_print_nil _).symm⟩
    | some v =>
      simp only [Option.elim_some, if_pos (h.full_iff.2 hroom)]
      exact ⟨h, (console_print_nil _).symm⟩

/-! ## Keys -/

/-- The accent is shown before its letter. -/
theorem showAccent_shows (h : EditorShows k e) (hd : k.deadKey = true) :
    EditorShows k.showAccent { e with accent := none, line := e.line.push k.deadChar } ∧
      k.showAccent.console = k.console.print [.char k.deadChar] := by
  have hacc := isAccent_enterable _ (h.inv.dead hd)
  unfold Keyboard.showAccent
  split_ifs with hroom
  · exact ⟨((h.echo k.deadChar).push hroom hacc).noAccent, rfl⟩
  · rw [Bounded.push_full (h.full_iff.2 hroom)]
    exact ⟨(h.echo k.deadChar).noAccent, rfl⟩

/-- **A key** that is pressed. -/
theorem pressKey_shows (h : EditorShows k e) (key : Byte) :
    EditorShows (pressKey key k) (e.press key).1 ∧ (pressKey key k).console = k.console.print (e.press key).2 := by
  obtain ⟨a, ha⟩ : ∃ a, a = keyChar k.shiftPressed key := ⟨_, rfl⟩
  have hent : a ≠ 0 → Enterable a := by
    rw [ha]
    exact keyChar_enterable k.shiftPressed key
  have hkey : keyChar e.shift key = a := by
    rw [ha, h.shift]
  unfold Editor.press
  rw [hkey]
  dsimp only
  rcases pressKey_cases key k ha with ⟨⟨hd, hlow, hcomp⟩, he⟩ | ⟨⟨hd, hlow, hcomp⟩, he⟩ | ⟨⟨hd, hacc⟩, he⟩ |
    ⟨hplain, hwait, he⟩
  · -- the accent and the letter make a character that is not printable
    have haccent : e.accent = some k.deadChar := by
      rw [h.accent, if_pos hd]
    rw [he, haccent]
    simp only [hlow, not_true_eq_false, if_false, if_pos hcomp]
    exact ⟨h.noAccent, (console_print_nil _).symm⟩
  · have haccent : e.accent = some k.deadChar := by
      rw [h.accent, if_pos hd]
    obtain ⟨hshow, hcon⟩ := showAccent_shows h hd
    obtain ⟨h1, h2⟩ := insertChar_shows hshow hent
    rw [he, haccent]
    simp only [hlow, hcomp, ne_eq, not_true_eq_false, if_false]
    refine ⟨h1, ?_⟩
    rw [h2, hcon, Console.print_print]
    rfl
  · have haccent : e.accent = none := by
      rw [h.accent, hd]
      rfl
    rw [he, haccent]
    simp only [hacc, if_true]
    exact ⟨⟨⟨h.inv.pos, h.inv.accesses, fun _ => hacc, h.inv.chars⟩, h.shift, h.caps, rfl, h.line⟩,
      (console_print_nil _).symm⟩
  · rw [he]
    have htype := insertChar_shows h hent
    cases hd : k.deadKey with
    | true =>
      have haccent : e.accent = some k.deadChar := by
        rw [h.accent, hd]
        rfl
      have hlow : ¬ isLower a = true := fun hl => hplain ⟨hd, hl⟩
      rw [haccent]
      simp only [hlow]
      exact htype
    | false =>
      have haccent : e.accent = none := by
        rw [h.accent, hd]
        rfl
      have hacc : ¬ isAccent a = true := fun hacc => hwait ⟨hd, hacc⟩
      rw [haccent]
      simp only [hacc]
      exact htype

/-! ## Scancodes -/

/-- What `keyboard_handler` has done is the reaction of the editor, up to the call of the shell. -/
def Reacts (k : Keyboard) (r : Handled) (x : Reaction) : Prop :=
  match r with
  | .done k' => x.submitted = none ∧ EditorShows k' x.editor ∧ k'.console = k.console.print x.shown
  | .enter k' => ∃ w, x.submitted = some w ∧ IsLine k'.input w ∧
      EditorShows ({ k' with cmdPos := 0 }.store 0 0) x.editor ∧ k'.console = k.console.print x.shown

/-- Nothing is shown or submitted. -/
theorem reacts_quiet (h : EditorShows k' e) (hc : k'.console = k.console) : Reacts k (.done k') ⟨e, [], none⟩ :=
  ⟨rfl, h, hc.trans (console_print_nil _).symm⟩

/-- Enter. -/
theorem reacts_enter (h : EditorShows k e) :
    Reacts k (.enter ((k.dropDeadKey.echo newline).store (k.dropDeadKey.echo newline).cmdPos 0))
      ⟨{ e with accent := none, line := .empty }, [.char newline], some e.line.toList⟩ := by
  obtain ⟨hline, hcon, hpos⟩ := line_dropDeadKey k
  have hd := h.dropDeadKey.echo newline
  have hinv := hd.inv.store le_rfl hd.inv.pos.2 0
  have hshow := hd.clear
  refine ⟨e.line.toList, rfl, ?_, ⟨hinv.clear, hshow.shift, hshow.caps, hshow.accent, rfl⟩, ?_⟩
  · have hl := hinv.isLine (Function.update_self ..)
    have hsame : ((k.dropDeadKey.echo newline).store (k.dropDeadKey.echo newline).cmdPos 0).line = e.line.toList := by
      rw [← h.line, ← hline]
      unfold Keyboard.line
      refine List.map_congr_left fun i hi => Function.update_of_ne ?_ ..
      have := List.mem_range.1 hi
      show (i : ℤ) ≠ k.dropDeadKey.cmdPos
      have hi' : i < k.dropDeadKey.cmdPos.toNat := this
      omega
    rwa [hsame] at hl
  · show k.dropDeadKey.console.print [.char newline] = _
    rw [hcon]

/-- Backspace. -/
theorem reacts_erase (h : EditorShows k e) :
    Reacts k (.done (if 0 < k.dropDeadKey.cmdPos then
        ((({ k.dropDeadKey with cmdPos := k.dropDeadKey.cmdPos - 1 }.echo backspace).echo space).echo backspace)
      else k.dropDeadKey))
      (if e.line.toList = [] then ⟨{ e with accent := none }, [], none⟩
      else ⟨{ e with accent := none, line := e.line.pop }, [.char backspace, .char space, .char backspace], none⟩) := by
  obtain ⟨hline, hcon, hpos⟩ := line_dropDeadKey k
  have hd := h.dropDeadKey
  have hlen := congrArg List.length hd.line
  have hp := hd.inv.pos
  rw [Keyboard.length_line] at hlen
  by_cases hnil : e.line.toList = []
  · have hzero : ¬ 0 < k.dropDeadKey.cmdPos := by
      have : e.line.toList.length = 0 := by rw [hnil]; rfl
      have hlen : k.dropDeadKey.cmdPos.toNat = e.line.toList.length := hlen
      omega
    rw [if_pos hnil, if_neg hzero]
    exact reacts_quiet hd hcon
  · have hsome : 0 < k.dropDeadKey.cmdPos := by
      have := List.length_pos_iff.2 hnil
      have hlen : k.dropDeadKey.cmdPos.toNat = e.line.toList.length := hlen
      omega
    rw [if_neg hnil, if_pos hsome]
    refine ⟨rfl, ?_, ?_⟩
    · refine EditorShows.console (k := { k.dropDeadKey with cmdPos := k.dropDeadKey.cmdPos - 1 }) ?_ _
      refine ⟨⟨?_, hd.inv.accesses, hd.inv.dead, ?_⟩, hd.shift, hd.caps, hd.accent, ?_⟩
      · show 0 ≤ k.dropDeadKey.cmdPos - 1 ∧ k.dropDeadKey.cmdPos - 1 ≤ 255
        omega
      · intro i h0 hi
        have hi : i < k.dropDeadKey.cmdPos - 1 := hi
        exact hd.inv.chars i h0 (by omega)
      · rw [line_pop hsome, hd.line]
        rfl
    · show ((k.dropDeadKey.console.print [.char backspace]).print [.char space]).print [.char backspace] = _
      rw [hcon, Console.print_print, Console.print_print]
      rfl

/-- Tab. -/
theorem reacts_tab (h : EditorShows k e) :
    Reacts k (.done (if (k.dropDeadKey.echo 0x09).cmdPos < 255 then (k.dropDeadKey.echo 0x09).push 0x09
        else k.dropDeadKey.echo 0x09))
      ⟨{ e with accent := none, line := e.line.push 0x09 }, [.char 0x09], none⟩ := by
  have hcon := (line_dropDeadKey k).2.1
  have hd := h.dropDeadKey.echo 0x09
  by_cases hroom : (k.dropDeadKey.echo 0x09).cmdPos < 255
  · rw [if_pos hroom]
    exact ⟨rfl, hd.push hroom (by decide), congrArg (Console.print · [.char 0x09]) hcon⟩
  · have hfull : e.line.Full := hd.full_iff.2 hroom
    rw [if_neg hroom, Bounded.push_full hfull]
    exact ⟨rfl, hd, congrArg (Console.print · [.char 0x09]) hcon⟩

/-- Escape. -/
theorem reacts_escape (h : EditorShows k e) :
    Reacts k (.done ({ (k.dropDeadKey.echo newline).print [.text "^C\nZer0S> "] with cmdPos := 0 }.store 0 0))
      ⟨{ e with accent := none, line := .empty }, [.char newline, .text "^C\nZer0S> "], none⟩ := by
  have hcon := (line_dropDeadKey k).2.1
  refine ⟨rfl, ((h.dropDeadKey.echo newline).console _).clear, ?_⟩
  show (k.dropDeadKey.console.print [.char newline]).print [.text "^C\nZer0S> "] = _
  rw [hcon, Console.print_print]
  rfl

/-- **A scancode.** -/
theorem handleScancode_shows (h : EditorShows k e) (scancode : Byte) :
    Reacts k (handleScancode scancode k) (e.scan scancode) := by
  have hquiet : ∀ k', SameLine k k' → k'.shiftPressed = k.shiftPressed → k'.capsLock = k.capsLock →
      Reacts k (.done k') ⟨e, [], none⟩ := by
    intro k' hs hshift hcaps
    have hsame := h.same hs
    rw [hshift, hcaps, h.shift, h.caps] at hsame
    exact reacts_quiet hsame hs.console
  unfold handleScancode Editor.scan
  generalize scancode &&& 0x7F = key
  dsimp only
  by_cases hshift : key = 0x2A ∨ key = 0x36
  · rw [if_pos hshift, if_pos hshift]
    exact reacts_quiet ⟨⟨h.inv.pos, h.inv.accesses, h.inv.dead, h.inv.chars⟩, rfl, h.caps, h.accent, h.line⟩ rfl
  rw [if_neg hshift, if_neg hshift]
  by_cases hctrl : key = 0x1D
  · rw [if_pos hctrl, if_pos (.inr (.inl hctrl))]
    exact hquiet _ ⟨rfl, rfl, rfl, rfl, rfl, rfl⟩ rfl rfl
  rw [if_neg hctrl]
  by_cases halt : key = 0x38
  · rw [if_pos halt, if_pos (.inr (.inr (.inl halt)))]
    exact hquiet _ ⟨rfl, rfl, rfl, rfl, rfl, rfl⟩ rfl rfl
  rw [if_neg halt]
  by_cases hp : scancode &&& 0x80 = 0
  case neg =>
    simp only [hp, and_false, if_false, not_false_eq_true, true_or, if_true]
    exact hquiet k ⟨rfl, rfl, rfl, rfl, rfl, rfl⟩ rfl rfl
  simp only [hp, and_true, not_true_eq_false, false_or, if_true]
  by_cases hcaps : key = 0x3A
  · rw [if_pos hcaps, if_neg (by rw [hcaps]; decide), if_pos hcaps]
    refine reacts_quiet ⟨⟨h.inv.pos, h.inv.accesses, h.inv.dead, h.inv.chars⟩, h.shift, ?_, h.accent, h.line⟩ rfl
    show (!k.capsLock) = !e.caps
    rw [h.caps]
  rw [if_neg hcaps, if_neg hcaps]
  by_cases hnum : key = 0x45
  · rw [if_pos hnum, if_pos (.inr (.inr (.inl hnum)))]
    exact hquiet _ ⟨rfl, rfl, rfl, rfl, rfl, rfl⟩ rfl rfl
  rw [if_neg hnum]
  by_cases hscroll : key = 0x46
  · rw [if_pos hscroll, if_pos (.inr (.inr (.inr hscroll)))]
    exact hquiet _ ⟨rfl, rfl, rfl, rfl, rfl, rfl⟩ rfl rfl
  have hplain : ¬ (key = 0x1D ∨ key = 0x38 ∨ key = 0x45 ∨ key = 0x46) := by
    simp only [not_or]
    exact ⟨hctrl, halt, hnum, hscroll⟩
  rw [if_neg hscroll, if_neg hplain]
  by_cases henter : key = 0x1C
  · rw [if_pos henter, if_pos henter]
    exact reacts_enter h
  rw [if_neg henter, if_neg henter]
  by_cases herase : key = 0x0E
  · rw [if_pos herase, if_pos herase]
    have := reacts_erase h
    rwa [apply_ite Handled.done] at this
  rw [if_neg herase, if_neg herase]
  by_cases htab : key = 0x0F
  · rw [if_pos htab, if_pos htab]
    exact reacts_tab h
  rw [if_neg htab, if_neg htab]
  by_cases hescape : key = 0x01
  · rw [if_pos hescape, if_pos hescape]
    exact reacts_escape h
  rw [if_neg hescape, if_neg hescape]
  obtain ⟨h1, h2⟩ := pressKey_shows h key
  exact ⟨rfl, h1, h2⟩

end Zer0S
