import Zer0S.Proof.KeyPress

/-!
# The echo of the line

`keyboard_handler` shows each character where it stores it, and erases it from the screen when it
removes it. Two characters are shown without a test whether there is room to store them: a tab, and
the accent of a dead key that is followed by a letter that takes none.

* `shown`: how the characters that were sent to the terminal read.
* `echo_matches_iff`: they read as the line exactly when neither of the two is typed at a full line.
-/

namespace Zer0S

open Lib

variable {k k' k₀ : Keyboard} {a c v scancode : Byte} {sent text : List Byte}

/-- The text that is shown when characters are sent to the terminal behind `text`: a backspace, a space
and a backspace erase its last character. -/
def shown : List Byte → List Byte → List Byte
  | text, c :: d :: e :: sent =>
    if c = backspace ∧ d = space ∧ e = backspace then shown text.dropLast sent
    else shown (text ++ [c]) (d :: e :: sent)
  | text, c :: sent => shown (text ++ [c]) sent
  | text, [] => text

/-- What was sent to the terminal one character at a time since the state `k₀` reads as the line. -/
def EchoMatches (k₀ k : Keyboard) : Prop :=
  ∃ sent, k.console = k₀.console.print (sent.map .char) ∧ shown [] sent = k.line

/-- Enter and Escape. -/
def EndsLine (scancode : Byte) : Prop := scancode = 0x1C ∨ scancode = 0x01

/-- If the line is full, the scancode is neither that of Tab, nor the press of a letter that shows the
pending accent. -/
def EchoOk (k : Keyboard) (scancode : Byte) : Prop :=
  ¬ (255 ≤ k.cmdPos ∧ (scancode = 0x0F ∨ IsPress scancode ∧ ShowsAccent k (keyChar k.shiftPressed scancode)))

/-! ## Characters that are shown and erased -/

/-- The characters sent are whole steps, and read as the text. -/
inductive Echo : List Byte → List Byte → Prop
  | nil : Echo [] []
  | char {sent text : List Byte} {c : Byte} : Echo sent text → c ≠ backspace → Echo (sent ++ [c]) (text ++ [c])
  | erase {sent text : List Byte} : Echo sent text → Echo (sent ++ [backspace, space, backspace]) text.dropLast

theorem shown_char (hc : c ≠ backspace) (text sent : List Byte) :
    shown text (c :: sent) = shown (text ++ [c]) sent := by
  match sent with
  | [] => rfl
  | [d] => rfl
  | d :: e :: sent => rw [shown, if_neg fun h => hc h.1]

theorem Echo.shown_append (h : Echo sent text) (tail : List Byte) : shown [] (sent ++ tail) = shown text tail := by
  induction h generalizing tail with
  | nil => rfl
  | char _ hc ih => rw [List.append_assoc, ih, List.singleton_append, shown_char hc]
  | erase _ ih =>
    rw [List.append_assoc, ih]
    exact if_pos ⟨rfl, rfl, rfl⟩

theorem Echo.shown_eq (h : Echo sent text) : shown [] sent = text := by
  have := h.shown_append []
  rwa [List.append_nil] at this

/-- What was sent since `k₀`, and how it reads. -/
def Sent (k₀ k : Keyboard) (text : List Byte) : Prop :=
  ∃ sent, k.console = k₀.console.print (sent.map .char) ∧ Echo sent text

theorem Sent.matches_iff (h : Sent k₀ k text) : EchoMatches k₀ k ↔ text = k.line := by
  obtain ⟨sent, hc, he⟩ := h
  constructor
  · rintro ⟨sent', hc', hs⟩
    have hmap := Console.print_inj (hc.symm.trans hc')
    obtain rfl := List.map_injective_iff.2 (fun _ _ h => by injection h) hmap
    exact he.shown_eq.symm.trans hs
  · intro ht
    exact ⟨sent, hc, he.shown_eq.trans ht⟩

theorem Sent.same (h : Sent k₀ k text) (hc : k'.console = k.console) : Sent k₀ k' text := by
  obtain ⟨sent, h1, h2⟩ := h
  exact ⟨sent, hc.trans h1, h2⟩

theorem Sent.echo (h : Sent k₀ k text) (hc : c ≠ backspace) : Sent k₀ (k.echo c) (text ++ [c]) := by
  obtain ⟨sent, h1, h2⟩ := h
  refine ⟨sent ++ [c], ?_, h2.char hc⟩
  show k.console.print [.char c] = _
  rw [h1, Console.print_print, List.map_append]
  rfl

theorem Sent.erase (h : Sent k₀ k text) :
    Sent k₀ (((k.echo backspace).echo space).echo backspace) text.dropLast := by
  obtain ⟨sent, h1, h2⟩ := h
  refine ⟨sent ++ [backspace, space, backspace], ?_, h2.erase⟩
  show ((k.console.print [.char backspace]).print [.char space]).print [.char backspace] = _
  rw [h1, Console.print_print, Console.print_print, Console.print_print, List.map_append]
  rfl

/-! ## One scancode -/

theorem line_pop (h0 : 0 < k.cmdPos) : ({ k with cmdPos := k.cmdPos - 1 } : Keyboard).line = k.line.dropLast := by
  obtain ⟨n, hn⟩ : ∃ n, k.cmdPos.toNat = n + 1 := ⟨(k.cmdPos - 1).toNat, by omega⟩
  have hn' : (k.cmdPos - 1).toNat = n := by omega
  show ((List.range (k.cmdPos - 1).toNat).map fun i : ℕ => k.cmdBuffer i) = _
  rw [Keyboard.line, hn, hn', List.range_succ, List.map_append, List.map_singleton, List.dropLast_concat]

/-- The line and the console of a keyboard are as before when its other fields change. -/
theorem line_dropDeadKey (k : Keyboard) : k.dropDeadKey.line = k.line ∧ k.dropDeadKey.console = k.console ∧
    k.dropDeadKey.cmdPos = k.cmdPos := by
  unfold Keyboard.dropDeadKey
  split_ifs <;> exact ⟨rfl, rfl, rfl⟩

theorem isAccent_ne : ∀ a : Byte, isAccent a = true → a ≠ backspace := by decide +kernel

theorem inserted_ne (h : inserted a k = some v) : v ≠ backspace := by
  have hprint : ∀ a : Byte, isPrintable a = true → a ≠ backspace := by decide +kernel
  have hupper : ∀ a : Byte, isLower a = true → a - 0x61 + 0x41 ≠ backspace := by decide +kernel
  unfold inserted at h
  split_ifs at h with hp hcaps ht
  · exact Option.some.inj h ▸ hupper a hcaps.2.2
  · exact Option.some.inj h ▸ hprint a hp.2
  · rw [← Option.some.inj h, ht]
    decide

/-- `insertChar` shows what it stores. -/
theorem Sent.insertChar (h : Sent k₀ k k.line) (h0 : 0 ≤ k.cmdPos) (a : Byte) :
    Sent k₀ (Zer0S.insertChar a k) (Zer0S.insertChar a k).line := by
  by_cases hroom : k.cmdPos < 255
  · rw [insertChar_eq hroom]
    cases hi : inserted a k with
    | none => exact h
    | some v =>
      show Sent k₀ ((k.push v).echo v) (k.push v).line
      rw [line_push h0]
      have hpush : Sent k₀ (k.push v) k.line := h.same rfl
      exact hpush.echo (inserted_ne hi)
  · rw [insertChar_full (not_lt.1 hroom)]
    exact h

/-- A character that is shown without a test: the line gets it only if there is room. -/
theorem Sent.showAccent (hinv : LineInv k) (h : Sent k₀ k k.line) (hd : k.deadKey = true) :
    Sent k₀ k.showAccent (k.line ++ [k.deadChar]) := by
  have h1 := h.echo (isAccent_ne _ (hinv.dead hd))
  unfold Keyboard.showAccent
  split_ifs
  · exact h1.same rfl
  · exact h1.same rfl

/-- **The press of a key** shows what it stores, and at a full line also the accent that it does not
store. -/
theorem Sent.press (hinv : LineInv k) (h : Sent k₀ k k.line) (key : Byte) :
    (¬ (255 ≤ k.cmdPos ∧ ShowsAccent k (keyChar k.shiftPressed key)) →
        Sent k₀ (pressKey key k) (pressKey key k).line) ∧
      (255 ≤ k.cmdPos → ShowsAccent k (keyChar k.shiftPressed key) →
        Sent k₀ (pressKey key k) ((pressKey key k).line ++ [k.deadChar])) := by
  have h0 := hinv.pos.1
  rcases pressKey_cases key k rfl with ⟨hc, he⟩ | ⟨hs, he⟩ | ⟨hw, he⟩ | ⟨hd, -, he⟩
  · exact ⟨fun _ => he ▸ h, fun _ hs => absurd hs.2.2 hc.2.2⟩
  · have h1 := h.showAccent hinv hs.1
    obtain ⟨hline, hpos⟩ := showAccent_effect h0
    rw [he]
    constructor
    · intro hroom
      have hroom : k.cmdPos < 255 := not_le.1 fun hfull => hroom ⟨hfull, hs⟩
      have hone : ∃ n, (255 - k.cmdPos).toNat = n + 1 := ⟨(254 - k.cmdPos).toNat, by omega⟩
      obtain ⟨n, hn⟩ := hone
      rw [hn, List.take_succ_cons, List.take_nil] at hline
      rw [← hline] at h1
      exact h1.insertChar (by rw [hpos, if_pos hroom]; omega) _
    · -- the line is full: the accent is shown and nothing is stored
      intro hfull _
      have hz : (255 - k.cmdPos).toNat = 0 := by omega
      rw [hz, List.take_zero, List.append_nil] at hline
      rw [insertChar_full (by rw [hpos, if_neg (by omega)]; exact hfull), hline]
      exact h1
  · exact ⟨fun _ => he ▸ h, fun _ hs => absurd (hw.1.symm.trans hs.1) (by decide)⟩
  · rw [he]
    exact ⟨fun _ => h.insertChar h0 _, fun _ hs => absurd ⟨hs.1, hs.2.1⟩ hd⟩

theorem handleScancode_backspace (k : Keyboard) : handleScancode 0x0E k =
    if 0 < k.dropDeadKey.cmdPos then
      .done ((({ k.dropDeadKey with cmdPos := k.dropDeadKey.cmdPos - 1 }.echo backspace).echo space).echo backspace)
    else .done k.dropDeadKey := rfl

/-- Backspace erases the character that it removes. -/
theorem Sent.backspace (h : Sent k₀ k k.line) (hs : KeyStep k 0x0E k') : Sent k₀ k' k'.line := by
  obtain ⟨hline, hcons, -⟩ := line_dropDeadKey k
  have hdrop : Sent k₀ k.dropDeadKey k.dropDeadKey.line := hline ▸ h.same hcons
  obtain ⟨-, rounds, cmd, args, hs⟩ := hs
  rw [keyboardHandler, handleScancode_backspace] at hs
  split_ifs at hs with h0
  · obtain rfl := Option.some.inj hs
    have hpop : Sent k₀ { k.dropDeadKey with cmdPos := k.dropDeadKey.cmdPos - 1 } k.dropDeadKey.line := hdrop.same rfl
    have herase := hpop.erase
    rwa [← line_pop h0] at herase
  · obtain rfl := Option.some.inj hs
    exact hdrop

/-- Tab is shown, and stored if there is room. -/
theorem Sent.tab (hinv : LineInv k) (h : Sent k₀ k k.line) (hs : KeyStep k 0x0F k') :
    (k.cmdPos < 255 → Sent k₀ k' k'.line) ∧ (255 ≤ k.cmdPos → Sent k₀ k' (k'.line ++ [0x09])) := by
  obtain ⟨hline, hcons, hpos⟩ := line_dropDeadKey k
  have htab : Sent k₀ (k.dropDeadKey.echo 0x09) (k.dropDeadKey.line ++ [0x09]) :=
    (hline ▸ h.same hcons : Sent k₀ k.dropDeadKey k.dropDeadKey.line).echo (by decide)
  have h0 := hinv.pos.1
  have hh : handleScancode 0x0F k = .done (if (k.dropDeadKey.echo 0x09).cmdPos < 255
      then (k.dropDeadKey.echo 0x09).push 0x09 else k.dropDeadKey.echo 0x09) := rfl
  have hposd : (k.dropDeadKey.echo 0x09).cmdPos = k.cmdPos := hpos
  obtain ⟨-, rounds, cmd, args, hs⟩ := hs
  rw [keyboardHandler, hh] at hs
  obtain rfl := Option.some.inj hs
  constructor
  · intro hroom
    rw [if_pos (by omega), line_push (by omega)]
    exact htab.same rfl
  · intro hfull
    rw [if_neg (by omega)]
    exact htab

/-- **Step.** A scancode that meets the condition keeps the echo and the line in step; one that does not
shows a character that is not stored. -/
theorem echo_step (hinv : LineInv k) (h : Sent k₀ k k.line) (hs : KeyStep k scancode k') (hend : ¬ EndsLine scancode) :
    (EchoOk k scancode → Sent k₀ k' k'.line) ∧
      (¬ EchoOk k scancode → ∃ v, Sent k₀ k' (k'.line ++ [v])) := by
  by_cases hedit : IsEdit scancode
  · rcases hedit with rfl | rfl | rfl | rfl
    · exact absurd (Or.inl rfl) hend
    · refine ⟨fun _ => h.backspace hs, ?_⟩
      intro hno
      have hnot : ¬ ((0x0E : Byte) = 0x0F ∨ IsPress 0x0E) := by decide
      exact absurd ((not_not.1 hno).2.imp_right And.left) hnot
    · obtain ⟨hgood, hbad⟩ := h.tab hinv hs
      refine ⟨fun hok => hgood (not_le.1 fun hfull => hok ⟨hfull, Or.inl rfl⟩), ?_⟩
      intro hno
      exact ⟨_, hbad (not_not.1 hno).1⟩
    · exact absurd (Or.inr rfl) hend
  · have htab : scancode ≠ 0x0F := fun e => hedit (Or.inr (Or.inr (Or.inl e)))
    rcases keyStep_cases hs hedit with ⟨hp, rfl⟩ | ⟨hp, hsame⟩
    · obtain ⟨hgood, hbad⟩ := h.press hinv scancode
      refine ⟨fun hok => hgood fun hb => hok ⟨hb.1, Or.inr ⟨hp, hb.2⟩⟩, ?_⟩
      intro hno
      obtain ⟨hfull, hb⟩ := not_not.1 hno
      exact ⟨_, hbad hfull (hb.resolve_left htab).2⟩
    · have hl : k'.line = k.line := by rw [Keyboard.line, Keyboard.line, hsame.cmdPos, hsame.cmdBuffer]
      refine ⟨fun _ => hl ▸ h.same hsame.console, ?_⟩
      intro hno
      exact absurd (not_not.1 hno).2 fun hb => hb.elim htab fun hb => hp hb.1

/-! ## The scancodes since the last Enter or Escape -/

variable {tr tr₀ : List (Transition Keyboard Byte)} {con : Console}

/-- **Run.** From an empty line on, the echo matches the line in every state exactly when every
scancode meets the condition. -/
theorem echo_run (hinv : LineInv k₀) (h0 : k₀.cmdPos = 0) (hr : Run KeyStep k₀ tr k)
    (hend : ∀ e ∈ tr, ¬ EndsLine e.label) :
    (∀ e ∈ tr, EchoMatches k₀ e.post) ↔ ∀ e ∈ tr, EchoOk e.pre e.label := by
  have hnil : k₀.line = [] := by
    rw [Keyboard.line, h0]
    rfl
  have hstart : Sent k₀ k₀ k₀.line := by
    rw [hnil]
    refine ⟨[], ?_, .nil⟩
    simp [Console.print, Kernel.print, Memory.print]
  refine (hr.restrict (C := fun _ i => ¬ EndsLine i) hend).always_iff (I := LineInv)
    (J := fun a => Sent k₀ a a.line) hinv hstart (fun _ _ _ h hs => lineInv_step h hs.1)
    (fun _ _ _ h hj hc hs => (echo_step h hj hs.1 hs.2).1 hc) (fun _ hj => hj.matches_iff.2 rfl) ?_
  intro a i b h hj hc hs hm
  obtain ⟨v, hsent⟩ := (echo_step h hj hs.1 hs.2).2 hc
  have := congrArg List.length (hsent.matches_iff.1 hm)
  rw [List.length_append, List.length_singleton] at this
  omega

/-- Enter and Escape empty the line, unless the shell reboots. -/
theorem endsLine_pos (hs : KeyStep k scancode k') (hend : EndsLine scancode) (hrun : k'.console.rebooting = false) :
    k'.cmdPos = 0 := by
  obtain ⟨-, rounds, cmd, args, hs⟩ := hs
  rcases hend with rfl | rfl
  · have hh : handleScancode 0x1C k = .enter ((k.dropDeadKey.echo newline).store k.dropDeadKey.cmdPos 0) := rfl
    rw [keyboardHandler, hh] at hs
    obtain ⟨c, -, rfl⟩ := Option.map_eq_some_iff.1 hs
    split_ifs at hrun ⊢ with hreb
    · exact absurd (hreb.symm.trans hrun) (by decide)
    · rfl
  · have hh : handleScancode 0x01 k = .done
        ({ (k.dropDeadKey.echo newline).print [.text "^C\nZer0S> "] with cmdPos := 0 }.store 0 0) := rfl
    rw [keyboardHandler, hh] at hs
    obtain rfl := Option.some.inj hs
    rfl

/-- **Echo.** Since the last Enter or Escape, or since the start, what was sent to the terminal reads as
the line in every state, exactly when neither Tab nor a letter that shows the pending accent is pressed
while the line is full. -/
theorem echo_matches_iff (hr₀ : Run KeyStep (Keyboard.boot con) tr₀ k₀)
    (hlast : ∀ e, tr₀.getLast? = some e → EndsLine e.label) (hr : Run KeyStep k₀ tr k)
    (hend : ∀ e ∈ tr, ¬ EndsLine e.label) :
    (∀ e ∈ tr, EchoMatches k₀ e.post) ↔ ∀ e ∈ tr, EchoOk e.pre e.label := by
  have hinv := (hr₀.invariant (lineInv_boot con) fun _ _ _ h hs => lineInv_step h hs).1
  cases hr with
  | nil => simp
  | @cons _ s _ i tr hs hr =>
    -- a scancode is delivered, so the system is not rebooting
    have h0 : k₀.cmdPos = 0 := by
      rcases List.eq_nil_or_concat tr₀ with rfl | ⟨pre, e, rfl⟩
      · cases hr₀
        rfl
      · rw [List.concat_eq_append] at hr₀ hlast
        obtain ⟨-, hse, hnil⟩ := hr₀.split
        cases hnil
        exact endsLine_pos hse (hlast e List.getLast?_concat) hs.1
    exact echo_run hinv h0 (.cons hs hr) hend

/-- A letter, Backspace, Tab, and a circumflex before `b`. -/
theorem echo_matches_five : ∃ tr k, Run KeyStep (Keyboard.boot ⟨Kernel.boot (Memory.boot fun _ => 0), false⟩) tr k ∧
    tr.map Transition.label = [0x1E, 0x0E, 0x0F, 0x2C, 0x30] ∧ k.line = ascii "\t^b" ∧
    ∀ e ∈ tr, EchoMatches (Keyboard.boot ⟨Kernel.boot (Memory.boot fun _ => 0), false⟩) e.post := by
  obtain ⟨tr, k, hr, hl, hk⟩ := exists_run_of_replay keyExec_step
    (P := fun tr k => decide (k.line = ascii "\t^b" ∧
      ∀ e ∈ tr, (e.label ≠ 0x1C ∧ e.label ≠ 0x01) ∧ e.pre.cmdPos < 255))
    (s := Keyboard.boot ⟨Kernel.boot (Memory.boot fun _ => 0), false⟩)
    (l := [0x1E, 0x0E, 0x0F, 0x2C, 0x30]) (by decide +kernel)
  obtain ⟨hline, hok⟩ := of_decide_eq_true hk
  refine ⟨tr, k, hr, hl, hline, (echo_matches_iff (.nil _) (fun e he => by cases he) hr ?_).2 ?_⟩
  · intro e he h
    exact h.elim (hok e he).1.1 (hok e he).1.2
  · intro e he h
    exact absurd h.1 (not_le.2 (hok e he).2)

/-- A tab at a full line is shown and not stored. -/
theorem tab_not_stored : ∃ tr k, Run KeyStep (Keyboard.boot ⟨Kernel.boot (Memory.boot fun _ => 0), false⟩) tr k ∧
    tr.map Transition.label = List.replicate 255 0x1E ++ [0x0F] ∧
    ¬ ∀ e ∈ tr, EchoMatches (Keyboard.boot ⟨Kernel.boot (Memory.boot fun _ => 0), false⟩) e.post := by
  obtain ⟨tr, k, hr, hl, hk⟩ := exists_run_of_replay keyExec_step
    (P := fun tr _ => decide ((∀ e ∈ tr, e.label ≠ 0x1C ∧ e.label ≠ 0x01) ∧
      ∃ e ∈ tr, 255 ≤ e.pre.cmdPos ∧ e.label = 0x0F))
    (s := Keyboard.boot ⟨Kernel.boot (Memory.boot fun _ => 0), false⟩)
    (l := List.replicate 255 0x1E ++ [0x0F]) (by decide +kernel)
  obtain ⟨hend, e, he, hfull, htab⟩ := of_decide_eq_true hk
  refine ⟨tr, k, hr, hl, ?_⟩
  intro h
  have hok := (echo_run (lineInv_boot _) rfl hr fun e he h => h.elim (hend e he).1 (hend e he).2).1 h
  exact hok e he ⟨hfull, Or.inl htab⟩

end Zer0S
