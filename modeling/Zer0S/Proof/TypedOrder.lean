import Zer0S.Proof.KeyPress

/-!
# The order of the characters in the line

While a dead key is pending, `keyboard_handler` puts every character but a lower-case letter into
the line at once. If the next lower-case letter takes no accent, the accent goes into the line
before that letter, but behind the characters that were typed in between.

* `typed_order_iff`: the characters of the line are in the order of their keys exactly when no letter
  shows an accent that another character has passed.
-/

namespace Zer0S

open Lib

variable {k k₀ : Keyboard} {tr tr₀ : List (Transition Keyboard Byte)} {e : Transition Keyboard Byte}

/-- A capital letter, a digit, a space or a sign is pressed while a dead key is pending. -/
def PassesAccent (e : Transition Keyboard Byte) : Prop :=
  IsPress e.label ∧ e.pre.deadKey = true ∧ isPrintable (charOf e) = true ∧ isLower (charOf e) = false

/-- A lower-case letter is pressed while a dead key is pending. -/
def EndsAccent (e : Transition Keyboard Byte) : Prop :=
  IsPress e.label ∧ e.pre.deadKey = true ∧ isLower (charOf e) = true

/-- A character has passed the accent that is pending. -/
def Passed (tr : List (Transition Keyboard Byte)) : Prop :=
  ∃ pre e post, tr = pre ++ e :: post ∧ PassesAccent e ∧ ∀ x ∈ post, ¬ EndsAccent x

/-- No letter shows an accent that another character has passed. -/
def OrderOk (tr : List (Transition Keyboard Byte)) : Prop :=
  ∀ pre e post, tr = pre ++ e :: post → IsPress e.label → ShowsAccent e.pre (charOf e) → ¬ Passed pre

/-- The characters of the line are in the order of the scancodes they come from. -/
def InOrder (o : Origins) : Prop := o.line.flatten.Pairwise (· < ·)

/-! ## One more scancode -/

theorem passed_snoc : Passed (tr ++ [e]) ↔ PassesAccent e ∨ Passed tr ∧ ¬ EndsAccent e := by
  constructor
  · rintro ⟨pre, x, post, h, hx, hpost⟩
    rcases snoc_split h with ⟨-, rfl, -⟩ | ⟨post, rfl, rfl⟩
    · exact Or.inl hx
    · rw [List.forall_mem_append] at hpost
      exact Or.inr ⟨⟨pre, x, post, rfl, hx, hpost.1⟩, hpost.2 e List.mem_cons_self⟩
  · rintro (he | ⟨⟨pre, x, post, rfl, hx, hpost⟩, he⟩)
    · exact ⟨tr, e, [], rfl, he, by simp⟩
    · refine ⟨pre, x, post ++ [e], by simp, hx, List.forall_mem_append.2 ⟨hpost, ?_⟩⟩
      exact List.forall_mem_singleton.2 he

theorem orderOk_snoc : OrderOk (tr ++ [e]) ↔
    OrderOk tr ∧ (IsPress e.label → ShowsAccent e.pre (charOf e) → ¬ Passed tr) := by
  constructor
  · refine fun h => ⟨?_, h tr e [] rfl⟩
    rintro pre x post rfl
    exact h pre x (post ++ [e]) (by simp)
  · rintro ⟨h, he⟩ pre x post hx
    rcases snoc_split hx with ⟨rfl, rfl, -⟩ | ⟨post, -, hx⟩
    · exact he
    · exact h pre x post hx

/-- The invariant: what is known about the line and about the pending accent, and that the order was
kept so far exactly when the condition was met. -/
structure OrderInv (tr : List (Transition Keyboard Byte)) (k : Keyboard) (o : Origins) : Prop where
  dead : k.deadKey = true → ∃ d, o.dead = some d ∧ d ∉ o.line.flatten ∧
    ((∃ i ∈ o.line.flatten, d < i) ↔ Passed tr)
  idle : k.deadKey = false → ¬ Passed tr
  order : InOrder o ↔ OrderOk tr

variable {o : Origins} {a : Byte}

/-- A scancode after which the line and the pending dead key are as before, and that is no press of a
lower-case letter, and of no printable character while a dead key is pending. -/
theorem OrderInv.idle_step (h : OrderInv tr k o) {s : Byte} {k' : Keyboard} (hpass : ¬ PassesAccent ⟨k, s, k'⟩)
    (hend : ¬ EndsAccent ⟨k, s, k'⟩) (hdead : k'.deadKey = k.deadKey) (hline : (o.step ⟨k, s, k'⟩).line = o.line) :
    OrderInv (tr ++ [⟨k, s, k'⟩]) k' (o.step ⟨k, s, k'⟩) := by
  have hpassed : Passed (tr ++ [⟨k, s, k'⟩]) ↔ Passed tr := by
    rw [passed_snoc]
    tauto
  have hsame : (o.step ⟨k, s, k'⟩).dead = o.dead := by
    rw [Origins.step]
    exact if_neg fun hd => by simp [hdead ▸ hd.2] at hd
  refine ⟨?_, ?_, ?_⟩
  · intro hd
    rw [hline, hsame, hpassed]
    exact h.dead (hdead ▸ hd)
  · intro hd
    rw [hpassed]
    exact h.idle (hdead ▸ hd)
  · rw [InOrder, hline, orderOk_snoc]
    refine ⟨fun ho => ⟨h.order.1 ho, fun hp hs => (hend ⟨hp, hs.1, hs.2.1⟩).elim⟩, fun ho => h.order.2 ho.1⟩

theorem step_line {s : Byte} {k' : Keyboard} (hp : IsPress s) :
    (o.step ⟨k, s, k'⟩).line = o.line ++ (pressStores s k).map (o.source ·.2) := if_pos hp

/-- A lower-case letter ends the pending dead key: it is no longer pending, and nothing passes it. -/
theorem passed_ended {s : Byte} {k' : Keyboard} (hl : isLower (keyChar k.shiftPressed s) = true) (hp : IsPress s)
    (hd : k.deadKey = true) : ¬ Passed (tr ++ [⟨k, s, k'⟩]) := by
  rw [passed_snoc]
  rintro (⟨-, -, -, hno⟩ | ⟨-, hno⟩)
  · exact absurd (hl.symm.trans hno) (by decide)
  · exact hno ⟨hp, hd, hl⟩

/-- A letter that composes: the line is as before. -/
theorem OrderInv.composes {s : Byte} {k' : Keyboard} (h : OrderInv tr k o) (hp : IsPress s)
    (hc : Composes k (keyChar k.shiftPressed s)) (hdead : k'.deadKey = false) (hst : pressStores s k = []) :
    OrderInv (tr ++ [⟨k, s, k'⟩]) k' (o.step ⟨k, s, k'⟩) := by
  have hline : (o.step ⟨k, s, k'⟩).line = o.line := by
    rw [step_line hp, hst, List.map_nil, List.append_nil]
  refine ⟨?_, fun _ => passed_ended hc.2.1 hp hc.1, ?_⟩
  · intro hd
    exact absurd (hdead.symm.trans hd) (by decide)
  · rw [InOrder, hline, orderOk_snoc]
    exact ⟨fun ho => ⟨h.order.1 ho, fun _ hs => (hc.2.2 hs.2.2).elim⟩, fun ho => h.order.2 ho.1⟩

section old

-- the numbers so far are those of earlier scancodes
variable (hold : (∀ i ∈ o.line.flatten, i < o.count) ∧ ∀ d, o.dead = some d → d < o.count)
include hold

/-- **A letter that shows the accent**: it stays in order if nothing has passed the accent. -/
theorem OrderInv.shows {s : Byte} {k' : Keyboard} {v : Byte} (h : OrderInv tr k o) (hp : IsPress s)
    (hs : ShowsAccent k (keyChar k.shiftPressed s)) (hdead : k'.deadKey = false)
    (hst : pressStores s k = [(k.deadChar, .dead), (v, .key)]) :
    OrderInv (tr ++ [⟨k, s, k'⟩]) k' (o.step ⟨k, s, k'⟩) := by
  obtain ⟨d, hod, hnot, hpast⟩ := h.dead hs.1
  have hline : (o.step ⟨k, s, k'⟩).line.flatten = o.line.flatten ++ [d, o.count] := by
    rw [step_line hp, hst]
    simp [Origins.source, hod]
  refine ⟨?_, fun _ => passed_ended hs.2.1 hp hs.1, ?_⟩
  · intro hd
    exact absurd (hdead.symm.trans hd) (by decide)
  · have hall : (∀ i ∈ o.line.flatten, i < d) ↔ ¬ Passed tr := by
      rw [← hpast, not_exists]
      refine forall_congr' fun i => ⟨fun hi hlt => absurd (hi hlt.1) (by omega), ?_⟩
      intro hi hm
      have hne : i ≠ d := fun e => hnot (e ▸ hm)
      exact lt_of_le_of_ne (not_lt.1 fun hlt => hi ⟨hm, hlt⟩) hne
    rw [InOrder, hline, orderOk_snoc, ← h.order, List.pairwise_append]
    simp only [List.mem_pair, forall_eq_or_imp, forall_eq, List.pairwise_cons, List.mem_singleton, List.not_mem_nil,
      false_implies, implies_true, List.Pairwise.nil, and_true]
    constructor
    · rintro ⟨ho, -, hlow⟩
      exact ⟨ho, fun _ _ => hall.1 fun i hi => (hlow i hi).1⟩
    · rintro ⟨ho, hok⟩
      exact ⟨ho, hold.2 d hod, fun i hi => ⟨hall.2 (hok hp hs) i hi, hold.1 i hi⟩⟩

/-- A dead key: no character of the line was typed after it. -/
theorem OrderInv.waits {s : Byte} {k' : Keyboard} (h : OrderInv tr k o) (hp : IsPress s)
    (hw : Waits k (keyChar k.shiftPressed s)) (hdead : k'.deadKey = true) (hst : pressStores s k = []) :
    OrderInv (tr ++ [⟨k, s, k'⟩]) k' (o.step ⟨k, s, k'⟩) := by
  have hline : (o.step ⟨k, s, k'⟩).line = o.line := by
    rw [step_line hp, hst, List.map_nil, List.append_nil]
  have hod : (o.step ⟨k, s, k'⟩).dead = some o.count := if_pos ⟨hw.1, hdead⟩
  have hpassed : ¬ Passed (tr ++ [⟨k, s, k'⟩]) := by
    rw [passed_snoc]
    rintro (⟨-, hd, -⟩ | ⟨hold, -⟩)
    · exact absurd (hw.1.symm.trans hd) (by decide)
    · exact h.idle hw.1 hold
  refine ⟨fun _ => ⟨o.count, hod, ?_, ?_⟩, fun _ => hpassed, ?_⟩
  · intro hi
    rw [hline] at hi
    exact absurd (hold.1 _ hi) (lt_irrefl _)
  · rw [hline]
    refine iff_of_false ?_ hpassed
    rintro ⟨i, hi, hlt⟩
    exact absurd (hold.1 i hi) (by omega)
  · rw [InOrder, hline, orderOk_snoc]
    refine ⟨fun ho => ⟨h.order.1 ho, ?_⟩, fun ho => h.order.2 ho.1⟩
    intro _ hs
    exact absurd (hw.1.symm.trans hs.1) (by decide)

/-- Any other character goes behind all others, and passes the accent if one is pending. -/
theorem OrderInv.plain {s : Byte} {k' : Keyboard} {v : Byte} (h : OrderInv tr k o) (hp : IsPress s)
    (hnot : ¬ (k.deadKey = true ∧ isLower (keyChar k.shiftPressed s) = true))
    (hprint : isPrintable (keyChar k.shiftPressed s) = true) (hdead : k'.deadKey = k.deadKey)
    (hst : pressStores s k = [(v, .key)]) : OrderInv (tr ++ [⟨k, s, k'⟩]) k' (o.step ⟨k, s, k'⟩) := by
  have hline : (o.step ⟨k, s, k'⟩).line.flatten = o.line.flatten ++ [o.count] := by
    rw [step_line hp, hst]
    simp [Origins.source]
  have hod : (o.step ⟨k, s, k'⟩).dead = o.dead := by
    rw [Origins.step]
    exact if_neg fun hd => by simp [hdead ▸ hd.2] at hd
  refine ⟨?_, ?_, ?_⟩
  · intro hd
    have hd : k.deadKey = true := hdead ▸ hd
    obtain ⟨d, h1, h3, -⟩ := h.dead hd
    have h2 := hold.2 d h1
    have hlower : isLower (keyChar k.shiftPressed s) = false := by simpa using fun hl => hnot ⟨hd, hl⟩
    have hpass : PassesAccent ⟨k, s, k'⟩ := ⟨hp, hd, hprint, hlower⟩
    rw [hod, hline]
    refine ⟨d, h1, ?_, iff_of_true ⟨o.count, by simp, h2⟩ (passed_snoc.2 (Or.inl hpass))⟩
    rw [List.mem_append, List.mem_singleton]
    rintro (hm | rfl)
    · exact h3 hm
    · exact lt_irrefl _ h2
  · intro hd
    have hd : k.deadKey = false := hdead ▸ hd
    rw [passed_snoc]
    rintro (⟨-, hd', -⟩ | ⟨hold, -⟩)
    · exact absurd (hd.symm.trans hd') (by decide)
    · exact h.idle hd hold
  · rw [InOrder, hline, orderOk_snoc, ← h.order, List.pairwise_append]
    simp only [List.mem_singleton, forall_eq, List.pairwise_singleton, true_and]
    exact ⟨fun ho => ⟨ho.1, fun _ hs => (hnot ⟨hs.1, hs.2.1⟩).elim⟩, fun ho => ⟨ho.1, hold.1⟩⟩

end old

/-- **Step.** A scancode of no editing key that does not fill the line. -/
theorem orderInv_step {s : Byte} {k' : Keyboard} (h : OrderInv tr k (origins k₀ tr)) (hinv : LineInv k)
    (hs : KeyStep k s k') (hedit : ¬ IsEdit s) (hroom : k'.cmdPos < 255) :
    OrderInv (tr ++ [⟨k, s, k'⟩]) k' (origins k₀ (tr ++ [⟨k, s, k'⟩])) := by
  have hold := origins_old k₀ tr
  rw [← origins_count k₀ tr] at hold
  rw [origins_snoc]
  rcases keyStep_cases hs hedit with ⟨hp, rfl⟩ | ⟨hp, hsame⟩
  · rcases press_effect hinv hroom rfl with ⟨hc, hd, hst⟩ | ⟨hsh, hd, v, -, hst⟩ | ⟨hw, hd, hst⟩ | ⟨hn, -, hd, hst⟩
    · exact h.composes hp hc hd hst
    · exact h.shows hold hp hsh hd hst
    · exact h.waits hold hp hw hd hst
    · rcases inserted_press hp k with ⟨hi, hprint⟩ | ⟨v, hi, hprint⟩
      · rw [hi, Option.toList_none, List.map_nil] at hst
        refine h.idle_step (fun hpass => absurd (hprint.symm.trans hpass.2.2.1) (by decide))
          (fun hend => hn ⟨hend.2.1, hend.2.2⟩) hd ?_
        rw [step_line hp, hst, List.map_nil, List.append_nil]
      · rw [hi] at hst
        exact h.plain hold hp hn hprint hd hst
  · exact h.idle_step (fun hpass => hp hpass.1) (fun hend => hp hend.1) hsame.deadKey (if_neg hp)

variable {c : Console}

/-- **Order of typing.** From an empty line without a pending dead key, scancodes of no editing keys
that do not fill the line put characters into it, each the character of the press it comes from. They are
in the order of their keys exactly when no letter shows an accent that another character has passed. -/
theorem typed_order_iff (hr₀ : Run KeyStep (Keyboard.boot c) tr₀ k₀) (h0 : k₀.cmdPos = 0)
    (hd : k₀.deadKey = false) (hr : Run KeyStep k₀ tr k) (ht : Typing tr) :
    Sourced k₀ tr k ∧ (InOrder (origins k₀ tr) ↔ OrderOk tr) := by
  have hinv₀ := (hr₀.invariant (lineInv_boot c) fun _ _ _ h hs => lineInv_step h hs).1
  refine ⟨sourced_run hinv₀ hr ht, ?_⟩
  have hstart : OrderInv [] k₀ (origins k₀ []) := by
    have hnil : (origins k₀ []).line = [] := by
      show List.replicate k₀.cmdPos.toNat [] = []
      rw [h0]
      rfl
    have hpassed : ¬ Passed [] := by rintro ⟨pre, x, post, hx, -⟩; simp at hx
    refine ⟨?_, fun _ => hpassed, ?_⟩
    · intro hd'
      exact absurd (hd.symm.trans hd') (by decide)
    · apply iff_of_true (by simp [InOrder, hnil])
      rintro pre x post hx
      simp at hx
  have hrun := hr.last_ind (P := fun tr k => Typing tr → OrderInv tr k (origins k₀ tr)) (fun _ => hstart)
    fun tr a s b hra ih hs hty => by
      have hlast := hty _ (List.mem_append_right _ List.mem_cons_self)
      have hinv := (hra.invariant hinv₀ fun _ _ _ h hs => lineInv_step h hs).1
      exact orderInv_step (ih fun e he => hty e (List.mem_append_left _ he)) hinv hs hlast.1 hlast.2
  exact (hrun ht).order

/-- The circumflex and `b`, which takes no accent. -/
theorem typed_order_shown : ∃ tr k, Run KeyStep (Keyboard.boot ⟨Kernel.boot (Memory.boot fun _ => 0), false⟩) tr k ∧
    tr.map Transition.label = [0x2C, 0x30] ∧ k.line = ascii "^b" ∧ OrderOk tr := by
  obtain ⟨tr, k, hr, hl, hk⟩ := exists_run_of_replay keyExec_step
    (P := fun tr k => decide (k.line = ascii "^b" ∧ (∀ e ∈ tr, ¬ IsEdit e.label ∧ e.post.cmdPos < 255) ∧
      (origins (Keyboard.boot ⟨Kernel.boot (Memory.boot fun _ => 0), false⟩) tr).line.flatten.Pairwise (· < ·)))
    (s := Keyboard.boot ⟨Kernel.boot (Memory.boot fun _ => 0), false⟩)
    (l := [0x2C, 0x30]) (by decide +kernel)
  obtain ⟨hline, hty, ho⟩ := of_decide_eq_true hk
  exact ⟨tr, k, hr, hl, hline, (typed_order_iff (.nil _) rfl rfl hr hty).2.1 ho⟩

/-- The circumflex, `1` and `b`: the line is `1^b`. -/
theorem accent_passed : ∃ tr k, Run KeyStep (Keyboard.boot ⟨Kernel.boot (Memory.boot fun _ => 0), false⟩) tr k ∧
    tr.map Transition.label = [0x2C, 0x02, 0x30] ∧ Typing tr ∧ k.line = ascii "1^b" ∧
    ¬ InOrder (origins (Keyboard.boot ⟨Kernel.boot (Memory.boot fun _ => 0), false⟩) tr) := by
  obtain ⟨tr, k, hr, hl, hk⟩ := exists_run_of_replay keyExec_step
    (P := fun tr k => decide (k.line = ascii "1^b" ∧ (∀ e ∈ tr, ¬ IsEdit e.label ∧ e.post.cmdPos < 255) ∧
      ¬ (origins (Keyboard.boot ⟨Kernel.boot (Memory.boot fun _ => 0), false⟩) tr).line.flatten.Pairwise (· < ·)))
    (s := Keyboard.boot ⟨Kernel.boot (Memory.boot fun _ => 0), false⟩)
    (l := [0x2C, 0x02, 0x30]) (by decide +kernel)
  obtain ⟨hline, hty, ho⟩ := of_decide_eq_true hk
  exact ⟨tr, k, hr, hl, hty, hline, ho⟩

end Zer0S
