import Zer0S.Proof.KeyPress

/-!
# Key presses that are lost

Two kinds of characters never get into the line, because `keyboard_handler` takes only ASCII: those
whose table entry is a constant of two bytes (`'ç'`, `'Ç'`, `'´'`, `'¨'`), and those that
`handle_dead_key` composes, so that the accent and the letter are lost together.

* `kept_step`: a press with a printable character that does not compose keeps what was pressed before.
* `presses_kept_iff`: no press of a run is lost exactly when all are such.
-/

namespace Zer0S

open Lib

variable {k k' k₀ : Keyboard} {tr tr₀ : List (Transition Keyboard Byte)} {s : Byte} {c : Console}

/-- The scancode has a character, or part of one, in the line, or is that of the pending dead key. -/
def Accounted (k₀ : Keyboard) (tr : List (Transition Keyboard Byte)) (k : Keyboard) (i : ℕ) : Prop :=
  i ∈ (origins k₀ tr).line.flatten ∨ k.deadKey = true ∧ (origins k₀ tr).dead = some i

/-- Every press of a key with a character is accounted for. -/
def NoneLost (k₀ : Keyboard) (tr : List (Transition Keyboard Byte)) (k : Keyboard) : Prop :=
  ∀ i e, tr[i]? = some e → IsPress e.label → charOf e ≠ 0 → Accounted k₀ tr k i

/-- The character is printable ASCII, and it does not compose with the pending accent. -/
def Keepable (e : Transition Keyboard Byte) : Prop := isPrintable (charOf e) = true ∧ ¬ Composes e.pre (charOf e)

instance (e : Transition Keyboard Byte) : Decidable (Keepable e) := inferInstanceAs (Decidable (_ ∧ _))

theorem press_line (hp : IsPress s) : (origins k₀ (tr ++ [⟨k, s, k'⟩])).line.flatten =
    (origins k₀ tr).line.flatten ++ ((pressStores s k).map ((origins k₀ tr).source ·.2)).flatten := by
  rw [origins_snoc, Origins.step]
  dsimp only
  rw [if_pos hp, List.flatten_append]

theorem press_dead : (origins k₀ (tr ++ [⟨k, s, k'⟩])).dead =
    if k.deadKey = false ∧ k'.deadKey = true then some tr.length else (origins k₀ tr).dead := by
  rw [origins_snoc, ← origins_count k₀ tr]
  rfl

/-- What is in the line stays there. -/
theorem mem_line_snoc {i : ℕ} (e : Transition Keyboard Byte) (hi : i ∈ (origins k₀ tr).line.flatten) :
    i ∈ (origins k₀ (tr ++ [e])).line.flatten := by
  rw [origins_snoc, Origins.step]
  dsimp only
  split_ifs
  · rw [List.flatten_append]
    exact List.mem_append_left _ hi
  · exact hi

/-- A pending dead key that is still pending is the same one. -/
theorem pending_stays {i : ℕ} (hd : k.deadKey = true) (hd' : k'.deadKey = true)
    (hi : (origins k₀ tr).dead = some i) : Accounted k₀ (tr ++ [⟨k, s, k'⟩]) k' i := by
  refine Or.inr ⟨hd', ?_⟩
  rw [press_dead, if_neg fun h => absurd (hd.symm.trans h.1) (by decide), hi]

section press

variable (hinv : LineInv k) (hp : IsPress s) (hroom : (pressKey s k).cmdPos < 255)
include hinv hp hroom

/-- **Old presses.** Only a letter that composes takes the pending dead key away. -/
theorem accounted_stays {i : ℕ} (hc : ¬ Composes k (charOf ⟨k, s, pressKey s k⟩)) (hi : Accounted k₀ tr k i) :
    Accounted k₀ (tr ++ [⟨k, s, pressKey s k⟩]) (pressKey s k) i := by
  rcases hi with hi | ⟨hd, hi⟩
  · exact Or.inl (mem_line_snoc _ hi)
  · rcases press_effect hinv hroom rfl with ⟨hc', -⟩ | ⟨-, -, v, -, hst⟩ | ⟨hw, -⟩ | ⟨-, -, hd', -⟩
    · exact absurd hc' hc
    · -- the accent goes into the line
      apply Or.inl
      rw [press_line hp, hst]
      simp [Origins.source, hi]
    · exact absurd (hd.symm.trans hw.1) (by decide)
    · exact pending_stays hd (hd'.trans hd) hi

/-- **The press itself** is accounted for if it can be kept. -/
theorem press_accounted (hk : Keepable ⟨k, s, pressKey s k⟩) :
    Accounted k₀ (tr ++ [⟨k, s, pressKey s k⟩]) (pressKey s k) tr.length := by
  rcases press_effect hinv hroom rfl with ⟨hc, -⟩ | ⟨-, -, v, -, hst⟩ | ⟨hw, hd, -⟩ | ⟨-, -, -, hst⟩
  · exact absurd hc hk.2
  · apply Or.inl
    rw [press_line hp, hst, ← origins_count k₀ tr]
    simp [Origins.source]
  · refine Or.inr ⟨hd, ?_⟩
    rw [press_dead, if_pos ⟨hw.1, hd⟩]
  · rcases inserted_press hp k with ⟨-, hno⟩ | ⟨v, hv, -⟩
    · exact absurd (hno.symm.trans hk.1) (by decide)
    · apply Or.inl
      rw [press_line hp, hst, hv, ← origins_count k₀ tr]
      simp [Origins.source]

/-- **A press that cannot be kept** leaves nothing in the line, and no dead key. -/
theorem press_lost (hk : ¬ Keepable ⟨k, s, pressKey s k⟩) :
    (origins k₀ (tr ++ [⟨k, s, pressKey s k⟩])).line = (origins k₀ tr).line ∧
      (origins k₀ (tr ++ [⟨k, s, pressKey s k⟩])).dead = (origins k₀ tr).dead := by
  have hline : pressStores s k = [] → (origins k₀ (tr ++ [⟨k, s, pressKey s k⟩])).line = (origins k₀ tr).line := by
    intro hst
    rw [origins_snoc, Origins.step]
    dsimp only
    rw [if_pos hp, hst, List.map_nil, List.append_nil]
  rcases press_effect hinv hroom rfl with ⟨-, hd, hst⟩ | ⟨hs, -⟩ | ⟨hw, -⟩ | ⟨hn, -, hd, hst⟩
  · refine ⟨hline hst, ?_⟩
    rw [press_dead, if_neg fun h => absurd (hd.symm.trans h.2) (by decide)]
  · exact absurd ⟨(isLower_ne _ hs.2.1).2.2, fun hc => hc.2.2 hs.2.2⟩ hk
  · exact absurd ⟨isAccent_printable _ hw.2, fun hc => absurd (hw.1.symm.trans hc.1) (by decide)⟩ hk
  · rcases inserted_press hp k with ⟨hv, -⟩ | ⟨-, -, hprint⟩
    · rw [hv, Option.toList_none, List.map_nil] at hst
      refine ⟨hline hst, ?_⟩
      rw [press_dead, if_neg fun h => absurd (h.1.symm.trans (hd.symm.trans h.2)) (by decide)]
    · exact absurd ⟨hprint, fun hc => hn ⟨hc.1, hc.2.1⟩⟩ hk

end press

/-- **Step.** Nothing is lost by a scancode that is no press of a key with a character, or one that
can be kept. -/
theorem kept_step (hinv : LineInv k) (hs : KeyStep k s k') (hedit : ¬ IsEdit s) (hroom : k'.cmdPos < 255)
    (h : NoneLost k₀ tr k) (hkeep : IsPress s → charOf ⟨k, s, k'⟩ ≠ 0 → Keepable ⟨k, s, k'⟩) :
    NoneLost k₀ (tr ++ [⟨k, s, k'⟩]) k' := by
  intro i e hi hpe hne
  rcases keyStep_cases hs hedit with ⟨hp, rfl⟩ | ⟨hp, hsame⟩
  · rcases lt_trichotomy i tr.length with hlt | rfl | hgt
    · rw [List.getElem?_append_left hlt] at hi
      refine accounted_stays hinv hp hroom ?_ (h i e hi hpe hne)
      intro hc
      exact (hkeep hp (isLower_ne _ hc.2.1).1).2 hc
    · rw [List.getElem?_concat_length] at hi
      obtain rfl := Option.some.inj hi
      exact press_accounted hinv hp hroom (hkeep hp hne)
    · rw [List.getElem?_eq_none (by simp; omega)] at hi
      cases hi
  · rcases lt_or_ge i tr.length with hlt | hge
    · rw [List.getElem?_append_left hlt] at hi
      rcases h i e hi hpe hne with hi | ⟨hd, hi⟩
      · exact Or.inl (mem_line_snoc _ hi)
      · exact pending_stays hd (hsame.deadKey.trans hd) hi
    · rw [List.getElem?_append_right hge] at hi
      obtain ⟨hlt, rfl⟩ := List.getElem?_eq_some_iff.1 hi
      simp only [List.getElem_singleton] at hpe
      exact absurd hpe hp

/-- **Lost presses stay lost.** -/
theorem lost_stays {i : ℕ} (e : Transition Keyboard Byte) (hlt : i < tr.length)
    (h : i ∉ (origins k₀ tr).line.flatten ∧ (origins k₀ tr).dead ≠ some i) :
    i ∉ (origins k₀ (tr ++ [e])).line.flatten ∧ (origins k₀ (tr ++ [e])).dead ≠ some i := by
  obtain ⟨h1, h2⟩ := origins_step (origins k₀ tr) e
  rw [origins_count] at h1 h2
  rw [origins_snoc]
  constructor
  · intro hi
    rcases h1 i hi with hi | hi | rfl
    · exact h.1 hi
    · exact h.2 hi
    · exact lt_irrefl _ hlt
  · intro hd
    rcases h2 i hd with hd | rfl
    · exact h.2 hd
    · exact lt_irrefl _ hlt

/-- **Run.** What a run loses, and what it keeps. -/
theorem kept_run (hinv₀ : LineInv k₀) (hr : Run KeyStep k₀ tr k) (ht : Typing tr) :
    ((∀ e ∈ tr, IsPress e.label → charOf e ≠ 0 → Keepable e) → NoneLost k₀ tr k) ∧
      ∀ i e, tr[i]? = some e → IsPress e.label → ¬ Keepable e →
        i ∉ (origins k₀ tr).line.flatten ∧ (origins k₀ tr).dead ≠ some i := by
  revert ht
  refine hr.last_ind (P := fun tr k => Typing tr →
    ((∀ e ∈ tr, IsPress e.label → charOf e ≠ 0 → Keepable e) → NoneLost k₀ tr k) ∧
      ∀ i e, tr[i]? = some e → IsPress e.label → ¬ Keepable e →
        i ∉ (origins k₀ tr).line.flatten ∧ (origins k₀ tr).dead ≠ some i) ?_ ?_
  · intro _
    exact ⟨fun _ i e hi => by simp at hi, fun i e hi => by simp at hi⟩
  · intro tr a s b hra ih hs ht
    obtain ⟨hedit, hroom⟩ := ht _ (List.mem_append_right _ List.mem_cons_self)
    obtain ⟨ih1, ih2⟩ := ih fun e he => ht e (List.mem_append_left _ he)
    have hinv := (hra.invariant hinv₀ fun _ _ _ h hs => lineInv_step h hs).1
    constructor
    · intro hkeep
      exact kept_step hinv hs hedit hroom (ih1 fun e he => hkeep e (List.mem_append_left _ he))
        (hkeep _ (List.mem_append_right _ List.mem_cons_self))
    · intro i e hi hpe hk
      rcases lt_or_ge i tr.length with hlt | hge
      · rw [List.getElem?_append_left hlt] at hi
        exact lost_stays _ hlt (ih2 i e hi hpe hk)
      · rw [List.getElem?_append_right hge] at hi
        obtain ⟨hi0, rfl⟩ := List.getElem?_eq_some_iff.1 hi
        rw [List.length_singleton] at hi0
        obtain rfl : i = tr.length := by omega
        simp only [List.getElem_singleton] at hpe hk
        -- the press that is lost is the last one
        obtain ⟨-, rfl⟩ := (keyStep_cases hs hedit).resolve_right fun h => h.1 hpe
        have hlost : (origins k₀ (tr ++ [⟨_, _, pressKey _ _⟩])).line = (origins k₀ tr).line ∧ _ :=
          press_lost hinv hpe hroom hk
        obtain ⟨hold, hold'⟩ := origins_old k₀ tr
        rw [hlost.1, hlost.2]
        exact ⟨fun hi => lt_irrefl _ (hold _ hi), fun hd => lt_irrefl _ (hold' _ hd)⟩

/-- **No press is lost**, in a run without editing keys that does not fill the line, exactly when every
press of a key with a character can be kept. Each byte that is new in the line is the character of the press
it comes from, and the pending dead key that of its own. -/
theorem presses_kept_iff (hr₀ : Run KeyStep (Keyboard.boot c) tr₀ k₀) (hr : Run KeyStep k₀ tr k) (ht : Typing tr) :
    Sourced k₀ tr k ∧ (NoneLost k₀ tr k ↔ ∀ e ∈ tr, IsPress e.label → charOf e ≠ 0 → Keepable e) := by
  have hinv₀ := (hr₀.invariant (lineInv_boot c) fun _ _ _ h hs => lineInv_step h hs).1
  obtain ⟨hkept, hlost⟩ := kept_run hinv₀ hr ht
  refine ⟨sourced_run hinv₀ hr ht, ?_, hkept⟩
  intro h e he hp hne
  by_contra hk
  obtain ⟨i, hi⟩ := List.mem_iff_getElem?.1 he
  obtain ⟨h1, h2⟩ := hlost i e hi hp hk
  rcases h i e hi hp hne with hmem | ⟨-, hd⟩
  · exact h1 hmem
  · exact h2 hd

/-- A capital letter, a circumflex with a letter that takes none, and a tilde. -/
theorem presses_kept_five : ∃ tr k, Run KeyStep (Keyboard.boot ⟨Kernel.boot (Memory.boot fun _ => 0), false⟩) tr k ∧
    tr.map Transition.label = [0x2A, 0x1E, 0xAA, 0x2C, 0x30, 0x29] ∧ k.line = ascii "A^b" ∧ k.deadKey = true ∧
    NoneLost (Keyboard.boot ⟨Kernel.boot (Memory.boot fun _ => 0), false⟩) tr k := by
  obtain ⟨tr, k, hr, hl, hk⟩ := exists_run_of_replay keyExec_step
    (P := fun tr k => decide (k.line = ascii "A^b" ∧ k.deadKey = true ∧
      (∀ e ∈ tr, ¬ IsEdit e.label ∧ e.post.cmdPos < 255) ∧
      ∀ e ∈ tr, IsPress e.label → charOf e ≠ 0 → Keepable e))
    (s := Keyboard.boot ⟨Kernel.boot (Memory.boot fun _ => 0), false⟩)
    (l := [0x2A, 0x1E, 0xAA, 0x2C, 0x30, 0x29]) (by decide +kernel)
  obtain ⟨hline, hdead, hty, hkeep⟩ := of_decide_eq_true hk
  exact ⟨tr, k, hr, hl, hline, hdead, (presses_kept_iff (.nil _) hr hty).2.2 hkeep⟩

/-- The cedilla, and the circumflex with `a`: the line is empty, and no dead key is pending. -/
theorem accents_lost : ∃ tr k, Run KeyStep (Keyboard.boot ⟨Kernel.boot (Memory.boot fun _ => 0), false⟩) tr k ∧
    tr.map Transition.label = [0x27, 0x2C, 0x1E] ∧ Typing tr ∧ k.line = [] ∧ k.deadKey = false ∧
    ¬ NoneLost (Keyboard.boot ⟨Kernel.boot (Memory.boot fun _ => 0), false⟩) tr k := by
  obtain ⟨tr, k, hr, hl, hk⟩ := exists_run_of_replay keyExec_step
    (P := fun tr k => decide (k.line = [] ∧ k.deadKey = false ∧
      (∀ e ∈ tr, ¬ IsEdit e.label ∧ e.post.cmdPos < 255) ∧
      (origins (Keyboard.boot ⟨Kernel.boot (Memory.boot fun _ => 0), false⟩) tr).line = [] ∧
      ∃ e ∈ tr, IsPress e.label ∧ charOf e ≠ 0))
    (s := Keyboard.boot ⟨Kernel.boot (Memory.boot fun _ => 0), false⟩)
    (l := [0x27, 0x2C, 0x1E]) (by decide +kernel)
  obtain ⟨hline, hdead, hty, ho, e, he, hp, hne⟩ := of_decide_eq_true hk
  refine ⟨tr, k, hr, hl, hty, hline, hdead, ?_⟩
  intro h
  obtain ⟨i, hi⟩ := List.mem_iff_getElem?.1 he
  rcases h i e hi hp hne with hmem | ⟨hd, -⟩
  · rw [ho] at hmem
    cases hmem
  · exact absurd (hdead.symm.trans hd) (by decide)

end Zer0S
