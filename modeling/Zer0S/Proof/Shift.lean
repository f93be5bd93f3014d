import Zer0S.Proof.KeyPress

/-!
# The Shift keys

There are two Shift keys and one variable `shift_pressed`, which `keyboard_handler` sets to the
latest event of either key. When one of the keys is released while the other is held, the variable
says that none is.

* `shiftPressed_eq`: the variable is the latest event of the two keys.
* `shift_tracks_iff`: it tells whether a Shift key is held exactly when that event is no such release.
-/

namespace Zer0S

open Lib

variable {k k' k₀ : Keyboard} {key s : Byte} {l : List Byte} {tr : List (Transition Keyboard Byte)} {c : Console}

/-- An event of one of the two Shift keys. -/
def IsShift (scancode : Byte) : Prop := scancode &&& 0x7F = 0x2A ∨ scancode &&& 0x7F = 0x36

instance (scancode : Byte) : Decidable (IsShift scancode) := inferInstanceAs (Decidable (_ ∨ _))

/-- `shift_pressed` is set exactly when the latest event of the left or of the right Shift key is a press. -/
def ShiftTracks (k : Keyboard) (scancodes : List Byte) : Prop :=
  k.shiftPressed = true ↔ held 0x2A scancodes = true ∨ held 0x36 scancodes = true

/-- After these scancodes, the scancode releases one Shift key while the other is held. -/
def ReleasesOne (scancodes : List Byte) (scancode : Byte) : Prop :=
  scancode = 0xAA ∧ held 0x36 scancodes = true ∨ scancode = 0xB6 ∧ held 0x2A scancodes = true

instance (k : Keyboard) (l : List Byte) : Decidable (ShiftTracks k l) := inferInstanceAs (Decidable (_ ↔ _ ∨ _))

instance (l : List Byte) (s : Byte) : Decidable (ReleasesOne l s) := inferInstanceAs (Decidable (_ ∨ _))

/-- The latest event of the Shift keys is the release of one of them while the other was held. -/
def OneReleased (scancodes : List Byte) : Prop :=
  ∃ pre s post, scancodes = pre ++ s :: post ∧ ReleasesOne pre s ∧ ∀ x ∈ post, ¬ IsShift x

/-! ## The handler -/

theorem insertChar_shift (a : Byte) (k : Keyboard) : (insertChar a k).shiftPressed = k.shiftPressed := by
  unfold insertChar
  split_ifs <;> rfl

theorem pressKey_shift (key : Byte) (k : Keyboard) : (pressKey key k).shiftPressed = k.shiftPressed := by
  rcases pressKey_cases key k rfl with ⟨-, he⟩ | ⟨-, he⟩ | ⟨-, he⟩ | ⟨-, -, he⟩
  · rw [he]
  · rw [he, insertChar_shift, Keyboard.showAccent]
    split_ifs <;> rfl
  · rw [he]
  · rw [he, insertChar_shift]

theorem dropDeadKey_shift (k : Keyboard) : k.dropDeadKey.shiftPressed = k.shiftPressed := by
  unfold Keyboard.dropDeadKey
  split_ifs <;> rfl

/-- The handler leaves `shift_pressed` alone but for events of the two keys. -/
theorem handleScancode_noShift {P : Handled → Prop} (h : ¬ IsShift s) (k : Keyboard)
    (done : ∀ k', k'.shiftPressed = k.shiftPressed → P (.done k'))
    (enter : ∀ k', k'.shiftPressed = k.shiftPressed → P (.enter k')) : P (handleScancode s k) := by
  have hd := dropDeadKey_shift k
  unfold handleScancode
  -- the tests are taken in the order of the source
  apply iteInduction (fun hs => absurd hs h)
  intro _
  refine iteInduction (fun _ => done _ rfl) ?_
  intro _
  refine iteInduction (fun _ => done _ rfl) ?_
  intro _
  refine iteInduction (fun _ => done _ rfl) ?_
  intro _
  refine iteInduction (fun _ => done _ rfl) ?_
  intro _
  refine iteInduction (fun _ => done _ rfl) ?_
  intro _
  refine iteInduction (fun _ => enter _ hd) ?_
  intro _
  refine iteInduction (fun _ => iteInduction (fun _ => done _ hd) fun _ => done _ hd) ?_
  intro _
  refine iteInduction (fun _ => done _ ?_) fun _ => ?_
  · split_ifs <;> exact hd
  refine iteInduction (fun _ => done _ hd) ?_
  intro _
  exact iteInduction (fun _ => done _ (pressKey_shift _ k)) fun _ => done _ rfl

/-- **Step.** -/
theorem shift_step (hs : KeyStep k s k') :
    k'.shiftPressed = if IsShift s then decide (s &&& 0x80 = 0) else k.shiftPressed := by
  obtain ⟨-, rounds, cmd, args, hs⟩ := hs
  unfold keyboardHandler at hs
  by_cases h : IsShift s
  · have hh : handleScancode s k = .done { k with shiftPressed := s &&& 0x80 = 0 } := if_pos h
    rw [hh] at hs
    obtain rfl := Option.some.inj hs
    rw [if_pos h]
  · have hkey : (handleScancode s k).keyboard.shiftPressed = k.shiftPressed :=
      handleScancode_noShift (P := fun r => r.keyboard.shiftPressed = k.shiftPressed) h k (fun _ h1 => h1) fun _ h1 => h1
    rw [if_neg h]
    cases hh : handleScancode s k with
    | done k₁ =>
      rw [hh] at hs hkey
      obtain rfl := Option.some.inj hs
      exact hkey
    | enter k₁ =>
      rw [hh] at hs hkey
      obtain ⟨c, -, rfl⟩ := Option.map_eq_some_iff.1 hs
      split_ifs <;> exact hkey

/-! ## Sequences of scancodes -/

theorem filter_snoc {α : Type} (p : α → Bool) (l : List α) (x : α) :
    (l ++ [x]).filter p = if p x = true then l.filter p ++ [x] else l.filter p := by
  rw [List.filter_append, List.filter_cons, List.filter_nil]
  split_ifs
  · rfl
  · exact List.append_nil _

theorem held_snoc (key : Byte) (l : List Byte) (s : Byte) :
    held key (l ++ [s]) = if s &&& 0x7F = key then decide (s = key) else held key l := by
  unfold held
  rw [filter_snoc]
  simp only [decide_eq_true_eq]
  split_ifs
  · rw [List.getLast?_concat]
    simp only [Option.some.injEq]
  · rfl

/-- The latest event of the two keys is a press. -/
def latestShift (scancodes : List Byte) : Bool :=
  (scancodes.filter fun s => IsShift s).getLast?.any fun s => s &&& 0x80 = 0

theorem latestShift_snoc (l : List Byte) (s : Byte) :
    latestShift (l ++ [s]) = if IsShift s then decide (s &&& 0x80 = 0) else latestShift l := by
  unfold latestShift
  rw [filter_snoc]
  simp only [decide_eq_true_eq]
  split_ifs
  · rw [List.getLast?_concat]
    rfl
  · rfl

/-- **Run.** `shift_pressed` is the latest event of the two keys. -/
theorem shiftPressed_eq (hr : Run KeyStep (Keyboard.boot c) tr k) :
    k.shiftPressed = latestShift (tr.map Transition.label) := by
  apply hr.last_ind (P := fun tr k => k.shiftPressed = latestShift (tr.map Transition.label)) rfl
  intro tr a s b _ ih hs
  rw [List.map_append, List.map_singleton, latestShift_snoc, shift_step hs, ih]

theorem oneReleased_snoc : OneReleased (l ++ [s]) ↔ ReleasesOne l s ∨ OneReleased l ∧ ¬ IsShift s := by
  constructor
  · rintro ⟨pre, x, post, h, hx, hpost⟩
    rcases snoc_split h with ⟨rfl, rfl, -⟩ | ⟨post, rfl, rfl⟩
    · exact Or.inl hx
    · rw [List.forall_mem_append] at hpost
      exact Or.inr ⟨⟨pre, x, post, rfl, hx, hpost.1⟩, hpost.2 s List.mem_cons_self⟩
  · rintro (h | ⟨⟨pre, x, post, rfl, hx, hpost⟩, hs⟩)
    · exact ⟨l, s, [], rfl, h, by simp⟩
    · refine ⟨pre, x, post ++ [s], by simp, hx, List.forall_mem_append.2 ⟨hpost, ?_⟩⟩
      exact List.forall_mem_singleton.2 hs

/-- The events of the two keys, by their scancodes. -/
theorem isShift_cases : ∀ s : Byte, IsShift s → s = 0x2A ∨ s = 0x36 ∨ s = 0xAA ∨ s = 0xB6 := by decide +kernel

/-- **The latest event** says whether a Shift key is held, exactly when it is no release of one of them
while the other was held. -/
theorem latestShift_iff (l : List Byte) :
    (latestShift l = true ↔ held 0x2A l = true ∨ held 0x36 l = true) ↔ ¬ OneReleased l := by
  induction l using List.reverseRecOn with
  | nil =>
    apply iff_of_true (by decide)
    rintro ⟨pre, s, post, h, -⟩
    simp at h
  | append_singleton l s ih =>
    rw [oneReleased_snoc, latestShift_snoc, held_snoc, held_snoc]
    by_cases hs : IsShift s
    · rw [if_pos hs]
      simp only [hs, not_true_eq_false, and_false, or_false, ReleasesOne]
      rcases isShift_cases s hs with rfl | rfl | rfl | rfl
      · simp
      · simp
      · simp
      · simp
    · have h2A : ¬ s &&& 0x7F = 0x2A := fun h => hs (Or.inl h)
      have h36 : ¬ s &&& 0x7F = 0x36 := fun h => hs (Or.inr h)
      have hno : ¬ ReleasesOne l s := by
        rintro (⟨rfl, -⟩ | ⟨rfl, -⟩)
        · exact hs (by decide)
        · exact hs (by decide)
      rw [if_neg hs, if_neg h2A, if_neg h36, ih]
      simp [hs, hno]

/-- **Shift.** After any sequence of scancodes, `shift_pressed` tells whether a Shift key is held, exactly
when the latest event of the two keys is no release of one of them while the other was held; so it does
as long as no key is released like that. -/
theorem shift_tracks_iff (hr : Run KeyStep (Keyboard.boot c) tr k) :
    (ShiftTracks k (tr.map Transition.label) ↔ ¬ OneReleased (tr.map Transition.label)) ∧
      ((∀ pre s post, tr.map Transition.label = pre ++ s :: post → ¬ ReleasesOne pre s) →
        ShiftTracks k (tr.map Transition.label)) := by
  have hiff : ShiftTracks k (tr.map Transition.label) ↔ ¬ OneReleased (tr.map Transition.label) := by
    rw [ShiftTracks, shiftPressed_eq hr, latestShift_iff]
  refine ⟨hiff, fun hno => hiff.2 ?_⟩
  rintro ⟨pre, s, post, h, hrel, -⟩
  exact hno pre s post h hrel

/-- A capital letter, and then the right key. -/
theorem shift_tracks_four : ∃ tr k, Run KeyStep (Keyboard.boot ⟨Kernel.boot (Memory.boot fun _ => 0), false⟩) tr k ∧
    tr.map Transition.label = [0x2A, 0x1E, 0xAA, 0x36] ∧ k.shiftPressed = true ∧
    ¬ OneReleased (tr.map Transition.label) := by
  obtain ⟨tr, k, hr, hl, hk⟩ := exists_run_of_replay keyExec_step
    (P := fun tr k => decide (k.shiftPressed = true ∧ ShiftTracks k (tr.map Transition.label)))
    (s := Keyboard.boot ⟨Kernel.boot (Memory.boot fun _ => 0), false⟩)
    (l := [0x2A, 0x1E, 0xAA, 0x36]) (by decide +kernel)
  obtain ⟨hset, ht⟩ := of_decide_eq_true hk
  exact ⟨tr, k, hr, hl, hset, (shift_tracks_iff hr).1.1 ht⟩

/-- Both keys are pressed and the right one is released: the left one is held. -/
theorem left_shift_forgotten : ∃ tr k,
    Run KeyStep (Keyboard.boot ⟨Kernel.boot (Memory.boot fun _ => 0), false⟩) tr k ∧
    tr.map Transition.label = [0x2A, 0x36, 0xB6] ∧ k.shiftPressed = false ∧
    ¬ ShiftTracks k (tr.map Transition.label) := by
  obtain ⟨tr, k, hr, hl, hk⟩ := exists_run_of_replay keyExec_step
    (P := fun tr k => decide (k.shiftPressed = false ∧ ¬ ShiftTracks k (tr.map Transition.label)))
    (s := Keyboard.boot ⟨Kernel.boot (Memory.boot fun _ => 0), false⟩)
    (l := [0x2A, 0x36, 0xB6]) (by decide +kernel)
  obtain ⟨hclear, ht⟩ := of_decide_eq_true hk
  exact ⟨tr, k, hr, hl, hclear, ht⟩

end Zer0S
