import Zer0S.Proof.KeyPress

/-!
# What can be typed

The keys of `x` and `z` are those of the acute accent and the circumflex on the ABNT2 keyboard, so
that `keyboard_handler` never puts these letters into the line. Every other lower-case letter has a
key that does.

* `typed_text`: from an empty line, with no modifier and no pending dead key, the keys of a text put
  it into the line, if each of its characters has a key that gives it (`Typeable`).
* `canEnter_iff`: a lower-case word can be entered exactly when it has neither letter.
-/

namespace Zer0S

open Lib

variable {k k' : Keyboard} {a : Byte} {u w : List Byte}

/-- Some sequence of scancodes makes `keyboard_handler` call `shell_handle_command` with the line `w`. -/
def CanEnter (k₀ : Keyboard) (w : List Byte) : Prop :=
  ∃ tr k scancode k', Run KeyStep k₀ tr k ∧ k.console.rebooting = false ∧
    handleScancode scancode k = .enter k' ∧ IsLine k'.input w

/-- **No run enters the two letters.** -/
theorem enterable_of_canEnter {c : Console} (h : CanEnter (Keyboard.boot c) w) : ∀ a ∈ w, Enterable a := by
  obtain ⟨tr, k, scancode, k', hr, -, he, hl⟩ := h
  have hinv := (hr.invariant (lineInv_boot c) fun _ _ _ h hs => lineInv_step h hs).1.handle scancode
  rw [he] at hinv
  have hinv : LineInv k' := hinv
  obtain rfl := hl.det (hinv.isLine (enter_nul he))
  intro a ha
  obtain ⟨i, hi, rfl⟩ := List.mem_map.1 ha
  have hi := List.mem_range.1 hi
  exact hinv.chars i (by omega) (by omega)

/-! ## Typing a text -/

/-- The key of a character in `scancode_normal`. -/
def keyOf (a : Byte) : Byte := BitVec.ofNat 8 (scancodeNormal.idxOf a)

/-- The key is no modifier, lock or editing key, and gives the letter. -/
structure PlainKey (key a : Byte) : Prop where
  press : key &&& 0x7F = key ∧ key &&& 0x80 = 0
  plain : key ∉ [(0x2A : Byte), 0x36, 0x1D, 0x38, 0x3A, 0x45, 0x46, 0x1C, 0x0E, 0x0F, 0x01]
  char : keyChar false key = a

theorem PlainKey.isPress {key : Byte} (h : PlainKey key a) : IsPress key := ⟨h.press.2, h.plain⟩

/-- The character goes into the line as it is. -/
structure Typeable (a : Byte) : Prop where
  key : PlainKey (keyOf a) a
  printable : isPrintable a = true
  accent : isAccent a = false

/-- The same as a test. -/
theorem typeable_iff : Typeable a ↔ ((keyOf a &&& 0x7F = keyOf a ∧ keyOf a &&& 0x80 = 0) ∧
    keyOf a ∉ [(0x2A : Byte), 0x36, 0x1D, 0x38, 0x3A, 0x45, 0x46, 0x1C, 0x0E, 0x0F, 0x01] ∧
      keyChar false (keyOf a) = a) ∧ isPrintable a = true ∧ isAccent a = false :=
  ⟨fun h => ⟨⟨h.key.press, h.key.plain, h.key.char⟩, h.printable, h.accent⟩,
    fun h => ⟨⟨h.1.1, h.1.2.1, h.1.2.2⟩, h.2.1, h.2.2⟩⟩

instance (a : Byte) : Decidable (Typeable a) := decidable_of_iff' _ typeable_iff

theorem typeable_lower : ∀ a : Byte, isLower a = true → Enterable a → Typeable a := by decide +kernel

theorem printable_ne : ∀ a : Byte, isPrintable a = true → a ≠ 0 := by decide +kernel

theorem Typeable.enterable (h : Typeable a) : Enterable a := by
  have hkey := keyChar_enterable false (keyOf a)
  rw [h.key.char] at hkey
  exact hkey (printable_ne a h.printable)

/-- The line is `u`, no modifier is on, and no dead key is pending. -/
structure Typed (k : Keyboard) (u : List Byte) : Prop where
  shift : k.shiftPressed = false
  caps : k.capsLock = false
  dead : k.deadKey = false
  running : k.console.rebooting = false
  pos : k.cmdPos = u.length
  chars : ∀ i (hi : i < u.length), k.cmdBuffer i = u[i]

theorem typed_boot {c : Console} (hc : c.rebooting = false) : Typed (Keyboard.boot c) [] :=
  ⟨rfl, rfl, rfl, hc, rfl, fun i hi => absurd hi (Nat.not_lt_zero i)⟩

theorem pressKey_typed (h : Typed k u) (hlen : u.length < 255) (ha : Typeable a) :
    pressKey (keyOf a) k = (k.push a).echo a := by
  have h0 : a ≠ 0 := ha.enterable.1
  have hroom : k.cmdPos < 255 := by
    rw [h.pos]
    exact_mod_cast hlen
  have hcomb : combineDeadKey a k = (a, k) := by simp [combineDeadKey, h.dead]
  unfold pressKey
  rw [h.shift, ha.key.char, hcomb]
  simp only [h.dead, ha.accent, Bool.false_eq_true, not_false_eq_true, and_false, if_false]
  rw [insertChar, if_pos ⟨h0, ha.printable⟩]
  simp only [h.caps, Bool.false_eq_true, false_and, if_false, if_pos hroom]

/-- One character. -/
theorem typed_step (h : Typed k u) (hlen : u.length < 255) (ha : Typeable a) :
    ∃ k', KeyStep k (keyOf a) k' ∧ Typed k' (u ++ [a]) := by
  have hh := handleScancode_press ha.key.isPress k
  rw [pressKey_typed h hlen ha] at hh
  refine ⟨(k.push a).echo a, ⟨h.running, 0, fun _ => 0, fun _ => 0, ?_⟩, ?_⟩
  · rw [keyboardHandler, hh]
  · refine ⟨h.shift, h.caps, h.dead, h.running, ?_, ?_⟩
    · show k.cmdPos + 1 = _
      rw [h.pos, List.length_append, List.length_singleton]
      norm_cast
    · intro i hi
      show Function.update k.cmdBuffer k.cmdPos a i = _
      rw [List.length_append, List.length_singleton] at hi
      rw [h.pos, Function.update_apply]
      by_cases hiu : i < u.length
      · rw [if_neg (by omega), List.getElem_append_left hiu]
        exact h.chars i hiu
      · obtain rfl : i = u.length := by omega
        rw [if_pos rfl, List.getElem_concat_length rfl]

/-- **The keys of a text** put it into the line. -/
theorem typed_text : ∀ {w : List Byte} {k : Keyboard} {u : List Byte}, Typed k u → u.length + w.length ≤ 255 →
    (∀ a ∈ w, Typeable a) →
    ∃ tr k', Run KeyStep k tr k' ∧ tr.map Transition.label = w.map keyOf ∧ Typed k' (u ++ w)
  | [], k, u, h, _, _ => ⟨[], k, .nil k, rfl, by rwa [List.append_nil]⟩
  | a :: w, k, u, h, hlen, hw => by
    rw [List.length_cons] at hlen
    obtain ⟨k₁, hs, h1⟩ := typed_step h (by omega) (hw a List.mem_cons_self)
    obtain ⟨tr, k', hr, hlab, h2⟩ := typed_text h1 (by simp; omega) fun b hb => hw b (List.mem_cons_of_mem _ hb)
    refine ⟨_, k', .cons hs hr, ?_, ?_⟩
    · rw [List.map_cons, hlab, List.map_cons]
    · rwa [List.append_assoc, List.singleton_append] at h2

theorem Typed.enter (h : Typed k u) (hu : ∀ a ∈ u, Enterable a) :
    ∃ k', handleScancode 0x1C k = .enter k' ∧ IsLine k'.input u := by
  have hd : k.dropDeadKey = k := by simp [Keyboard.dropDeadKey, h.dead]
  have he : handleScancode 0x1C k = .enter ((k.dropDeadKey.echo newline).store k.dropDeadKey.cmdPos 0) := rfl
  rw [hd] at he
  refine ⟨(k.echo newline).store k.cmdPos 0, he, ?_, ?_, fun a ha => (hu a ha).1⟩
  · intro i hi
    show Function.update k.cmdBuffer k.cmdPos 0 i = _
    rw [h.pos, Function.update_of_ne (by omega)]
    exact h.chars i hi
  · show Function.update k.cmdBuffer k.cmdPos 0 u.length = _
    rw [h.pos, Function.update_self]

/-- So it can be entered. -/
theorem canEnter_text {c : Console} (hc : c.rebooting = false) (hw : ∀ a ∈ w, Typeable a) (hlen : w.length ≤ 255) :
    CanEnter (Keyboard.boot c) w := by
  obtain ⟨tr, k, hr, -, h⟩ := typed_text (typed_boot hc) (by simpa using hlen) hw
  rw [List.nil_append] at h
  obtain ⟨k', hk', hl⟩ := h.enter fun a ha => (hw a ha).enterable
  exact ⟨tr, k, 0x1C, k', hr, h.running, hk', hl⟩

/-- **What can be typed.** From the boot state, a lower-case word of at most 255 letters can be
entered exactly when it has no `x` and no `z`. -/
theorem canEnter_iff {c : Console} (hc : c.rebooting = false) (hw : ∀ a ∈ w, isLower a = true)
    (hlen : w.length ≤ 255) : CanEnter (Keyboard.boot c) w ↔ 0x78 ∉ w ∧ 0x7A ∉ w := by
  constructor
  · intro h
    have he := enterable_of_canEnter h
    exact ⟨fun hx => (he _ hx).2.1 rfl, fun hz => (he _ hz).2.2 rfl⟩
  · rintro ⟨hx, hz⟩
    -- only `x`, `z` and NUL are not in the tables
    refine canEnter_text hc
      (fun a ha => typeable_lower a (hw a ha) ⟨?_, fun e => hx (e ▸ ha), fun e => hz (e ▸ ha)⟩) hlen
    rintro rfl
    exact absurd (hw 0 ha) (by decide)

/-- `help` can be entered. -/
theorem canEnter_help : CanEnter (Keyboard.boot ⟨Kernel.boot (Memory.boot fun _ => 0), false⟩) (ascii "help") :=
  (canEnter_iff rfl (by decide +kernel) (by decide)).2 ⟨by decide, by decide⟩

/-- The command `hex` cannot be entered. -/
theorem hex_not_entered : commandOf (ascii "hex") = some .hex ∧
    ¬ CanEnter (Keyboard.boot ⟨Kernel.boot (Memory.boot fun _ => 0), false⟩) (ascii "hex") := by
  refine ⟨by decide +kernel, ?_⟩
  intro h
  exact absurd (enterable_of_canEnter h 0x78 (by decide)) (by decide)

end Zer0S
