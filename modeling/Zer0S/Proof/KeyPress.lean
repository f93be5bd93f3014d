import Zer0S.Proof.LineBuffer
import Zer0S.Spec.Presses

/-!
# What the press of a key does

* `pressKey_cases`: a press composes a character, shows the pending accent and the letter, is kept as
  a dead key, or inserts its character.
* `keyStep_cases`: no other scancode but those of the editing keys touches the line.
* `pressKey_line`: the press of a key puts `pressStores` into the line.
* `sourced_run`: what is in the line after a run, byte by byte, and which press each byte comes from.
-/

namespace Zer0S

open Lib

variable {k k' : Keyboard} {a b key scancode : Byte}

/-! ## Scancodes -/

theorem press_key : ∀ scancode : Byte, scancode &&& 0x80 = 0 → scancode &&& 0x7F = scancode := by
  decide +kernel

theorem handleScancode_press (h : IsPress scancode) (k : Keyboard) :
    handleScancode scancode k = .done (pressKey scancode k) := by
  obtain ⟨h8, hplain⟩ := h
  -- all tests for special keys fail
  simp only [specialKeys, List.mem_cons, List.not_mem_nil, or_false, not_or] at hplain
  simp only [handleScancode, press_key _ h8, h8, hplain, false_and, or_self, if_false, if_true]

/-- The scancodes of modifiers, locks and releases. -/
theorem handleScancode_other (h : ¬ IsPress scancode) (hedit : ¬ IsEdit scancode) (k : Keyboard) :
    ∃ k', handleScancode scancode k = .done k' ∧ SameLine k k' := by
  by_cases h8 : scancode &&& 0x80 = 0
  · have hkey := press_key _ h8
    have hspecial : scancode ∈ specialKeys := by
      by_contra hno
      exact h ⟨h8, hno⟩
    simp only [IsEdit, not_or] at hedit
    obtain ⟨h1, h2, h3, h4⟩ := hedit
    simp only [specialKeys, List.mem_cons, List.not_mem_nil, or_false, h1, h2, h3, h4] at hspecial
    simp only [handleScancode, hkey, h8, h1, h2, h3, h4, and_true, if_false]
    -- a modifier or a lock
    rcases hspecial with rfl | rfl | rfl | rfl | rfl | rfl | rfl
    all_goals exact ⟨_, rfl, rfl, rfl, rfl, rfl, rfl, rfl⟩
  · simp only [handleScancode, h8, and_false, if_false]
    split_ifs
    all_goals exact ⟨_, rfl, rfl, rfl, rfl, rfl, rfl, rfl⟩

/-- **Scancodes.** Without the editing keys, a scancode is the press of a key, or it leaves the line
alone. -/
theorem keyStep_cases (hs : KeyStep k scancode k') (hedit : ¬ IsEdit scancode) :
    IsPress scancode ∧ k' = pressKey scancode k ∨ ¬ IsPress scancode ∧ SameLine k k' := by
  obtain ⟨-, rounds, cmd, args, hs⟩ := hs
  unfold keyboardHandler at hs
  by_cases hp : IsPress scancode
  · rw [handleScancode_press hp] at hs
    exact Or.inl ⟨hp, (Option.some.inj hs).symm⟩
  · obtain ⟨k₁, hk, hsame⟩ := handleScancode_other hp hedit k
    rw [hk] at hs
    exact Or.inr ⟨hp, Option.some.inj hs ▸ hsame⟩

/-! ## Presses -/

theorem isLower_ne : ∀ a : Byte, isLower a = true → a ≠ 0 ∧ isAccent a = false ∧ isPrintable a = true := by
  decide +kernel

theorem isAccent_printable : ∀ a : Byte, isAccent a = true → isPrintable a = true := by decide +kernel

/-- A composed character is outside ASCII. -/
theorem composed_outside (ha : isLower a = true) (h : handleDeadKey a b ≠ a) :
    isAccent (handleDeadKey a b) = false ∧ isPrintable (handleDeadKey a b) = false ∧ handleDeadKey a b ≠ 0x09 := by
  have key : ∀ b ∈ [(0x60 : Byte), 0x5E, 0x7E], ∀ a : Byte, isLower a = true → handleDeadKey a b ≠ a →
      isAccent (handleDeadKey a b) = false ∧ isPrintable (handleDeadKey a b) = false ∧
        handleDeadKey a b ≠ 0x09 := by decide +kernel
  by_cases hb : b = 0x60 ∨ b = 0x5E ∨ b = 0x7E
  · refine key b ?_ a ha h
    rcases hb with rfl | rfl | rfl <;> simp
  · -- no other `char` is an accent
    have hacute : ∀ b : Byte, b.toInt ≠ acute := by decide +kernel
    simp only [not_or] at hb
    refine absurd ?_ h
    rw [handleDeadKey, if_neg (hacute b), if_neg hb.1, if_neg hb.2.1, if_neg hb.2.2]

/-- A character that is neither printable nor a tab is dropped. -/
theorem insertChar_dropped (hp : isPrintable a = false) (ht : a ≠ 0x09) (k : Keyboard) : insertChar a k = k := by
  rw [insertChar, if_neg (by simp [hp]), if_neg ht]

/-- The pending accent is shown, and put into the line if there is room. -/
def Keyboard.showAccent (k : Keyboard) : Keyboard :=
  { if k.cmdPos < 255 then (k.echo k.deadChar).push k.deadChar else k.echo k.deadChar with deadKey := false }

/-- **The press of a key.** -/
theorem pressKey_cases (key : Byte) (k : Keyboard) {a : Byte} (ha : a = keyChar k.shiftPressed key) :
    Composes k a ∧ pressKey key k = { k with deadKey := false } ∨
    ShowsAccent k a ∧ pressKey key k = insertChar a k.showAccent ∨
    Waits k a ∧ pressKey key k = { k with deadKey := true, deadChar := a } ∨
    ¬ (k.deadKey = true ∧ isLower a = true) ∧ ¬ Waits k a ∧ pressKey key k = insertChar a k := by
  subst ha
  unfold pressKey combineDeadKey
  generalize keyChar k.shiftPressed key = a
  by_cases hd : k.deadKey = true ∧ isLower a = true
  · obtain ⟨h0, hacc, -⟩ := isLower_ne a hd.2
    rw [if_pos ⟨hd.1, h0, hd.2⟩]
    by_cases hc : handleDeadKey a k.deadChar = a
    · refine Or.inr (Or.inl ⟨⟨hd.1, hd.2, hc⟩, ?_⟩)
      simp only [hc, hacc, ne_eq, not_true_eq_false, if_false, Bool.false_eq_true, and_false]
      rfl
    · -- nothing is done with the composed character
      obtain ⟨h1, h2, h3⟩ := composed_outside hd.2 hc
      refine Or.inl ⟨⟨hd.1, hd.2, hc⟩, ?_⟩
      simp only [ne_eq, hc, not_false_eq_true, if_true, h1, Bool.false_eq_true, and_false, if_false]
      exact insertChar_dropped h2 h3 _
  · rw [if_neg fun h => hd ⟨h.1, h.2.2⟩]
    dsimp only
    by_cases hw : Waits k a
    · exact Or.inr (Or.inr (Or.inl ⟨hw, if_pos ⟨by simp [hw.1], hw.2⟩⟩))
    · refine Or.inr (Or.inr (Or.inr ⟨hd, hw, if_neg fun h => hw ⟨by simpa using h.1, h.2⟩⟩))

/-! ## The line -/

theorem line_push (h0 : 0 ≤ k.cmdPos) (v : Byte) : (k.push v).line = k.line ++ [v] := by
  have hpos : (k.cmdPos + 1).toNat = k.cmdPos.toNat + 1 := by omega
  show ((List.range (k.cmdPos + 1).toNat).map fun i : ℕ => Function.update k.cmdBuffer k.cmdPos v i) = _
  rw [hpos, List.range_succ, List.map_append, Keyboard.line]
  congr 1
  · refine List.map_congr_left fun i hi => Function.update_of_ne ?_ ..
    have := List.mem_range.1 hi
    omega
  · rw [List.map_singleton, Int.toNat_of_nonneg h0, Function.update_self]

/-- `insertChar` puts `inserted` into the line if there is room, and shows it then. -/
theorem insertChar_eq (hroom : k.cmdPos < 255) :
    insertChar a k = (inserted a k).elim k fun v => (k.push v).echo v := by
  unfold insertChar inserted
  split_ifs <;> rfl

theorem insertChar_full (hfull : 255 ≤ k.cmdPos) : insertChar a k = k := by
  unfold insertChar
  split_ifs <;> first | rfl | omega

theorem inserted_dropped (hp : isPrintable a = false) (ht : a ≠ 0x09) (k : Keyboard) : inserted a k = none := by
  rw [inserted, if_neg (by simp [hp]), if_neg ht]

/-- A key that is pressed inserts its character if that is printable. -/
theorem inserted_press (hp : IsPress key) (k : Keyboard) :
    inserted (keyChar k.shiftPressed key) k = none ∧ isPrintable (keyChar k.shiftPressed key) = false ∨
      ∃ v, inserted (keyChar k.shiftPressed key) k = some v ∧ isPrintable (keyChar k.shiftPressed key) = true := by
  have htab : ∀ (shift : Bool) (key : Byte), IsPress key → keyChar shift key ≠ 0x09 := by decide +kernel
  have hzero : isPrintable 0 = false := by decide
  by_cases h : isPrintable (keyChar k.shiftPressed key) = true
  · refine Or.inr ⟨_, if_pos ⟨?_, h⟩, h⟩
    intro h0
    rw [h0, hzero] at h
    cases h
  · rw [Bool.not_eq_true] at h
    exact Or.inl ⟨inserted_dropped h (htab _ _ hp) k, h⟩

/-- What `insertChar` does to the line and to the pending dead key. -/
theorem insertChar_effect (h0 : 0 ≤ k.cmdPos) (a : Byte) :
    (insertChar a k).line = k.line ++ (inserted a k).toList.take (255 - k.cmdPos).toNat ∧
      k.cmdPos ≤ (insertChar a k).cmdPos ∧ (insertChar a k).deadKey = k.deadKey := by
  by_cases hroom : k.cmdPos < 255
  · obtain ⟨n, hn⟩ : ∃ n, (255 - k.cmdPos).toNat = n + 1 := ⟨(254 - k.cmdPos).toNat, by omega⟩
    rw [insertChar_eq hroom, hn]
    cases inserted a k with
    | none => simp
    | some v =>
      rw [Option.toList_some, List.take_succ_cons, List.take_nil]
      refine ⟨line_push h0 v, ?_, rfl⟩
      show k.cmdPos ≤ k.cmdPos + 1
      omega
  · have hn : (255 - k.cmdPos).toNat = 0 := by omega
    rw [insertChar_full (not_lt.1 hroom), hn, List.take_zero, List.append_nil]
    exact ⟨rfl, le_rfl, rfl⟩

/-- What `showAccent` does to the line. -/
theorem showAccent_effect (h0 : 0 ≤ k.cmdPos) :
    k.showAccent.line = k.line ++ [k.deadChar].take (255 - k.cmdPos).toNat ∧
      k.showAccent.cmdPos = if k.cmdPos < 255 then k.cmdPos + 1 else k.cmdPos := by
  unfold Keyboard.showAccent
  split_ifs with hroom
  · obtain ⟨n, hn⟩ : ∃ n, (255 - k.cmdPos).toNat = n + 1 := ⟨(254 - k.cmdPos).toNat, by omega⟩
    rw [hn, List.take_succ_cons, List.take_nil]
    exact ⟨line_push (k := k.echo k.deadChar) h0 _, rfl⟩
  · have hn : (255 - k.cmdPos).toNat = 0 := by omega
    rw [hn, List.take_zero, List.append_nil]
    exact ⟨rfl, rfl⟩

/-! ## The characters of a press -/

variable (ha : a = keyChar k.shiftPressed key)
include ha

theorem pressChars_composes (h : Composes k a) : pressChars key k = [] := by
  obtain ⟨h1, h2, h3⟩ := composed_outside h.2.1 h.2.2
  simp only [pressChars, ← ha, if_pos h, h1, Bool.false_eq_true, if_false, inserted_dropped h2 h3, Option.toList_none,
    List.map_nil]

theorem pressChars_shows (h : ShowsAccent k a) : ∃ v, inserted a k = some v ∧
    pressChars key k = [(k.deadChar, .dead), (v, .key)] := by
  have hnot : ¬ Composes k a := fun hc => hc.2.2 h.2.2
  obtain ⟨h0, -, hp⟩ := isLower_ne a h.2.1
  refine ⟨_, if_pos ⟨h0, hp⟩, ?_⟩
  simp only [pressChars, ← ha, if_neg hnot, if_pos h, inserted, if_pos (And.intro h0 hp), Option.toList_some,
    List.map_cons, List.map_nil]

theorem pressChars_waits (h : Waits k a) : pressChars key k = [] := by
  have hc : ¬ Composes k a := fun hc => absurd (h.1.symm.trans hc.1) (by decide)
  have hs : ¬ ShowsAccent k a := fun hs => absurd (h.1.symm.trans hs.1) (by decide)
  simp only [pressChars, ← ha, if_neg hc, if_neg hs, if_pos h]

theorem pressChars_plain (hd : ¬ (k.deadKey = true ∧ isLower a = true)) (hw : ¬ Waits k a) :
    pressChars key k = (inserted a k).toList.map fun v => (v, .key) := by
  have hc : ¬ Composes k a := fun h => hd ⟨h.1, h.2.1⟩
  have hs : ¬ ShowsAccent k a := fun h => hd ⟨h.1, h.2.1⟩
  simp only [pressChars, ← ha, if_neg hc, if_neg hs, if_neg hw]

/-- **Line.** The press of a key puts `pressStores` into the line. -/
theorem pressKey_line (h0 : 0 ≤ k.cmdPos) :
    (pressKey key k).line = k.line ++ (pressStores key k).map Prod.fst := by
  unfold pressStores
  rcases pressKey_cases key k ha with ⟨h, he⟩ | ⟨h, he⟩ | ⟨h, he⟩ | ⟨hd, hw, he⟩
  · rw [he, pressChars_composes ha h, List.take_nil, List.map_nil, List.append_nil]
    rfl
  · obtain ⟨v, hv, hchars⟩ := pressChars_shows ha h
    obtain ⟨hl, hpos⟩ := showAccent_effect h0
    have hv' : inserted a k.showAccent = some v := by
      rw [← hv]
      unfold Keyboard.showAccent
      split_ifs <;> rfl
    have h0' : 0 ≤ k.showAccent.cmdPos := by
      rw [hpos]
      split_ifs <;> omega
    rw [he, (insertChar_effect h0' a).1, hl, hv', hchars, hpos]
    -- there is room for two, for one or for none
    rcases lt_trichotomy k.cmdPos 254 with hlt | heq | hgt
    · obtain ⟨n, hn⟩ : ∃ n, (255 - k.cmdPos).toNat = n + 2 := ⟨(253 - k.cmdPos).toNat, by omega⟩
      have hn' : (255 - (k.cmdPos + 1)).toNat = n + 1 := by omega
      rw [if_pos (by omega), hn, hn']
      simp
    · rw [if_pos (by omega), heq]
      simp
    · have hcap : (255 - k.cmdPos).toNat = 0 := by omega
      rw [if_neg (by omega), hcap]
      simp
  · rw [he, pressChars_waits ha h, List.take_nil, List.map_nil, List.append_nil]
    rfl
  · rw [he, (insertChar_effect h0 a).1, pressChars_plain ha hd hw, ← List.map_take, List.map_map]
    simp [Function.comp_def]

omit ha

/-- What `insertChar` inserts is the character of the key. -/
theorem inserted_typed {e : Transition Keyboard Byte} {v : Byte} (h : inserted (charOf e) e.pre = some v) :
    v = typedChar e := by
  by_cases hp : charOf e ≠ 0 ∧ isPrintable (charOf e) = true
  · rw [inserted, if_pos hp] at h
    exact (Option.some.inj h).symm
  rw [inserted, if_neg hp, Option.ite_none_right_eq_some] at h
  obtain ⟨htab, hv⟩ := h
  -- a tab is no letter
  have hlower : isLower (charOf e) = false := by
    rw [htab]
    decide
  rw [typedChar, if_neg fun hl => absurd (hlower.symm.trans hl.2.2) (by decide)]
  exact (Option.some.inj hv).symm

/-- An accent is no letter, so Caps Lock does not change it. -/
theorem typedChar_accent {e : Transition Keyboard Byte} (h : isAccent (charOf e) = true) :
    typedChar e = charOf e := by
  refine if_neg fun hl => ?_
  exact absurd (h.symm.trans (isLower_ne _ hl.2.2).2.1) (by decide)

theorem insertChar_deadChar (a : Byte) (k : Keyboard) : (insertChar a k).deadChar = k.deadChar := by
  unfold insertChar
  split_ifs <;> rfl

/-- The dead key that is pending after a press is the key pressed, or the one that was pending before. -/
theorem pressKey_dead (h0 : 0 ≤ k.cmdPos) (hd : (pressKey key k).deadKey = true) :
    Waits k (keyChar k.shiftPressed key) ∧ (pressKey key k).deadChar = keyChar k.shiftPressed key ∨
      k.deadKey = true ∧ (pressKey key k).deadChar = k.deadChar := by
  rcases pressKey_cases key k rfl with ⟨-, he⟩ | ⟨-, he⟩ | ⟨hw, he⟩ | ⟨-, -, he⟩
  · rw [he] at hd
    cases hd
  · have h0' : 0 ≤ k.showAccent.cmdPos := by
      rw [(showAccent_effect h0).2]
      split_ifs <;> omega
    rw [he, (insertChar_effect h0' _).2.2] at hd
    cases hd
  · exact Or.inl ⟨hw, by rw [he]⟩
  · rw [he, (insertChar_effect h0 _).2.2] at hd
    exact Or.inr ⟨hd, by rw [he, insertChar_deadChar]⟩

/-- If the line is not full afterwards, nothing of the press was dropped. -/
theorem pressStores_eq (hinv : LineInv k) (hroom : (pressKey key k).cmdPos < 255) :
    pressStores key k = pressChars key k := by
  have h0 := hinv.pos.1
  have hline : (pressKey key k).line = k.line ++ (pressStores key k).map Prod.fst := pressKey_line rfl h0
  have hlen := congrArg List.length hline
  rw [Keyboard.length_line, List.length_append, Keyboard.length_line, List.length_map] at hlen
  apply List.take_of_length_le
  by_contra hlong
  -- else the line is filled up to its end
  rw [pressStores, List.length_take, Nat.min_eq_left (by omega)] at hlen
  omega

/-- **The press of a key** that does not fill the line: what becomes of the pending dead key, and what
goes into the line. -/
theorem press_effect (hinv : LineInv k) (hroom : (pressKey key k).cmdPos < 255)
    (ha : a = keyChar k.shiftPressed key) :
    Composes k a ∧ (pressKey key k).deadKey = false ∧ pressStores key k = [] ∨
    ShowsAccent k a ∧ (pressKey key k).deadKey = false ∧
      (∃ v, inserted a k = some v ∧ pressStores key k = [(k.deadChar, .dead), (v, .key)]) ∨
    Waits k a ∧ (pressKey key k).deadKey = true ∧ pressStores key k = [] ∨
    ¬ (k.deadKey = true ∧ isLower a = true) ∧ ¬ Waits k a ∧ (pressKey key k).deadKey = k.deadKey ∧
      pressStores key k = (inserted a k).toList.map fun v => (v, .key) := by
  rw [pressStores_eq hinv hroom]
  have h0 := hinv.pos.1
  rcases pressKey_cases key k ha with ⟨h, he⟩ | ⟨h, he⟩ | ⟨h, he⟩ | ⟨hd, hw, he⟩
  · exact Or.inl ⟨h, by rw [he], pressChars_composes ha h⟩
  · obtain ⟨v, hv, hchars⟩ := pressChars_shows ha h
    obtain ⟨-, hpos⟩ := showAccent_effect h0
    have h0' : 0 ≤ k.showAccent.cmdPos := by
      rw [hpos]
      split_ifs <;> omega
    refine Or.inr (Or.inl ⟨h, ?_, v, hv, hchars⟩)
    rw [he, (insertChar_effect h0' a).2.2]
    rfl
  · exact Or.inr (Or.inr (Or.inl ⟨h, by rw [he], pressChars_waits ha h⟩))
  · refine Or.inr (Or.inr (Or.inr ⟨hd, hw, ?_, pressChars_plain ha hd hw⟩))
    rw [he, (insertChar_effect h0 a).2.2]

/-! ## Runs without editing keys -/

variable {k₀ : Keyboard} {tr : List (Transition Keyboard Byte)}

/-- No editing key is pressed, and the line does not get full. -/
def Typing (tr : List (Transition Keyboard Byte)) : Prop :=
  ∀ e ∈ tr, ¬ IsEdit e.label ∧ e.post.cmdPos < 255

theorem origins_snoc (k₀ : Keyboard) (tr : List (Transition Keyboard Byte)) (e : Transition Keyboard Byte) :
    origins k₀ (tr ++ [e]) = (origins k₀ tr).step e := by
  rw [origins, List.foldl_append, List.foldl_cons, List.foldl_nil, origins]

theorem origins_count (k₀ : Keyboard) (tr : List (Transition Keyboard Byte)) :
    (origins k₀ tr).count = tr.length := by
  induction tr using List.reverseRecOn with
  | nil => rfl
  | append_singleton tr e ih =>
    rw [origins_snoc, List.length_append, List.length_singleton, ← ih]
    rfl

/-- What one more scancode adds to the origins: its own number, and that of the pending dead key. -/
theorem origins_step (o : Origins) (e : Transition Keyboard Byte) :
    (∀ i ∈ (o.step e).line.flatten, i ∈ o.line.flatten ∨ o.dead = some i ∨ i = o.count) ∧
      ∀ d, (o.step e).dead = some d → o.dead = some d ∨ d = o.count := by
  constructor
  · intro i hi
    rw [Origins.step] at hi
    dsimp only at hi
    split_ifs at hi with hp
    · rw [List.flatten_append, List.mem_append] at hi
      apply hi.imp_right
      intro hi
      obtain ⟨l, hl, hil⟩ := List.mem_flatten.1 hi
      obtain ⟨⟨v, src⟩, -, rfl⟩ := List.mem_map.1 hl
      cases src with
      | key => exact Or.inr (List.mem_singleton.1 hil)
      | dead => exact Or.inl (Option.mem_toList.1 hil)
      | both => exact (List.mem_append.1 hil).imp Option.mem_toList.1 List.mem_singleton.1
    · exact Or.inl hi
  · intro d hd
    rw [Origins.step] at hd
    dsimp only at hd
    split_ifs at hd
    · exact Or.inr (Option.some.inj hd).symm
    · exact Or.inl hd

/-- The numbers are those of scancodes of the run. -/
theorem origins_old (k₀ : Keyboard) (tr : List (Transition Keyboard Byte)) :
    (∀ i ∈ (origins k₀ tr).line.flatten, i < tr.length) ∧ ∀ d, (origins k₀ tr).dead = some d → d < tr.length := by
  induction tr using List.reverseRecOn with
  | nil =>
    refine ⟨?_, fun d hd => by cases hd⟩
    intro i hi
    obtain ⟨l, hl, hil⟩ := List.mem_flatten.1 hi
    rw [List.eq_of_mem_replicate hl] at hil
    cases hil
  | append_singleton tr e ih =>
    obtain ⟨h1, h2⟩ := origins_step (origins k₀ tr) e
    rw [origins_count] at h1 h2
    rw [origins_snoc, List.length_append, List.length_singleton]
    constructor
    · intro i hi
      rcases h1 i hi with hi | hi | rfl
      · exact Nat.lt_succ_of_lt (ih.1 i hi)
      · exact Nat.lt_succ_of_lt (ih.2 i hi)
      · exact Nat.lt_succ_self _
    · intro d hd
      rcases h2 d hd with hd | rfl
      · exact Nat.lt_succ_of_lt (ih.2 d hd)
      · exact Nat.lt_succ_self _

/-! ## The bytes of the line -/

/-- What is known of the line after a run from `k₀`: its bytes, which press each new one is the character of,
and which press the pending dead key is the character of. -/
structure Sourced (k₀ : Keyboard) (tr : List (Transition Keyboard Byte)) (k : Keyboard) : Prop where
  line : k.line = k₀.line ++ (tr.flatMap stored).map Prod.fst
  chars : ∃ l, (origins k₀ tr).line = List.replicate k₀.line.length [] ++ l ∧
    List.Forall₂ (FromPress k₀ tr) ((tr.flatMap stored).map Prod.fst) l
  dead : k.deadKey = true → FromPress k₀ tr k.deadChar (origins k₀ tr).dead.toList

theorem FromPress.snoc {v : Byte} {l : List ℕ} (h : FromPress k₀ tr v l) (e : Transition Keyboard Byte) :
    FromPress k₀ (tr ++ [e]) v l := by
  refine h.imp_left ?_
  rintro ⟨i, x, hl, hx, hp, hv⟩
  obtain ⟨hlt, -⟩ := List.getElem?_eq_some_iff.1 hx
  exact ⟨i, x, hl, (List.getElem?_append_left hlt).trans hx, hp, hv⟩

/-- The scancode just sent is the last one of the run. -/
theorem fromPress_last {e : Transition Keyboard Byte} (k₀ : Keyboard) (tr : List (Transition Keyboard Byte))
    (hp : IsPress e.label) : FromPress k₀ (tr ++ [e]) (typedChar e) [(origins k₀ tr).count] :=
  Or.inl ⟨_, e, rfl, by rw [origins_count, List.getElem?_concat_length], hp, rfl⟩

/-- What the press of a key stores comes from it, and from the dead key that was pending. -/
theorem stored_fromPress (hinv : LineInv k) (h : Sourced k₀ tr k) (hp : IsPress key)
    (hroom : (pressKey key k).cmdPos < 255) :
    List.Forall₂ (FromPress k₀ (tr ++ [⟨k, key, pressKey key k⟩])) ((pressStores key k).map Prod.fst)
      ((pressStores key k).map ((origins k₀ tr).source ·.2)) := by
  set e : Transition Keyboard Byte := ⟨k, key, pressKey key k⟩ with he
  have hlast : ∀ {v : Byte}, inserted (keyChar k.shiftPressed key) k = some v →
      FromPress k₀ (tr ++ [e]) v ((origins k₀ tr).source .key) := by
    intro v hv
    rw [inserted_typed (e := e) hv]
    exact fromPress_last k₀ tr hp
  rcases press_effect hinv hroom rfl with ⟨-, -, hst⟩ | ⟨hs, -, v, hv, hst⟩ | ⟨-, -, hst⟩ | ⟨-, -, -, hst⟩
  · rw [hst]
    exact .nil
  · rw [hst]
    exact .cons ((h.dead hs.1).snoc e) (.cons (hlast hv) .nil)
  · rw [hst]
    exact .nil
  · rw [hst]
    cases hv : inserted (keyChar k.shiftPressed key) k with
    | none => exact .nil
    | some v => exact .cons (hlast hv) .nil

/-- The dead key that is pending after the press of a key. -/
theorem dead_fromPress (hinv : LineInv k) (h : Sourced k₀ tr k) (hp : IsPress key)
    (hd : (pressKey key k).deadKey = true) :
    FromPress k₀ (tr ++ [⟨k, key, pressKey key k⟩]) (pressKey key k).deadChar
      (origins k₀ (tr ++ [⟨k, key, pressKey key k⟩])).dead.toList := by
  set e : Transition Keyboard Byte := ⟨k, key, pressKey key k⟩ with he
  rw [origins_snoc, Origins.step]
  rcases pressKey_dead hinv.pos.1 hd with ⟨hw, hchar⟩ | ⟨hold, hchar⟩
  · dsimp only
    have htyped : keyChar k.shiftPressed key = typedChar e := (typedChar_accent (e := e) hw.2).symm
    rw [if_pos ⟨hw.1, hd⟩, hchar, htyped]
    exact fromPress_last k₀ tr hp
  · dsimp only
    rw [if_neg fun h => absurd (hold.symm.trans h.1) (by decide), hchar]
    exact (h.dead hold).snoc e

/-- **Step.** A scancode of no editing key that does not fill the line. -/
theorem sourced_step {s : Byte} (hinv : LineInv k) (h : Sourced k₀ tr k) (hs : KeyStep k s k') (hedit : ¬ IsEdit s)
    (hroom : k'.cmdPos < 255) : Sourced k₀ (tr ++ [⟨k, s, k'⟩]) k' := by
  obtain ⟨l, hl, hchars⟩ := h.chars
  rcases keyStep_cases hs hedit with ⟨hp, rfl⟩ | ⟨hp, hsame⟩
  · have hst : stored ⟨k, s, pressKey s k⟩ = pressStores s k := if_pos hp
    refine ⟨?_, ⟨l ++ (pressStores s k).map ((origins k₀ tr).source ·.2), ?_, ?_⟩, dead_fromPress hinv h hp⟩
    · rw [pressKey_line rfl hinv.pos.1, h.line, List.flatMap_append, List.map_append, List.append_assoc,
        List.flatMap_singleton, hst]
    · rw [origins_snoc, Origins.step]
      dsimp only
      rw [if_pos hp, hl, List.append_assoc]
    · rw [List.flatMap_append, List.map_append, List.flatMap_singleton, hst]
      exact List.rel_append (hchars.imp fun _ _ h => h.snoc _) (stored_fromPress hinv h hp hroom)
  · have hst : stored ⟨k, s, k'⟩ = [] := if_neg hp
    have hnew : List.flatMap stored (tr ++ [⟨k, s, k'⟩]) = tr.flatMap stored := by
      rw [List.flatMap_append, List.flatMap_singleton, hst, List.append_nil]
    refine ⟨?_, ⟨l, ?_, ?_⟩, ?_⟩
    · rw [hnew, ← h.line, Keyboard.line, Keyboard.line, hsame.cmdPos, hsame.cmdBuffer]
    · rw [origins_snoc, Origins.step]
      dsimp only
      rw [if_neg hp, hl]
    · rw [hnew]
      exact hchars.imp fun _ _ h => h.snoc _
    · intro hd
      have hd₀ : k.deadKey = true := hsame.deadKey.symm.trans hd
      rw [origins_snoc, Origins.step, hsame.deadChar]
      dsimp only
      rw [if_neg fun h => absurd (hd₀.symm.trans h.1) (by decide)]
      exact (h.dead hd₀).snoc _

/-- **Run.** The line after a run without editing keys that does not fill it. -/
theorem sourced_run (h0 : LineInv k₀) (hr : Run KeyStep k₀ tr k) (ht : Typing tr) : Sourced k₀ tr k := by
  revert ht
  refine hr.last_ind (P := fun tr k => Typing tr → Sourced k₀ tr k) ?_ ?_
  · intro _
    refine ⟨(List.append_nil _).symm, ⟨[], ?_, .nil⟩, fun hd => Or.inr ⟨rfl, hd, rfl⟩⟩
    rw [Keyboard.length_line, List.append_nil]
    rfl
  · intro tr a s b hra ih hs ht
    have hinv := (hra.invariant h0 fun _ _ _ h hs => lineInv_step h hs).1
    obtain ⟨hedit, hroom⟩ := ht _ (List.mem_append_right _ List.mem_cons_self)
    exact sourced_step hinv (ih fun e he => ht e (List.mem_append_left _ he)) hs hedit hroom

end Zer0S
