import Mathlib.Data.List.GetD
import Zer0S.Spec.Keyboard

/-!
# The line buffer of the keyboard, and the line in the shell

* `lineInv_step`: whatever the scancode, `cmd_pos` stays in the buffer, `cmd_buffer` is written
  inside, and the characters before `cmd_pos` are not NUL.
* `splitLine_safe`: on a line that ends, the loops of `shell_handle_command` return, do not read
  past its NUL, and write inside `cmd` and `args`.
* `line_safe`: both, for every sequence of scancodes.
-/

namespace Zer0S

open Lib

variable {k k' : Keyboard} {a b c key : Byte} {v : Byte}

/-! ## The keyboard -/

/-- The characters that can get into the line: not NUL, and not the two letters whose keys have
accents. -/
def Enterable (c : Byte) : Prop := c ≠ 0 ∧ c ≠ 0x78 ∧ c ≠ 0x7A

instance (c : Byte) : Decidable (Enterable c) := inferInstanceAs (Decidable (_ ∧ _ ∧ _))

/-- The invariant of `keyboard.c`. -/
structure LineInv (k : Keyboard) : Prop where
  pos : 0 ≤ k.cmdPos ∧ k.cmdPos ≤ 255
  accesses : ∀ i ∈ k.accesses, 0 ≤ i ∧ i ≤ 255
  dead : k.deadKey = true → isAccent k.deadChar = true
  chars : ∀ i, 0 ≤ i → i < k.cmdPos → Enterable (k.cmdBuffer i)

theorem isAccent_enterable : ∀ a : Byte, isAccent a = true → Enterable a := by decide +kernel

/-- A key gives neither `'x'` nor `'z'`: their keys are those of the circumflex and the acute accent. -/
theorem keyChar_enterable : ∀ (shift : Bool) (key : Byte), keyChar shift key ≠ 0 →
    Enterable (keyChar shift key) := by decide +kernel

theorem upper_enterable : ∀ a : Byte, isLower a = true → Enterable (a - 0x61 + 0x41) := by decide +kernel

/-- The accents that a `char` can be. -/
theorem isAccent_cases : ∀ a : Byte, isAccent a = true → a = 0x60 ∨ a = 0x5E ∨ a = 0x7E := by decide +kernel

theorem handleDeadKey_enterable (ha : Enterable a) (hb : isAccent b = true) : Enterable (handleDeadKey a b) := by
  have key : ∀ b ∈ [(0x60 : Byte), 0x5E, 0x7E], ∀ a : Byte, Enterable a → Enterable (handleDeadKey a b) := by
    decide +kernel
  refine key b ?_ a ha
  rcases isAccent_cases b hb with rfl | rfl | rfl <;> simp

theorem LineInv.echo (h : LineInv k) (c : Byte) : LineInv (k.echo c) := ⟨h.pos, h.accesses, h.dead, h.chars⟩

theorem LineInv.dropDeadKey (h : LineInv k) : LineInv k.dropDeadKey := by
  unfold Keyboard.dropDeadKey
  split_ifs
  · exact ⟨h.pos, h.accesses, fun hd => (by cases hd), h.chars⟩
  · exact h

/-- A write at or behind `cmd_pos`, in the buffer. -/
theorem LineInv.store {i : ℤ} (h : LineInv k) (hi : k.cmdPos ≤ i) (hi' : i ≤ 255) (v : Byte) :
    LineInv (k.store i v) := by
  refine ⟨h.pos, ?_, h.dead, ?_⟩
  · exact List.forall_mem_cons.2 ⟨⟨h.pos.1.trans hi, hi'⟩, h.accesses⟩
  · intro j h0 hj
    have hji : j ≠ i := by
      have : j < k.cmdPos := hj
      omega
    show Enterable (Function.update k.cmdBuffer i v j)
    rw [Function.update_of_ne hji]
    exact h.chars j h0 hj

/-- A character is added when there is room for it. -/
theorem LineInv.push (h : LineInv k) (hroom : k.cmdPos < 255) (hc : Enterable c) : LineInv (k.push c) := by
  have h1 := h.store le_rfl h.pos.2 c
  refine ⟨?_, h1.accesses, h1.dead, ?_⟩
  · have h0 := h.pos.1
    show 0 ≤ k.cmdPos + 1 ∧ k.cmdPos + 1 ≤ 255
    omega
  · intro j h0 hj
    have hj : j < k.cmdPos + 1 := hj
    show Enterable (Function.update k.cmdBuffer k.cmdPos c j)
    by_cases hjp : j = k.cmdPos
    · rw [hjp, Function.update_self]
      exact hc
    · rw [Function.update_of_ne hjp]
      exact h.chars j h0 (by omega)

/-- The line is emptied. -/
theorem LineInv.clear (h : LineInv k) : LineInv ({ k with cmdPos := 0 }.store 0 0) := by
  refine LineInv.store (k := { k with cmdPos := 0 }) ?_ le_rfl (by norm_num) 0
  exact ⟨by norm_num, h.accesses, h.dead, fun i h0 hi => absurd hi (not_lt.2 h0)⟩

theorem LineInv.combine (h : LineInv k) (ha : a ≠ 0 → Enterable a) :
    LineInv (combineDeadKey a k).2 ∧
      ((combineDeadKey a k).1 ≠ 0 → Enterable (combineDeadKey a k).1) := by
  unfold combineDeadKey
  split_ifs with hdead
  · obtain ⟨hd, ha0, hl⟩ := hdead
    have hacc := h.dead hd
    simp only
    split_ifs with hres hroom
    · exact ⟨⟨h.pos, h.accesses, fun hd => (by cases hd), h.chars⟩,
        fun _ => handleDeadKey_enterable (ha ha0) hacc⟩
    · have h1 := (h.echo k.deadChar).push hroom (isAccent_enterable _ hacc)
      exact ⟨⟨h1.pos, h1.accesses, fun hd => (by cases hd), h1.chars⟩, ha⟩
    · exact ⟨⟨h.pos, h.accesses, fun hd => (by cases hd), h.chars⟩, ha⟩
  · exact ⟨h, ha⟩

theorem LineInv.insert (h : LineInv k) (ha : a ≠ 0 → Enterable a) : LineInv (insertChar a k) := by
  -- a character that is pushed and shown, if there is room
  have add : ∀ v, Enterable v → LineInv (if k.cmdPos < 255 then (k.push v).echo v else k) := by
    intro v hv
    split_ifs with hroom
    · exact (h.push hroom hv).echo v
    · exact h
  unfold insertChar
  by_cases hp : a ≠ 0 ∧ isPrintable a = true
  · rw [if_pos hp]
    apply add _
    split_ifs with hcaps
    · exact upper_enterable a hcaps.2.2
    · exact ha hp.1
  · rw [if_neg hp]
    split_ifs with htab hroom
    · have hv : Enterable a := ha (by rw [htab]; decide)
      exact (h.push hroom hv).echo a
    · exact h
    · exact h

theorem LineInv.press (h : LineInv k) (key : Byte) : LineInv (pressKey key k) := by
  obtain ⟨h1, h2⟩ := h.combine (keyChar_enterable k.shiftPressed key)
  unfold pressKey
  simp only
  split_ifs with hacc
  · exact ⟨h1.pos, h1.accesses, fun _ => hacc.2, h1.chars⟩
  · exact h1.insert h2

/-- The keyboard when the handler returns or calls the shell. -/
def Handled.keyboard : Handled → Keyboard
  | .done k => k
  | .enter k => k

/-- The two keyboards differ in modifiers and locks only. -/
structure SameLine (k k' : Keyboard) : Prop where
  deadKey : k'.deadKey = k.deadKey
  deadChar : k'.deadChar = k.deadChar
  cmdBuffer : k'.cmdBuffer = k.cmdBuffer
  cmdPos : k'.cmdPos = k.cmdPos
  accesses : k'.accesses = k.accesses
  console : k'.console = k.console

theorem LineInv.same (h : LineInv k) (hs : SameLine k k') : LineInv k' := by
  refine ⟨?_, ?_, ?_, ?_⟩
  · rw [hs.cmdPos]; exact h.pos
  · rw [hs.accesses]; exact h.accesses
  · rw [hs.deadKey, hs.deadChar]; exact h.dead
  · rw [hs.cmdPos, hs.cmdBuffer]; exact h.chars

/-- What a scancode can do. -/
theorem handleScancode_cases {P : Handled → Prop} (scancode : Byte) (k : Keyboard)
    (modifier : ∀ k', SameLine k k' → P (.done k'))
    (enter : P (.enter ((k.dropDeadKey.echo newline).store k.dropDeadKey.cmdPos 0)))
    (drop : P (.done k.dropDeadKey))
    (erase : 0 < k.dropDeadKey.cmdPos → P (.done
      ((({ k.dropDeadKey with cmdPos := k.dropDeadKey.cmdPos - 1 }.echo backspace).echo space).echo backspace)))
    (tab : P (.done (k.dropDeadKey.echo 0x09)))
    (pushTab : k.dropDeadKey.cmdPos < 255 → P (.done ((k.dropDeadKey.echo 0x09).push 0x09)))
    (escape : P (.done
      ({ (k.dropDeadKey.echo newline).print [.text "^C\nZer0S> "] with cmdPos := 0 }.store 0 0)))
    (press : P (.done (pressKey (scancode &&& 0x7F) k))) :
    P (handleScancode scancode k) := by
  unfold handleScancode
  -- the tests are taken in the order of the source
  refine iteInduction (fun _ => modifier _ ⟨rfl, rfl, rfl, rfl, rfl, rfl⟩) ?_
  intro _
  refine iteInduction (fun _ => modifier _ ⟨rfl, rfl, rfl, rfl, rfl, rfl⟩) ?_
  intro _
  refine iteInduction (fun _ => modifier _ ⟨rfl, rfl, rfl, rfl, rfl, rfl⟩) ?_
  intro _
  refine iteInduction (fun _ => modifier _ ⟨rfl, rfl, rfl, rfl, rfl, rfl⟩) ?_
  intro _
  refine iteInduction (fun _ => modifier _ ⟨rfl, rfl, rfl, rfl, rfl, rfl⟩) ?_
  intro _
  refine iteInduction (fun _ => modifier _ ⟨rfl, rfl, rfl, rfl, rfl, rfl⟩) ?_
  intro _
  apply iteInduction (fun _ => enter)
  intro _
  apply iteInduction (fun _ => iteInduction (fun h0 => erase h0) fun _ => drop)
  intro _
  refine iteInduction (fun _ => ?_) fun _ => ?_
  · exact iteInduction (motive := fun k => P (.done k)) (fun hroom => pushTab hroom) fun _ => tab
  apply iteInduction (fun _ => escape)
  intro _
  exact iteInduction (fun _ => press) fun _ => modifier _ ⟨rfl, rfl, rfl, rfl, rfl, rfl⟩

/-- **Keyboard.** The handler keeps the invariant, up to the call of the shell. -/
theorem LineInv.handle (h : LineInv k) (scancode : Byte) : LineInv (handleScancode scancode k).keyboard := by
  have hd := h.dropDeadKey
  have hpos := hd.pos
  have hnl := hd.echo newline
  apply handleScancode_cases (P := fun r => LineInv r.keyboard)
  case modifier => exact fun k' hs => h.same hs
  case enter => exact hnl.store le_rfl hpos.2 0
  case drop => exact hd
  case erase =>
    intro h0
    refine ⟨?_, hd.accesses, hd.dead, fun i hi0 hi => hd.chars i hi0 ?_⟩
    · show 0 ≤ k.dropDeadKey.cmdPos - 1 ∧ k.dropDeadKey.cmdPos - 1 ≤ 255
      omega
    · have : i < k.dropDeadKey.cmdPos - 1 := hi
      omega
  case tab => exact hd.echo 0x09
  case pushTab => exact fun hroom => (hd.echo 0x09).push hroom (by decide)
  case escape =>
    exact LineInv.clear (k := (k.dropDeadKey.echo newline).print [.text "^C\nZer0S> "])
      ⟨hnl.pos, hnl.accesses, hnl.dead, hnl.chars⟩
  case press => exact h.press _

/-- **Step.** -/
theorem lineInv_step {scancode : Byte} (h : LineInv k) (hs : KeyStep k scancode k') : LineInv k' := by
  obtain ⟨-, rounds, cmd, args, hs⟩ := hs
  have hh := h.handle scancode
  unfold keyboardHandler at hs
  cases hr : handleScancode scancode k with
  | done k₁ =>
    rw [hr] at hs hh
    exact Option.some.inj hs ▸ hh
  | enter k₁ =>
    rw [hr] at hs hh
    obtain ⟨c, -, rfl⟩ := Option.map_eq_some_iff.1 hs
    have h1 : LineInv k₁ := hh
    split_ifs
    · exact ⟨h1.pos, h1.accesses, h1.dead, h1.chars⟩
    · exact LineInv.clear (k := { k₁ with console := c }) ⟨h1.pos, h1.accesses, h1.dead, h1.chars⟩

theorem lineInv_boot (c : Console) : LineInv (Keyboard.boot c) :=
  ⟨⟨le_rfl, by norm_num [Keyboard.boot]⟩, fun i hi => (by cases hi), fun hd => (by cases hd),
    fun i h0 hi => absurd hi (not_lt.2 h0)⟩

/-! ## Lines -/

/-- The bytes from a pointer on are the line, and then a NUL. -/
structure IsLine (input : ℕ → Byte) (s : List Byte) : Prop where
  chars : ∀ i (hi : i < s.length), input i = s[i]
  nul : input s.length = 0
  noNul : ∀ c ∈ s, c ≠ 0

/-- A string with NULs behind it. -/
theorem isLine_getD {s : List Byte} (h : ∀ c ∈ s, c ≠ 0) : IsLine (fun i => s.getD i 0) s :=
  ⟨fun _ hi => List.getD_eq_getElem s 0 hi, List.getD_eq_default s 0 le_rfl, h⟩

theorem IsLine.ne_nul {input : ℕ → Byte} {s : List Byte} (h : IsLine input s) {i : ℕ}
    (hi : i < s.length) : input i ≠ 0 := by
  rw [h.chars i hi]
  exact h.noNul _ (List.getElem_mem hi)

/-- A pointer points to one line. -/
theorem IsLine.det {input : ℕ → Byte} {s s' : List Byte} (h : IsLine input s)
    (h' : IsLine input s') : s = s' := by
  have hlen : s.length = s'.length := by
    rcases Nat.lt_trichotomy s.length s'.length with hlt | heq | hlt
    · exact absurd h.nul (h'.ne_nul hlt)
    · exact heq
    · exact absurd h'.nul (h.ne_nul hlt)
  apply List.ext_getElem hlen
  intro i h1 h2
  rw [← h.chars i h1, h'.chars i h2]

/-- The characters before `cmd_pos`. -/
def Keyboard.line (k : Keyboard) : List Byte := (List.range k.cmdPos.toNat).map fun i : ℕ => k.cmdBuffer i

theorem Keyboard.length_line (k : Keyboard) : k.line.length = k.cmdPos.toNat := by
  rw [Keyboard.line, List.length_map, List.length_range]

/-- What Enter passes to the shell: the characters before `cmd_pos`. -/
theorem LineInv.isLine (h : LineInv k) (hz : k.cmdBuffer k.cmdPos = 0) : IsLine k.input k.line := by
  have h0 := h.pos.1
  refine ⟨?_, ?_, ?_⟩
  · intro i hi
    simp [Keyboard.line, Keyboard.input]
  · rw [Keyboard.length_line, Keyboard.input, Int.toNat_of_nonneg h0]
    exact hz
  · intro c hc
    obtain ⟨i, hi, rfl⟩ := List.mem_map.1 hc
    have hi := List.mem_range.1 hi
    exact (h.chars i (by omega) (by omega)).1

/-! ## Splitting a line -/

/-- The invariant of the three loops, for a line of `n` characters. -/
structure SplitInv (n : ℕ) (f : ShellFrame) : Prop where
  pos : f.i ≤ n
  inputReads : ∀ i ∈ f.inputReads, i ≤ n
  cmdWrites : ∀ i ∈ f.cmdWrites, i ≤ 31
  argsWrites : ∀ j ∈ f.argsWrites, j ≤ 223

variable {n : ℕ} {f f' : ShellFrame} {input : ℕ → Byte} {s : List Byte}

theorem SplitInv.read (h : SplitInv n f) : SplitInv n f.read :=
  ⟨h.pos, List.forall_mem_cons.2 ⟨h.pos, h.inputReads⟩, h.cmdWrites, h.argsWrites⟩

theorem SplitInv.setCmd (h : SplitInv n f) (hi : f.i ≤ 31) (v : Byte) : SplitInv n (f.setCmd v) :=
  ⟨h.pos, h.inputReads, List.forall_mem_cons.2 ⟨hi, h.cmdWrites⟩, h.argsWrites⟩

theorem SplitInv.setArgs (h : SplitInv n f) (hj : f.j ≤ 223) (v : Byte) : SplitInv n (f.setArgs v) :=
  ⟨h.pos, h.inputReads, h.cmdWrites, List.forall_mem_cons.2 ⟨hj, h.argsWrites⟩⟩

/-- A character that is not NUL is before the end of the line. -/
theorem IsLine.lt (hl : IsLine input s) (h : SplitInv s.length f) (hc : input f.i ≠ 0) : f.i < s.length := by
  refine Nat.lt_of_le_of_ne h.pos fun he => hc ?_
  rw [he]
  exact hl.nul

/-- **Scan.** A loop that reads `input[i]` in each round, and goes on to the next index only behind a
character, stops at the NUL at the latest. `K` is what else the loop keeps. -/
theorem scanLoop {body : ShellFrame → ShellFrame ⊕ ShellFrame} {K : ShellFrame → Prop} (hl : IsLine input s)
    (hstop : ∀ f, K f → K f.read)
    (hbody : ∀ f, SplitInv s.length f → K f → body f = .inr f.read ∨ ∃ f', body f = .inl f' ∧ input f.i ≠ 0 ∧
      f'.i = f.i + 1 ∧ (f.i < s.length → SplitInv s.length f') ∧ K f')
    (h : SplitInv s.length f) (hk : K f) :
    ∃ rounds r, loop body rounds f = some r ∧ SplitInv s.length r ∧ K r := by
  refine loop_total (I := fun f => SplitInv s.length f ∧ K f) (fun f => s.length - f.i) ?_ ?_ f ⟨h, hk⟩
  · rintro f f' ⟨h, hk⟩ hb
    rcases hbody f h hk with he | ⟨f₁, he, h0, hi, h1, hk1⟩
    · rw [he] at hb
      cases hb
    · rw [he] at hb
      obtain rfl := Sum.inl.inj hb
      have hlt : f.i < s.length := hl.lt h h0
      exact ⟨⟨h1 hlt, hk1⟩, by omega⟩
  · rintro f r ⟨h, hk⟩ hb
    rcases hbody f h hk with he | ⟨f₁, he, -⟩
    · rw [he] at hb
      obtain rfl := Sum.inr.inj hb
      exact ⟨h.read, hstop f hk⟩
    · rw [he] at hb
      cases hb

/-- The loop that copies the command stops before the 32nd character. -/
theorem cmdLoop (hl : IsLine input s) (h : SplitInv s.length f) (hi : f.i ≤ 31) (hj : f.j ≤ 223) :
    ∃ rounds r, loop (cmdBody input) rounds f = some r ∧ SplitInv s.length r ∧ r.i ≤ 31 ∧ r.j ≤ 223 := by
  refine scanLoop (K := fun f => f.i ≤ 31 ∧ f.j ≤ 223) hl (fun f hk => hk) ?_ h ⟨hi, hj⟩
  intro f h hk
  unfold cmdBody
  dsimp only
  split_ifs with hc
  · obtain ⟨h0, -, h31⟩ := hc
    have h31 : f.i < 31 := h31
    have hw := h.read.setCmd hk.1 (input f.i)
    exact Or.inr ⟨_, rfl, h0, rfl, fun hlt => ⟨hlt, hw.inputReads, hw.cmdWrites, hw.argsWrites⟩, h31, hk.2⟩
  · exact Or.inl rfl

/-- The loop that skips spaces. -/
theorem spaceLoop (hl : IsLine input s) (h : SplitInv s.length f) (hj : f.j ≤ 223) :
    ∃ rounds r, loop (spaceBody input) rounds f = some r ∧ SplitInv s.length r ∧ r.j ≤ 223 := by
  refine scanLoop (K := fun f => f.j ≤ 223) hl (fun f hk => hk) ?_ h hj
  intro f h hk
  unfold spaceBody
  dsimp only
  split_ifs with hc
  · have hc : input f.i = space := hc
    have h0 : input f.i ≠ 0 := by
      rw [hc]
      decide
    have hr := h.read
    exact Or.inr ⟨_, rfl, h0, rfl, fun hlt => ⟨hlt, hr.inputReads, hr.cmdWrites, hr.argsWrites⟩, hk⟩
  · exact Or.inl rfl

/-- The loop that copies the arguments also stops when `args` is full. -/
theorem argsLoop (hl : IsLine input s) (h : SplitInv s.length f) (hj : f.j ≤ 223) :
    ∃ rounds r, loop (argsBody input) rounds f = some r ∧ SplitInv s.length r ∧ r.j ≤ 223 := by
  refine scanLoop (K := fun f => f.j ≤ 223) hl (fun f hk => hk) ?_ h hj
  intro f h hk
  unfold argsBody
  dsimp only
  split_ifs with hc
  · obtain ⟨h0, h223⟩ := hc
    have h223 : f.j < 223 := h223
    have hw := h.read.setArgs hk (input f.i)
    exact Or.inr ⟨_, rfl, h0, rfl, fun hlt => ⟨hlt, hw.inputReads, hw.cmdWrites, hw.argsWrites⟩, h223⟩
  · exact Or.inl rfl

/-- The three loops in order. -/
theorem splitLine_eq {cmd args : ℕ → Byte} {n₁ n₂ n₃ : ℕ} {f₁ f₂ f₃ : ShellFrame}
    (e₁ : loop (cmdBody input) n₁ ⟨cmd, args, 0, 0, [0], [], []⟩ = some f₁)
    (e₂ : loop (spaceBody input) n₂ (f₁.setCmd 0) = some f₂) (e₃ : loop (argsBody input) n₃ f₂ = some f₃) :
    splitLine (max n₁ (max n₂ n₃)) cmd args input = some (f₃.setArgs 0) := by
  rw [splitLine, loop_mono (le_max_left ..) e₁, Option.bind_some]
  dsimp only
  rw [loop_mono ((le_max_left ..).trans (le_max_right ..)) e₂, Option.bind_some]
  rw [loop_mono ((le_max_right ..).trans (le_max_right ..)) e₃, Option.map_some]

/-- **Shell.** A line is split inside the arrays, and its scan ends at the NUL. -/
theorem splitLine_safe (hl : IsLine input s) (cmd args : ℕ → Byte) :
    ∃ rounds f, splitLine rounds cmd args input = some f ∧ SplitInv s.length f := by
  have h0 : SplitInv s.length ⟨cmd, args, 0, 0, [0], [], []⟩ := by
    refine ⟨Nat.zero_le _, ?_, fun i hi => (by cases hi), fun j hj => (by cases hj)⟩
    intro i hi
    rw [List.mem_singleton.1 hi]
    exact Nat.zero_le _
  obtain ⟨n₁, f₁, e₁, h₁, hi₁, hj₁⟩ := cmdLoop hl h0 (Nat.zero_le _) (Nat.zero_le _)
  obtain ⟨n₂, f₂, e₂, h₂, hj₂⟩ := spaceLoop (f := f₁.setCmd 0) hl (h₁.setCmd hi₁ 0) hj₁
  obtain ⟨n₃, f₃, e₃, h₃, hj₃⟩ := argsLoop hl h₂ hj₂
  exact ⟨max n₁ (max n₂ n₃), f₃.setArgs 0, splitLine_eq e₁ e₂ e₃, h₃.setArgs hj₃ 0⟩

/-! ## Every sequence of scancodes -/

/-- The line that Enter passes to the shell ends after at most 255 characters, and the shell splits
it without leaving it or its arrays. -/
def LineSafe (input : ℕ → Byte) : Prop :=
  ∃ s, IsLine input s ∧ s.length ≤ 255 ∧ ∀ cmd args, ∃ rounds f, splitLine rounds cmd args input = some f ∧
    (∀ i ∈ f.inputReads, i ≤ s.length) ∧ (∀ i ∈ f.cmdWrites, i ≤ 31) ∧ ∀ j ∈ f.argsWrites, j ≤ 223

theorem LineInv.lineSafe (h : LineInv k) (hz : k.cmdBuffer k.cmdPos = 0) : LineSafe k.input := by
  have hl := h.isLine hz
  refine ⟨k.line, hl, ?_, ?_⟩
  · have := h.pos
    rw [Keyboard.length_line]
    omega
  · intro cmd args
    obtain ⟨rounds, f, hf, hs⟩ := splitLine_safe hl cmd args
    exact ⟨rounds, f, hf, hs.inputReads, hs.cmdWrites, hs.argsWrites⟩

/-- Enter writes the NUL. -/
theorem enter_nul {scancode : Byte} (hs : handleScancode scancode k = .enter k') :
    k'.cmdBuffer k'.cmdPos = 0 := by
  refine handleScancode_cases (P := fun r => ∀ k', r = .enter k' → k'.cmdBuffer k'.cmdPos = 0) scancode k
    (fun _ _ _ e => by cases e) ?_ (fun _ e => by cases e) (fun _ _ e => by cases e) (fun _ e => by cases e)
    (fun _ _ e => by cases e) (fun _ e => by cases e) (fun _ e => by cases e) k' hs
  rintro k' ⟨rfl⟩
  exact Function.update_self ..

variable {tr : List (Transition Keyboard Byte)}

/-- **Keyboard and shell.** After every sequence of scancodes, `cmd_pos` and the accesses to
`cmd_buffer` are inside the buffer, and whatever scancode comes next, they are when the handler
returns or calls the shell, and the line that it then passes is safe. -/
theorem line_safe {c : Console} (hr : Run KeyStep (Keyboard.boot c) tr k) :
    (0 ≤ k.cmdPos ∧ k.cmdPos ≤ 255) ∧ (∀ i ∈ k.accesses, 0 ≤ i ∧ i ≤ 255) ∧
      ∀ scancode, (0 ≤ (handleScancode scancode k).keyboard.cmdPos ∧
          (handleScancode scancode k).keyboard.cmdPos ≤ 255) ∧
        (∀ i ∈ (handleScancode scancode k).keyboard.accesses, 0 ≤ i ∧ i ≤ 255) ∧
        ∀ k', handleScancode scancode k = .enter k' → LineSafe k'.input := by
  have h := (hr.invariant (lineInv_boot c) fun _ _ _ h hs => lineInv_step h hs).1
  refine ⟨h.pos, h.accesses, ?_⟩
  intro scancode
  have hh := h.handle scancode
  refine ⟨hh.pos, hh.accesses, ?_⟩
  intro k' he
  rw [he] at hh
  exact hh.lineSafe (enter_nul he)

/-- Three keys and Enter: the line is `mem`. -/
theorem line_safe_mem : ∃ tr k, Run KeyStep
      (Keyboard.boot ⟨Kernel.boot (Memory.boot fun _ => 0), false⟩) tr k ∧
    tr.map Transition.label = [0x32, 0x12, 0x32] ∧ k.cmdPos = 3 ∧
    ∃ k', handleScancode 0x1C k = .enter k' ∧ LineSafe k'.input := by
  obtain ⟨tr, k, hr, hl, hk⟩ := exists_run_of_replay keyExec_step
    (P := fun _ k => decide (k.cmdPos = 3))
    (s := Keyboard.boot ⟨Kernel.boot (Memory.boot fun _ => 0), false⟩)
    (l := [0x32, 0x12, 0x32]) (by decide +kernel)
  obtain ⟨-, -, h⟩ := line_safe hr
  exact ⟨tr, k, hr, hl, of_decide_eq_true hk, _, rfl, (h 0x1C).2.2 _ rfl⟩

end Zer0S
