import Zer0S.Proof.CommandLine

/-!
# Which handler a line runs

`shell_handle_command` compares the first 31 characters before the first space with the names of the
commands, in a chain. `tokenOf w` is all the characters before the first space of the line `w`.

* `stringCompare_eq_zero`: the comparison is exact.
* `commandOf_eq`: the chain finds a handler exactly for its name.
* `handlers_exact`: the handler of a command runs exactly when `tokenOf w` is its name, however long
  it is; what else a line does.
-/

namespace Zer0S

open Lib

variable {input : ℕ → Byte} {w s t : List Byte} {f : ShellFrame} {command : Command}

/-- The name of a command. -/
def Command.name : Command → String
  | .help => "help"
  | .mem => "mem"
  | .procs => "procs"
  | .heap => "heap"
  | .kmalloc => "kmalloc"
  | .clear => "clear"
  | .info => "info"
  | .echo => "echo"
  | .status => "status"
  | .hex => "hex"
  | .about => "about"
  | .reboot => "reboot"

/-- The characters before the first space. -/
def tokenOf (w : List Byte) : List Byte := w.takeWhile (· ≠ space)

/-- What `shell_handle_command` prints at its end, if it gets there. -/
def Console.prompt (c : Console) : Console := if c.rebooting then c else c.print [.text "\nZer0S> "]

/-- `shell_handle_command` calls the handler of `command`, after it split the line into `f`. -/
def Calls (input : ℕ → Byte) (f : ShellFrame) (command : Command) : Prop :=
  input 0 ≠ 0 ∧ commandOf ((List.range 32).map f.cmd) = some command

/-! ## The comparison -/

theorem cString_cons (a : Byte) (s : List Byte) : cString (a :: s) = if a = 0 then [] else a :: cString s := by
  unfold cString
  by_cases ha : a = 0
  · rw [if_pos ha, List.takeWhile_cons_of_neg (by simpa using ha)]
  · rw [if_neg ha, List.takeWhile_cons_of_pos (by simpa using ha)]

/-- **The comparison is exact**: it gives 0 for the same string only. -/
theorem stringCompare_eq_zero : ∀ {s t : List Byte}, (∀ a ∈ t, a ≠ 0) →
    (stringCompare s t = 0 ↔ cString s = t) := by
  intro s
  induction s with
  | nil =>
    intro t ht
    cases t with
    | nil => exact ⟨fun _ => rfl, fun _ => rfl⟩
    | cons d t =>
      have hd : d.toNat ≠ 0 := fun h => ht d List.mem_cons_self (BitVec.eq_of_toNat_eq h)
      simp [stringCompare, cString, hd]
  | cons a s ih =>
    intro t ht
    rw [cString_cons]
    cases t with
    | nil =>
      have ha : a.toNat = 0 ↔ a = 0 := ⟨fun h => BitVec.eq_of_toNat_eq h, fun h => h ▸ rfl⟩
      simp [stringCompare, ha]
    | cons d t =>
      have hd := ht d List.mem_cons_self
      have ih := ih fun b hb => ht b (List.mem_cons_of_mem _ hb)
      unfold stringCompare
      by_cases had : a = d
      · -- the first characters are equal, and no NUL
        rw [if_pos ⟨had ▸ hd, had⟩, if_neg (had ▸ hd), ih, had, List.cons_inj_right]
      · have hne : a.toNat ≠ d.toNat := fun h => had (BitVec.eq_of_toNat_eq h)
        rw [if_neg fun h => had h.2]
        constructor
        · intro h
          omega
        · intro h
          split_ifs at h
          exact absurd (List.head_eq_of_cons_eq h) had

/-! ## The chain -/

theorem commands_names : ∀ e ∈ commands, e.1 = e.2.name := by decide

/-- The chain finds each command by its name. -/
theorem commandOf_name (command : Command) : commandOf (ascii command.name) = some command := by
  cases command <;> decide +kernel

theorem name_ne_nul (command : Command) : ∀ a ∈ ascii command.name, a ≠ 0 := by
  cases command <;> simp [ascii, Command.name]

theorem length_name (command : Command) : (ascii command.name).length < 31 := by
  cases command <;> decide

theorem name_ne_nil (command : Command) : ascii command.name ≠ [] := by
  cases command <;> decide

/-- **The chain is exact.** -/
theorem commandOf_eq : commandOf s = some command ↔ cString s = ascii command.name := by
  constructor
  · intro h
    unfold commandOf at h
    obtain ⟨e, he, hcommand⟩ := Option.map_eq_some_iff.1 h
    have hname := commands_names e (List.mem_of_find?_eq_some he)
    have hzero : stringCompare s (ascii e.1) = 0 := by simpa using List.find?_some he
    rw [hname, hcommand] at hzero
    exact (stringCompare_eq_zero (name_ne_nul command)).1 hzero
  · intro h
    rw [← commandOf_cString, h]
    exact commandOf_name command

/-! ## Lines -/

theorem splitLine_mono {n m : ℕ} {cmd args : ℕ → Byte} (hnm : n ≤ m) (h : splitLine n cmd args input = some f) :
    splitLine m cmd args input = some f := by
  unfold splitLine at h ⊢
  obtain ⟨f₁, h₁, h⟩ := Option.bind_eq_some_iff.1 h
  obtain ⟨f₂, h₂, h⟩ := Option.bind_eq_some_iff.1 h
  obtain ⟨f₃, h₃, h⟩ := Option.map_eq_some_iff.1 h
  rw [loop_mono hnm h₁, Option.bind_some]
  dsimp only
  rw [loop_mono hnm h₂, Option.bind_some, loop_mono hnm h₃, Option.map_some, h]

/-- A name is shorter than 31 characters, so that cutting the token makes no name of it. -/
theorem cmdOf_eq_name : cmdOf w = ascii command.name ↔ tokenOf w = ascii command.name := by
  have hlen := length_name command
  unfold cmdOf tokenOf
  constructor
  · intro h
    rw [← h, List.length_take] at hlen
    rwa [List.take_of_length_le (by omega)] at h
  · intro h
    rw [h, List.take_of_length_le hlen.le]

theorem cmdOf_eq_nil : cmdOf w = [] ↔ tokenOf w = [] := by
  unfold cmdOf tokenOf
  rw [List.take_eq_nil_iff]
  simp

/-- What is done for the command in `cmd`: its handler, a message, or nothing. -/
theorem dispatchCommand_cases (rounds : ℕ) (f : ShellFrame) (c : Console) :
    (∀ command, f.cmdText = ascii command.name → dispatchCommand rounds f c =
      (runCommand rounds ((List.range 224).map f.args) c command).map Console.prompt) ∧
    (f.cmdText ≠ [] → (∀ command : Command, f.cmdText ≠ ascii command.name) → dispatchCommand rounds f c =
      some ((c.print [.text "\nUnknown command: ", .bytes f.cmdText, .text "\nType 'help' for commands\n"]).prompt)) ∧
    (f.cmdText = [] → dispatchCommand rounds f c = some c.prompt) := by
  have hempty : stringCompare ((List.range 32).map f.cmd) (ascii "") = 0 ↔ f.cmdText = [] :=
    stringCompare_eq_zero (by decide)
  have hnone : (∀ command : Command, f.cmdText ≠ ascii command.name) → commandOf ((List.range 32).map f.cmd) = none := by
    intro h
    cases hfound : commandOf ((List.range 32).map f.cmd) with
    | none => rfl
    | some command => exact absurd (commandOf_eq.1 hfound) (h command)
  refine ⟨?_, ?_, ?_⟩
  · intro command h
    have hfound : commandOf ((List.range 32).map f.cmd) = some command := commandOf_eq.2 h
    simp only [dispatchCommand, hfound]
    rfl
  · intro h hall
    have hshow : stringCompare ((List.range 32).map f.cmd) (ascii "") ≠ 0 := fun h0 => h (hempty.1 h0)
    simp only [dispatchCommand, hnone hall, if_pos hshow]
    rfl
  · intro h
    have hquiet : ¬ stringCompare ((List.range 32).map f.cmd) (ascii "") ≠ 0 := fun h0 => h0 (hempty.2 h)
    have hall := hnone fun command hc => name_ne_nil command (hc.symm.trans h)
    simp only [dispatchCommand, hall, if_neg hquiet]
    rfl

/-- **Handlers.** For every line, the handler of a command runs exactly when the characters before the
first space are its name, and no other handler with it. Other characters there are an unknown command, of
which the first 31 are shown, and with none nothing runs. -/
theorem handlers_exact (hl : IsLine input w) (cmd args : ℕ → Byte) :
    ∃ n f, (∀ rounds, n ≤ rounds → splitLine rounds cmd args input = some f) ∧
      (∀ command, Calls input f command ↔ tokenOf w = ascii command.name) ∧
      (∀ a b, Calls input f a → Calls input f b → a = b) ∧
      ∀ rounds, n ≤ rounds → ∀ c,
        (∀ command, tokenOf w = ascii command.name → shellHandleCommand rounds cmd args input c =
          (runCommand rounds ((List.range 224).map f.args) c command).map Console.prompt) ∧
        (tokenOf w ≠ [] → (∀ command : Command, tokenOf w ≠ ascii command.name) →
          shellHandleCommand rounds cmd args input c =
            some ((c.print [.text "\nUnknown command: ", .bytes ((tokenOf w).take 31),
              .text "\nType 'help' for commands\n"]).prompt)) ∧
        (tokenOf w = [] → shellHandleCommand rounds cmd args input c = some (if w = [] then c else c.prompt)) := by
  obtain ⟨n, f, hf, hcmd, -⟩ := splitLine_texts hl cmd args
  have hsplit : ∀ rounds, n ≤ rounds → splitLine rounds cmd args input = some f :=
    fun rounds hn => splitLine_mono hn hf
  have h0 : input 0 = 0 ↔ w = [] := by
    cases w with
    | nil => exact ⟨fun _ => rfl, fun _ => hl.nul⟩
    | cons a w => exact ⟨fun h => absurd h (hl.ne_nul (Nat.succ_pos _)), fun h => absurd h (by simp)⟩
  have hname : ∀ command : Command, f.cmdText = ascii command.name ↔ tokenOf w = ascii command.name := by
    intro command
    rw [hcmd]
    exact cmdOf_eq_name
  have hnil : f.cmdText = [] ↔ tokenOf w = [] := by
    rw [hcmd]
    exact cmdOf_eq_nil
  have hline : tokenOf w ≠ [] → input 0 ≠ 0 := by
    intro ht h
    rw [h0.1 h] at ht
    exact ht rfl
  have hrun : ∀ rounds, n ≤ rounds → ∀ c, input 0 ≠ 0 →
      shellHandleCommand rounds cmd args input c = dispatchCommand rounds f c := by
    intro rounds hn c hne
    unfold shellHandleCommand
    rw [if_neg hne, hsplit rounds hn, Option.bind_some]
  refine ⟨n, f, hsplit, ?_, ?_, ?_⟩
  · intro command
    unfold Calls
    rw [commandOf_eq]
    constructor
    · rintro ⟨-, h⟩
      exact (hname command).1 h
    · intro h
      exact ⟨hline (h ▸ name_ne_nil command), (hname command).2 h⟩
  · intro a b ha hb
    exact Option.some.inj (ha.2.symm.trans hb.2)
  · intro rounds hn c
    obtain ⟨hhandler, hunknown, hnothing⟩ := dispatchCommand_cases rounds f c
    refine ⟨?_, ?_, ?_⟩
    · intro command h
      rw [hrun rounds hn c (hline (h ▸ name_ne_nil command))]
      exact hhandler command ((hname command).2 h)
    · intro h hall
      have hshown : f.cmdText = (tokenOf w).take 31 := hcmd
      rw [hrun rounds hn c (hline h), ← hshown]
      exact hunknown (fun h' => h (hnil.1 h')) fun command h' => hall command ((hname command).1 h')
    · intro h
      by_cases hw : w = []
      · unfold shellHandleCommand
        rw [if_pos (h0.2 hw), if_pos hw]
      · rw [hrun rounds hn c fun h' => hw (h0.1 h'), if_neg hw]
        exact hnothing (hnil.2 h)

/-- A token of 35 characters that starts with a name and ends with one. -/
theorem handlers_exact_long : ∃ n f,
    splitLine n (fun _ => 0) (fun _ => 0) (fun i => (ascii "echoooooooooooooooooooooooooooohelp x").getD i 0) = some f ∧
      ∀ command, ¬ Calls (fun i => (ascii "echoooooooooooooooooooooooooooohelp x").getD i 0) f command := by
  have hl : IsLine (fun i => (ascii "echoooooooooooooooooooooooooooohelp x").getD i 0)
      (ascii "echoooooooooooooooooooooooooooohelp x") := isLine_getD (by simp [ascii])
  obtain ⟨n, f, hf, hcalls, -⟩ := handlers_exact hl (fun _ => 0) (fun _ => 0)
  refine ⟨n, f, hf n le_rfl, ?_⟩
  intro command
  rw [hcalls command]
  intro h
  have hlen := congrArg List.length h
  have hlong : (tokenOf (ascii "echoooooooooooooooooooooooooooohelp x")).length = 35 := by decide +kernel
  have := length_name command
  omega

end Zer0S
