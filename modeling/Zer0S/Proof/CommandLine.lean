import Mathlib.Data.List.TakeWhile
import Zer0S.Proof.Typing

/-!
# How the shell splits a line

`shell_handle_command` copies the command up to the first space into an array of 32 characters, skips
spaces, and copies the rest into an array of 224. Both copies stop when the array is full, and the
second array is shorter than a line.

* `splitLine_texts`: what the two arrays hold, for every line.
* `split_whole_iff`: the line is the command, spaces and the arguments exactly when at most 223
  characters follow the spaces.
* `line_split`: both, and what `echo` prints.
-/

namespace Zer0S

open Lib

variable {input g cmd args : ℕ → Byte} {w l taken rest : List Byte} {f : ShellFrame} {a : Byte} {i m n : ℕ}

/-- The string in `cmd`. -/
def ShellFrame.cmdText (f : ShellFrame) : List Byte := cString ((List.range 32).map f.cmd)

/-- The string in `args`. -/
def ShellFrame.argsText (f : ShellFrame) : List Byte := cString ((List.range 224).map f.args)

/-- The command of a line: the characters before the first space, at most 31. -/
def cmdOf (w : List Byte) : List Byte := (w.takeWhile (· ≠ space)).take 31

/-- What follows the command and the spaces behind it. -/
def textOf (w : List Byte) : List Byte := (w.drop (cmdOf w).length).dropWhile (· = space)

/-! ## The parts of a line -/

theorem cmdOf_isStart (w : List Byte) : cmdOf w <+: w := (List.take_prefix ..).trans (List.takeWhile_prefix _)

theorem cmdOf_append (w : List Byte) : cmdOf w ++ w.drop (cmdOf w).length = w :=
  (List.prefix_append_drop (cmdOf_isStart w)).symm

theorem length_cmdOf (w : List Byte) : (cmdOf w).length ≤ 31 := by
  rw [cmdOf, List.length_take]
  exact min_le_left ..

theorem ne_space_of_mem_cmdOf (h : a ∈ cmdOf w) : a ≠ space := by
  have := List.mem_takeWhile_imp (List.mem_of_mem_take h)
  simpa using this

/-- The head of a list behind its longest part with `p`. -/
theorem dropWhile_head {p : Byte → Bool} (h : l.dropWhile p = a :: rest) : p a = false := by
  have := List.head?_dropWhile_not p l
  rwa [h] at this

/-- The command ends at a space, if it is shorter than 31 characters. -/
theorem cmdOf_stop (h : w.drop (cmdOf w).length = a :: rest) (hlen : (cmdOf w).length < 31) : a = space := by
  have hall : cmdOf w = w.takeWhile (· ≠ space) := by
    apply List.take_of_length_le
    rw [cmdOf, List.length_take] at hlen
    omega
  have hdrop : w.dropWhile (· ≠ space) = a :: rest := by
    have h1 := cmdOf_append w
    rw [hall, ← hall, h] at h1
    have h2 := List.takeWhile_append_dropWhile (p := (· ≠ space)) (l := w)
    rw [← hall] at h2
    exact List.append_cancel_left (h2.trans h1.symm)
  simpa using dropWhile_head hdrop

/-- The line is the command, spaces, and what follows. -/
theorem split_parts (w : List Byte) : ∃ m, w = cmdOf w ++ List.replicate m space ++ textOf w := by
  set rest := w.drop (cmdOf w).length with hrest
  refine ⟨(rest.takeWhile (· = space)).length, ?_⟩
  have hspaces : rest.takeWhile (· = space) = List.replicate (rest.takeWhile (· = space)).length space :=
    List.eq_replicate_of_mem fun b hb => by simpa using List.mem_takeWhile_imp hb
  rw [← hspaces, List.append_assoc, textOf, ← hrest, List.takeWhile_append_dropWhile, hrest, cmdOf_append]

/-- **Nothing is lost** exactly when what follows the spaces fits into `args`. -/
theorem split_whole_iff (w : List Byte) :
    (∃ m, w = cmdOf w ++ List.replicate m space ++ (textOf w).take 223) ↔ (textOf w).length ≤ 223 := by
  obtain ⟨m, hm⟩ := split_parts w
  constructor
  · rintro ⟨m', hm'⟩
    by_contra hlong
    have hlen := congrArg List.length (hm.symm.trans hm')
    simp only [List.length_append, List.length_replicate, List.length_take] at hlen
    -- there would be more spaces, but the text starts with none
    obtain ⟨d, hd⟩ : ∃ d, m' = m + (d + 1) := ⟨m' - m - 1, by omega⟩
    have heq := hm.symm.trans hm'
    rw [hd, List.replicate_add, List.append_assoc, List.append_assoc, List.append_assoc] at heq
    have heq := List.append_cancel_left (List.append_cancel_left heq)
    rw [List.replicate_succ, List.cons_append] at heq
    have hspace : decide (space = space) = false := dropWhile_head heq
    exact absurd hspace (by decide)
  · intro hle
    exact ⟨m, by rwa [List.take_of_length_le hle]⟩

/-! ## Scanning -/

/-- The line from the index `i` on. -/
def LineFrom (input : ℕ → Byte) (i : ℕ) (l : List Byte) : Prop := IsLine (fun n => input (i + n)) l

theorem LineFrom.head (h : LineFrom input i l) : input i = l.headD 0 := by
  cases l with
  | nil => exact h.nul
  | cons a l => exact h.chars 0 (Nat.succ_pos _)

theorem LineFrom.tail (h : LineFrom input i (a :: l)) : LineFrom input (i + 1) l := by
  refine ⟨?_, ?_, fun c hc => h.noNul c (List.mem_cons_of_mem _ hc)⟩
  · intro n hn
    have := h.chars (n + 1) (by simpa using hn)
    rwa [← Nat.add_assoc, Nat.add_right_comm] at this
  · have := h.nul
    rwa [List.length_cons, ← Nat.add_assoc, Nat.add_right_comm] at this

/-- **Scan.** A loop that goes on at each of the characters `taken`, and stops behind them. `K m` holds
when `m` of them were scanned. -/
theorem scan_line {body : ShellFrame → ShellFrame ⊕ ShellFrame} {K : ℕ → ShellFrame → Prop}
    (hgo : ∀ m f, (hm : m < taken.length) → K m f → input f.i = taken[m] →
      ∃ f', body f = .inl f' ∧ f'.i = f.i + 1 ∧ K (m + 1) f')
    (hstop : ∀ f, K taken.length f → input f.i = rest.headD 0 →
      ∃ r, body f = .inr r ∧ r.i = f.i ∧ K taken.length r) :
    ∀ d m f, m + d = taken.length → K m f → LineFrom input f.i (taken.drop m ++ rest) →
      ∃ n r, loop body n f = some r ∧ K taken.length r ∧ LineFrom input r.i rest := by
  intro d
  induction d with
  | zero =>
    intro m f hm hk hl
    obtain rfl : m = taken.length := hm
    rw [List.drop_length, List.nil_append] at hl
    obtain ⟨r, hb, hi, hr⟩ := hstop f hk hl.head
    exact ⟨1, r, loop_done hb, hr, hi ▸ hl⟩
  | succ d ih =>
    intro m f hm hk hl
    have hlt : m < taken.length := by omega
    rw [List.drop_eq_getElem_cons hlt, List.cons_append] at hl
    obtain ⟨f', hb, hi, hk'⟩ := hgo m f hlt hk hl.head
    obtain ⟨n, r, hn, hr⟩ := ih (m + 1) f' (by omega) hk' (hi ▸ hl.tail)
    exact ⟨n + 1, r, (loop_next hb).trans hn, hr⟩

/-! ## Arrays -/

/-- The array holds the first `m` characters of `l`. -/
def Holds (g : ℕ → Byte) (l : List Byte) (m : ℕ) : Prop := ∀ i < m, l[i]? = some (g i)

theorem Holds.push (h : Holds g l m) (hm : m < l.length) (ha : a = l[m]) : Holds (Function.update g m a) l (m + 1) := by
  intro i hi
  rw [Function.update_apply]
  split_ifs with him
  · rw [him, ha, List.getElem?_eq_getElem hm]
  · exact h i (by omega)

/-- With a NUL behind them, they are a string. -/
theorem Holds.isLine (h : Holds g l l.length) (h0 : ∀ c ∈ l, c ≠ 0) : IsLine (Function.update g l.length 0) l := by
  refine ⟨?_, Function.update_self .., h0⟩
  intro i hi
  have := h i hi
  rw [List.getElem?_eq_getElem hi] at this
  rw [Function.update_of_ne (by omega)]
  exact (Option.some.inj this).symm

/-- A string in an array that has room for it and its NUL. -/
theorem IsLine.cString (h : IsLine g l) (hn : l.length < n) : cString ((List.range n).map g) = l := by
  induction l generalizing g n with
  | nil =>
    obtain ⟨n, rfl⟩ : ∃ n', n = n' + 1 := ⟨n - 1, by omega⟩
    have h0 : g 0 = 0 := h.nul
    rw [List.range_succ_eq_map, List.map_cons, Zer0S.cString, List.takeWhile_cons_of_neg (by simp [h0])]
  | cons a l ih =>
    obtain ⟨n, rfl⟩ : ∃ n', n = n' + 1 := ⟨n - 1, by omega⟩
    rw [List.length_cons] at hn
    have ha : g 0 = a := h.chars 0 (Nat.succ_pos _)
    have h0 : a ≠ 0 := h.noNul a List.mem_cons_self
    have htail : IsLine (g ∘ Nat.succ) l :=
      ⟨fun i hi => h.chars (i + 1) (by simpa using hi), h.nul, fun c hc => h.noNul c (List.mem_cons_of_mem _ hc)⟩
    rw [List.range_succ_eq_map, List.map_cons, List.map_map, Zer0S.cString,
      List.takeWhile_cons_of_pos (by simpa [ha] using h0), ha]
    exact congrArg (a :: ·) (ih htail (by omega))

/-! ## The three loops -/

/-- The loop that copies the command. -/
theorem cmdLoop_copies (hl : IsLine input w) (hf : f.i = 0 ∧ f.j = 0) :
    ∃ n r, loop (cmdBody input) n f = some r ∧ (r.i = (cmdOf w).length ∧ r.j = 0 ∧ Holds r.cmd (cmdOf w) r.i) ∧
      LineFrom input r.i (w.drop (cmdOf w).length) := by
  have hrest : LineFrom input f.i ((cmdOf w).drop 0 ++ w.drop (cmdOf w).length) := by
    rw [List.drop_zero, cmdOf_append, hf.1]
    simpa [LineFrom] using hl
  refine scan_line (K := fun m f => f.i = m ∧ f.j = 0 ∧ Holds f.cmd (cmdOf w) f.i) ?_ ?_ (cmdOf w).length 0 f
    (Nat.zero_add _) ⟨hf.1, hf.2, fun i hi => by omega⟩ hrest
  · rintro m f hm ⟨rfl, hj, hcmd⟩ ha
    have hmem : (cmdOf w)[f.i] ∈ cmdOf w := List.getElem_mem hm
    have hgo : input f.i ≠ 0 ∧ input f.i ≠ space ∧ f.i < 31 := by
      rw [ha]
      exact ⟨hl.noNul _ ((cmdOf_isStart w).subset hmem), ne_space_of_mem_cmdOf hmem, hm.trans_le (length_cmdOf w)⟩
    refine ⟨{ f.read.setCmd (input f.i) with i := f.i + 1 }, ?_, rfl, rfl, hj, hcmd.push hm ha⟩
    exact if_pos hgo
  · rintro f ⟨hi, hj, hcmd⟩ ha
    have hstop : ¬ (input f.i ≠ 0 ∧ input f.i ≠ space ∧ f.i < 31) := by
      rintro ⟨h0, hsp, h31⟩
      cases he : w.drop (cmdOf w).length with
      | nil =>
        rw [he] at ha
        exact h0 ha
      | cons a u =>
        rw [he] at ha
        exact hsp (ha.trans (cmdOf_stop he (hi ▸ h31)))
    exact ⟨f.read, if_neg hstop, rfl, hi, hj, hcmd⟩

/-- The loop that skips spaces. -/
theorem spaceLoop_skips (hl : LineFrom input f.i rest) :
    ∃ n r, loop (spaceBody input) n f = some r ∧ (r.j = f.j ∧ r.cmd = f.cmd) ∧
      LineFrom input r.i (rest.dropWhile (· = space)) := by
  have hparts : LineFrom input f.i ((rest.takeWhile (· = space)).drop 0 ++ rest.dropWhile (· = space)) := by
    rwa [List.drop_zero, List.takeWhile_append_dropWhile]
  refine scan_line (K := fun _ r => r.j = f.j ∧ r.cmd = f.cmd) ?_ ?_ _ 0 f (Nat.zero_add _) ⟨rfl, rfl⟩ hparts
  · rintro m g hm hk ha
    have hspace : input g.i = space := by
      rw [ha]
      simpa using List.mem_takeWhile_imp (List.getElem_mem hm)
    exact ⟨{ g.read with i := g.i + 1 }, if_pos hspace, rfl, hk⟩
  · rintro g hk ha
    have hstop : input g.i ≠ space := by
      cases he : rest.dropWhile (· = space) with
      | nil =>
        rw [ha, he]
        decide
      | cons a u =>
        rw [ha, he]
        simpa using dropWhile_head he
    exact ⟨g.read, if_neg hstop, rfl, hk⟩

/-- The loop that copies the arguments. -/
theorem argsLoop_copies (hl : LineFrom input f.i l) (hj : f.j = 0) :
    ∃ n r, loop (argsBody input) n f = some r ∧
      (r.j = (l.take 223).length ∧ r.cmd = f.cmd ∧ Holds r.args (l.take 223) r.j) ∧
      LineFrom input r.i (l.drop 223) := by
  have hparts : LineFrom input f.i ((l.take 223).drop 0 ++ l.drop 223) := by
    rwa [List.drop_zero, List.take_append_drop]
  refine scan_line (K := fun m r => r.j = m ∧ r.cmd = f.cmd ∧ Holds r.args (l.take 223) r.j) ?_ ?_ _ 0 f
    (Nat.zero_add _) ⟨hj, rfl, fun i hi => by omega⟩ hparts
  · rintro m g hm ⟨rfl, hcmd, hargs⟩ ha
    have hgo : input g.i ≠ 0 ∧ g.j < 223 := by
      rw [ha]
      exact ⟨hl.noNul _ (List.mem_of_mem_take (List.getElem_mem hm)), by rw [List.length_take] at hm; omega⟩
    refine ⟨{ g.read.setArgs (input g.i) with i := g.i + 1, j := g.j + 1 }, if_pos hgo, rfl, rfl, hcmd, ?_⟩
    exact hargs.push hm ha
  · rintro g ⟨hgj, hcmd, hargs⟩ ha
    have hstop : ¬ (input g.i ≠ 0 ∧ g.j < 223) := by
      rintro ⟨h0, h223⟩
      rw [hgj, List.length_take] at h223
      rw [ha, List.drop_eq_nil_of_le (by omega)] at h0
      exact h0 rfl
    exact ⟨g.read, if_neg hstop, rfl, hgj, hcmd, hargs⟩

/-- **Split.** What the two arrays hold. -/
theorem splitLine_texts (hl : IsLine input w) (cmd args : ℕ → Byte) :
    ∃ n f, splitLine n cmd args input = some f ∧ f.cmdText = cmdOf w ∧ f.argsText = (textOf w).take 223 := by
  obtain ⟨n₁, f₁, e₁, ⟨hi₁, hj₁, hcmd₁⟩, hl₁⟩ := cmdLoop_copies (f := ⟨cmd, args, 0, 0, [0], [], []⟩) hl ⟨rfl, rfl⟩
  obtain ⟨n₂, f₂, e₂, ⟨hj₂, hcmd₂⟩, hl₂⟩ := spaceLoop_skips (f := f₁.setCmd 0) hl₁
  obtain ⟨n₃, f₃, e₃, ⟨hj₃, hcmd₃, hargs₃⟩, -⟩ := argsLoop_copies (l := textOf w) hl₂ (hj₂.trans hj₁)
  refine ⟨_, _, splitLine_eq e₁ e₂ e₃, ?_, ?_⟩
  · have hcmd : (f₃.setArgs 0).cmd = Function.update f₁.cmd f₁.i 0 := hcmd₃.trans hcmd₂
    have hline : IsLine (f₃.setArgs 0).cmd (cmdOf w) := by
      rw [hcmd, hi₁]
      rw [hi₁] at hcmd₁
      exact hcmd₁.isLine fun c hc => hl.noNul c ((cmdOf_isStart w).subset hc)
    exact hline.cString ((length_cmdOf w).trans_lt (by norm_num))
  · have hline : IsLine (f₃.setArgs 0).args ((textOf w).take 223) := by
      show IsLine (Function.update f₃.args f₃.j 0) _
      rw [hj₃]
      rw [hj₃] at hargs₃
      exact hargs₃.isLine fun c hc => hl₂.noNul c (List.mem_of_mem_take hc)
    exact hline.cString ((List.length_take_le ..).trans_lt (by norm_num))

/-! ## `echo` -/

/-- A comparison stops at the NUL. -/
theorem stringCompare_cString : ∀ s t : List Byte, stringCompare (cString s) t = stringCompare s t
  | [], _ => rfl
  | c :: s, t => by
    by_cases h0 : c = 0
    · subst h0
      have hnil : cString ((0 : Byte) :: s) = [] := rfl
      rw [hnil]
      cases t with
      | nil => rfl
      | cons d t => simp [stringCompare]
    · have hcons : cString (c :: s) = c :: cString s := List.takeWhile_cons_of_pos (by simpa using h0)
      rw [hcons]
      cases t with
      | nil => rfl
      | cons d t => rw [stringCompare, stringCompare, stringCompare_cString s t]

theorem commandOf_cString (s : List Byte) : commandOf (cString s) = commandOf s := by
  simp only [commandOf, stringCompare_cString]

/-- With the command `echo`, the string in `args` is printed. -/
theorem dispatchCommand_echo {c : Console} (h : f.cmdText = ascii "echo") (hc : c.rebooting = false) (n : ℕ) :
    dispatchCommand n f c =
      some ((c.print [.text "\n", .bytes f.argsText, .text "\n"]).print [.text "\nZer0S> "]) := by
  have hcommand : commandOf ((List.range 32).map f.cmd) = some .echo := by
    rw [← commandOf_cString]
    exact (congrArg commandOf h).trans (by decide +kernel)
  have hrun : (cmdEcho ((List.range 224).map f.args) c).rebooting = false := hc
  simp only [dispatchCommand, hcommand, runCommand, Option.map_some, hrun, Bool.false_eq_true, if_false]
  rfl

/-- **The command line.** For every line, the command is the characters before the first space, at most
31, and behind it and some spaces the arguments are the first 223 characters of what follows; the line is
command, spaces and arguments exactly when no more than these follow. `echo` prints the arguments. -/
theorem line_split (hl : IsLine input w) (cmd args : ℕ → Byte) :
    ∃ n f, splitLine n cmd args input = some f ∧ f.cmdText = cmdOf w ∧ f.argsText = (textOf w).take 223 ∧
      (∃ m, w = f.cmdText ++ List.replicate m space ++ textOf w) ∧
      ((∃ m, w = f.cmdText ++ List.replicate m space ++ f.argsText) ↔ (textOf w).length ≤ 223) ∧
      ∀ c : Console, f.cmdText = ascii "echo" → c.rebooting = false → shellHandleCommand n cmd args input c =
        some ((c.print [.text "\n", .bytes f.argsText, .text "\n"]).print [.text "\nZer0S> "]) := by
  obtain ⟨n, f, hf, hcmd, hargs⟩ := splitLine_texts hl cmd args
  refine ⟨n, f, hf, hcmd, hargs, ?_, ?_, ?_⟩
  · rw [hcmd]
    exact split_parts w
  · rw [hcmd, hargs]
    exact split_whole_iff w
  · intro c hecho hc
    have h0 : input 0 ≠ 0 := by
      -- the line is not empty
      cases w with
      | nil =>
        rw [hcmd] at hecho
        exact absurd hecho (by decide)
      | cons a w => exact hl.ne_nul (Nat.succ_pos _)
    rw [shellHandleCommand, if_neg h0, hf, Option.bind_some, dispatchCommand_echo hecho hc]

/-- `echo hi` on a line. -/
theorem line_split_echo : ∃ n f,
    splitLine n (fun _ => 0xFF) (fun _ => 0xFF) (fun i => (ascii "echo  hi").getD i 0) = some f ∧
      f.cmdText = ascii "echo" ∧ f.argsText = ascii "hi" := by
  have hl : IsLine (fun i => (ascii "echo  hi").getD i 0) (ascii "echo  hi") :=
    isLine_getD (by simp [ascii])
  obtain ⟨n, f, hf, hcmd, hargs, -⟩ := line_split hl (fun _ => 0xFF) (fun _ => 0xFF)
  exact ⟨n, f, hf, hcmd.trans (by decide), hargs.trans (by decide)⟩

/-- `echo` and a text of 224 letters, which can be entered: the last letter is not printed. -/
theorem long_text_cut : CanEnter (Keyboard.boot ⟨Kernel.boot (Memory.boot fun _ => 0), false⟩)
      (ascii "echo " ++ List.replicate 224 0x61) ∧
    ∀ input cmd args, IsLine input (ascii "echo " ++ List.replicate 224 0x61) →
      ∃ n f, splitLine n cmd args input = some f ∧ f.cmdText = ascii "echo" ∧
        f.argsText = List.replicate 223 0x61 ∧
        ¬ ∃ m, ascii "echo " ++ List.replicate 224 0x61 = f.cmdText ++ List.replicate m space ++ f.argsText := by
  constructor
  · refine canEnter_text rfl ?_ (by decide +kernel)
    intro a ha
    rcases List.mem_append.1 ha with ha | ha
    · have hecho : ∀ a ∈ ascii "echo ", Typeable a := by decide +kernel
      exact hecho a ha
    · rw [List.eq_of_mem_replicate ha]
      decide +kernel
  · intro input cmd args hl
    obtain ⟨n, f, hf, hcmd, hargs⟩ := splitLine_texts hl cmd args
    have htext : textOf (ascii "echo " ++ List.replicate 224 0x61) = List.replicate 224 0x61 := by decide +kernel
    have hecho : cmdOf (ascii "echo " ++ List.replicate 224 0x61) = ascii "echo" := by decide +kernel
    refine ⟨n, f, hf, hcmd.trans hecho, by rw [hargs, htext, List.take_replicate]; rfl, ?_⟩
    rw [hcmd, hargs, split_whole_iff, htext, List.length_replicate]
    decide

end Zer0S
