import Zer0S.Lib.Simulation
import Zer0S.Proof.Commands
import Zer0S.Proof.Editing

/-!
# Every run of keyboard and shell is a session

* `keyboardHandler_shows`: the handler returns whatever the shell's arrays hold, and does what the
  scancode does in the session.
* `session_refined`: after every run the system shows the session of its scancodes, and the runs are those
  of the sequences in which nothing follows the `reboot`.
* `ignored_iff`: the scancodes that can be left out anywhere.
-/

namespace Zer0S

open Lib

variable {k k' : Keyboard} {s : Session} {c₀ : Console} {text : Command → List Print}
  {tr tr' : List (Transition Keyboard Byte)}

/-- **The system shows** a session. -/
structure ShowsSession (c₀ : Console) (k : Keyboard) (s : Session) : Prop where
  shell : ShellShows c₀ k.console s.shell
  editor : s.shell.rebooting = false → EditorShows k s.editor

/-! ## One scancode -/

/-- **Scancodes.** The handler returns, and what it does does not depend on what the shell's arrays hold. -/
theorem keyboardHandler_shows (h : ShowsSession c₀ k s) (hrun : s.shell.rebooting = false) (scancode : Byte)
    (cmd args : ℕ → Byte) :
    ∃ k', Returns (fun n => keyboardHandler n cmd args scancode k) k' ∧
      ShowsSession c₀ k' (s.scan c₀.text scancode) := by
  have hr := handleScancode_shows (h.editor hrun) scancode
  unfold keyboardHandler Session.scan
  rw [if_neg (by simp [hrun])]
  cases hhandle : handleScancode scancode k with
  | done k₁ =>
    rw [hhandle] at hr
    obtain ⟨hsub, hshow, hcon⟩ := hr
    refine ⟨k₁, returns_const k₁, ?_, fun _ => hshow⟩
    simp only [hsub, Option.elim_none]
    rw [hcon]
    exact h.shell.print _
  | enter k₁ =>
    rw [hhandle] at hr
    obtain ⟨w, hsub, hl, hshow, hcon⟩ := hr
    have hshell : ShellShows c₀ k₁.console (s.shell.print (s.editor.scan scancode).shown) := by
      rw [hcon]
      exact h.shell.print _
    obtain ⟨c, hret, hc⟩ := shellHandleCommand_shows hshell hl cmd args
    refine ⟨_, hret.map _, ?_, ?_⟩
    · simp only [hsub, Option.elim_some]
      split_ifs <;> exact hc
    · simp only [hsub, Option.elim_some]
      intro hgo
      rw [if_neg (by rw [hc.rebooting, hgo]; exact Bool.false_ne_true)]
      exact hshow.console c

theorem steady_kmalloc (w : Word) (m : Memory) : Steady fun n => kmalloc n w m := by
  unfold kmalloc
  apply (steady_const _).ite
  intro n l r hnl h
  dsimp only at h ⊢
  cases hloop : loop (kmallocBody (heapSetup m).mem (roundUp w)) n (heapSetup m).heapHead with
  | none =>
    rw [hloop] at h
    cases h
  | some found =>
    rw [hloop] at h
    rw [loop_mono hnl hloop]
    exact h

theorem steady_runCommand (args : List Byte) (c : Console) (command : Command) :
    Steady fun n => runCommand n args c command := by
  cases command
  case heap => exact ((steady_loop _ _).map _).map _
  case kmalloc => exact ((steady_kmalloc _ _).map _).ite (steady_const _)
  all_goals exact steady_const _

theorem steady_shellHandleCommand (cmd args input : ℕ → Byte) (c : Console) :
    Steady fun n => shellHandleCommand n cmd args input c := by
  have hsplit : Steady fun n => splitLine n cmd args input := fun n m r hnm h => splitLine_mono hnm h
  have hdispatch : ∀ f, Steady fun n => dispatchCommand n f c := by
    intro f
    unfold dispatchCommand
    cases hfound : commandOf ((List.range 32).map f.cmd) with
    | none =>
      simp only [hfound]
      exact steady_const _
    | some command =>
      simp only [hfound]
      exact (steady_runCommand _ c command).map _
  exact (steady_const _).ite (hsplit.bind hdispatch)

theorem steady_keyboardHandler (cmd args : ℕ → Byte) (scancode : Byte) (k : Keyboard) :
    Steady fun n => keyboardHandler n cmd args scancode k := by
  unfold keyboardHandler
  cases handleScancode scancode k with
  | done k₁ => exact steady_const _
  | enter k₁ => exact (steady_shellHandleCommand cmd args _ _).map _

/-- **Step.** -/
theorem keyStep_shows {scancode : Byte} (h : ShowsSession c₀ k s) (hs : KeyStep k scancode k') :
    s.shell.rebooting = false ∧ ShowsSession c₀ k' (s.scan c₀.text scancode) := by
  obtain ⟨hrun, n, cmd, args, hk⟩ := hs
  rw [h.shell.rebooting] at hrun
  obtain ⟨k₁, hret, hshow⟩ := keyboardHandler_shows h hrun scancode cmd args
  have hsame := hret.det ((steady_keyboardHandler cmd args scancode k).returns hk)
  exact ⟨hrun, hsame ▸ hshow⟩

/-- Any keyboard with a sound line and heap shows some session. -/
theorem exists_session {heap : Option (List Seg)} (hinv : LineInv k) (hheap : HeapIs k.console.kernel.memory heap) :
    ∃ s, ShowsSession k.console k s ∧ s.shell.heap = heap ∧ s.shell.rebooting = k.console.rebooting := by
  have hlen : k.line.length ≤ 255 := by
    have := hinv.pos
    rw [Keyboard.length_line]
    omega
  refine ⟨⟨⟨k.shiftPressed, k.capsLock, if k.deadKey then some k.deadChar else none, ⟨k.line, hlen⟩⟩,
    heap, k.console.kernel.memory.console, k.console.rebooting⟩, ⟨?_, ?_⟩, rfl, rfl⟩
  · exact ⟨hheap, rfl, rfl, .refl _⟩
  · exact fun _ => ⟨hinv, rfl, rfl, rfl, rfl⟩

/-- Once there are blocks, there are always blocks. -/
theorem scan_heap (text : Command → List Print) (s : Session) (scancode : Byte) (h : s.shell.heap.isSome) :
    (s.scan text scancode).shell.heap.isSome := by
  have hrun : ∀ (args : List Byte) (command : Command) (st : ShellState), st.heap.isSome →
      (st.run text args command).heap.isSome := by
    intro args command st hst
    cases command
    case kmalloc =>
      unfold ShellState.run
      split_ifs
      · exact hst
      · rfl
    all_goals exact hst
  have hline : ∀ (w : List Byte) (st : ShellState), st.heap.isSome → (st.line text w).heap.isSome := by
    intro w st hst
    have hprompt : ∀ st : ShellState, st.heap.isSome →
        (if st.rebooting then st else st.print [.text "\nZer0S> "]).heap.isSome := by
      intro st hst
      split_ifs <;> exact hst
    unfold ShellState.line
    by_cases hw : w = []
    · rw [if_pos hw]
      exact hst
    · rw [if_neg hw]
      apply hprompt
      split
      · exact hrun _ _ st hst
      · split_ifs <;> exact hst
  unfold Session.scan
  by_cases hreb : s.shell.rebooting = true
  · rw [if_pos hreb]
    exact h
  · rw [if_neg hreb]
    dsimp only
    cases (s.editor.scan scancode).submitted with
    | none => exact h
    | some w => exact hline w (s.shell.print _) h

/-- What a scancode leaves of the memory and the processes. -/
theorem keyStep_kept {scancode : Byte} {l : List Seg} (hinv : LineInv k) (hheap : HeapInv k.console.kernel.memory l)
    (hs : KeyStep k scancode k') :
    LineInv k' ∧ KernelKept k.console k'.console ∧ ∃ l', HeapInv k'.console.kernel.memory l' := by
  obtain ⟨s, hshow, hblocks, -⟩ := exists_session hinv (HeapIs.some hheap)
  obtain ⟨-, hshow'⟩ := keyStep_shows hshow hs
  refine ⟨lineInv_step hinv hs, hshow'.shell.kept, ?_⟩
  have hsome := scan_heap k.console.text s scancode (by rw [hblocks]; rfl)
  obtain ⟨l', hl'⟩ := Option.isSome_iff_exists.1 hsome
  have hheap' := hshow'.shell.heap
  rw [hl'] at hheap'
  exact ⟨l', hheap'⟩

/-- The handler returns. -/
theorem exists_keyStep {l : List Seg} (hinv : LineInv k) (hheap : HeapInv k.console.kernel.memory l)
    (hrun : k.console.rebooting = false) (scancode : Byte) : ∃ k', KeyStep k scancode k' := by
  obtain ⟨s, hshow, -, hreb⟩ := exists_session hinv (HeapIs.some hheap)
  obtain ⟨k', ⟨n, hret⟩, -⟩ := keyboardHandler_shows hshow (hreb.trans hrun) scancode (fun _ => 0) (fun _ => 0)
  exact ⟨k', hrun, n, _, _, hret n le_rfl⟩

/-! ## Runs -/

/-- The session after some scancodes. -/
def Session.after (text : Command → List Print) (s : Session) (scancodes : List Byte) : Session :=
  scancodes.foldl (Session.scan text) s

theorem after_append (s : Session) (bs bs' : List Byte) :
    s.after text (bs ++ bs') = (s.after text bs).after text bs' := List.foldl_append ..

/-- The session that starts on a console, with these heap blocks. -/
def Session.start (heap : Option (List Seg)) (output : List Print) : Session := ⟨.start, heap, output, false⟩

theorem shows_boot {c : Console} {heap : Option (List Seg)} (hc : c.rebooting = false)
    (hheap : HeapIs c.kernel.memory heap) :
    ShowsSession c (Keyboard.boot c) (.start heap c.kernel.memory.console) :=
  ⟨⟨hheap, rfl, hc, .refl c⟩, fun _ => editorShows_boot c⟩

/-- **After a run** the system shows the session of the scancodes, and it was not rebooting before any of
them. -/
theorem run_shows {k₀ : Keyboard} (hr : Run KeyStep k₀ tr k) (h : ShowsSession c₀ k₀ s) :
    ShowsSession c₀ k (s.after c₀.text (labels tr)) ∧
      ∀ bs b, bs ++ [b] <+: labels tr → (s.after c₀.text bs).shell.rebooting = false := by
  refine hr.last_ind (P := fun tr k => ShowsSession c₀ k (s.after c₀.text (labels tr)) ∧
    ∀ bs b, bs ++ [b] <+: labels tr → (s.after c₀.text bs).shell.rebooting = false) ⟨h, ?_⟩ ?_
  · intro bs b hpre
    simp at hpre
  · rintro tr a i b - ⟨ih, hrun⟩ hs
    obtain ⟨hnow, hshow⟩ := keyStep_shows ih hs
    refine ⟨?_, ?_⟩
    · rw [labels_append, after_append]
      exact hshow
    · intro bs c hpre
      rw [labels_append, labels_cons, labels_nil, List.prefix_concat_iff] at hpre
      rcases hpre with heq | hpre
      · obtain ⟨rfl, -⟩ := List.append_inj' heq rfl
        exact hnow
      · exact hrun bs c hpre

/-- **A run exists** for scancodes of which none follows the `reboot`. -/
theorem exists_run (h : ShowsSession c₀ k s) (bs : List Byte)
    (hrun : ∀ pre b, pre ++ [b] <+: bs → (s.after c₀.text pre).shell.rebooting = false) :
    ∃ tr k', Run KeyStep k tr k' ∧ labels tr = bs := by
  induction bs generalizing k s with
  | nil => exact ⟨[], k, .nil k, rfl⟩
  | cons b bs ih =>
    have hnow : s.shell.rebooting = false := hrun [] b ⟨bs, rfl⟩
    obtain ⟨k₁, ⟨n, hret⟩, hshow⟩ := keyboardHandler_shows h hnow b (fun _ => 0) (fun _ => 0)
    have hstep : KeyStep k b k₁ := ⟨h.shell.rebooting.trans hnow, n, _, _, hret n le_rfl⟩
    obtain ⟨tr, k', hr, hl⟩ := ih hshow fun pre c hpre => hrun (b :: pre) c (List.cons_prefix_cons.2 ⟨rfl, hpre⟩)
    exact ⟨⟨k, b, k₁⟩ :: tr, k', .cons hstep hr, by rw [labels_cons, hl]⟩

/-- **Refinement.** From any console, after every run of keyboard and shell the system shows the session of
the scancodes, whatever the shell's arrays hold; and there is a run for a sequence of scancodes exactly
when no scancode of it follows the `reboot`. -/
theorem session_refined {c : Console} {heap : Option (List Seg)} (hc : c.rebooting = false)
    (hheap : HeapIs c.kernel.memory heap) :
    (∀ tr k, Run KeyStep (Keyboard.boot c) tr k →
      ShowsSession c k ((Session.start heap c.kernel.memory.console).after c.text (labels tr))) ∧
    ∀ bs, (∃ tr k, Run KeyStep (Keyboard.boot c) tr k ∧ labels tr = bs) ↔
      ∀ pre b, pre ++ [b] <+: bs →
        ((Session.start heap c.kernel.memory.console).after c.text pre).shell.rebooting = false := by
  have hboot := shows_boot hc hheap
  refine ⟨fun tr k hr => (run_shows hr hboot).1, ?_⟩
  intro bs
  constructor
  · rintro ⟨tr, k, hr, rfl⟩
    exact (run_shows hr hboot).2
  · exact exists_run hboot bs

/-- A key and Enter, on the console before anything ran. -/
theorem session_refined_key : ∃ tr k,
    Run KeyStep (Keyboard.boot ⟨Kernel.boot (Memory.boot fun _ => 0), false⟩) tr k ∧ labels tr = [0x1E, 0x1C] := by
  have hheap : HeapIs (Memory.boot fun _ => 0) none := rfl
  have h := session_refined (c := ⟨Kernel.boot (Memory.boot fun _ => 0), false⟩) rfl hheap
  apply (h.2 _).2
  intro pre b hpre
  have hpre : pre ++ [b] <+: [0x1E] ++ [0x1C] := hpre
  rcases List.prefix_concat_iff.1 hpre with heq | hpre
  · obtain ⟨rfl, -⟩ := List.append_inj' heq rfl
    rfl
  · have hpre : pre ++ [b] <+: [] ++ [0x1E] := hpre
    rcases List.prefix_concat_iff.1 hpre with heq | hpre
    · obtain ⟨rfl, -⟩ := List.append_inj' heq rfl
      rfl
    · simp at hpre

/-! ## Scancodes that can be left out -/

/-- A scancode that does nothing in a session: the release of a key that is not Shift, a press of Ctrl, Alt,
Num Lock or Scroll Lock, and that of a key without a character for the line. -/
def Ignored (scancode : Byte) : Prop :=
  let key := scancode &&& 0x7F
  key ≠ 0x2A ∧ key ≠ 0x36 ∧ (scancode &&& 0x80 ≠ 0 ∨ key ∈ ([0x1D, 0x38, 0x45, 0x46] : List Byte) ∨
    key ∉ ([0x3A, 0x1C, 0x0E, 0x0F, 0x01] : List Byte) ∧
      ∀ shift, ¬ isPrintable (keyChar shift key) ∧ keyChar shift key ≠ 0x09)

instance (scancode : Byte) : Decidable (Ignored scancode) := inferInstanceAs (Decidable (_ ∧ _ ∧ _))

/-- The press of a key without a character. -/
theorem press_ignored {key : Byte} {e : Editor} (hp : ¬ isPrintable (keyChar e.shift key))
    (ht : keyChar e.shift key ≠ 0x09) : e.press key = (e, []) := by
  have hacc : ¬ isAccent (keyChar e.shift key) = true := fun ha => hp (isAccent_printable _ ha)
  have hlow : ¬ isLower (keyChar e.shift key) = true := fun hl => hp (isLower_ne _ hl).2.2
  have htype : e.type (keyChar e.shift key) = (e, []) := if_neg (not_or.2 ⟨hp, ht⟩)
  unfold Editor.press
  dsimp only
  cases e.accent with
  | none => rw [if_neg hacc, htype]
  | some a =>
    dsimp only
    rw [if_pos hlow, htype]

theorem scan_ignored {scancode : Byte} (h : Ignored scancode) (s : Session) : s.scan text scancode = s := by
  obtain ⟨h1, h2, h⟩ := h
  have hscan : s.editor.scan scancode = ⟨s.editor, [], none⟩ := by
    unfold Editor.scan
    dsimp only
    rw [if_neg (not_or.2 ⟨h1, h2⟩)]
    rcases h with hup | hmod | ⟨hkey, hchar⟩
    · rw [if_pos (Or.inl hup)]
    · simp only [List.mem_cons, List.not_mem_nil, or_false] at hmod
      rw [if_pos (Or.inr hmod)]
    · by_cases hother : ¬ (scancode &&& 0x80) = 0 ∨ scancode &&& 0x7F = 0x1D ∨ scancode &&& 0x7F = 0x38 ∨
        scancode &&& 0x7F = 0x45 ∨ scancode &&& 0x7F = 0x46
      · rw [if_pos hother]
      · simp only [List.mem_cons, List.not_mem_nil, or_false, not_or] at hkey
        obtain ⟨k1, k2, k3, k4, k5⟩ := hkey
        obtain ⟨hp, ht⟩ := hchar s.editor.shift
        rw [if_neg hother, if_neg k1, if_neg k2, if_neg k3, if_neg k4, if_neg k5, press_ignored hp ht]
  unfold Session.scan
  rw [hscan]
  split_ifs
  · rfl
  · simp only [Option.elim_none]
    unfold ShellState.print
    rw [List.append_nil]

/-- What the editor shows for scancodes that submit nothing. -/
def Editor.typing : Editor → List Byte → Option (Editor × List Print)
  | e, [] => some (e, [])
  | e, b :: bs =>
    if (e.scan b).submitted.getD [] = [] then
      ((e.scan b).editor.typing bs).map fun r => (r.1, (e.scan b).shown ++ r.2)
    else none

/-- The session only changes in the editor and in what it prints then, and nothing reboots. -/
theorem after_typing (text : Command → List Print) : ∀ {bs : List Byte} {e e' : Editor} {p : List Print},
    e.typing bs = some (e', p) → ∀ sh : ShellState, sh.rebooting = false →
      (Session.mk e sh).after text bs = ⟨e', sh.print p⟩ ∧
        ∀ pre b, pre ++ [b] <+: bs → ((Session.mk e sh).after text pre).shell.rebooting = false := by
  intro bs
  induction bs with
  | nil =>
    intro e e' p h sh hsh
    obtain ⟨rfl, rfl⟩ := Prod.mk.inj (Option.some.inj h)
    refine ⟨?_, fun pre b hpre => by simp at hpre⟩
    show Session.mk e sh = ⟨e, { sh with output := sh.output ++ [] }⟩
    rw [List.append_nil]
  | cons b bs ih =>
    intro e e' p h sh hsh
    unfold Editor.typing at h
    split_ifs at h with hsub
    obtain ⟨⟨e₁, q⟩, hq, heq⟩ := Option.map_eq_some_iff.1 h
    obtain ⟨rfl, rfl⟩ := Prod.mk.inj heq
    have hscan : (Session.mk e sh).scan text b = ⟨(e.scan b).editor, sh.print (e.scan b).shown⟩ := by
      unfold Session.scan
      rw [if_neg (by rw [hsh]; exact Bool.false_ne_true)]
      dsimp only
      cases hsubmitted : (e.scan b).submitted with
      | none => rfl
      | some w =>
        rw [hsubmitted] at hsub
        have hw : w = [] := hsub
        rw [hw]
        rfl
    obtain ⟨hafter, hrun⟩ := ih hq (sh.print (e.scan b).shown) hsh
    rw [← hscan] at hafter hrun
    refine ⟨?_, ?_⟩
    · have hprint : (sh.print (e.scan b).shown).print q = sh.print ((e.scan b).shown ++ q) := by
        unfold ShellState.print
        rw [List.append_assoc]
      rw [← hprint]
      exact hafter
    · intro pre c hpre
      cases pre with
      | nil => exact hsh
      | cons d pre =>
        obtain ⟨hd, hpre⟩ := List.cons_prefix_cons.1 hpre
        rw [hd]
        exact hrun pre c hpre

/-- Every other scancode makes a difference to what a letter shows: at the start of a line, after Shift, or
after a character. -/
theorem typing_differs (scancode : Byte) (hno : ¬ Ignored scancode) :
    ∃ bs ∈ ([[], [0x2A], [0x1E]] : List (List Byte)), ∃ bs' ∈ ([[0x1E], [0xAA, 0x1E]] : List (List Byte)),
      ∃ x ∈ Editor.start.typing (bs ++ scancode :: bs'), ∃ y ∈ Editor.start.typing (bs ++ bs'), x.2 ≠ y.2 := by
  have h : ∀ scancode : Byte, Ignored scancode ∨ ∃ bs ∈ ([[], [0x2A], [0x1E]] : List (List Byte)),
      ∃ bs' ∈ ([[0x1E], [0xAA, 0x1E]] : List (List Byte)),
        (Editor.start.typing (bs ++ scancode :: bs')).any fun x =>
          (Editor.start.typing (bs ++ bs')).any fun y => x.2 ≠ y.2 := by
    decide +kernel
  obtain ⟨bs, hbs, bs', hbs', hany⟩ := (h scancode).resolve_left hno
  obtain ⟨x, hx, hany⟩ := (Option.any_eq_true _ _).1 hany
  obtain ⟨y, hy, hne⟩ := (Option.any_eq_true _ _).1 hany
  exact ⟨bs, hbs, bs', hbs', x, hx, y, hy, of_decide_eq_true hne⟩

/-- **Noninterference.** Whether a scancode is left out anywhere in a run makes no difference to the text on
the console, for all runs, exactly when it is one of those that are ignored. -/
theorem ignored_iff {c : Console} {heap : Option (List Seg)} (hc : c.rebooting = false)
    (hheap : HeapIs c.kernel.memory heap) (scancode : Byte) :
    Ignored scancode ↔ ∀ bs bs' tr k tr' k', Run KeyStep (Keyboard.boot c) tr k → labels tr = bs ++ scancode :: bs' →
      Run KeyStep (Keyboard.boot c) tr' k' → labels tr' = bs ++ bs' →
        k.console.kernel.memory.console = k'.console.kernel.memory.console := by
  have hboot := shows_boot hc hheap
  constructor
  · intro h bs bs' tr k tr' k' hr hl hr' hl'
    have hk := (run_shows hr hboot).1.shell.output
    have hk' := (run_shows hr' hboot).1.shell.output
    rw [hl, after_append] at hk
    rw [hl', after_append] at hk'
    have hsame : ∀ s : Session, s.after c.text (scancode :: bs') = s.after c.text bs' := by
      intro s
      show (Session.scan c.text s scancode).after c.text bs' = _
      rw [scan_ignored h]
    rw [hk, hk', hsame]
  · intro h
    by_contra hno
    obtain ⟨bs, -, bs', -, ⟨e, p⟩, hp, ⟨e', p'⟩, hp', hne⟩ := typing_differs scancode hno
    obtain ⟨hafter, hrun⟩ := after_typing c.text hp ⟨heap, c.kernel.memory.console, false⟩ rfl
    obtain ⟨hafter', hrun'⟩ := after_typing c.text hp' ⟨heap, c.kernel.memory.console, false⟩ rfl
    obtain ⟨tr, k, hr, hl⟩ := exists_run hboot _ hrun
    obtain ⟨tr', k', hr', hl'⟩ := exists_run hboot _ hrun'
    have hk := (run_shows hr hboot).1.shell.output
    have hk' := (run_shows hr' hboot).1.shell.output
    have hsame := h bs bs' tr k tr' k' hr hl hr' hl'
    rw [hk, hk', hl, hl'] at hsame
    unfold Session.start at hsame
    rw [hafter, hafter'] at hsame
    exact hne (List.append_cancel_left hsame)

/-- Ctrl between two letters. -/
theorem ignored_iff_ctrl : ∃ tr k tr' k',
    Run KeyStep (Keyboard.boot ⟨Kernel.boot (Memory.boot fun _ => 0), false⟩) tr k ∧ labels tr = [0x1E, 0x1D, 0x1E] ∧
      Run KeyStep (Keyboard.boot ⟨Kernel.boot (Memory.boot fun _ => 0), false⟩) tr' k' ∧ labels tr' = [0x1E, 0x1E] ∧
        k.console.kernel.memory.console = k'.console.kernel.memory.console := by
  have hheap : HeapIs (Memory.boot fun _ => 0) none := rfl
  have h := ignored_iff (c := ⟨Kernel.boot (Memory.boot fun _ => 0), false⟩) rfl hheap 0x1D
  obtain ⟨tr, k, hr, hl, -⟩ := exists_run_of_replay keyExec_step (l := [0x1E, 0x1D, 0x1E])
    (P := fun _ _ => true) (s := Keyboard.boot ⟨Kernel.boot (Memory.boot fun _ => 0), false⟩) (by decide)
  obtain ⟨tr', k', hr', hl', -⟩ := exists_run_of_replay keyExec_step (l := [0x1E, 0x1E])
    (P := fun _ _ => true) (s := Keyboard.boot ⟨Kernel.boot (Memory.boot fun _ => 0), false⟩) (by decide)
  exact ⟨tr, k, tr', k', hr, hl, hr', hl', h.1 (by decide) [0x1E] [0x1E] tr k tr' k' hr hl hr' hl'⟩

end Zer0S
