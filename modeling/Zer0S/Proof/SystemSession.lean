import Zer0S.Lib.Interleaving
import Zer0S.Proof.SystemRuns

/-!
# The system runs a session

* `MainAction.text`: what an action of `kernel_main` prints.
* `Session.scan_output`: what a session does does not depend on what was printed before.
* `session_run`: in every state the system shows the session of the scancodes that were handled, whatever
  `kernel_main` did in between, and the text on the console interleaves those of both.
* `typed_session`: at rest, of all scancodes.
-/

namespace Zer0S

open Lib Tiling

variable {m : Mem} {d : Devices} {s s' t : System} {e : Event} {tr : List (Transition System Event)}
  {texts : Command → List Print}

/-! ## What `kernel_main` prints -/

/-- What `memory_init` prints before it counts the pages. -/
def memoryInitStart : List Print := [
  .text "\n[Memory] Initializing frame allocator...\n",
  .text "[Memory] Total memory: 64 MB\n", .text "[Memory] Page size: ", .hex 4096,
  .text "\n", .text "[Memory] Total pages: ", .hex 16384, .text "\n",
  .text "[Memory] Bitmap size: ", .hex 2048, .text " bytes\n",
  .text "[Memory] Bitmap address: ", .hex bitmapAddr, .text "\n",
  .text "[Memory] Clearing bitmap...\n",
  .text "[Memory] Bitmap cleared\n",
  .text "[Memory] Kernel pages: ", .hex 256, .text " to ", .hex 3073, .text "\n"]

/-- What `memory_init` prints for the pages it counts. -/
def memoryInitEnd (free used : Word) : List Print := [
  .text "[Memory] Free pages: ", .hex free, .text "\n",
  .text "[Memory] Used pages: ", .hex used, .text "\n",
  .text "[Memory] Frame allocator ready!\n"]

/-- What `kernel_main` prints when it tests `kmalloc`. -/
def testText : List Print := [
  .text "[TEST] kmalloc(64) successful at address: ", .hex (heapStart + sizeofHeapBlock), .text "\n",
  .text "[TEST] kfree() successful\n"]

def MainAction.text : MainAction → List Print
  | .print p => [p]
  | .memoryInit => memoryInitStart ++ memoryInitEnd 13567 2817
  | .testKmalloc => testText
  | _ => []

theorem clearBitmap_console (n : Word) (c : Memory) : (clearBitmap n c).console = c.console := by
  unfold clearBitmap
  exact forLoop_ind (fun _ (c' : Memory) => c'.console = c.console) 0 n.toNat c rfl fun _ _ _ _ h => h

theorem markKernelPages_console (a b : Word) (c : Memory) : (markKernelPages a b c).console = c.console := by
  unfold markKernelPages
  exact forLoop_ind (fun _ (c' : Memory) => c'.console = c.console) _ _ c rfl fun _ _ _ _ h => h

/-- `memory_init` up to its last texts. -/
theorem memoryInit_texts (c : Memory) : ∃ c₁ : Memory,
    memoryInit c = (countFree c₁).print (memoryInitEnd (c₁.totalPages - c₁.usedPages) c₁.usedPages) ∧
      c₁.console = c.console ++ memoryInitStart := by
  have hs : (64 * 1024 * 1024 / pageSize : Word) = 16384 := by decide
  have hb : ((16384 : Word) + 7) / 8 = 2048 := by decide
  have hk : (1 * 1024 * 1024 / pageSize : Word) = 256 := by decide
  have he : (bitmapAddr + 2048 + pageSize - 1) / pageSize = 3073 := by decide
  simp only [memoryInit, print_totalPages, hs, hb, hk, he, ← countFree.eq_def]
  refine ⟨_, rfl, ?_⟩
  have hprint : ∀ (c : Memory) p, (c.print p).console = c.console ++ p := fun _ _ => rfl
  rw [markKernelPages_console, hprint, hprint, clearBitmap_console]
  simp only [hprint, List.append_assoc]
  rfl

/-- `memory_init` finds the pages of the kernel, and prints how many there are. -/
theorem memoryInit_console {c : Memory} (hu : c.usedPages = 0) (hto : c.touched = []) :
    (memoryInit c).console = c.console ++ (memoryInitStart ++ memoryInitEnd 13567 2817) := by
  have hframes := (framesInv_memoryInit hu hto).1
  have hpop : popcount pageCount kernelPage = 2817 :=
    popcount_interval 256 3073 (by decide) fun i _ => by simp [kernelPage]
  have hused : (memoryInit c).usedPages = 2817 := by
    apply BitVec.eq_of_toNat_eq
    rw [hframes.used, hpop]
    rfl
  have hfree : (memoryInit c).freePages = 13567 := by
    have hcounts := hframes.counts
    rw [hused] at hcounts
    apply BitVec.eq_of_toNat_eq
    have h1 : (2817 : Word).toNat = 2817 := rfl
    have h2 : (13567 : Word).toNat = 13567 := rfl
    rw [h1, pageCount] at hcounts
    omega
  obtain ⟨c₁, hinit, hstart⟩ := memoryInit_texts c
  rw [hinit] at hused hfree ⊢
  have hused : c₁.usedPages = 2817 := hused
  have hfree : c₁.totalPages - c₁.usedPages = 13567 := hfree
  show c₁.console ++ _ = _
  rw [hstart, hfree, hused, List.append_assoc]

/-- The test gets the first block. -/
theorem requested_test : ∃ l, requested 64 freshHeap = ([], heapStart + sizeofHeapBlock, l) := by
  have hr : (roundUp 64).toNat = 64 := by decide
  have hfit : firstFit 24 32 (roundUp 64).toNat heapBase freshHeap =
      some (heapBase, split 24 32 64 ⟨8 * 1024 * 1024, false⟩ ++ []) := by
    rw [hr]
    exact if_pos ⟨rfl, by norm_num⟩
  have hptr : BitVec.ofNat 64 (heapBase + 24) = heapStart + sizeofHeapBlock := by
    rw [BitVec.ofNat_add, heapStart_eq]
    rfl
  unfold requested
  rw [hfit, ← hptr]
  exact ⟨_, rfl⟩

theorem kfree_console (ptr : Word) (c : Memory) : (kfree ptr c).console = c.console := by
  unfold kfree
  split_ifs <;> rfl

/-- What the test prints. -/
theorem testKmalloc_console {n : ℕ} {c c' : Memory} (h0 : c.heapHead = 0) (h : testKmalloc n c = some c') :
    c'.console = c.console ++ testText := by
  have hhead : HeapIs c none := h0
  obtain ⟨c₁, hret, -, -, hout⟩ := kmalloc_request (w := 64) hhead (by decide)
  obtain ⟨l, hfit⟩ := requested_test
  simp only [Option.getD_none, hfit, List.append_nil] at hret hout
  obtain ⟨⟨ptr, c₂⟩, hk, rfl⟩ := Option.map_eq_some_iff.1 h
  obtain ⟨rfl, rfl⟩ := Prod.mk.inj (hret.det ((steady_kmalloc 64 c).returns hk))
  have hne : heapStart + sizeofHeapBlock ≠ 0 := by decide
  show (if heapStart + sizeofHeapBlock ≠ 0 then _ else _ : Memory).console = _
  rw [if_pos hne]
  show (kfree _ _).console ++ _ = _
  rw [kfree_console]
  show c₁.console ++ _ ++ _ = _
  rw [hout, List.append_assoc]
  rfl

/-- What an action of `kernel_main` prints. -/
theorem onKeyboard_text {a : MainAction} {l : List MainAction} {n : ℕ} {k : Keyboard} (hi : SystemInv m s)
    (hmain : s.main = a :: l) (hk : a.onKeyboard n s.keyboard = some k) :
    k.memory.console = s.keyboard.memory.console ++ a.text := by
  have ho := hi.ordered
  have hmem := hi.memory
  rw [hmain] at ho hmem
  simp only [Ordered, Bool.and_eq_true, Bool.or_eq_true, decide_eq_true_eq] at ho
  unfold MemoryInv at hmem
  cases a with
  | print p =>
    obtain rfl := Option.some.inj hk
    rfl
  | outb port v =>
    obtain rfl := Option.some.inj hk
    exact (List.append_nil _).symm
  | sti =>
    obtain rfl := Option.some.inj hk
    exact (List.append_nil _).symm
  | memoryInit =>
    obtain rfl := Option.some.inj hk
    rw [if_pos List.mem_cons_self] at hmem
    exact memoryInit_console hmem.2.2.1 hmem.2.2.2
  | testKmalloc =>
    obtain ⟨c, hc, rfl⟩ := Option.map_eq_some_iff.1 hk
    have hl := ho.1.2.resolve_left fun h => h rfl
    simp only [Bool.not_eq_true', List.contains_eq_mem, decide_eq_false_iff_not] at hl
    rw [if_neg (by simp [hl.1]), if_pos List.mem_cons_self] at hmem
    exact testKmalloc_console hmem.2 hc

/-! ## What a session prints -/

/-- The same state, with something else printed before. -/
def ShellState.withOutput (p : List Print) (sh : ShellState) : ShellState := { sh with output := p }

/-- The same session, with something else printed before. -/
def Session.withOutput (p : List Print) (s : Session) : Session := ⟨s.editor, s.shell.withOutput p⟩

@[simp] theorem rebooting_withOutput (p : List Print) (sh : ShellState) :
    (sh.withOutput p).rebooting = sh.rebooting := rfl

/-- What is done and printed does not depend on what was printed before. -/
def Appends (f : ShellState → ShellState) : Prop :=
  ∀ sh, ∃ q, ∀ p, f (sh.withOutput p) = (f sh).withOutput (p ++ q)

theorem appends_id : Appends id := by
  intro sh
  refine ⟨[], ?_⟩
  intro p
  rw [List.append_nil]
  rfl

theorem Appends.comp {f g : ShellState → ShellState} (hg : Appends g) (hf : Appends f) : Appends (g ∘ f) := by
  intro sh
  obtain ⟨q, hq⟩ := hf sh
  obtain ⟨q', hq'⟩ := hg (f sh)
  refine ⟨q ++ q', ?_⟩
  intro p
  show g (f (sh.withOutput p)) = _
  rw [hq, hq', List.append_assoc]
  rfl

theorem appends_print (q : List Print) : Appends (ShellState.print q) := fun _ => ⟨q, fun _ => rfl⟩

theorem appends_run (texts : Command → List Print) (args : List Byte) (command : Command) :
    Appends (ShellState.run texts args command) := by
  intro sh
  cases command
  case kmalloc =>
    unfold ShellState.run
    dsimp only
    by_cases h0 : readNumber 0 args = 0
    · simp only [if_pos h0]
      exact appends_print _ sh
    · simp only [if_neg h0]
      exact ⟨(requested (readNumber 0 args) (sh.heap.getD freshHeap)).1 ++
        requestText (readNumber 0 args) (requested (readNumber 0 args) (sh.heap.getD freshHeap)).2.1, fun _ => rfl⟩
  case reboot => exact ⟨texts .reboot, fun _ => rfl⟩
  case heap => exact ⟨heapText (sh.heap.getD []), fun _ => rfl⟩
  all_goals exact appends_print _ sh

theorem appends_prompt : Appends fun sh => if sh.rebooting then sh else sh.print [.text "\nZer0S> "] := by
  intro sh
  by_cases hreb : sh.rebooting = true
  · refine ⟨[], ?_⟩
    intro p
    simp only [rebooting_withOutput, hreb, if_true, List.append_nil]
  · refine ⟨[.text "\nZer0S> "], ?_⟩
    intro p
    dsimp only
    rw [if_neg hreb]
    exact if_neg hreb

theorem appends_line (texts : Command → List Print) (w : List Byte) : Appends (ShellState.line texts w) := by
  by_cases hw : w = []
  · have hline : ShellState.line texts w = id := by
      funext sh
      exact if_pos hw
    rw [hline]
    exact appends_id
  · have hline : ∃ f, Appends f ∧ ShellState.line texts w =
        (fun sh : ShellState => if sh.rebooting then sh else sh.print [.text "\nZer0S> "]) ∘ f := by
      unfold ShellState.line
      simp only [if_neg hw]
      cases allCommands.find? fun command => tokenOf w = ascii command.name with
      | some command => exact ⟨_, appends_run texts _ command, rfl⟩
      | none =>
        by_cases ht : tokenOf w = []
        · simp only [if_pos ht]
          exact ⟨id, appends_id, rfl⟩
        · simp only [if_neg ht]
          exact ⟨_, appends_print _, rfl⟩
    obtain ⟨f, hf, hline⟩ := hline
    rw [hline]
    exact appends_prompt.comp hf

/-- **What a scancode does** does not depend on what was printed before. -/
theorem scan_output (texts : Command → List Print) (b : Byte) (s : Session) :
    ∃ q, ∀ p, (s.withOutput p).scan texts b = (s.scan texts b).withOutput (p ++ q) := by
  by_cases hreb : s.shell.rebooting = true
  · refine ⟨[], ?_⟩
    intro p
    unfold Session.scan
    rw [List.append_nil, if_pos hreb]
    exact if_pos hreb
  · have hline : Appends fun sh => (s.editor.scan b).submitted.elim (sh.print (s.editor.scan b).shown)
        fun w => (sh.print (s.editor.scan b).shown).line texts w := by
      cases (s.editor.scan b).submitted with
      | none => exact appends_print _
      | some w => exact (appends_line texts w).comp (appends_print _)
    obtain ⟨q, hq⟩ := hline s.shell
    refine ⟨q, ?_⟩
    intro p
    unfold Session.scan
    rw [if_neg hreb]
    refine (if_neg hreb).trans ?_
    exact congrArg (Session.mk (s.editor.scan b).editor) (hq p)

/-! ## The session of a run -/

/-- The session of these scancodes, on the heap that `kernel_main` has set up so far. -/
def System.session (s : System) (scancodes : List Byte) : Session :=
  (Session.start (if .testKmalloc ∈ s.main then none else some freshHeap) []).after s.keyboard.console.text scancodes

/-- **The system runs its session**: keyboard and shell show the session of the scancodes that were handled, and
the console has what `kernel_main` and the session print, in some order. -/
structure RunsSession (tr : List (Transition System Event)) (s : System) : Prop where
  shows : ShowsSession s.keyboard.console s.keyboard
    ((s.session (handled tr)).withOutput s.keyboard.memory.console)
  merged : Interleaving ((done tr).flatMap MainAction.text) (s.session (handled tr)).shell.output
    s.keyboard.memory.console
  before : s.interrupts = false → handled tr = []

/-- A text that is printed. -/
theorem ShowsSession.print {k : Keyboard} {x : Session} {p q : List Print}
    (h : ShowsSession k.console k (x.withOutput p)) (hp : k.memory.console ++ q = p ++ q) :
    ShowsSession (k.print q).console (k.print q) (x.withOutput (p ++ q)) :=
  ⟨⟨h.shell.heap.print q, hp, h.shell.rebooting, .refl _⟩, fun hx => (h.editor hx).console _⟩

/-- **What a step is** for keyboard and `kernel_main`: nothing, an action, or a scancode. -/
theorem systemStep_cases (hi : SystemInv m s) (h : SystemStep s e s') :
    (acts ⟨s, e, s'⟩ = [] ∧ s'.keyboard = s.keyboard ∧ s'.main = s.main ∧ s'.interrupts = s.interrupts) ∨
    (∃ a n, acts ⟨s, e, s'⟩ = [.main a] ∧ s.main = a :: s'.main ∧
      a.onKeyboard n s.keyboard = some s'.keyboard ∧ s'.interrupts = (s.interrupts || a = .sti)) ∨
    ∃ b, acts ⟨s, e, s'⟩ = [.key b] ∧ KeyStep s.keyboard b s'.keyboard ∧ s'.main = s.main ∧
      s'.interrupts = s.interrupts ∧ s.interrupts = true := by
  obtain ⟨n, cmd, args, h⟩ := h
  cases e with
  | key scancode =>
    obtain rfl := Option.some.inj h
    exact Or.inl ⟨rfl, rfl, rfl, rfl⟩
  | line irq up =>
    obtain ⟨-, rfl⟩ := lineExec_some h
    exact Or.inl ⟨rfl, rfl, rfl, rfl⟩
  | load =>
    obtain ⟨d', -, rfl⟩ := Option.map_eq_some_iff.1 h
    exact Or.inl ⟨rfl, rfl, rfl, rfl⟩
  | interrupt =>
    obtain ⟨-, -, -, rfl⟩ := interruptExec_some hi h
    exact Or.inl ⟨rfl, rfl, rfl, rfl⟩
  | main =>
    obtain ⟨a, l, k, hh, hmain, hk, rfl⟩ := mainExec_some h
    exact Or.inr (Or.inl ⟨a, n, by simp only [acts, hmain], hmain, hk, rfl⟩)
  | handler =>
    rcases handlerExec_cases hi h with ⟨intNo, hh, rfl⟩ | ⟨intNo, hh, -, rfl⟩ | ⟨intNo, b, k, hh, hk, rfl⟩ |
      ⟨w, l, hh, rfl⟩ | ⟨hh, rfl⟩
    · exact Or.inl ⟨by simp only [acts, hh], rfl, rfl, rfl⟩
    · exact Or.inl ⟨by simp only [acts, hh], rfl, rfl, rfl⟩
    · obtain ⟨hen, -⟩ := hi.inHandler hh (by simp)
      exact Or.inr (Or.inr ⟨b, by simp only [acts, hh], (systemInv_handle hi hh hk).1, rfl, rfl, hen⟩)
    · exact Or.inl ⟨by simp only [acts, hh], rfl, rfl, rfl⟩
    · exact Or.inl ⟨by simp only [acts, hh], rfl, rfl, rfl⟩

/-- Nothing happens to the session. -/
theorem RunsSession.same (h : RunsSession tr s) (hacts : acts ⟨s, e, s'⟩ = []) (hk : s'.keyboard = s.keyboard)
    (hmain : s'.main = s.main) (hint : s'.interrupts = s.interrupts) : RunsSession (tr ++ [⟨s, e, s'⟩]) s' := by
  have hhandled : handled (tr ++ [⟨s, e, s'⟩]) = handled tr := by
    rw [handled_snoc, hacts]
    exact List.append_nil _
  have hdone : done (tr ++ [⟨s, e, s'⟩]) = done tr := by
    rw [done_snoc, hacts]
    exact List.append_nil _
  have hsession : ∀ bs, s'.session bs = s.session bs := by
    intro bs
    unfold System.session
    rw [hk, hmain]
  refine ⟨?_, ?_, ?_⟩
  · rw [hhandled, hsession, hk]
    exact h.shows
  · rw [hhandled, hdone, hsession, hk]
    exact h.merged
  · rw [hhandled, hint]
    exact h.before

/-- A scancode is handled. -/
theorem RunsSession.key {b : Byte} (h : RunsSession tr s) (hacts : acts ⟨s, e, s'⟩ = [.key b])
    (hstep : KeyStep s.keyboard b s'.keyboard) (hmain : s'.main = s.main) (hint : s'.interrupts = s.interrupts)
    (hen : s.interrupts = true) : RunsSession (tr ++ [⟨s, e, s'⟩]) s' := by
  obtain ⟨-, hshow⟩ := keyStep_shows h.shows hstep
  have hhandled : handled (tr ++ [⟨s, e, s'⟩]) = handled tr ++ [b] := by
    rw [handled_snoc, hacts]
    rfl
  have hdone : done (tr ++ [⟨s, e, s'⟩]) = done tr := by
    rw [done_snoc, hacts]
    exact List.append_nil _
  have htext : s'.keyboard.console.text = s.keyboard.console.text := funext hshow.shell.text
  have hsession : s'.session (handled tr ++ [b]) =
      (s.session (handled tr)).scan s.keyboard.console.text b := by
    unfold System.session
    rw [hmain, htext, after_append]
    rfl
  obtain ⟨q, hq⟩ := scan_output s.keyboard.console.text b (s.session (handled tr))
  have hself := hq (s.session (handled tr)).shell.output
  rw [hq] at hshow
  have hout : s'.keyboard.memory.console = s.keyboard.memory.console ++ q := hshow.shell.output
  refine ⟨?_, ?_, ?_⟩
  · rw [hhandled, hsession, hout]
    exact ⟨⟨hshow.shell.heap, hshow.shell.output, hshow.shell.rebooting, .refl _⟩, hshow.editor⟩
  · have hprinted : ((s.session (handled tr)).scan s.keyboard.console.text b).shell.output =
        (s.session (handled tr)).shell.output ++ q := congrArg (fun x : Session => x.shell.output) hself
    rw [hhandled, hdone, hsession, hprinted, hout]
    exact h.merged.snoc_right q
  · rw [hint, hen]
    exact fun hno => absurd hno.symm Bool.false_ne_true

/-- Most actions of `kernel_main` only print. -/
theorem onKeyboard_print {a : MainAction} {n : ℕ} {k k' : Keyboard} (hinit : a ≠ .memoryInit)
    (htest : a ≠ .testKmalloc) (h : a.onKeyboard n k = some k') : k' = k.print a.text := by
  have hnil : k.print [] = k := by
    unfold Keyboard.print
    rw [console_print_nil]
  cases a with
  | print p => exact (Option.some.inj h).symm
  | outb port v => exact (Option.some.inj h).symm.trans hnil.symm
  | sti => exact (Option.some.inj h).symm.trans hnil.symm
  | memoryInit => exact absurd rfl hinit
  | testKmalloc => exact absurd rfl htest

/-- The others leave the heap that the session starts with. -/
theorem heapIs_main {a : MainAction} {l : List MainAction} {n : ℕ} {k : Keyboard} (hi : SystemInv m s)
    (hmain : s.main = a :: l) (hk : a.onKeyboard n s.keyboard = some k) (ha : a = .memoryInit ∨ a = .testKmalloc) :
    HeapIs k.memory (if .testKmalloc ∈ l then none else some freshHeap) := by
  have ho := hi.ordered
  have hmem := hi.memory
  rw [hmain] at ho hmem
  have hmem' := memoryInv_main ho hmem hk
  simp only [Ordered, Bool.and_eq_true, Bool.or_eq_true, decide_eq_true_eq] at ho
  rcases ha with rfl | rfl
  · have hl := ho.1.1.2.resolve_left fun h => h rfl
    simp only [Bool.not_eq_true', List.contains_eq_mem, decide_eq_false_iff_not, decide_eq_true_eq] at hl
    unfold MemoryInv at hmem'
    rw [if_neg hl.1, if_pos hl.2] at hmem'
    rw [if_pos hl.2]
    exact hmem'.2
  · obtain ⟨c, hc, rfl⟩ := Option.map_eq_some_iff.1 hk
    have hl := ho.1.2.resolve_left fun h => h rfl
    simp only [Bool.not_eq_true', List.contains_eq_mem, decide_eq_false_iff_not] at hl
    unfold MemoryInv at hmem
    rw [if_neg (by simp [hl.1]), if_pos List.mem_cons_self] at hmem
    rw [if_neg hl.2]
    exact (testKmalloc_some hmem.2 hc).1

/-- An action of `kernel_main`. -/
theorem RunsSession.main {a : MainAction} {n : ℕ} (h : RunsSession tr s) (hi : SystemInv m s)
    (hacts : acts ⟨s, e, s'⟩ = [.main a]) (hmain : s.main = a :: s'.main)
    (hk : a.onKeyboard n s.keyboard = some s'.keyboard) (hint : s'.interrupts = (s.interrupts || a = .sti)) :
    RunsSession (tr ++ [⟨s, e, s'⟩]) s' := by
  have hhandled : handled (tr ++ [⟨s, e, s'⟩]) = handled tr := by
    rw [handled_snoc, hacts]
    exact List.append_nil _
  have hdone : done (tr ++ [⟨s, e, s'⟩]) = done tr ++ [a] := by
    rw [done_snoc, hacts]
    rfl
  have htexts : ((done tr ++ [a]).flatMap MainAction.text) = (done tr).flatMap MainAction.text ++ a.text := by
    rw [List.flatMap_append, List.flatMap_singleton]
  have hout := onKeyboard_text hi hmain hk
  have hbefore : s'.interrupts = false → handled tr = [] := by
    intro hno
    rw [hint, Bool.or_eq_false_iff] at hno
    exact h.before hno.1
  by_cases ha : a = .memoryInit ∨ a = .testKmalloc
  · -- no scancode was handled yet
    have hen : s.interrupts = false := by
      rw [← Bool.not_eq_true]
      intro hen
      have hprints := hi.enabled hen
      rw [hmain, List.all_cons, Bool.and_eq_true] at hprints
      rcases ha with rfl | rfl <;> exact absurd hprints.1 Bool.false_ne_true
    have hnone := h.before hen
    have hshows := h.shows
    have hmerged := h.merged
    rw [hnone] at hshows hmerged
    obtain ⟨c, hc⟩ := onKeyboard_some hk
    have hrun : s.keyboard.console.rebooting = false := hshows.shell.rebooting
    refine ⟨⟨⟨?_, rfl, ?_, .refl _⟩, ?_⟩, ?_, ?_⟩
    · rw [hhandled, hnone]
      exact heapIs_main hi hmain hk ha
    · rw [hhandled, hnone, hc]
      exact hrun
    · rw [hhandled, hnone, hc]
      exact fun _ => (hshows.editor rfl).console _
    · rw [hhandled, hdone, htexts, hout, hnone]
      exact hmerged.snoc_left a.text
    · rw [hhandled]
      exact hbefore
  · obtain ⟨hinit, htest⟩ := not_or.1 ha
    have hkey := onKeyboard_print hinit htest hk
    have hsession : ∀ bs, s'.session bs = s.session bs := by
      intro bs
      have htext : (s.keyboard.print a.text).console.text = s.keyboard.console.text :=
        funext (text_congr (kernelKept_print _ _))
      unfold System.session
      rw [hkey, htext, hmain]
      simp only [List.mem_cons, Ne.symm htest, false_or]
    refine ⟨?_, ?_, ?_⟩
    · rw [hhandled, hsession, hout, hkey]
      exact h.shows.print rfl
    · rw [hhandled, hdone, htexts, hsession, hout]
      exact h.merged.snoc_left a.text
    · rw [hhandled]
      exact hbefore

/-- **Run.** In every state the system runs its session. -/
theorem session_run (hr : Run SystemStep (System.boot m d) tr t) : RunsSession tr t := by
  refine hr.last_ind (P := RunsSession) ?_ ?_
  · have hmem : MainAction.testKmalloc ∈ kernelMain := by decide
    have hstart : (System.boot m d).session [] = .start none [] := by
      unfold System.session
      exact congrArg (fun h => Session.start h []) (if_pos hmem)
    refine ⟨?_, ?_, fun _ => rfl⟩
    · show ShowsSession _ _ (((System.boot m d).session []).withOutput [])
      rw [hstart]
      exact shows_boot rfl rfl
    · show Interleaving [] ((System.boot m d).session []).shell.output []
      rw [hstart]
      exact .nil
  · intro tr a e b hr h hs
    have hi := (systemInv_run hr).1
    rcases systemStep_cases hi hs with ⟨hacts, hk, hmain, hint⟩ | ⟨x, n, hacts, hmain, hk, hint⟩ |
      ⟨c, hacts, hk, hmain, hint, hen⟩
    · exact h.same hacts hk hmain hint
    · exact h.main hi hacts hmain hk hint
    · exact h.key hacts hk hmain hint hen

theorem after_rebooting {x : Session} (h : x.shell.rebooting = true) (bs : List Byte) : x.after texts bs = x := by
  induction bs with
  | nil => rfl
  | cons b bs ih =>
    have hscan : x.scan texts b = x := if_pos h
    show (x.scan texts b).after texts bs = x
    rw [hscan, ih]

/-- **What is typed.** When the system is at rest, and no scancode was in the buffer at the first write of
`pic_remap`, keyboard and shell show the session of all scancodes that waited at the start or were sent, and the
console, that is the characters that were sent, has what `kernel_main` and this session print, in some order;
`kernel_main` is done if the session does not reboot. -/
theorem typed_session (hr : Run SystemStep (System.boot m d) tr t) (hq : t.Quiet)
    (hfull : ¬ ∃ e ∈ tr, FullAtRemap e) :
    ∃ x l,
      x = (Session.start (some freshHeap) []).after t.keyboard.console.text ((System.boot m d).inFlight ++ sent tr) ∧
      ShowsSession t.keyboard.console t.keyboard (x.withOutput t.keyboard.memory.console) ∧
      l ++ t.main = kernelMain ∧ (x.shell.rebooting = false → t.main = []) ∧
      Interleaving (l.flatMap MainAction.text) x.shell.output t.keyboard.memory.console := by
  obtain ⟨hshows, hmerged, -⟩ := session_run hr
  obtain ⟨hkeys, hdone⟩ := inFlight_run hr
  have hi := (systemInv_run hr).1
  have hen : t.interrupts = true ∨ t.main = [] := by
    cases hreb : t.keyboard.console.rebooting with
    | false => exact Or.inr (inFlight_quiet hr hq hreb).1
    | true =>
      refine Or.inl (hi.inside ?_)
      rw [hi.stopped.1 hreb]
      exact Option.some_ne_none _
  have htest : MainAction.testKmalloc ∉ t.main := by
    rcases hen with hen | hmain
    · exact contains_prints (hi.enabled hen) rfl
    · rw [hmain]
      exact List.not_mem_nil
  have hreb : t.keyboard.console.rebooting = (t.session (handled tr)).shell.rebooting := hshows.shell.rebooting
  have hall : (Session.start (some freshHeap) []).after t.keyboard.console.text
      ((System.boot m d).inFlight ++ sent tr) = t.session (handled tr) := by
    unfold System.session at hreb ⊢
    rw [if_neg htest] at hreb ⊢
    rw [← hkeys]
    cases hrun : t.keyboard.console.rebooting with
    | false =>
      have hnil := (inFlight_quiet hr hq hrun).2.2 hfull
      rw [hnil, List.append_nil]
    | true =>
      -- nothing happens any more after the reboot
      rw [after_append]
      exact after_rebooting (hreb.symm.trans hrun) _
  refine ⟨_, done tr, rfl, ?_, hdone, ?_, ?_⟩
  · rw [hall]
    exact hshows
  · rw [hall, ← hreb]
    exact fun hrun => (inFlight_quiet hr hq hrun).1
  · rw [hall]
    exact hmerged

/-- One key. -/
theorem typed_session_key : ∃ tr t, Run SystemStep (System.boot (fun _ => 0) .idle) tr t ∧ sent tr = [0x1E] ∧ t.Quiet ∧
    ShowsSession t.keyboard.console t.keyboard
      (((Session.start (some freshHeap) []).after t.keyboard.console.text [0x1E]).withOutput
        t.keyboard.memory.console) := by
  obtain ⟨tr, t, hr, hsent, hq, hfull, -⟩ := exists_typed
  obtain ⟨x, -, rfl, hshows, -⟩ := typed_session hr hq hfull
  rw [hsent] at hshows
  exact ⟨tr, t, hr, hsent, hq, hshows⟩

end Zer0S
