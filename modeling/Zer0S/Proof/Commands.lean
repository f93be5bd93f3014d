import Zer0S.Lib.Rounds
import Zer0S.Proof.Numbers
import Zer0S.Proof.InteractiveSession

/-!
# The commands of the shell are those of a session

Each command returns, given enough rounds, and leaves the heap blocks and prints the text that
`ShellState.run` says.

* `kmalloc_request`: a request takes the first block that fits.
* `heapStatusLoop_counts`: the three counts of `heap_status`.
* `ShellShows`: the state of a session that a console shows.
* `shellHandleCommand_shows`: a line does what `ShellState.line` says.
-/

namespace Zer0S

open Lib Tiling

variable {s : Memory} {h : Option (List Seg)} {w : Word} {n : ℕ} {c c' : Console} {st : ShellState}

/-! ## The heap -/

/-- The heap was not used yet, or has these blocks. -/
def HeapIs (s : Memory) : Option (List Seg) → Prop
  | none => s.heapHead = 0
  | some l => HeapInv s l

theorem HeapIs.some {l : List Seg} (hi : HeapInv s l) : HeapIs s (some l) := hi

theorem HeapIs.heapAt (hi : HeapIs s h) : HeapAt s (h.getD freshHeap) := by
  cases h with
  | none => exact Or.inl ⟨hi, rfl⟩
  | some l => exact Or.inr hi

theorem HeapIs.print (hi : HeapIs s h) (p : List Print) : HeapIs (s.print p) h := by
  cases h with
  | none => exact hi
  | some l => exact HeapInv.print hi p

theorem heapSetup_console (s : Memory) : (heapSetup s).console = s.console := by
  unfold heapSetup
  split_ifs <;> rfl

/-- **A request** takes the first block that fits. -/
theorem kmalloc_request (hi : HeapIs s h) (hw : w ≠ 0) :
    ∃ s', Returns (fun n => kmalloc n w s) ((requested w (h.getD freshHeap)).2.1, s') ∧
      HeapInv s' (requested w (h.getD freshHeap)).2.2 ∧ FramesKept s s' ∧
      s'.console = s.console ++ (requested w (h.getD freshHeap)).1 := by
  have hat := hi.heapAt
  have heq : ∀ n, (h.getD freshHeap).length + 1 ≤ n → kmalloc n w s = _ := fun n hn => kmalloc_eq hat hw hn
  unfold requested
  cases hf : firstFit 24 32 (roundUp w).toNat heapBase (h.getD freshHeap) with
  | none =>
    rw [hf] at heq
    obtain ⟨k1, k2, k3, k4, k5, k6⟩ := heapSetup_kept s
    refine ⟨_, ⟨_, heq⟩, hat.setup.print _, ⟨k1, k2, k3, k4, k5, k6⟩, ?_⟩
    exact congrArg (· ++ _) (heapSetup_console s)
  | some y =>
    obtain ⟨p, l⟩ := y
    rw [hf] at heq
    have hptr : BitVec.ofNat 64 p + sizeofHeapBlock = BitVec.ofNat 64 (p + 24) := (BitVec.ofNat_add ..).symm
    simp only [hptr] at heq
    refine ⟨_, ⟨_, heq⟩, heapInv_tookBlock hat hf, tookBlock_kept hat hf, ?_⟩
    exact (heapSetup_console s).trans (List.append_nil _).symm

/-- What the loop of `heap_status` counts. -/
theorem heapStatusLoop_counts {m : Mem} {e : ℕ} (he : e < 2 ^ 64) : ∀ {l : List Seg} {a : ℕ}, Tiles m e a l →
    a + span 24 l = e → 0 < a → ∀ n v f, loop (heapStatusBody m) (l.length + 1) ⟨nextOf e a, n, v, f⟩ =
      some ⟨0, n + BitVec.ofNat 32 l.length, v + BitVec.ofNat 64 (l.map Seg.size).sum,
        f + BitVec.ofNat 64 (freeBytes l)⟩ := by
  intro l
  induction l with
  | nil =>
    intro a _ ha _ n v f
    have hend : nextOf e a = 0 := if_pos (by simpa using ha)
    rw [hend]
    show some _ = some _
    simp [freeBytes]
  | cons b l ih =>
    intro a hT ha h0 n v f
    obtain ⟨hb, hT⟩ := tiles_cons.1 hT
    rw [span_cons] at ha
    have hn : nextOf e a = BitVec.ofNat 64 a := if_neg (by omega)
    have hbody : heapStatusBody m ⟨nextOf e a, n, v, f⟩ = .inl ⟨nextOf e (a + (24 + b.size)), n + 1,
        v + BitVec.ofNat 64 b.size, if b.used then f else f + BitVec.ofNat 64 b.size⟩ := by
      rw [hn, heapStatusBody, if_neg (ofNat_ne_zero h0 (by omega)), hb]
      cases hu : b.used <;> simp [header, hu]
    rw [List.length_cons, loop_next hbody, ih hT (by omega) (by omega)]
    have hlen : n + 1 + BitVec.ofNat 32 l.length = n + BitVec.ofNat 32 (l.length + 1) := by
      rw [BitVec.ofNat_add]
      ac_rfl
    have hsize : v + BitVec.ofNat 64 b.size + BitVec.ofNat 64 (l.map Seg.size).sum =
        v + BitVec.ofNat 64 ((b :: l).map Seg.size).sum := by
      rw [List.map_cons, List.sum_cons, BitVec.ofNat_add]
      ac_rfl
    have hfree : (if b.used then f else f + BitVec.ofNat 64 b.size) + BitVec.ofNat 64 (freeBytes l) =
        f + BitVec.ofNat 64 (freeBytes (b :: l)) := by
      unfold freeBytes
      cases hu : b.used with
      | true => rw [List.filter_cons_of_neg (by simp [hu]), if_pos rfl]
      | false =>
        rw [List.filter_cons_of_pos (by simp [hu]), if_neg (by simp), List.map_cons, List.sum_cons, BitVec.ofNat_add]
        ac_rfl
    rw [hlen, hsize, hfree]

/-- **`heap_status`** prints the counts of the blocks. -/
theorem heapStatus_text (hi : HeapIs s h) : Returns (fun n => heapStatus n s) (s.print (heapText (h.getD []))) := by
  have hsteady : Steady fun n => heapStatus n s := by
    unfold heapStatus heapStatusCount
    exact (steady_loop _ _).map _
  cases h with
  | none =>
    have hhead : s.heapHead = 0 := hi
    have hrun : heapStatus 1 s = some (s.print (heapText [])) := by
      unfold heapStatus heapStatusCount
      rw [hhead]
      rfl
    exact hsteady.returns hrun
  | some l =>
    have hi : HeapInv s l := hi
    have hlt : heapEnd < 2 ^ 64 := by rw [heapEnd_eq]; omega
    have hbase : 0 < heapBase := by rw [heapBase_eq]; omega
    have hn : nextOf heapEnd heapBase = s.heapHead := by
      rw [hi.head, heapStart_eq]
      exact if_neg (by rw [heapEnd_eq, heapBase_eq]; omega)
    have hloop := heapStatusLoop_counts hlt hi.tiles hi.end_eq hbase 0 0 0
    rw [hn] at hloop
    have hrun : heapStatus (l.length + 1) s = some (s.print (heapText l)) := by
      unfold heapStatus heapStatusCount
      rw [hloop]
      simp only [Option.map_some, BitVec.ofNat_eq_ofNat, BitVec.zero_add, Option.some.injEq]
      rfl
    exact hsteady.returns hrun

/-! ## Commands -/

/-- The console with nothing printed yet. -/
def Console.quiet (c : Console) : Console :=
  { c with kernel := { c.kernel with memory := { c.kernel.memory with console := [] } } }

/-- What a command prints that needs neither arguments nor the heap. -/
def Console.text (c : Console) (command : Command) : List Print :=
  (runCommand 0 [] c.quiet command).elim [] fun c => c.kernel.memory.console

/-- Frames and processes are as they were. -/
structure KernelKept (c c' : Console) : Prop where
  frames : FramesKept c.kernel.memory c'.kernel.memory
  processes : c'.kernel.processes = c.kernel.processes
  currentProcess : c'.kernel.currentProcess = c.kernel.currentProcess
  readyQueue : c'.kernel.readyQueue = c.kernel.readyQueue
  nextPid : c'.kernel.nextPid = c.kernel.nextPid
  dispatched : c'.kernel.dispatched = c.kernel.dispatched

theorem KernelKept.refl (c : Console) : KernelKept c c := ⟨.refl _, rfl, rfl, rfl, rfl, rfl⟩

theorem KernelKept.trans {c₁ c₂ c₃ : Console} (h : KernelKept c₁ c₂) (h' : KernelKept c₂ c₃) : KernelKept c₁ c₃ :=
  ⟨h.frames.trans h'.frames, h'.processes.trans h.processes, h'.currentProcess.trans h.currentProcess,
    h'.readyQueue.trans h.readyQueue, h'.nextPid.trans h.nextPid, h'.dispatched.trans h.dispatched⟩

theorem kernelKept_print (c : Console) (p : List Print) : KernelKept c (c.print p) :=
  ⟨⟨rfl, rfl, rfl, rfl, rfl, fun _ _ => rfl⟩, rfl, rfl, rfl, rfl, rfl⟩

/-- The texts depend on the processes and the frame counters. -/
theorem text_congr (hk : KernelKept c c') (command : Command) : c'.text command = c.text command := by
  cases command
  case mem =>
    unfold Console.text Console.quiet
    simp only [runCommand, memoryStatus, getFreeMemory, Option.elim_some, Memory.print, hk.frames.total,
      hk.frames.used, hk.frames.free]
  case procs =>
    unfold Console.text Console.quiet
    simp only [runCommand, processList, Kernel.state, Option.elim_some, Kernel.print, Memory.print, hk.processes]
    rfl
  all_goals rfl

/-- **A console shows** the state of a session that started on `c₀`: the blocks and what was printed. The rest
of the kernel is that of `c₀`. -/
structure ShellShows (c₀ c : Console) (st : ShellState) : Prop where
  heap : HeapIs c.kernel.memory st.heap
  output : c.kernel.memory.console = st.output
  rebooting : c.rebooting = st.rebooting
  kept : KernelKept c₀ c

variable {c₀ : Console} {input : ℕ → Byte} {args t : List Byte} {command : Command}

theorem ShellShows.text (hs : ShellShows c₀ c st) (command : Command) : c.text command = c₀.text command :=
  text_congr hs.kept command

theorem ShellShows.print (hs : ShellShows c₀ c st) (p : List Print) : ShellShows c₀ (c.print p) (st.print p) :=
  ⟨hs.heap.print p, congrArg (· ++ p) hs.output, hs.rebooting, hs.kept.trans (kernelKept_print c p)⟩

/-- The commands that print their text and do nothing else. -/
theorem runCommand_text (n : ℕ) (args : List Byte) (c : Console)
    (h : command ∉ [Command.echo, .hex, .kmalloc, .heap, .reboot]) :
    runCommand n args c command = some (c.print (c.text command)) := by
  cases command
  case echo | hex | kmalloc | heap | reboot => exact absurd (by decide) h
  all_goals rfl

theorem run_text (text : Command → List Print) (h : command ∉ [Command.echo, .hex, .kmalloc, .heap, .reboot]) :
    st.run text t command = st.print (text command) := by
  cases command
  case echo | hex | kmalloc | heap | reboot => exact absurd (by decide) h
  all_goals rfl

/-- **`kmalloc`** makes the request. -/
theorem cmdKmalloc_shows (hs : ShellShows c₀ c st) (ht : cString args = t) :
    ∃ c', Returns (fun n => cmdKmalloc n args c) c' ∧ ShellShows c₀ c' (st.run c₀.text t .kmalloc) := by
  have hread : readNumber 0 t = readNumber 0 args := by
    rw [← ht]
    exact readNumber_cString args 0
  have heq : ∀ n, cmdKmalloc n args c = _ := fun n => cmdKmalloc_eq n args c
  unfold ShellState.run
  simp only [hread]
  by_cases h0 : readNumber 0 args = 0
  · simp only [if_pos h0] at heq ⊢
    refine ⟨_, ⟨0, fun n _ => heq n⟩, hs.print _⟩
  · simp only [if_neg h0] at heq ⊢
    obtain ⟨s', hret, hinv, hkept, hout⟩ := kmalloc_request hs.heap h0
    set c₁ := { c with kernel := { c.kernel with memory := s' } }.print
      (requestText (readNumber 0 args) (requested (readNumber 0 args) (st.heap.getD freshHeap)).2.1) with hc₁
    refine ⟨c₁, ?_, ?_⟩
    · simp only [heq]
      exact hret.map _
    · refine ⟨hinv.print _, ?_, hs.rebooting, ?_⟩
      · show s'.console ++ _ = st.output ++ (_ ++ _)
        rw [hout, hs.output, List.append_assoc]
        rfl
      · obtain ⟨k1, k2, k3, k4, k5, k6⟩ := hkept
        exact hs.kept.trans ⟨⟨k1, k2, k3, k4, k5, k6⟩, rfl, rfl, rfl, rfl, rfl⟩

/-- **Commands.** A command returns, and does what it does in the session. -/
theorem runCommand_shows (hs : ShellShows c₀ c st) (ht : cString args = t) (command : Command) :
    ∃ c', Returns (fun n => runCommand n args c command) c' ∧ ShellShows c₀ c' (st.run c₀.text t command) := by
  by_cases htext : command ∉ [Command.echo, .hex, .kmalloc, .heap, .reboot]
  · refine ⟨_, ⟨0, fun n _ => runCommand_text n args c htext⟩, ?_⟩
    rw [run_text _ htext, ← hs.text]
    exact hs.print _
  · cases command
    case echo =>
      refine ⟨_, returns_const (cmdEcho args c), ?_⟩
      rw [← ht]
      exact hs.print _
    case hex =>
      refine ⟨_, returns_const (cmdHex args c), ?_⟩
      unfold ShellState.run
      rw [← ht, readNumber_cString]
      exact hs.print _
    case kmalloc => exact cmdKmalloc_shows hs ht
    case heap =>
      refine ⟨_, (heapStatus_text hs.heap).map _, ?_⟩
      exact hs.print _
    case reboot =>
      refine ⟨_, returns_const (cmdReboot c), ?_⟩
      unfold ShellState.run
      rw [← hs.text]
      have hp := hs.print (c.text .reboot)
      obtain ⟨k1, k2, k3, k4, k5, k6⟩ := hp.kept
      exact ⟨hp.heap, hp.output, rfl, ⟨k1, k2, k3, k4, k5, k6⟩⟩
    all_goals exact absurd (by decide) htext

theorem ShellShows.prompt (hs : ShellShows c₀ c st) :
    ShellShows c₀ c.prompt (if st.rebooting then st else st.print [.text "\nZer0S> "]) := by
  unfold Console.prompt
  rw [hs.rebooting]
  split_ifs
  · exact hs
  · exact hs.print _

theorem mem_allCommands (command : Command) : command ∈ allCommands := by
  cases command <;> decide

/-- The command of the text `t`, if it is one. -/
theorem find_command (t : List Byte) :
    (∃ command, allCommands.find? (fun command => t = ascii command.name) = some command ∧ t = ascii command.name) ∨
      allCommands.find? (fun command => t = ascii command.name) = none ∧
        ∀ command : Command, t ≠ ascii command.name := by
  cases hf : allCommands.find? (fun command => t = ascii command.name) with
  | some command => exact Or.inl ⟨command, rfl, by simpa using List.find?_some hf⟩
  | none =>
    refine Or.inr ⟨rfl, ?_⟩
    intro command
    simpa using List.find?_eq_none.1 hf command (mem_allCommands command)

/-- **Lines.** `shell_handle_command` returns whatever its arrays hold, and does what the line does in the
session. -/
theorem shellHandleCommand_shows {w : List Byte} (hs : ShellShows c₀ c st) (hl : IsLine input w)
    (cmd args : ℕ → Byte) :
    ∃ c', Returns (fun n => shellHandleCommand n cmd args input c) c' ∧ ShellShows c₀ c' (st.line c₀.text w) := by
  unfold ShellState.line
  by_cases hw : w = []
  · have h0 : input 0 = 0 := by
      have := hl.nul
      rwa [hw] at this
    rw [if_pos hw]
    have hsame : ∀ n, shellHandleCommand n cmd args input c = some c := by
      intro n
      unfold shellHandleCommand
      rw [if_pos h0]
    exact ⟨c, ⟨0, fun n _ => hsame n⟩, hs⟩
  · have h0 : input 0 ≠ 0 := hl.ne_nul (List.length_pos_iff.2 hw)
    obtain ⟨m, f, hf, hcmd, hargs⟩ := splitLine_texts hl cmd args
    have hsplit : Steady fun n => splitLine n cmd args input := fun n m r hnm h => splitLine_mono hnm h
    have hret : ∀ c', Returns (fun n => dispatchCommand n f c) c' →
        Returns (fun n => shellHandleCommand n cmd args input c) c' := by
      intro c' hc
      have := (hsplit.returns hf).bind (g := fun n f => dispatchCommand n f c) hc
      unfold shellHandleCommand
      simpa only [if_neg h0] using this
    have hcases := fun n => dispatchCommand_cases n f c
    rw [if_neg hw]
    rcases find_command (tokenOf w) with ⟨command, hfind, htok⟩ | ⟨hfind, hnone⟩
    · obtain ⟨c', hc, hshow⟩ := runCommand_shows hs hargs command
      refine ⟨c'.prompt, hret _ ?_, ?_⟩
      · have hname : f.cmdText = ascii command.name := by
          rw [hcmd]
          exact cmdOf_eq_name.2 htok
        have := hc.map Console.prompt
        simpa only [(hcases _).1 command hname] using this
      · simp only [hfind]
        exact hshow.prompt
    · have hno : ∀ command : Command, f.cmdText ≠ ascii command.name := by
        intro command h
        rw [hcmd] at h
        exact hnone command (cmdOf_eq_name.1 h)
      simp only [hfind]
      by_cases ht : tokenOf w = []
      · have hempty : f.cmdText = [] := by
          rw [hcmd]
          exact cmdOf_eq_nil.2 ht
        rw [if_pos ht]
        exact ⟨c.prompt, hret _ ⟨0, fun n _ => (hcases n).2.2 hempty⟩, hs.prompt⟩
      · have hsome : f.cmdText ≠ [] := by
          rw [hcmd]
          exact fun h => ht (cmdOf_eq_nil.1 h)
        have htext : f.cmdText = (tokenOf w).take 31 := hcmd
        rw [if_neg ht, ← htext]
        exact ⟨_, hret _ ⟨0, fun n _ => (hcases n).2.1 hsome hno⟩, (hs.print _).prompt⟩

end Zer0S
