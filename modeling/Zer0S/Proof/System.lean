import Zer0S.Proof.Devices
import Zer0S.Proof.SessionRuns
import Zer0S.Proof.Isolation

/-!
# The running system

* `SystemInv`: the invariant of the running system.
* `systemInv_step`: every step keeps it; `systemInv_run`: it holds in every state of every run.
* `handlerExec_cases`: what a step of a handler is.
-/

namespace Zer0S

open Lib

variable {m : Mem} {d : Devices} {s s' t : System} {e : Event} {tr : List (Transition System Event)}

/-! ## What is left of `kernel_main` -/

/-- The writes to ports in a part of `kernel_main`. -/
def mainWrites (l : List MainAction) : List (BitVec 16 × Byte) :=
  l.filterMap fun
    | .outb port v => some (port, v)
    | _ => none

/-- The write that starts the initialisation of the master. -/
def startsRemap : MainAction := .outb pic1Command icw1

def MainAction.isPrint : MainAction → Bool
  | .print _ => true
  | _ => false

/-- The order in `kernel_main`: only prints after `sti`, one initialisation of the master and no other
command for it, and `memory_init` once. -/
def Ordered : List MainAction → Bool
  | [] => true
  | a :: l => (a ≠ .sti || l.all MainAction.isPrint) && (a ≠ startsRemap || !l.contains startsRemap) &&
      (match a with
        | .outb port _ => a = startsRemap || port ≠ pic1Command
        | _ => true) &&
      (a ≠ .memoryInit || (!l.contains .memoryInit && l.contains .testKmalloc)) &&
      (a ≠ .testKmalloc || (!l.contains .memoryInit && !l.contains .testKmalloc)) && Ordered l

theorem ordered_kernelMain : Ordered kernelMain = true := by decide +kernel

/-- The writes are those of `pic_remap`. -/
theorem mainWrites_kernelMain : mainWrites kernelMain = picRemapWrites := by decide +kernel

theorem mainWrites_prints {l : List MainAction} (h : l.all MainAction.isPrint) : mainWrites l = [] := by
  unfold mainWrites
  rw [List.filterMap_eq_nil_iff]
  intro a ha
  have := List.all_eq_true.1 h a ha
  cases a <;> first | rfl | cases this

theorem contains_prints {l : List MainAction} (h : l.all MainAction.isPrint) {a : MainAction}
    (ha : a.isPrint = false) : a ∉ l := by
  intro hmem
  have := List.all_eq_true.1 h a hmem
  rw [ha] at this
  cases this

/-! ## Lines of the master -/

/-- The command that ends the service is still to come. -/
def serving : Option Handler → Bool
  | none => false
  | some (.finish l) => !l.isEmpty
  | some _ => true

/-- The scancode was not read yet. -/
def reading : Option Handler → Bool
  | some (.poll _) => true
  | some (.read _) => true
  | _ => false

/-- The handler of the keyboard, anywhere. -/
def FromKeyboard : Handler → Prop
  | .poll intNo => intNo = 33
  | .read intNo => intNo = 33
  | .handle intNo _ => intNo = 33
  | .finish l => l = [] ∨ l = [(0x20, 0x20)]
  | .stopped => True
  | .other _ => False

theorem fromKeyboard_finish {w : BitVec 16 × Byte} {l : List (BitVec 16 × Byte)}
    (h : FromKeyboard (.finish (w :: l))) : w = (0x20, 0x20) ∧ l = [] := by
  rcases h with h | h
  · cases h
  · exact List.cons.inj h

/-- A request of the keyboard stands for the scancode in the buffer. -/
def Live (s : System) : Prop :=
  s.devices.master.requests Devices.keyboardLine = (s.devices.ps2.full && !reading s.handler)

/-- The buffer is full and there is no request for it. -/
def Jammed (s : System) : Prop :=
  s.devices.ps2.full = true ∧ s.devices.master.requests Devices.keyboardLine = false ∧ s.handler = none

/-- The lines once the initialisation has started. -/
structure LinesInv (s : System) : Prop where
  service : ∀ n, s.devices.master.service n = (decide (n = 1) && serving s.handler)
  handler : ∀ h ∈ s.handler, FromKeyboard h
  full : reading s.handler = true → s.devices.ps2.full = true
  request : Live s ∨ Jammed s

/-! ## Memory -/

/-- The bytes of the bitmap and of the heap. -/
def Managed (x : Word) : Prop :=
  (bitmapAddr.toNat ≤ x.toNat ∧ x.toNat < bitmapAddr.toNat + 2048) ∨ (heapBase ≤ x.toNat ∧ x.toNat < heapEnd)

/-- The memory, by what is left of `kernel_main`: nothing done, frames set up, frames and heap set up. -/
def MemoryInv (m : Mem) (main : List MainAction) (c : Memory) : Prop :=
  if .memoryInit ∈ main then (∀ x, Managed x → c.mem x = m x) ∧ c.heapHead = 0 ∧ c.usedPages = 0 ∧ c.touched = []
  else FramesInv c kernelPage ∧ if .testKmalloc ∈ main then c.heapHead = 0 else ∃ l, HeapInv c l

/-- No operation on processes was called. -/
structure NoProcesses (c : Console) : Prop where
  processes : c.kernel.processes = fun _ => .zero
  currentProcess : c.kernel.currentProcess = none
  readyQueue : c.kernel.readyQueue = none
  nextPid : c.kernel.nextPid = 1

/-- **The invariant of the system.** -/
structure SystemInv (m : Mem) (s : System) : Prop where
  ordered : Ordered s.main = true
  writes : (mainWrites s.main).foldl (fun p w => outb w.1 w.2 p) s.devices.pics = remapped
  enabled : s.interrupts = true → s.main.all MainAction.isPrint = true
  enables : s.interrupts = true ∨ .sti ∈ s.main
  inside : s.handler ≠ none → s.interrupts = true
  stopped : s.keyboard.console.rebooting = true ↔ s.handler = some .stopped
  lines : startsRemap ∉ s.main → LinesInv s
  line : LineInv s.keyboard
  memory : MemoryInv m s.main s.keyboard.memory
  processes : NoProcesses s.keyboard.console

/-! ## Writes to the controllers -/

/-- The initialisation drops requests and service. -/
theorem outb_start (d : Devices) : (d.outb pic1Command icw1).master.requests = (fun _ => false) ∧
    (d.outb pic1Command icw1).master.service = (fun _ => false) := ⟨rfl, rfl⟩

/-- Writes to other ports keep the lines of the master. -/
theorem outb_other {port : BitVec 16} (hport : port ≠ pic1Command) (v : Byte) (d : Devices) :
    (d.outb port v).master.requests = d.master.requests ∧ (d.outb port v).master.service = d.master.service := by
  unfold Devices.outb
  rw [if_neg hport]
  split_ifs <;> exact ⟨rfl, rfl⟩

/-- No write is for the 8042. -/
@[simp] theorem outb_ps2 (port : BitVec 16) (v : Byte) (d : Devices) : (d.outb port v).ps2 = d.ps2 := by
  unfold Devices.outb
  split_ifs <;> rfl

@[simp] theorem onDevices_ps2 (d : Devices) (a : MainAction) : (a.onDevices d).ps2 = d.ps2 := by
  cases a with
  | outb port v => exact outb_ps2 port v d
  | print | memoryInit | testKmalloc | sti => rfl

/-- The command that ends the service. -/
theorem outb_end (d : Devices) :
    d.outb 0x20 0x20 = { d with master := d.master.endOfInterrupt } := rfl

/-! ## Steps of `kernel_main` -/

theorem mainExec_some {n : ℕ} (h : mainExec n s = some s') : ∃ a l k, s.handler = none ∧ s.main = a :: l ∧
    a.onKeyboard n s.keyboard = some k ∧
    s' = ⟨a.onDevices s.devices, s.interrupts || a = .sti, l, none, k⟩ := by
  unfold mainExec at h
  split at h
  · rename_i a l hh hm
    obtain ⟨k, hk, rfl⟩ := Option.map_eq_some_iff.1 h
    exact ⟨a, l, k, hh, hm, hk, by rw [hh]⟩
  · cases h

theorem forall_mem_none {P : Handler → Prop} : ∀ h ∈ (none : Option Handler), P h := by
  intro h hmem
  cases hmem

theorem reading_none {p : Prop} : reading none = true → p := by
  intro h
  cases h

/-- Only the first write of `pic_remap` changes the lines of the master. -/
theorem onDevices_lines {a : MainAction} {l : List MainAction} (ho : Ordered (a :: l) = true) (ha : a ≠ startsRemap)
    (d : Devices) : (a.onDevices d).master.requests = d.master.requests ∧
      (a.onDevices d).master.service = d.master.service := by
  cases a
  case outb port v =>
    apply outb_other
    intro hport
    simp only [Ordered, Bool.and_eq_true, Bool.or_eq_true, decide_eq_true_eq] at ho
    exact (ho.1.1.1.2).elim ha fun h => absurd hport (by simpa using h)
  all_goals exact ⟨rfl, rfl⟩

/-- The lines after an action of `kernel_main`. -/
theorem linesInv_main {a : MainAction} {l : List MainAction} {k : Keyboard} {b : Bool} (ho : Ordered (a :: l) = true)
    (hh : s.handler = none) (hl : startsRemap ∉ a :: l → LinesInv s) (hnot : startsRemap ∉ l) :
    LinesInv ⟨a.onDevices s.devices, b, l, none, k⟩ := by
  by_cases ha : a = startsRemap
  · obtain ⟨hreq, hser⟩ := outb_start s.devices
    rw [ha]
    refine ⟨?_, forall_mem_none, reading_none, ?_⟩
    · intro n
      show (s.devices.outb pic1Command icw1).master.service n = _
      rw [hser]
      simp [serving]
    · unfold Live Jammed
      show (s.devices.outb pic1Command icw1).master.requests 1 = _ ∨
        _ ∧ (s.devices.outb pic1Command icw1).master.requests 1 = _ ∧ _
      rw [hreq]
      cases hf : (MainAction.onDevices s.devices startsRemap).ps2.full with
      | true => exact Or.inr ⟨rfl, rfl, rfl⟩
      | false => exact Or.inl rfl
  · have hinv := hl (by simp [Ne.symm ha, hnot])
    obtain ⟨hreq, hser⟩ := onDevices_lines ho ha s.devices
    refine ⟨?_, forall_mem_none, reading_none, ?_⟩
    · intro n
      show (a.onDevices s.devices).master.service n = _
      rw [hser, hinv.service n, hh]
    · have := hinv.request
      unfold Live Jammed at this ⊢
      rw [hh] at this
      simpa only [hreq, onDevices_ps2] using this

/-! ## Memory -/

open Tiling in
/-- The test of `kmalloc` gives back what it took: the heap is one free block. -/
theorem testKmalloc_some {n : ℕ} {c c' : Memory} (h0 : c.heapHead = 0) (h : testKmalloc n c = some c') :
    HeapInv c' freshHeap ∧ FramesKept c c' := by
  have hat : HeapAt c freshHeap := Or.inl ⟨h0, rfl⟩
  obtain ⟨⟨ptr, c₁⟩, hk, rfl⟩ := Option.map_eq_some_iff.1 h
  have hmerged : Merged freshHeap := by
    unfold freshHeap Merged
    simp
  have hsome : ∃ y, firstFit 24 32 (roundUp 64).toNat heapBase freshHeap = some y := by
    have hr : (roundUp 64).toNat = 64 := by decide
    rw [hr]
    exact ⟨_, if_pos ⟨rfl, by norm_num⟩⟩
  obtain ⟨⟨p, l⟩, hf⟩ := hsome
  rcases kmalloc_cases hat hk with ⟨hw, -⟩ | ⟨-, hnone, -⟩ | ⟨-, p', l', hf', hptr, hne, hinv, hkept⟩
  · exact absurd hw (by decide)
  · rw [hf] at hnone
    cases hnone
  · obtain ⟨k, -, -, hused⟩ := usedAt_firstFit (by norm_num) hf'
    have hu : UsedBlock l' p' k := (hused p' k).2 (Or.inr ⟨rfl, rfl⟩)
    dsimp only
    rw [if_pos hne, hptr]
    obtain ⟨hfree, hkept'⟩ := heapInv_kfree (hinv.print _) hu
    rw [release_firstFit (by norm_num) hmerged hf'] at hfree
    have hprint : ∀ q, FramesKept c₁ (c₁.print q) := fun _ => ⟨rfl, rfl, rfl, rfl, rfl, fun _ _ => rfl⟩
    obtain ⟨k1, k2, k3, k4, k5, k6⟩ := (hkept.trans (hprint _)).trans hkept'
    exact ⟨hfree.print _, k1, k2, k3, k4, k5, k6⟩

theorem testKmalloc_returns {c : Memory} (h0 : c.heapHead = 0) : ∃ n c', testKmalloc n c = some c' := by
  obtain ⟨n, r, hr⟩ := kmalloc_returns (Or.inl ⟨h0, rfl⟩ : HeapAt c freshHeap) 64
  refine ⟨n, ?_⟩
  unfold testKmalloc
  rw [hr]
  exact ⟨_, rfl⟩

/-- What is printed does not matter. -/
theorem MemoryInv.print {main : List MainAction} {c : Memory} (h : MemoryInv m main c) (p : List Print) :
    MemoryInv m main (c.print p) := by
  unfold MemoryInv at h ⊢
  split_ifs at h ⊢ with h1 h2
  · exact h
  · exact ⟨h.1.print p, h.2⟩
  · obtain ⟨hf, l, hl⟩ := h
    exact ⟨hf.print p, l, hl.print p⟩

/-- The same parts of `kernel_main` are left. -/
theorem memoryInv_congr {main main' : List MainAction} {c : Memory} (hi : .memoryInit ∈ main ↔ .memoryInit ∈ main')
    (ht : .testKmalloc ∈ main ↔ .testKmalloc ∈ main') : MemoryInv m main c ↔ MemoryInv m main' c := by
  unfold MemoryInv
  simp only [hi, ht]

/-- The memory after an action of `kernel_main`. -/
theorem memoryInv_main {a : MainAction} {l : List MainAction} {k k' : Keyboard} {n : ℕ} (ho : Ordered (a :: l) = true)
    (hm : MemoryInv m (a :: l) k.memory) (hk : a.onKeyboard n k = some k') : MemoryInv m l k'.memory := by
  have hother : a ≠ .memoryInit → a ≠ .testKmalloc → MemoryInv m l k.memory := by
    intro h1 h2
    refine (memoryInv_congr ?_ ?_).1 hm
    · simp [Ne.symm h1]
    · simp [Ne.symm h2]
  simp only [Ordered, Bool.and_eq_true, Bool.or_eq_true, decide_eq_true_eq] at ho
  cases a with
  | print p =>
    obtain rfl := Option.some.inj hk
    exact (hother (by simp) (by simp)).print [p]
  | outb port v =>
    obtain rfl := Option.some.inj hk
    exact hother (by simp) (by simp)
  | sti =>
    obtain rfl := Option.some.inj hk
    exact hother (by simp) (by simp)
  | memoryInit =>
    obtain rfl := Option.some.inj hk
    have hl := ho.1.1.2.resolve_left (fun h => h rfl)
    simp only [Bool.not_eq_true', List.contains_eq_mem, decide_eq_false_iff_not, decide_eq_true_eq] at hl
    unfold MemoryInv at hm
    rw [if_pos List.mem_cons_self] at hm
    obtain ⟨-, hhead, hused, htouched⟩ := hm
    obtain ⟨hframes, hkept⟩ := framesInv_memoryInit hused htouched
    unfold MemoryInv
    rw [if_neg hl.1, if_pos hl.2]
    exact ⟨hframes, hkept.head.trans hhead⟩
  | testKmalloc =>
    obtain ⟨c, hc, rfl⟩ := Option.map_eq_some_iff.1 hk
    have hl := ho.1.2.resolve_left (fun h => h rfl)
    simp only [Bool.not_eq_true', List.contains_eq_mem, decide_eq_false_iff_not] at hl
    unfold MemoryInv at hm
    rw [if_neg (by simp [hl.1]), if_pos List.mem_cons_self] at hm
    obtain ⟨hframes, hhead⟩ := hm
    obtain ⟨hinv, hkept⟩ := testKmalloc_some hhead hc
    unfold MemoryInv
    rw [if_neg hl.1, if_neg hl.2]
    exact ⟨hframes.of_kept hkept, _, hinv⟩

/-! ## Steps -/

/-- An action of `kernel_main` only touches the memory. -/
theorem onKeyboard_some {a : MainAction} {k k' : Keyboard} {n : ℕ} (h : a.onKeyboard n k = some k') :
    ∃ c, k' = k.withMemory c := by
  cases a with
  | print p => exact ⟨k.memory.print [p], (Option.some.inj h).symm⟩
  | memoryInit => exact ⟨_, (Option.some.inj h).symm⟩
  | testKmalloc =>
    obtain ⟨c, -, rfl⟩ := Option.map_eq_some_iff.1 h
    exact ⟨c, rfl⟩
  | outb port v => exact ⟨k.memory, (Option.some.inj h).symm⟩
  | sti => exact ⟨k.memory, (Option.some.inj h).symm⟩

theorem systemInv_main {n : ℕ} (hi : SystemInv m s) (h : mainExec n s = some s') : SystemInv m s' := by
  obtain ⟨a, l, k, hh, hmain, hk, rfl⟩ := mainExec_some h
  have ho := hi.ordered
  have hmem := hi.memory
  rw [hmain] at ho hmem
  obtain ⟨c, hc⟩ := onKeyboard_some hk
  have hstopped := hi.stopped
  rw [hh] at hstopped
  refine ⟨?_, ?_, ?_, ?_, ?_, ?_, ?_, ?_, memoryInv_main ho hmem hk, ?_⟩
  · simp only [Ordered, Bool.and_eq_true] at ho
    exact ho.2
  · rw [← hi.writes, hmain]
    cases a with
    | outb port v =>
      show (mainWrites l).foldl _ (s.devices.outb port v).pics = (mainWrites l).foldl _ (outb port v s.devices.pics)
      rw [pics_outb]
    | print | memoryInit | testKmalloc | sti => rfl
  · intro hen
    simp only [Bool.or_eq_true, decide_eq_true_eq] at hen
    rcases hen with hen | rfl
    · have := hi.enabled hen
      rw [hmain, List.all_cons, Bool.and_eq_true] at this
      exact this.2
    · simp only [Ordered, Bool.and_eq_true, Bool.or_eq_true, decide_eq_true_eq] at ho
      exact ho.1.1.1.1.1.resolve_left fun h => h rfl
  · have hsti := hi.enables
    rw [hmain, List.mem_cons] at hsti
    rcases hsti with hen | rfl | hmem
    · exact Or.inl (by rw [hen, Bool.true_or])
    · exact Or.inl (by simp)
    · exact Or.inr hmem
  · exact fun h => absurd rfl h
  · rw [hc]
    exact hstopped
  · intro hnot
    exact linesInv_main ho hh (fun hno => hi.lines (by rw [hmain]; exact hno)) hnot
  · rw [hc]
    exact ⟨hi.line.pos, hi.line.accesses, hi.line.dead, hi.line.chars⟩
  · rw [hc]
    exact ⟨hi.processes.processes, hi.processes.currentProcess, hi.processes.readyQueue, hi.processes.nextPid⟩

/-- The devices change, but not the masks. -/
theorem SystemInv.withDevices (hi : SystemInv m s) (hp : d.pics = s.devices.pics)
    (hl : startsRemap ∉ s.main → LinesInv { s with devices := d }) : SystemInv m { s with devices := d } :=
  ⟨hi.ordered, by rw [← hi.writes, ← hp], hi.enabled, hi.enables, hi.inside, hi.stopped, hl, hi.line, hi.memory,
    hi.processes⟩

/-- A handler goes on. -/
theorem SystemInv.withHandler {h : Option Handler} (hi : SystemInv m s) (hen : s.interrupts = true)
    (hrun : s.keyboard.console.rebooting = false) (hne : h ≠ some .stopped) (hp : d.pics = s.devices.pics)
    (hl : LinesInv { s with devices := d, handler := h }) : SystemInv m { s with devices := d, handler := h } :=
  ⟨hi.ordered, by rw [← hi.writes, ← hp], hi.enabled, hi.enables, fun _ => hen,
    iff_of_false (Bool.eq_false_iff.1 hrun) hne, fun _ => hl, hi.line, hi.memory, hi.processes⟩

/-- What holds once interrupts are enabled. -/
theorem SystemInv.started (hi : SystemInv m s) (hen : s.interrupts = true) :
    LinesInv s ∧ s.devices.pics = remapped ∧ FramesInv s.keyboard.memory kernelPage ∧
      ∃ l, HeapInv s.keyboard.memory l := by
  have hprints := hi.enabled hen
  have hwrites := hi.writes
  have hmem := hi.memory
  rw [mainWrites_prints hprints] at hwrites
  unfold MemoryInv at hmem
  rw [if_neg (contains_prints hprints rfl), if_neg (contains_prints hprints rfl)] at hmem
  exact ⟨hi.lines (contains_prints hprints rfl), hwrites, hmem⟩

/-- Interrupts stay off while the system reboots. -/
theorem SystemInv.running (hi : SystemInv m s) (h : s.handler ≠ some .stopped) :
    s.keyboard.console.rebooting = false := by
  rw [← Bool.not_eq_true]
  exact fun hreb => h (hi.stopped.1 hreb)

/-- What holds in a handler. -/
theorem SystemInv.inHandler {h : Handler} (hi : SystemInv m s) (hh : s.handler = some h) (hne : h ≠ .stopped) :
    s.interrupts = true ∧ s.keyboard.console.rebooting = false ∧ FromKeyboard h ∧
      (∀ n, s.devices.master.service n = (decide (n = 1) && serving (some h))) ∧
      s.devices.master.requests 1 = (s.devices.ps2.full && !reading (some h)) ∧
      (reading (some h) = true → s.devices.ps2.full = true) := by
  have hsome : s.handler ≠ none := by
    rw [hh]
    exact Option.some_ne_none h
  have hrun : s.handler ≠ some .stopped := by
    rw [hh]
    exact fun heq => hne (Option.some.inj heq)
  obtain ⟨hl, -, -, -⟩ := hi.started (hi.inside hsome)
  refine ⟨hi.inside hsome, hi.running hrun, hl.handler h hh, ?_, ?_, ?_⟩
  · rw [← hh]
    exact hl.service
  · rw [← hh]
    rcases hl.request with hlive | ⟨-, -, hno⟩
    · exact hlive
    · exact absurd hno hsome
  · rw [← hh]
    exact hl.full

/-- The keyboard has a scancode to send. -/
theorem systemInv_key (hi : SystemInv m s) (scancode : Byte) :
    SystemInv m { s with devices := { s.devices with
      ps2 := { s.devices.ps2 with queue := s.devices.ps2.queue ++ [scancode] } } } := by
  refine hi.withDevices rfl fun hno => ?_
  have hl := hi.lines hno
  exact ⟨hl.service, hl.handler, hl.full, hl.request⟩

/-- What the line of another device leaves. -/
theorem line_kept {irq : Fin 16} (hirq : irq ≠ 1) (up : Bool) (d : Devices) :
    (d.line irq up).pics = d.pics ∧ (d.line irq up).ps2 = d.ps2 ∧
      (d.line irq up).master.service = d.master.service ∧ (d.line irq up).master.requests 1 = d.master.requests 1 := by
  unfold Devices.line
  split_ifs with hlow
  · refine ⟨rfl, rfl, rfl, ?_⟩
    refine (line_requests _ _).trans (if_neg ?_)
    intro h
    have hval := congrArg Fin.val h
    exact hirq (Fin.ext hval.symm)
  · exact ⟨rfl, rfl, rfl, rfl⟩

theorem lineExec_some {n : ℕ} {cmd args : ℕ → Byte} {irq : Fin 16} {up : Bool}
    (h : systemExec n cmd args s (.line irq up) = some s') :
    irq ≠ 1 ∧ s' = { s with devices := s.devices.line irq up } := by
  simp only [systemExec, Option.ite_none_left_eq_some, Option.some.injEq] at h
  exact ⟨h.1, h.2.symm⟩

/-- Another device changes its line. -/
theorem systemInv_line {irq : Fin 16} (hi : SystemInv m s) (hirq : irq ≠ 1) (up : Bool) :
    SystemInv m { s with devices := s.devices.line irq up } := by
  obtain ⟨hp, hps2, hser, hreq⟩ := line_kept hirq up s.devices
  refine hi.withDevices hp fun hno => ?_
  have hl := hi.lines hno
  refine ⟨?_, hl.handler, ?_, ?_⟩
  · intro n
    show (s.devices.line irq up).master.service n = _
    rw [hser]
    exact hl.service n
  · intro hread
    show (s.devices.line irq up).ps2.full = true
    rw [hps2]
    exact hl.full hread
  · have := hl.request
    unfold Live Jammed at this ⊢
    simpa only [hps2, hreq] using this

/-- The 8042 loads a scancode. -/
theorem systemInv_load (hi : SystemInv m s) (h : s.devices.load = some d) : SystemInv m { s with devices := d } := by
  obtain ⟨b, queue, hfull, -, rfl⟩ := load_some h
  refine hi.withDevices rfl fun hno => ?_
  have hl := hi.lines hno
  have hread : reading s.handler = false := by
    rw [← Bool.not_eq_true]
    intro hread
    rw [hl.full hread] at hfull
    cases hfull
  refine ⟨hl.service, hl.handler, fun _ => rfl, Or.inl ?_⟩
  show (s.devices.master.line 1 true).requests 1 = (true && !reading s.handler)
  rw [line_requests, hread]
  rfl

/-- What holds between `sti` and an interrupt. -/
theorem SystemInv.idle (hi : SystemInv m s) (hen : s.interrupts = true) (hh : s.handler = none) :
    s.devices.pics = remapped ∧ (∀ n, s.devices.master.service n = false) ∧
      (s.devices.master.requests 1 = true → s.devices.ps2.full = true) := by
  obtain ⟨hl, hp, -, -⟩ := hi.started hen
  refine ⟨hp, ?_, ?_⟩
  · intro n
    rw [hl.service n, hh]
    exact Bool.and_false _
  · intro hreq
    rcases hl.request with hlive | ⟨hfull, -, -⟩
    · unfold Live at hlive
      rw [hreq] at hlive
      exact (Bool.and_eq_true_iff.1 hlive.symm).1
    · exact hfull

/-- **An interrupt** is that of the keyboard. -/
theorem interrupt_some {vector : Byte} (hi : SystemInv m s) (hen : s.interrupts = true) (hh : s.handler = none)
    (h : s.devices.acknowledge = some (vector, d)) : s.devices.master.requests 1 = true ∧ vector = 33 ∧
      d = { s.devices with master := (s.devices.master.line 2 false).acknowledge 1 } := by
  obtain ⟨hp, hser, -⟩ := hi.idle hen hh
  rw [acknowledge_remapped hp hser] at h
  split_ifs at h with hreq
  obtain ⟨rfl, rfl⟩ := Prod.mk.inj (Option.some.inj h)
  exact ⟨hreq, rfl, rfl⟩

theorem handlerOf_keyboard : handlerOf 33 = .poll 33 := by decide

/-- What a step with an interrupt is. -/
theorem interruptExec_some {n : ℕ} {cmd args : ℕ → Byte} (hi : SystemInv m s)
    (h : systemExec n cmd args s .interrupt = some s') :
    s.interrupts = true ∧ s.handler = none ∧ s.devices.master.requests 1 = true ∧
      s' = { s with
        devices := { s.devices with master := (s.devices.master.line 2 false).acknowledge 1 }
        handler := some (.poll 33) } := by
  simp only [systemExec, Option.ite_none_right_eq_some] at h
  obtain ⟨⟨hen, hh⟩, h⟩ := h
  obtain ⟨⟨vector, d⟩, hd, rfl⟩ := Option.map_eq_some_iff.1 h
  obtain ⟨hreq, rfl, rfl⟩ := interrupt_some hi hen hh hd
  exact ⟨hen, hh, hreq, by rw [handlerOf_keyboard]⟩

theorem systemInv_interrupt (hi : SystemInv m s) (hen : s.interrupts = true) (hh : s.handler = none)
    (hreq : s.devices.master.requests 1 = true) :
    SystemInv m { s with
      devices := { s.devices with master := (s.devices.master.line 2 false).acknowledge 1 }
      handler := some (.poll 33) } := by
  obtain ⟨hp, hser, hfull⟩ := hi.idle hen hh
  have hrun : s.keyboard.console.rebooting = false := by
    apply hi.running
    rw [hh]
    simp
  refine hi.withHandler hen hrun (by simp) ?_ ⟨?_, ?_, fun _ => hfull hreq, Or.inl ?_⟩
  · rfl
  · intro n
    show _ = (decide (n = 1) && true)
    rw [Bool.and_true]
    exact acknowledge_service hp hser n
  · rintro h ⟨⟩
    exact rfl
  · show Function.update (s.devices.master.line 2 false).requests 1 false 1 = (s.devices.ps2.full && !true)
    rw [Bool.not_true, Bool.and_false, Function.update_self]

/-- The wait for a scancode is over. -/
theorem systemInv_poll {intNo : Word} (hi : SystemInv m s) (hh : s.handler = some (.poll intNo)) :
    SystemInv m { s with handler := some (.read intNo) } := by
  obtain ⟨hen, hrun, hint, hser, hreq, hfull⟩ := hi.inHandler hh (by simp)
  apply hi.withHandler hen hrun (by simp) rfl
  refine ⟨hser, ?_, hfull, Or.inl hreq⟩
  rintro h ⟨⟩
  exact hint

/-- The scancode is read. -/
theorem systemInv_read {intNo : Word} (hi : SystemInv m s) (hh : s.handler = some (.read intNo)) :
    SystemInv m { s with devices := s.devices.readData.2, handler := some (.handle intNo s.devices.readData.1) } := by
  obtain ⟨hen, hrun, hint, hser, -, -⟩ := hi.inHandler hh (by simp)
  refine hi.withHandler hen hrun (by simp) ?_ ⟨hser, ?_, fun hread => absurd hread Bool.false_ne_true, Or.inl ?_⟩
  · rfl
  · rintro h ⟨⟩
    exact hint
  · show (s.devices.master.line 1 false).requests 1 = (false && _)
    rw [line_requests, Bool.false_and]
    rfl

/-- The scancode is handled. -/
theorem systemInv_handle {intNo : Word} {scancode : Byte} {k : Keyboard} {n : ℕ} {cmd args : ℕ → Byte}
    (hi : SystemInv m s) (hh : s.handler = some (.handle intNo scancode))
    (hk : keyboardHandler n cmd args scancode s.keyboard = some k) :
    KeyStep s.keyboard scancode k ∧ SystemInv m { s with
      keyboard := k
      handler := some (if k.console.rebooting then .stopped else .finish (endCommands intNo)) } := by
  obtain ⟨hen, hrun, hint, hser, hreq, -⟩ := hi.inHandler hh (by simp)
  obtain ⟨-, -, hframes, l, hheap⟩ := hi.started hen
  have hstep : KeyStep s.keyboard scancode k := ⟨hrun, n, cmd, args, hk⟩
  obtain ⟨hline, hkept, l', hheap'⟩ := keyStep_kept hi.line hheap hstep
  have hint : intNo = 33 := hint
  have hend : endCommands 33 = [(0x20, 0x20)] := by decide
  have hprints := hi.enabled hen
  rw [hint, hend]
  refine ⟨hstep, hi.ordered, hi.writes, hi.enabled, hi.enables, fun _ => hen, ?_, fun _ => ⟨?_, ?_, ?_, Or.inl ?_⟩,
    hline, ?_, ?_⟩
  · cases k.console.rebooting <;> simp
  · intro n
    rw [hser n]
    cases k.console.rebooting <;> rfl
  · intro h hmem
    cases hreb : k.console.rebooting <;> rw [hreb] at hmem <;> obtain rfl := Option.some.inj hmem
    · exact Or.inr rfl
    · trivial
  · intro hread
    cases hreb : k.console.rebooting <;> rw [hreb] at hread <;> cases hread
  · unfold Live
    rw [hreq]
    cases k.console.rebooting <;> rfl
  · unfold MemoryInv
    rw [if_neg (contains_prints hprints rfl), if_neg (contains_prints hprints rfl)]
    exact ⟨hframes.of_kept hkept.frames, l', hheap'⟩
  · exact ⟨hkept.processes.trans hi.processes.processes, hkept.currentProcess.trans hi.processes.currentProcess,
      hkept.readyQueue.trans hi.processes.readyQueue, hkept.nextPid.trans hi.processes.nextPid⟩

/-- The command that ends the service. -/
theorem systemInv_end {w : BitVec 16 × Byte} {l : List (BitVec 16 × Byte)} (hi : SystemInv m s)
    (hh : s.handler = some (.finish (w :: l))) :
    SystemInv m { s with devices := s.devices.outb w.1 w.2, handler := some (.finish l) } := by
  obtain ⟨hen, hrun, hend, hser, hreq, -⟩ := hi.inHandler hh (by simp)
  obtain ⟨rfl, rfl⟩ := fromKeyboard_finish hend
  have honly : s.devices.master.endOfInterrupt = { s.devices.master with service := fun _ => false } := by
    apply endOfInterrupt_of_only (n := 1)
    intro n
    rw [hser n]
    exact Bool.and_true _
  rw [outb_end, honly]
  refine hi.withHandler hen hrun (by simp) ?_ ⟨?_, ?_, fun hread => absurd hread Bool.false_ne_true, Or.inl hreq⟩
  · rfl
  · intro n
    exact (Bool.and_false _).symm
  · rintro h ⟨⟩
    exact Or.inl rfl

/-- `iretq` -/
theorem systemInv_return (hi : SystemInv m s) (hh : s.handler = some (.finish [])) :
    SystemInv m { s with handler := none } := by
  obtain ⟨hen, hrun, -, hser, hreq, -⟩ := hi.inHandler hh (by simp)
  apply hi.withHandler hen hrun (by simp) rfl
  exact ⟨hser, forall_mem_none, reading_none, Or.inl hreq⟩

/-- **What a step of a handler is.** -/
theorem handlerExec_cases {n : ℕ} {cmd args : ℕ → Byte} (hi : SystemInv m s)
    (h : handlerExec n cmd args s = some s') :
    (∃ intNo, s.handler = some (.poll intNo) ∧ s' = { s with handler := some (.read intNo) }) ∨
    (∃ intNo, s.handler = some (.read intNo) ∧ s.devices.ps2.full = true ∧ s' = { s with
      devices := s.devices.readData.2, handler := some (.handle intNo s.devices.readData.1) }) ∨
    (∃ intNo scancode k, s.handler = some (.handle intNo scancode) ∧
      keyboardHandler n cmd args scancode s.keyboard = some k ∧ s' = { s with
        keyboard := k
        handler := some (if k.console.rebooting then .stopped else .finish (endCommands intNo)) }) ∨
    (∃ w l, s.handler = some (.finish (w :: l)) ∧
      s' = { s with devices := s.devices.outb w.1 w.2, handler := some (.finish l) }) ∨
    s.handler = some (.finish []) ∧ s' = { s with handler := none } := by
  cases hh : s.handler with
  | none =>
    simp only [handlerExec, hh] at h
    cases h
  | some hd =>
    cases hd with
    | poll intNo =>
      obtain ⟨-, -, -, -, -, hfull⟩ := hi.inHandler hh (by simp)
      simp only [handlerExec, hh, Devices.status, hfull rfl, if_true] at h
      exact Or.inl ⟨intNo, rfl, (Option.some.inj h).symm⟩
    | read intNo =>
      obtain ⟨-, -, -, -, -, hfull⟩ := hi.inHandler hh (by simp)
      simp only [handlerExec, hh] at h
      exact Or.inr (Or.inl ⟨intNo, rfl, hfull rfl, (Option.some.inj h).symm⟩)
    | handle intNo scancode =>
      simp only [handlerExec, hh] at h
      obtain ⟨k, hk, rfl⟩ := Option.map_eq_some_iff.1 h
      exact Or.inr (Or.inr (Or.inl ⟨intNo, scancode, k, rfl, hk, rfl⟩))
    | finish l =>
      cases l with
      | nil =>
        simp only [handlerExec, hh] at h
        exact Or.inr (Or.inr (Or.inr (Or.inr ⟨rfl, (Option.some.inj h).symm⟩)))
      | cons w l =>
        simp only [handlerExec, hh] at h
        exact Or.inr (Or.inr (Or.inr (Or.inl ⟨w, l, rfl, (Option.some.inj h).symm⟩)))
    | stopped | other vector =>
      simp only [handlerExec, hh] at h
      cases h

/-- **Step.** Every step keeps the invariant. -/
theorem systemInv_step (hi : SystemInv m s) (h : SystemStep s e s') : SystemInv m s' := by
  obtain ⟨n, cmd, args, h⟩ := h
  cases e with
  | key scancode =>
    obtain rfl := Option.some.inj h
    exact systemInv_key hi scancode
  | line irq up =>
    obtain ⟨hirq, rfl⟩ := lineExec_some h
    exact systemInv_line hi hirq up
  | load =>
    obtain ⟨d, hd, rfl⟩ := Option.map_eq_some_iff.1 h
    exact systemInv_load hi hd
  | interrupt =>
    obtain ⟨hen, hh, hreq, rfl⟩ := interruptExec_some hi h
    exact systemInv_interrupt hi hen hh hreq
  | main => exact systemInv_main hi h
  | handler =>
    rcases handlerExec_cases hi h with ⟨intNo, hh, rfl⟩ | ⟨intNo, hh, -, rfl⟩ | ⟨intNo, b, k, hh, hk, rfl⟩ |
      ⟨w, l, hh, rfl⟩ | ⟨hh, rfl⟩
    · exact systemInv_poll hi hh
    · exact systemInv_read hi hh
    · exact (systemInv_handle hi hh hk).2
    · exact systemInv_end hi hh
    · exact systemInv_return hi hh

/-- The invariant at the start. -/
theorem systemInv_boot (m : Mem) (d : Devices) : SystemInv m (System.boot m d) := by
  refine ⟨ordered_kernelMain, ?_, fun h => absurd h Bool.false_ne_true, Or.inr ?_, fun h => absurd rfl h,
    iff_of_false Bool.false_ne_true (Option.some_ne_none _).symm, ?_, lineInv_boot _, ?_, ⟨rfl, rfl, rfl, rfl⟩⟩
  · show (mainWrites kernelMain).foldl _ d.pics = remapped
    rw [mainWrites_kernelMain, picRemapWrites_eq, picRemap_eq]
  · show MainAction.sti ∈ kernelMain
    decide
  · intro hno
    have hmem : startsRemap ∈ kernelMain := by decide
    exact absurd hmem hno
  · have hmem : MainAction.memoryInit ∈ kernelMain := by decide
    show MemoryInv m kernelMain _
    unfold MemoryInv
    rw [if_pos hmem]
    exact ⟨fun _ _ => rfl, rfl, rfl, rfl⟩

/-- **The invariant holds in every state.** -/
theorem systemInv_run (hr : Run SystemStep (System.boot m d) tr t) :
    SystemInv m t ∧ ∀ e ∈ tr, SystemInv m e.pre ∧ SystemInv m e.post :=
  hr.invariant (systemInv_boot m d) fun _ _ _ hi hs => systemInv_step hi hs

end Zer0S
