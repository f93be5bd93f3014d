import Zer0S.Proof.Interrupts
import Zer0S.Spec.Exceptions

/-!
# What becomes of an interrupted program

A vector below 32 ends in `isr_handler`, which halts. One of the 16 after them has returned from
`irq_handler`, and the stub drops its two words before the `iretq`. The other vectors have `isr_default`,
where the two words are missing: `isr_handler` finds the interrupted RIP in place of the number of the
vector. It returns unless that is below 32, and as nothing was pushed below the frame, `isr_default` has
nothing to drop, and returns rightly.

* `enterHandler_eq`: what is there at the first instruction of the C function.
* `return_stub`: from the `ret` of the C function to the interrupted program.
* `interrupt_resumes`: when the program goes on, and when it does not.
* `report_true_iff`: when what `isr_handler` prints of an exception is so.
-/

namespace Zer0S

open Lib

variable {addr : Stub → Word} {idt : Idt} {n : BitVec 8} {src : Source} {err : Option Word} {ret : Word}
  {m d h h' : Machine} {imms : List Word} {cleanup : List Instr} {call : Machine → Machine}

/-! ## The way in -/

theorem mem_stubs (s : Stub) : s ∈ stubs := by
  unfold stubs
  simp only [List.mem_append, List.mem_map, List.mem_finRange, true_and, List.mem_cons, List.not_mem_nil, or_false]
  cases s with
  | isr n => exact .inl ⟨n, rfl⟩
  | irq n => exact .inr (.inl ⟨n, rfl⟩)
  | syscallHandler => exact .inr (.inr (.inl rfl))
  | default => exact .inr (.inr (.inr rfl))

/-- Each address has one stub. -/
theorem stubAt_addr (haddr : Function.Injective addr) (s : Stub) : stubAt addr (addr s) = some s := by
  cases hfind : stubAt addr (addr s) with
  | none => exact absurd (List.find?_eq_none.1 hfind s (mem_stubs s)) (by simp)
  | some t =>
    have ht := List.find?_some hfind
    exact congrArg some (haddr (beq_iff_eq.1 ht))

/-- A stub up to its call, as pushes. -/
theorem run_entry (imms : List Word) (cleanup : List Instr) (ret : Word) (d : Machine) :
    ∃ d₁ d₂ : Machine, d₁ = d.pushWords imms ∧ d₂ = d₁.pushWords (savedOrder.reverse.map d₁.regs) ∧
      run gdt d ((stubCode imms cleanup).entry ret) = some ((d₂.set .rdi (d₂.regs .rsp)).pushWord ret) := by
  refine ⟨_, _, rfl, rfl, ?_⟩
  show run gdt d (imms.map .pushImm ++ (saveRegisters ++ [.mov .rdi .rsp, .call ret])) = _
  rw [run_append, run_pushImms, Option.bind_some, run_append, saveRegisters_eq,
    run_pushes gdt (show .rsp ∉ savedOrder.reverse by decide)]
  rfl

/-- What a stub leaves as it is before the call. -/
theorem entry_keeps (hrun : run gdt d ((stubCode imms cleanup).entry ret) = some h) :
    h.cs = d.cs ∧ h.rflags = d.rflags ∧ KeepsBelow (8 * (imms.length + 16)) d h := by
  obtain ⟨d₁, d₂, h1, h2, hentry⟩ := run_entry imms cleanup ret d
  obtain rfl := Option.some.inj (hrun.symm.trans hentry)
  have hlen : (savedOrder.reverse.map d₁.regs).length = 15 := rfl
  have hsame₁ : SameButStack d d₁ := h1 ▸ sameButStack_pushWords imms
  have hsame₂ : SameButStack d₁ d₂ := h2 ▸ sameButStack_pushWords _
  refine ⟨hsame₂.cs.trans hsame₁.cs, hsame₂.rflags.trans hsame₁.rflags, ?_⟩
  have hk₁ : KeepsBelow (8 * imms.length) d d₁ := h1 ▸ keepsBelow_pushWords imms
  have hk₂ : KeepsBelow (8 * 15) d₁ d₂ := by
    rw [← hlen, h2]
    exact keepsBelow_pushWords _
  have hsp₁ : d₁.regs .rsp = d.regs .rsp - BitVec.ofNat 64 (8 * imms.length) := h1 ▸ pushWords_rsp imms
  have hsp₂ : d₂.regs .rsp = d.regs .rsp - BitVec.ofNat 64 (8 * (imms.length + 15)) := by
    rw [h2, pushWords_rsp, hsp₁, hlen]
    generalize d.regs .rsp = sp
    bv_omega
  have hk₃ : KeepsBelow 8 d₂ ((d₂.set .rdi (d₂.regs .rsp)).pushWord ret) :=
    keepsBelow_pushWords (m := d₂.set .rdi (d₂.regs .rsp)) [ret]
  have hk := (hk₁.trans hk₂ hsp₁ le_rfl (by omega)).trans hk₃ hsp₂ le_rfl (by omega)
  rwa [show 8 + 8 * (imms.length + 15) = 8 * (imms.length + 16) by omega] at hk

/-- What the processor leaves as it is. -/
theorem raise_keeps (hn : n ≠ 0x80) (hd : raise (idtInit addr idt) n err m = some d) :
    d.cs = 0x08 ∧ d.rflags.getLsbD 14 = false ∧ KeepsBelow (8 * (5 + err.toList.length) + 15) m d ∧
      ∃ k < 16, d.regs .rsp = m.regs .rsp - BitVec.ofNat 64 (8 * (5 + err.toList.length) + k) := by
  simp only [raise, idtInit_gate hn, Option.ite_none_right_eq_some, Option.map_eq_some_iff] at hd
  obtain ⟨-, d₀, h0, rfl⟩ := hd
  obtain ⟨hcs, hnt, hkeeps, hsp⟩ := fault_keeps h0
  exact ⟨hcs, hnt, hkeeps, hsp⟩

/-- The first instruction of the C function, for a program interrupted in `m`, with the words `imms` of the
stub. -/
structure AtHandler (imms : List Word) (err : Option Word) (ret : Word) (m h : Machine) : Prop where
  entered : ∃ d, StubEntered imms (err.toList ++ m.frame) ret m d h
  cs : h.cs = 0x08
  nt : h.rflags.getLsbD 14 = false
  below : KeepsBelow 208 m h

/-- The words that the stub of a vector pushes. -/
def vectorImms (n : BitVec 8) : List Word :=
  if n.toNat < 48 then if n.toNat ∈ errcodeStubs then [n.setWidth 64] else [0, n.setWidth 64] else []

/-- How many of the words below the frame the stub of a vector drops. -/
def vectorCleanup (n : BitVec 8) : List Instr := if n.toNat < 48 then [.addImm .rsp 16] else []

theorem length_vectorImms (n : BitVec 8) : (vectorImms n).length ≤ 2 := by
  unfold vectorImms
  split_ifs <;> simp

/-- **The way in**, for each vector. -/
theorem enterHandler_eq (haddr : Function.Injective addr) (idt : Idt) (ret : Word) (hn : n ≠ 0x80)
    (hk : KernelMode m) (err : Option Word) : ∃ h,
      enterHandler addr (idtInit addr idt) ret n err m =
        some (vectorStub n, stubCode (vectorImms n) (vectorCleanup n), h) ∧
      AtHandler (vectorImms n) err ret m h := by
  obtain ⟨d, hd, hrip, hst, hr⟩ := raise_eq addr idt hn hk err
  obtain ⟨hlen, hone⟩ := length_pushed err m
  have htwo := length_vectorImms n
  have hcode : (vectorStub n).code = some (stubCode (vectorImms n) (vectorCleanup n)) := by
    rw [vectorStub_code hn]
    unfold vectorImms vectorCleanup
    split_ifs <;> rfl
  obtain ⟨h, hrun, he⟩ := enter_stub (vectorImms n) (vectorCleanup n) hst (by omega) htwo hr ret
  obtain ⟨hdcs, hdnt, hdkeeps, k, hklt, hdsp⟩ := raise_keeps hn hd
  obtain ⟨hcs, hflags, hkeeps⟩ := entry_keeps hrun
  refine ⟨h, ?_, ⟨d, he⟩, hcs.trans hdcs, (congrArg (·.getLsbD 14) hflags).trans hdnt, ?_⟩
  · rw [enterHandler, hd, Option.bind_some, hrip, stubAt_addr haddr, Option.bind_some, hcode, Option.bind_some,
      hrun, Option.map_some]
  · exact (hdkeeps.trans hkeeps hdsp (k := 8 * (5 + err.toList.length) + 15) (by omega) (by omega)).mono (by omega)

/-! ## The way out -/

/-- The stub and the processor have pushed two words below the frame, and the stub drops two; or neither. -/
def Balanced (imms : List Word) (err : Option Word) (cleanup : List Instr) : Prop :=
  imms.length + err.toList.length = 2 ∧ cleanup = [.addImm .rsp 16] ∨ imms = [] ∧ err = none ∧ cleanup = []

/-- What is left after the registers are restored is dropped. -/
theorem drop_words {b : Machine} (hbal : Balanced imms err cleanup)
    (hst : OnStack b.mem (b.regs .rsp) (imms.reverse ++ (err.toList ++ m.frame))) :
    ∃ c, run gdt b cleanup = some c ∧ OnStack c.mem (c.regs .rsp) m.frame ∧ c.mem = b.mem ∧ c.cs = b.cs ∧
      c.rflags.getLsbD 14 = b.rflags.getLsbD 14 ∧ ∀ r ≠ .rsp, c.regs r = b.regs r := by
  rcases hbal with ⟨hlen, rfl⟩ | ⟨rfl, rfl, rfl⟩
  · obtain ⟨x, y, hxy⟩ : ∃ x y, imms.reverse ++ err.toList = [x, y] := by
      rw [← List.length_eq_two, List.length_append, List.length_reverse, hlen]
    rw [← List.append_assoc, hxy] at hst
    refine ⟨_, rfl, ?_, rfl, rfl, addFlags_nt _ _ _, fun r hr => Machine.set_regs_ne hr _⟩
    show OnStack b.mem ((b.set .rsp (b.regs .rsp + 16)).regs .rsp) m.frame
    rw [Machine.set_regs_self, show b.regs .rsp + 16 = b.regs .rsp + 8 + 8 by bv_omega]
    exact hst.2.2
  · exact ⟨b, rfl, hst, rfl, rfl, rfl, fun _ _ => rfl⟩

/-- **The way out** to the interrupted program. -/
theorem return_stub (hk : KernelMode m) (ha : AtHandler imms err ret m h) (hbal : Balanced imms err cleanup)
    (hc : SysVCall sizeofRegisters h h') :
    ∃ m', run gdt h' (stubCode imms cleanup).exit = some m' ∧ Resumes m m' ∧ m'.mem = h'.mem := by
  obtain ⟨d, he⟩ := ha.entered
  have hsize : (savedOrder.map m.regs ++ (imms.reverse ++ (err.toList ++ m.frame))).length ≤ 22 := by
    have hsaved : (savedOrder.map m.regs).length = 15 := rfl
    have hframe : m.frame.length = 5 := rfl
    rw [List.length_append, List.length_append, List.length_append, List.length_reverse, hsaved, hframe]
    rcases hbal with ⟨hlen, -⟩ | ⟨rfl, rfl, -⟩
    · omega
    · decide
  have hst := hc.onStack he.stack (by rw [sizeofRegisters]; omega)
  obtain ⟨b, hpop, hp⟩ := run_pops gdt rsp_notMem hst
  obtain ⟨c, hdrop, hstc, hmemc, hcsc, hntc, hregs⟩ := drop_words hbal hp.stack
  have hcs : c.cs = 0x08 := hcsc.trans (hp.cs.trans (hc.cs.trans ha.cs))
  have hnt : c.rflags.getLsbD 14 = false := by rw [hntc, hp.rflags, hc.nt, ha.nt]
  obtain ⟨m', hiret, hback, hrip, hflags⟩ := iretq_frame hk hstc hcs hnt fun r hr =>
    (hregs r hr).trans (hp.popped r (mem_savedOrder hr))
  obtain ⟨hcs', hss', hmem'⟩ := iretq_rest hiret
  have hcsm : ((m.cs.setWidth 64).setWidth 16 : BitVec 16) = m.cs := by simp
  have hssm : ((m.ss.setWidth 64).setWidth 16 : BitVec 16) = m.ss := by simp
  refine ⟨m', ?_, ⟨hback, hrip, ?_, ?_, ?_⟩, hmem'.trans (hmemc.trans (run_pops_mem hpop))⟩
  · show run gdt h' (restoreRegisters ++ cleanup ++ [.iretq]) = _
    rw [run_append, run_append, restoreRegisters_eq, hpop, Option.bind_some, hdrop, Option.bind_some, run, exec, hiret]
    rfl
  · have h1 := hstc.get (i := 1) rfl
    exact hcs'.trans ((congrArg (BitVec.setWidth 16) h1).trans hcsm)
  · have h4 := hstc.get (i := 4) rfl
    exact hss'.trans ((congrArg (BitVec.setWidth 16) h4).trans hssm)
  · rw [hflags]
    exact loadFlags_and_mask 0 c.rflags m.rflags

/-! ## What the C function finds -/

/-- The words of a `registers_t`: the saved registers, those that the stub and the processor pushed, and the
frame. -/
theorem registers_words (ha : AtHandler imms err ret m h) {i : ℕ} {v : Word}
    (hi : (savedOrder.map m.regs ++ (imms.reverse ++ (err.toList ++ m.frame)))[i]? = some v) :
    h.mem.read64 (h.regs .rdi + BitVec.ofNat 64 (8 * i)) = v := by
  obtain ⟨d, he⟩ := ha.entered
  rw [he.pointer]
  exact he.stack.2.get hi

/-- With two words below the frame it is that of the interrupted program. -/
theorem registers_interrupted (ha : AtHandler imms err ret m h)
    (h2 : imms.reverse ++ err.toList = [n.setWidth 64, err.getD 0]) :
    registersAt h.mem (h.regs .rdi) = interrupted n err m := by
  have hw : ∀ i v, (savedOrder.map m.regs ++ (n.setWidth 64 :: err.getD 0 :: m.frame))[i]? = some v →
      h.mem.read64 (h.regs .rdi + BitVec.ofNat 64 (8 * i)) = v := fun i v hv =>
    registers_words ha (by rwa [← List.append_assoc imms.reverse, h2])
  have h0 : h.mem.read64 (h.regs .rdi) = m.regs .r15 :=
    (congrArg h.mem.read64 (BitVec.add_zero _).symm).trans (hw 0 _ rfl)
  simp only [registersAt, interrupted, Registers.mk.injEq]
  exact ⟨h0, hw 1 _ rfl, hw 2 _ rfl, hw 3 _ rfl, hw 4 _ rfl, hw 5 _ rfl, hw 6 _ rfl, hw 7 _ rfl, hw 8 _ rfl,
    hw 9 _ rfl, hw 10 _ rfl, hw 11 _ rfl, hw 12 _ rfl, hw 13 _ rfl, hw 14 _ rfl, hw 15 _ rfl, hw 16 _ rfl,
    hw 17 _ rfl, hw 18 _ rfl, hw 19 _ rfl, hw 20 _ rfl, hw 21 _ rfl⟩

/-- The number that the C function finds: that of the vector, or the interrupted RIP. -/
theorem intNo_eq (ha : AtHandler (vectorImms n) err ret m h) (herr : 48 ≤ n.toNat → err = none) :
    (registersAt h.mem (h.regs .rdi)).intNo = if n.toNat < 48 then n.setWidth 64 else m.rip := by
  apply registers_words (i := 15) ha
  unfold vectorImms
  split_ifs with h48
  · rfl
  · rfl
  · obtain rfl := herr (by omega)
    rfl

/-- The stub of the vector and the processor agree on the error code. -/
theorem words_of_frameOk (hn : FrameOk n src) (herr : err.isSome ↔ PushesError n src) :
    (vectorImms n).reverse ++ err.toList = [n.setWidth 64, err.getD 0] := by
  obtain ⟨h48, hiff⟩ := hn
  rw [← herr] at hiff
  unfold vectorImms
  rw [if_pos h48]
  cases err with
  | none => rw [if_neg fun hmem => by simpa using hiff.2 hmem]; rfl
  | some e => rw [if_pos (hiff.1 rfl)]; rfl

/-! ## The outcomes -/

/-- The vectors after which the interrupted program goes on. -/
def GoesOn (n : BitVec 8) (m : Machine) : Prop := 32 ≤ n.toNat ∧ (n.toNat < 48 ∨ 32 ≤ m.rip.toNat)

instance (n : BitVec 8) (m : Machine) : Decidable (GoesOn n m) := inferInstanceAs (Decidable (_ ∧ _))

/-- Errors are pushed for exceptions only. -/
theorem no_error (herr : err.isSome ↔ PushesError n src) (hn : 32 ≤ n.toNat) : err = none := by
  rw [← Option.not_isSome_iff_eq_none, herr]
  intro h
  exact absurd ((by decide : ∀ k ∈ errorVectors, k < 32) _ h.2) (by omega)

/-- What the C function of a vector does. -/
theorem report_eq (ha : AtHandler (vectorImms n) err ret m h) (hn : n ≠ 0x80)
    (herr : err.isSome ↔ PushesError n src) :
    ((vectorStub n).report (registersAt h.mem (h.regs .rdi)) = none ↔ GoesOn n m) := by
  have hno := intNo_eq ha fun h48 => no_error herr (by omega)
  have hlt := n.isLt
  unfold GoesOn
  by_cases h1 : n.toNat < 32
  · rw [if_pos (by omega)] at hno
    have hint : (registersAt h.mem (h.regs .rdi)).intNo < 32 := by rw [hno]; bv_omega
    rw [vectorStub, dif_pos h1, Stub.report, isrHandler, if_pos hint]
    simp only [reduceCtorEq, false_iff, not_and]
    omega
  by_cases h2 : n.toNat < 48
  · rw [vectorStub, dif_neg h1, dif_pos h2, Stub.report]
    simp only [true_iff]
    exact ⟨by omega, .inl h2⟩
  · rw [if_neg h2] at hno
    rw [vectorStub, dif_neg h1, dif_neg h2, if_neg hn, Stub.report, isrHandler, hno]
    simp only [ite_eq_right_iff, reduceCtorEq, imp_false]
    constructor
    · intro hrip
      exact ⟨by omega, .inr (by bv_omega)⟩
    · rintro ⟨-, hrip⟩
      have := hrip.resolve_left h2
      bv_omega

/-- **An interrupt never faults in the kernel.** Afterwards the interrupted program goes on, with nothing
written but what is below its stack pointer and what the C function wrote, or `isr_handler` has halted. -/
theorem interrupt_resumes (haddr : Function.Injective addr) (idt : Idt) (ret : Word) (call : Machine → Machine)
    (hn : n ≠ 0x80) (hk : KernelMode m) (herr : err.isSome ↔ PushesError n src)
    (hcall : ∀ s code h, enterHandler addr (idtInit addr idt) ret n err m = some (s, code, h) →
      SysVCall sizeofRegisters h (call h)) :
    (GoesOn n m → ∃ s code h m', enterHandler addr (idtInit addr idt) ret n err m = some (s, code, h) ∧
      KeepsBelow 208 m h ∧ runInterrupt addr (idtInit addr idt) ret call n err m = some (.resumed m') ∧
      Resumes m m' ∧ m'.mem = (call h).mem) ∧
    (¬ GoesOn n m → ∃ output, runInterrupt addr (idtInit addr idt) ret call n err m = some (.halted output)) := by
  obtain ⟨h, henter, ha⟩ := enterHandler_eq haddr idt ret hn hk err
  have hreport := report_eq ha hn herr
  constructor
  · intro hgoes
    have hnone := no_error herr hgoes.1
    have hbal : Balanced (vectorImms n) err (vectorCleanup n) := by
      rw [hnone]
      unfold vectorImms vectorCleanup
      split_ifs with h48 hmem
      · exact absurd ((by decide : ∀ k ∈ errcodeStubs, k < 32) _ hmem) (by have := hgoes.1; omega)
      · exact .inl ⟨rfl, rfl⟩
      · exact .inr ⟨rfl, rfl, rfl⟩
    obtain ⟨m', hrun, hres, hmem⟩ := return_stub hk ha hbal (hcall _ _ _ henter)
    refine ⟨_, _, h, m', henter, ha.below, ?_, hres, hmem⟩
    simp only [runInterrupt, henter, Option.bind_some, hreport.2 hgoes, hrun, Option.map_some]
  · intro hhalts
    obtain ⟨output, houtput⟩ := Option.ne_none_iff_exists'.1 (mt hreport.1 hhalts)
    refine ⟨output, ?_⟩
    simp only [runInterrupt, henter, Option.bind_some, houtput]

/-- Addresses for the stubs, 16 bytes apart. -/
def stubAddr : Stub → Word
  | .isr n => 0x103000 + BitVec.ofNat 64 (16 * n)
  | .irq n => 0x103200 + BitVec.ofNat 64 (16 * n)
  | .syscallHandler => 0x103300
  | .default => 0x103340

theorem stubAddr_injective : Function.Injective stubAddr := by
  intro s t h
  cases s <;> cases t <;> simp only [stubAddr, Stub.isr.injEq, Stub.irq.injEq, reduceCtorEq] at h ⊢ <;>
    first | exact Fin.ext (by bv_omega) | bv_omega

/-- A compiled C function that only returns. -/
def plainCall (m : Machine) : Machine := m.set .rsp (m.regs .rsp + 8)

theorem plainCall_call (m : Machine) : SysVCall sizeofRegisters m (plainCall m) where
  rsp := Machine.set_regs_self _ _ _
  saved r hr := Machine.set_regs_ne (by rintro rfl; revert hr; decide) _
  stack _ _ := rfl
  cs := rfl
  nt := rfl

/-- `int 48` through `isr_default`, and `int 14`. -/
theorem interrupt_resumes_default :
    (∃ m', runInterrupt stubAddr (idtInit stubAddr fun _ => gate 0 0 0) 0x103400 plainCall 48 none kernelMachine =
      some (.resumed m') ∧ Resumes kernelMachine m') ∧
    ∃ output, runInterrupt stubAddr (idtInit stubAddr fun _ => gate 0 0 0) 0x103400 plainCall 14 none kernelMachine =
      some (.halted output) := by
  have hk := kernelMode_kernelMachine
  constructor
  · have herr : (none : Option Word).isSome ↔ PushesError 48 .other := by decide
    obtain ⟨-, -, -, m', -, -, hrun, hres, -⟩ := (interrupt_resumes stubAddr_injective (fun _ => gate 0 0 0) 0x103400
      plainCall (by decide) hk herr fun _ _ _ _ => plainCall_call _).1 (by decide)
    exact ⟨m', hrun, hres⟩
  · have herr : (none : Option Word).isSome ↔ PushesError 14 .other := by decide
    exact (interrupt_resumes stubAddr_injective (fun _ => gate 0 0 0) 0x103400 plainCall (by decide) hk herr
      fun _ _ _ _ => plainCall_call _).2 (by decide)

/-! ## The report -/

/-- What two reports say of the frame. -/
theorem report_fields {r r' : Registers} (h : exceptionReport r = exceptionReport r') :
    r.errCode = r'.errCode ∧ r.rip = r'.rip ∧ r.cs = r'.cs ∧ r.rflags = r'.rflags ∧ r.rsp = r'.rsp ∧
      r.ss = r'.ss := by
  simp only [exceptionReport, List.cons.injEq, Print.hex.injEq, Print.text.injEq, and_true, true_and] at h
  exact h.2.2

/-- One word too few: the stub counts on an error code that the processor has not pushed. -/
theorem report_missing (hk : KernelMode m) {v : Word} (ha : AtHandler [v] none ret m h) :
    exceptionReport (registersAt h.mem (h.regs .rdi)) ≠ exceptionReport (interrupted n none m) := by
  intro heq
  obtain ⟨-, -, hcs, hflags, hrsp, -⟩ := report_fields heq
  have h18 : (registersAt h.mem (h.regs .rdi)).cs = m.rflags := registers_words ha (i := 18) rfl
  have h19 : (registersAt h.mem (h.regs .rdi)).rflags = m.regs .rsp := registers_words ha (i := 19) rfl
  have h20 : (registersAt h.mem (h.regs .rdi)).rsp = m.ss.setWidth 64 := registers_words ha (i := 20) rfl
  exact frame_shifted hk (h18.symm.trans hcs) (h19.symm.trans hflags) (h20.symm.trans hrsp)

/-- One word too many: both push an error code. -/
theorem report_twice (hk : KernelMode m) {v e : Word} (ha : AtHandler [0, v] (some e) ret m h) :
    exceptionReport (registersAt h.mem (h.regs .rdi)) ≠ exceptionReport (interrupted n (some e) m) := by
  intro heq
  obtain ⟨-, -, -, hflags, hrsp, hss⟩ := report_fields heq
  have h19 : (registersAt h.mem (h.regs .rdi)).rflags = m.cs.setWidth 64 := registers_words ha (i := 19) rfl
  have h20 : (registersAt h.mem (h.regs .rdi)).rsp = m.rflags := registers_words ha (i := 20) rfl
  have h21 : (registersAt h.mem (h.regs .rdi)).ss = m.regs .rsp := registers_words ha (i := 21) rfl
  exact frame_shifted hk (hflags.symm.trans h19) (hrsp.symm.trans h20) (hss.symm.trans h21)

/-- **An exception** ends in the report of what is in its `registers_t`. -/
theorem exception_halts (haddr : Function.Injective addr) (idt : Idt) (ret : Word) (call : Machine → Machine)
    (hn : n.toNat < 32) (hk : KernelMode m) (err : Option Word) : ∃ h, AtHandler (vectorImms n) err ret m h ∧
      runInterrupt addr (idtInit addr idt) ret call n err m =
        some (.halted (exceptionReport (registersAt h.mem (h.regs .rdi)))) := by
  have hne : n ≠ 0x80 := by bv_omega
  obtain ⟨h, henter, ha⟩ := enterHandler_eq haddr idt ret hne hk err
  have hno := intNo_eq ha (by omega)
  rw [if_pos (by omega)] at hno
  have hint : (registersAt h.mem (h.regs .rdi)).intNo < 32 := by rw [hno]; bv_omega
  have hstub : vectorStub n = .isr ⟨n.toNat, hn⟩ := dif_pos hn
  refine ⟨h, ha, ?_⟩
  simp only [runInterrupt, henter, Option.bind_some, hstub, Stub.report, isrHandler, if_pos hint]

/-- **The report of an exception** is true exactly if the stub and the processor agree on the error code. -/
theorem report_true_iff (haddr : Function.Injective addr) (idt : Idt) (ret : Word) (call : Machine → Machine)
    (hn : n.toNat < 32) (hk : KernelMode m) (herr : err.isSome ↔ PushesError n src) :
    ∃ output, runInterrupt addr (idtInit addr idt) ret call n err m = some (.halted output) ∧
      (output = exceptionReport (interrupted n err m) ↔ FrameOk n src) := by
  obtain ⟨h, ha, hrun⟩ := exception_halts haddr idt ret call hn hk err
  refine ⟨_, hrun, ?_, ?_⟩
  · -- otherwise there is a word too few or too many
    intro htrue
    refine ⟨by omega, ?_⟩
    rw [← herr]
    unfold vectorImms at ha
    rw [if_pos (show n.toNat < 48 by omega)] at ha
    by_cases hmem : n.toNat ∈ errcodeStubs
    · rw [if_pos hmem] at ha
      cases err with
      | none => exact absurd htrue (report_missing hk ha)
      | some e => exact iff_of_true rfl hmem
    · rw [if_neg hmem] at ha
      cases err with
      | none => exact iff_of_false (by simp) hmem
      | some e => exact absurd htrue (report_twice hk ha)
  · intro hok
    rw [registers_interrupted ha (words_of_frameOk hok herr)]

/-- A page fault of the processor is reported as it is, and `int 14` is not. -/
theorem report_true_fault :
    runInterrupt stubAddr (idtInit stubAddr fun _ => gate 0 0 0) 0x103400 plainCall 14 (some 2) kernelMachine =
      some (.halted (exceptionReport (interrupted 14 (some 2) kernelMachine))) ∧
    runInterrupt stubAddr (idtInit stubAddr fun _ => gate 0 0 0) 0x103400 plainCall 14 none kernelMachine ≠
      some (.halted (exceptionReport (interrupted 14 none kernelMachine))) := by
  have hk := kernelMode_kernelMachine
  constructor
  · have herr : (some (2 : Word)).isSome ↔ PushesError 14 .processor := by decide
    obtain ⟨output, hrun, hiff⟩ :=
      report_true_iff stubAddr_injective (fun _ => gate 0 0 0) 0x103400 plainCall (by decide) hk herr
    rw [hrun, hiff.2 (by decide)]
  · have herr : (none : Option Word).isSome ↔ PushesError 14 .other := by decide
    obtain ⟨output, hrun, hiff⟩ :=
      report_true_iff stubAddr_injective (fun _ => gate 0 0 0) 0x103400 plainCall (by decide) hk herr
    rw [hrun]
    intro heq
    exact absurd (hiff.1 (Outcome.halted.inj (Option.some.inj heq))) (by decide)

end Zer0S
