import Zer0S.Spec.Interrupts
import Zer0S.Proof.Syscall

/-!
# What the interrupt stubs hand to C

The stubs for the vectors below 48 make the two words that a `registers_t` has below the frame of
the processor: the number of the vector, and an error code, which the processor has pushed or the
stub pushes. `isr_default` makes neither, so every field above `r15` to `rax` is two words off. And
where a stub and the processor do not agree on the error code, the frame is one word off.

* `idtInit_gate`: the stub of each vector.
* `enter_stub`, `leave_stub`: what a stub leaves on the stack, and what it restores.
* `errcode_agrees_iff`, `noerrcode_agrees_iff`: each kind of stub against the processor.
* `frame_agrees_iff`: for which vectors and sources the frame agrees.
-/

namespace Zer0S

open Lib

variable {addr : Stub → Word} {idt : Idt} {n : BitVec 8} {src : Source} {err : Option Word} {ret : Word}
  {m d h h' : Machine} {imms : List Word} {cleanup : List Instr}

/-! ## The gates -/

/-- The stub that `idt_init` installs for a vector. -/
def vectorStub (n : BitVec 8) : Stub :=
  if h : n.toNat < 32 then .isr ⟨n.toNat, h⟩
  else if h : n.toNat < 48 then .irq ⟨n.toNat - 32, by omega⟩
  else if n = 0x80 then .syscallHandler
  else .default

section fold

variable {α : Type*} {key : α → BitVec 8} {base : α → Word} {sel : BitVec 16} {flags : BitVec 8}

/-- Gates for other vectors. -/
theorem foldl_gates_other {l : List α} (hl : ∀ i ∈ l, key i ≠ n) :
    l.foldl (fun idt i => idtSetGate (key i) (base i) sel flags idt) idt n = idt n := by
  induction l generalizing idt with
  | nil => rfl
  | cons i l ih =>
    rw [List.forall_mem_cons] at hl
    exact (ih hl.2).trans (Function.update_of_ne hl.1.symm _ _)

/-- One gate for each vector. -/
theorem foldl_gates {l : List α} (hkey : Function.Injective key) {i : α} (hi : i ∈ l) (hn : key i = n) :
    l.foldl (fun idt i => idtSetGate (key i) (base i) sel flags idt) idt n = gate (base i) sel flags := by
  subst hn
  induction l generalizing idt with
  | nil => cases hi
  | cons j l ih =>
    by_cases hil : i ∈ l
    · exact ih hil
    · obtain rfl := (List.mem_cons.1 hi).resolve_right hil
      have hother : ∀ k ∈ l, key k ≠ key i := fun k hk he => hil (by rwa [← hkey he])
      exact (foldl_gates_other hother).trans (Function.update_self ..)

end fold

/-- The loop that sets all gates. -/
theorem default_gates (base : Word) (sel : BitVec 16) (flags : BitVec 8) :
    forLoop (fun i => idtSetGate (BitVec.ofNat 8 i) base sel flags) 0 256 idt n = gate base sel flags := by
  have h := forLoop_ind (f := fun i => idtSetGate (BitVec.ofNat 8 i) base sel flags)
    (fun i (t : Idt) => ∀ n : BitVec 8, n.toNat < i → t n = gate base sel flags) 0 256 idt (by simp) ?_
  · exact h n n.isLt
  · intro i t _ hi ht n hn
    rw [idtSetGate, Function.update_apply]
    split_ifs with he
    · rfl
    · refine ht n (lt_of_le_of_ne (by omega) fun h => he ?_)
      rw [← h, BitVec.ofNat_toNat, BitVec.setWidth_eq]

/-- **The gate of each vector** but that of the system call. -/
theorem idtInit_gate (hn : n ≠ 0x80) : idtInit addr idt n = gate (addr (vectorStub n)) 0x08 0x8E := by
  have hlt := n.isLt
  have hisr : Function.Injective fun i : Fin 32 => BitVec.ofNat 8 i.val := fun i j h => by
    have h := congrArg BitVec.toNat h
    simp only [BitVec.toNat_ofNat] at h
    omega
  have hirq : Function.Injective fun i : Fin 16 => BitVec.ofNat 8 (32 + i.val) := fun i j h => by
    have h := congrArg BitVec.toNat h
    simp only [BitVec.toNat_ofNat] at h
    omega
  have hother : ∀ k : ℕ, k < 48 → k ≠ n.toNat → BitVec.ofNat 8 k ≠ n := fun k hk hne he => hne (by
    rw [← he, BitVec.toNat_ofNat, Nat.mod_eq_of_lt (by omega)])
  have hself : ∀ k : ℕ, k = n.toNat → BitVec.ofNat 8 k = n := fun k hk => by
    rw [hk, BitVec.ofNat_toNat, BitVec.setWidth_eq]
  apply (Function.update_of_ne hn _ _).trans
  by_cases h1 : n.toNat < 32
  · -- an exception: the gates of the IRQs are for other vectors
    rw [vectorStub, dif_pos h1]
    apply (foldl_gates_other fun i _ => hother _ (by omega) (by omega)).trans
    exact foldl_gates hisr (List.mem_finRange ⟨n.toNat, h1⟩) (hself _ rfl)
  rw [vectorStub, dif_neg h1]
  by_cases h2 : n.toNat < 48
  · rw [dif_pos h2]
    exact foldl_gates hirq (List.mem_finRange (⟨n.toNat - 32, by omega⟩ : Fin 16)) (hself _ (by simp only; omega))
  · -- no gate of its own
    rw [dif_neg h2, if_neg hn]
    apply (foldl_gates_other fun i _ => hother _ (by omega) (by omega)).trans
    exact (foldl_gates_other fun i _ => hother _ (by omega) (by omega)).trans (default_gates ..)

/-- The base of a gate is put together from its three parts. -/
theorem gate_base (base : Word) (sel : BitVec 16) (flags : BitVec 8) : (gate base sel flags).base = base := by
  have h16 : ∀ x : Word, (x &&& 0xFFFF).setWidth 16 = x.setWidth 16 := fun x => by
    rw [BitVec.setWidth_and, show (0xFFFF : Word).setWidth 16 = BitVec.allOnes 16 by decide, BitVec.and_allOnes]
  have h32 : ∀ x : Word, (x &&& 0xFFFFFFFF).setWidth 32 = x.setWidth 32 := fun x => by
    rw [BitVec.setWidth_and, show (0xFFFFFFFF : Word).setWidth 32 = BitVec.allOnes 32 by decide, BitVec.and_allOnes]
  simp only [IdtEntry.base, gate, h16, h32]
  apply BitVec.eq_of_getLsbD_eq
  intro i hi
  simp only [BitVec.getLsbD_or, BitVec.getLsbD_shiftLeft, BitVec.getLsbD_setWidth, BitVec.getLsbD_ushiftRight]
  by_cases h1 : i < 16
  · simp [h1, show i < 32 by omega, show i < 64 by omega]
  by_cases h2 : i < 32
  · simp [h1, h2, show i < 64 by omega, show i - 16 < 64 by omega, show i - 16 < 16 by omega,
      show 16 + (i - 16) = i by omega]
  · simp [h1, h2, hi, show ¬ i - 16 < 16 by omega, show i - 32 < 64 by omega, show i - 32 < 32 by omega,
      show 32 + (i - 32) = i by omega]

/-- **What the processor does** for a vector with an interrupt gate of `idt_init`. -/
theorem raise_eq (addr : Stub → Word) (idt : Idt) (hn : n ≠ 0x80) (hk : KernelMode m) (err : Option Word) :
    ∃ d, raise (idtInit addr idt) n err m = some d ∧ d.rip = addr (vectorStub n) ∧
      OnStack d.mem (d.regs .rsp) (err.toList ++ m.frame) ∧ ∀ r ≠ .rsp, d.regs r = m.regs r := by
  obtain ⟨d, hd, -, hst, hr⟩ := fault_eq (m := m) 0x08 err (by rw [Machine.cpl, hk.cs]; decide)
  refine ⟨{ d with rip := addr (vectorStub n) }, ?_, rfl, hst, hr⟩
  have hsel : (gate (addr (vectorStub n)) 0x08 0x8E).selector = 0x08 := rfl
  have hflags : (gate (addr (vectorStub n)) 0x08 0x8E).flags = 0x8E := rfl
  simp only [raise, idtInit_gate hn, hsel, hflags, gate_base, hd, Option.map_some]
  rfl

/-! ## The stubs -/

/-- The registers that a stub saves, in the order of the pops. -/
def savedOrder : List Reg :=
  [.r15, .r14, .r13, .r12, .r11, .r10, .r9, .r8, .rbp, .rdi, .rsi, .rdx, .rcx, .rbx, .rax]

theorem saveRegisters_eq : saveRegisters = savedOrder.reverse.map .push := rfl

theorem restoreRegisters_eq : restoreRegisters = savedOrder.map .pop := rfl

theorem rsp_notMem : .rsp ∉ savedOrder := by decide

theorem mem_savedOrder {r : Reg} (h : r ≠ .rsp) : r ∈ savedOrder := by
  revert h
  cases r <;> decide

/-- What the C function finds: the saved registers, the words that the stub pushed, and what the
processor pushed. -/
structure StubEntered (imms l : List Word) (ret : Word) (m d h : Machine) : Prop where
  stack : OnStack h.mem (h.regs .rsp) (ret :: (savedOrder.map m.regs ++ (imms.reverse ++ l)))
  pointer : h.regs .rdi = h.regs .rsp + 8
  depth : h.regs .rsp = d.regs .rsp - BitVec.ofNat 64 (8 * (imms.length + 16))

/-- **The way in.** -/
theorem enter_stub {l : List Word} (imms : List Word) (cleanup : List Instr) (hst : OnStack d.mem (d.regs .rsp) l)
    (hl : l.length ≤ 6) (hi : imms.length ≤ 2) (hr : ∀ r ≠ .rsp, d.regs r = m.regs r) (ret : Word) :
    ∃ h, run gdt d ((stubCode imms cleanup).entry ret) = some h ∧ StubEntered imms l ret m d h := by
  have hsaved : savedOrder.length = 15 := rfl
  set d₁ := d.pushWords imms with hd₁
  have hst₁ : OnStack d₁.mem (d₁.regs .rsp) (imms.reverse ++ l) := onStack_pushWords imms hst (by omega)
  have hr₁ : savedOrder.map d₁.regs = savedOrder.map m.regs := List.map_congr_left fun r hm => by
    have hne : r ≠ .rsp := fun he => rsp_notMem (he ▸ hm)
    exact ((sameButStack_pushWords imms).regs r hne).trans (hr r hne)
  set d₂ := d₁.pushWords (savedOrder.reverse.map d₁.regs) with hd₂
  have hst₂ : OnStack d₂.mem (d₂.regs .rsp) (savedOrder.map m.regs ++ (imms.reverse ++ l)) := by
    have h := onStack_pushWords (m := d₁) (savedOrder.reverse.map d₁.regs) hst₁
      (by rw [List.length_map, List.length_reverse, List.length_append, List.length_reverse]; omega)
    rwa [← List.map_reverse, List.reverse_reverse, hr₁] at h
  have hpush := run_pushes gdt (m := d₁) (show .rsp ∉ savedOrder.reverse by decide)
  set d₃ := d₂.set .rdi (d₂.regs .rsp) with hd₃
  have hsp : d₃.regs .rsp = d₂.regs .rsp := Machine.set_regs_ne (by decide) _
  refine ⟨d₃.pushWord ret, ?_, ?_, ?_, ?_⟩
  · show run gdt d (imms.map .pushImm ++ (saveRegisters ++ [.mov .rdi .rsp, .call ret])) = _
    rw [run_append, run_pushImms, Option.bind_some, run_append, saveRegisters_eq, hpush]
    rfl
  · have hlen : (savedOrder.map m.regs ++ (imms.reverse ++ l)).length ≤ 23 := by
      rw [List.length_append, List.length_append, List.length_map, List.length_reverse]
      omega
    exact onStack_pushWord (by rw [hsp]; exact hst₂) (by omega) ret
  · rw [Machine.pushWord_regs (by decide), Machine.pushWord_rsp, hsp, hd₃, Machine.set_regs_self,
      BitVec.sub_add_cancel]
  · rw [Machine.pushWord_rsp, hsp, hd₂, pushWords_rsp, hd₁, pushWords_rsp, List.length_map, List.length_reverse,
      hsaved]
    bv_omega

/-- **The way out**: the saved registers come back, and the stack pointer is behind them. -/
theorem leave_stub {l : List Word} (he : StubEntered imms l ret m d h) (hl : imms.length + l.length ≤ 7)
    (hc : SysVCall sizeofRegisters h h') :
    ∃ b, run gdt h' restoreRegisters = some b ∧ (∀ r ≠ .rsp, b.regs r = m.regs r) ∧
      b.regs .rsp = d.regs .rsp - BitVec.ofNat 64 (8 * imms.length) := by
  have hsaved : savedOrder.length = 15 := rfl
  have hst : OnStack h'.mem (h'.regs .rsp) (savedOrder.map m.regs ++ (imms.reverse ++ l)) := by
    apply hc.onStack he.stack
    rw [List.length_append, List.length_append, List.length_map, List.length_reverse, sizeofRegisters]
    omega
  obtain ⟨b, hpop, hp⟩ := run_pops gdt rsp_notMem hst
  refine ⟨b, restoreRegisters_eq ▸ hpop, fun r hr => hp.popped r (mem_savedOrder hr), ?_⟩
  rw [run_pops_rsp rsp_notMem hpop, hc.rsp, he.depth, hsaved]
  bv_omega

/-! ## The structure -/

/-- The fields of the `registers_t` from `int_no` on are the words behind the saved registers. -/
theorem registers_word {l : List Word} (he : StubEntered imms l ret m d h) {i : ℕ} {v : Word}
    (hi : (imms.reverse ++ l)[i]? = some v) : h.mem.read64 (h.regs .rdi + BitVec.ofNat 64 (0x78 + 8 * i)) = v := by
  have hsaved : (savedOrder.map m.regs).length = 15 := rfl
  have hget : (savedOrder.map m.regs ++ (imms.reverse ++ l))[15 + i]? = some v := by
    rw [List.getElem?_append_right (by omega), hsaved, Nat.add_sub_cancel_left, hi]
  rw [← he.stack.2.get hget, he.pointer]
  congr 3
  omega

/-- The last five fields of a `registers_t`, by their place behind `int_no`. -/
theorem tail_eq (mem : Mem) (a : Word) : let r := registersAt mem a
    [r.rip, r.cs, r.rflags, r.rsp, r.ss] =
      (List.range 5).map fun i => mem.read64 (a + BitVec.ofNat 64 (0x78 + 8 * (2 + i))) := rfl

/-- What the processor has pushed takes up to six words. -/
theorem length_pushed (err : Option Word) (m : Machine) : (err.toList ++ m.frame).length = err.toList.length + 5 ∧
    err.toList.length ≤ 1 := by
  rw [List.length_append, Machine.frame]
  cases err <;> simp

/-- **The frame agrees** when the stub and the processor together push the vector and an error code. -/
theorem agrees_of_two {x : Word} (hst : OnStack d.mem (d.regs .rsp) (err.toList ++ m.frame))
    (hr : ∀ r ≠ .rsp, d.regs r = m.regs r) (h2 : imms.reverse ++ err.toList = [n.setWidth 64, x]) :
    FrameAgrees n (stubCode imms [.addImm .rsp 16]) ret err m d := by
  obtain ⟨hlen, hone⟩ := length_pushed err m
  have htwo := congrArg List.length h2
  rw [List.length_append, List.length_reverse] at htwo
  have htwo : imms.length + err.toList.length = 2 := htwo
  have hlist : imms.reverse ++ (err.toList ++ m.frame) = n.setWidth 64 :: x :: m.frame := by
    rw [← List.append_assoc, h2]
    rfl
  obtain ⟨h, hrun, he⟩ := enter_stub imms [.addImm .rsp 16] hst (by omega) (by omega) hr ret
  have hw : ∀ i v, (n.setWidth 64 :: x :: m.frame)[i]? = some v →
      h.mem.read64 (h.regs .rdi + BitVec.ofNat 64 (0x78 + 8 * i)) = v := fun i v hv =>
    registers_word he (by rw [hlist]; exact hv)
  refine ⟨h, _, hrun, rfl, hw 0 _ rfl, ?_, ?_⟩
  · rw [tail_eq]
    exact congrArg₂ _ (hw 2 _ rfl) (congrArg₂ _ (hw 3 _ rfl) (congrArg₂ _ (hw 4 _ rfl)
      (congrArg₂ _ (hw 5 _ rfl) (congrArg₂ _ (hw 6 _ rfl) rfl))))
  · intro h' hc
    obtain ⟨b, hb, hregs, hsp⟩ := leave_stub he (by omega) hc
    refine ⟨restoreRegisters ++ [.addImm .rsp 16], { b.set .rsp (b.regs .rsp + 16) with
      rflags := addFlags (b.regs .rsp) 16 b.rflags }, rfl, ?_, ?_, ?_⟩
    · rw [run_append, hb]
      rfl
    · show (b.set .rsp (b.regs .rsp + 16)).regs .rsp = _
      rw [Machine.set_regs_self, hsp, ripAddr]
      bv_omega
    · intro r hne
      exact (Machine.set_regs_ne hne _).trans (hregs r hne)

/-- What agreement says about the words that the stub and the processor have pushed. -/
theorem words_of_agrees (ha : FrameAgrees n (stubCode imms cleanup) ret err m d)
    (hst : OnStack d.mem (d.regs .rsp) (err.toList ++ m.frame)) (hi : imms.length ≤ 2)
    (hr : ∀ r ≠ .rsp, d.regs r = m.regs r) :
    (∀ v, (imms.reverse ++ (err.toList ++ m.frame))[0]? = some v → v = n.setWidth 64) ∧
    ∀ i < 5, ∀ v, (imms.reverse ++ (err.toList ++ m.frame))[2 + i]? = some v → m.frame[i]? = some v := by
  obtain ⟨hlen, hone⟩ := length_pushed err m
  obtain ⟨h, r, hrun, rfl, hn, hfr, -⟩ := ha
  obtain ⟨h₂, hrun₂, he⟩ := enter_stub imms cleanup hst (by omega) hi hr ret
  obtain rfl := Option.some.inj (hrun.symm.trans hrun₂)
  refine ⟨fun v hv => (registers_word he hv).symm.trans hn, ?_⟩
  intro i hi v hv
  rw [← hfr, tail_eq, List.getElem?_map, List.getElem?_range hi, Option.map_some]
  exact congrArg some (registers_word he hv)

/-! ## The vectors -/

/-- The vectors whose frame agrees: those with a stub of their own, when the processor pushes an
error code exactly for those whose stub does not. -/
def FrameOk (n : BitVec 8) (src : Source) : Prop := n.toNat < 48 ∧ (PushesError n src ↔ n.toNat ∈ errcodeStubs)

instance (n : BitVec 8) (src : Source) : Decidable (PushesError n src) := inferInstanceAs (Decidable (_ ∧ _))

instance (n : BitVec 8) (src : Source) : Decidable (FrameOk n src) := inferInstanceAs (Decidable (_ ∧ _))

/-- In the kernel CS and SS differ, so the words from CS to SS are not all the same: a frame that is off by one
word is seen. -/
theorem frame_shifted (hk : KernelMode m) (hflags : m.rflags = m.cs.setWidth 64) (hrsp : m.regs .rsp = m.rflags)
    (hss : m.ss.setWidth 64 = m.regs .rsp) : False := by
  have hsame : m.cs.setWidth 64 = m.ss.setWidth 64 := hflags.symm.trans (hrsp.symm.trans hss.symm)
  rw [hk.cs, hk.ss] at hsame
  exact absurd hsame (by decide)

/-- Two words too few: a frame as `isr_default` leaves it does not agree. -/
theorem not_agrees_default (hk : KernelMode m) (hn : 48 ≤ n.toNat) (hst : OnStack d.mem (d.regs .rsp) m.frame)
    (hr : ∀ r ≠ .rsp, d.regs r = m.regs r) : ¬ FrameAgrees n isrDefault ret none m d := fun ha => by
  obtain ⟨h0, hw⟩ := words_of_agrees ha hst (by decide) hr
  have hrip : m.rip = n.setWidth 64 := h0 _ rfl
  have hflags : m.rip = m.rflags := Option.some.inj (hw 0 (by decide) m.rflags rfl)
  have hss : m.rflags = m.ss.setWidth 64 := Option.some.inj (hw 2 (by decide) (m.ss.setWidth 64) rfl)
  have hv : n.setWidth 64 = (0x10 : BitVec 16).setWidth 64 := by rw [← hrip, hflags, hss, hk.ss]
  bv_omega

/-- One word too few: the stub counts on an error code that the processor has not pushed. -/
theorem not_agrees_missing (hk : KernelMode m) {v : Word} (hst : OnStack d.mem (d.regs .rsp) m.frame)
    (hr : ∀ r ≠ .rsp, d.regs r = m.regs r) : ¬ FrameAgrees n (isrErrcode v) ret none m d := fun ha => by
  obtain ⟨-, hw⟩ := words_of_agrees ha hst (by simp) hr
  have hflags : m.cs.setWidth 64 = m.rflags := Option.some.inj (hw 1 (by decide) m.rflags rfl)
  have hrsp : m.rflags = m.regs .rsp := Option.some.inj (hw 2 (by decide) (m.regs .rsp) rfl)
  have hss : m.regs .rsp = m.ss.setWidth 64 := Option.some.inj (hw 3 (by decide) (m.ss.setWidth 64) rfl)
  exact frame_shifted hk hflags.symm hrsp.symm hss.symm

/-- One word too many: both push an error code. -/
theorem not_agrees_twice (hk : KernelMode m) {v e : Word} (hst : OnStack d.mem (d.regs .rsp) (e :: m.frame))
    (hr : ∀ r ≠ .rsp, d.regs r = m.regs r) : ¬ FrameAgrees n (isrNoerrcode v) ret (some e) m d := fun ha => by
  obtain ⟨-, hw⟩ := words_of_agrees ha hst (by simp) hr
  have hflags : m.rflags = m.cs.setWidth 64 := Option.some.inj (hw 2 (by decide) (m.cs.setWidth 64) rfl)
  have hrsp : m.regs .rsp = m.rflags := Option.some.inj (hw 3 (by decide) m.rflags rfl)
  have hss : m.ss.setWidth 64 = m.regs .rsp := Option.some.inj (hw 4 (by decide) (m.regs .rsp) rfl)
  exact frame_shifted hk hflags hrsp hss

/-- `ISR_ERRCODE` counts on an error code. -/
theorem errcode_agrees_iff (hk : KernelMode m) (hst : OnStack d.mem (d.regs .rsp) (err.toList ++ m.frame))
    (hr : ∀ r ≠ .rsp, d.regs r = m.regs r) :
    FrameAgrees n (isrErrcode (n.setWidth 64)) ret err m d ↔ err.isSome := by
  cases err with
  | none => exact ⟨fun ha => (not_agrees_missing hk hst hr ha).elim, fun h => by cases h⟩
  | some e => exact ⟨fun _ => rfl, fun _ => agrees_of_two (x := e) hst hr rfl⟩

/-- `ISR_NOERRCODE` and `IRQ` count on none. -/
theorem noerrcode_agrees_iff (hk : KernelMode m) (hst : OnStack d.mem (d.regs .rsp) (err.toList ++ m.frame))
    (hr : ∀ r ≠ .rsp, d.regs r = m.regs r) :
    FrameAgrees n (isrNoerrcode (n.setWidth 64)) ret err m d ↔ ¬ err.isSome := by
  cases err with
  | none => exact ⟨fun _ => by simp, fun _ => agrees_of_two (x := 0) hst hr rfl⟩
  | some e => exact ⟨fun ha => (not_agrees_twice hk hst hr ha).elim, fun h => (h rfl).elim⟩

/-- The code for each vector. -/
theorem vectorStub_code (hn : n ≠ 0x80) : (vectorStub n).code = some
    (if n.toNat < 48 then
      if n.toNat ∈ errcodeStubs then isrErrcode (n.setWidth 64) else isrNoerrcode (n.setWidth 64)
    else isrDefault) := by
  have hw : ∀ k, k = n.toNat → BitVec.ofNat 64 k = n.setWidth 64 := by
    rintro _ rfl
    exact BitVec.ofNat_toNat 64 n
  by_cases h1 : n.toNat < 32
  · rw [if_pos (by omega), vectorStub, dif_pos h1, Stub.code, hw _ rfl]
  rw [vectorStub, dif_neg h1]
  by_cases h2 : n.toNat < 48
  · -- none of the IRQs is in the list
    have hmem : n.toNat ∉ errcodeStubs := fun h => h1 ((by decide : ∀ k ∈ errcodeStubs, k < 32) _ h)
    rw [dif_pos h2, if_pos h2, if_neg hmem, Stub.code, hw (32 + (n.toNat - 32)) (by omega)]
    rfl
  · rw [dif_neg h2, if_neg h2, if_neg hn]
    rfl

/-- **The frame of a vector** agrees exactly if it is one of `FrameOk`. -/
theorem frame_agrees_iff (addr : Stub → Word) (idt : Idt) (ret : Word) (hn : n ≠ 0x80) (hk : KernelMode m)
    (herr : err.isSome ↔ PushesError n src) :
    ∃ code d, (vectorStub n).code = some code ∧ raise (idtInit addr idt) n err m = some d ∧
      d.rip = addr (vectorStub n) ∧ (FrameAgrees n code ret err m d ↔ FrameOk n src) := by
  obtain ⟨d, hd, hrip, hst, hr⟩ := raise_eq addr idt hn hk err
  refine ⟨_, d, vectorStub_code hn, hd, hrip, ?_⟩
  unfold FrameOk
  split_ifs with h48 hmem
  · rw [errcode_agrees_iff hk hst hr, herr]
    exact ⟨fun h => ⟨h48, fun _ => hmem, fun _ => h⟩, fun h => h.2.2 hmem⟩
  · rw [noerrcode_agrees_iff hk hst hr, herr]
    exact ⟨fun h => ⟨h48, fun h' => (h h').elim, fun h' => (hmem h').elim⟩, fun h h' => hmem (h.2.1 h')⟩
  · -- the processor has an error code for none of these vectors
    have hnone : err = none := by
      rw [← Option.not_isSome_iff_eq_none, herr]
      intro h
      exact h48 ((by decide : ∀ k ∈ errorVectors, k < 48) _ h.2)
    subst hnone
    exact ⟨fun ha => (not_agrees_default hk (by omega) hst hr ha).elim, fun h => (h48 h.1).elim⟩

-- Of the exceptions only 21 has no matching stub, and as software interrupts those of `ISR_ERRCODE` have none.
example : ∀ n : BitVec 8, FrameOk n .processor ↔ n.toNat < 48 ∧ n ≠ 21 := by decide +kernel

example : ∀ n : BitVec 8, FrameOk n .other ↔ n.toNat < 48 ∧ n.toNat ∉ errcodeStubs := by decide +kernel

/-- The keyboard, vector 33. -/
theorem frame_agrees_keyboard : ∃ code d, (vectorStub 33).code = some code ∧
    raise (idtInit (fun _ => 0x103000) fun _ => gate 0 0 0) 33 none kernelMachine = some d ∧ d.rip = 0x103000 ∧
    FrameAgrees 33 code 0x103040 none kernelMachine d := by
  obtain ⟨code, d, hcode, hd, hrip, hiff⟩ := frame_agrees_iff (fun _ => 0x103000) (fun _ => gate 0 0 0) 0x103040
    (n := 33) (m := kernelMachine) (by decide) kernelMode_kernelMachine
    (show (none : Option Word).isSome ↔ PushesError 33 .other by decide)
  exact ⟨code, d, hcode, hd, hrip, hiff.2 (by decide)⟩

/-- `int 48`: the gate is that of `isr_default`, and there is no error code. -/
theorem default_frame_shifted : (48 : BitVec 8) ≠ 0x80 ∧ KernelMode kernelMachine ∧ ¬ PushesError 48 .other ∧
    ∃ d, raise (idtInit (fun _ => 0x103000) fun _ => gate 0 0 0) 48 none kernelMachine = some d ∧
      (vectorStub 48).code = some isrDefault ∧ ¬ FrameAgrees 48 isrDefault 0x103040 none kernelMachine d := by
  have hk := kernelMode_kernelMachine
  obtain ⟨d, hd, -, hst, hr⟩ := raise_eq (n := 48) (fun _ => 0x103000) (fun _ => gate 0 0 0) (by decide) hk none
  exact ⟨by decide, hk, by decide, d, hd, rfl, not_agrees_default hk (by decide) hst hr⟩

end Zer0S
