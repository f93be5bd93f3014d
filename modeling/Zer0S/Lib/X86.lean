import Zer0S.Lib.Mem

/-!
# A small x86-64 machine

The instructions that context switches and interrupt stubs are made of, in 64-bit mode,
with the checks of `iretq`. `none` is a fault. Memory accesses do not fault.

Code is a list of instructions run from its first to its last, without addresses: `rip`
is the address at which control goes on after the code, so only `iretq` changes it, and a
`call` is given its return address. What the callee does is not part of the machine.

* `run_save`, `run_load`: a block of stores through one base register, and a block of
  loads.
* `run_pushes`, `run_pops`: registers pushed are on the stack in reverse order, and values
  on the stack are popped in order.
* `OnStack.get`: the word at a place on the stack.
-/

namespace Lib

inductive Reg
  | rax | rbx | rcx | rdx | rsi | rdi | rbp | rsp | r8 | r9 | r10 | r11 | r12 | r13 | r14 | r15
deriving DecidableEq, Repr

structure Machine where
  regs : Reg → Word
  rip : Word
  rflags : Word
  cs : BitVec 16
  ss : BitVec 16
  gsBase : Word
  kernelGsBase : Word
  mem : Mem

/-- `store b d r` is `mov [b + d], r`; `load r b d` is `mov r, [b + d]`. -/
inductive Instr
  | store (base : Reg) (disp : Word) (src : Reg)
  | load (dst base : Reg) (disp : Word)
  | mov (dst src : Reg)
  | push (src : Reg)
  | pushImm (v : Word)
  | pushMem (base : Reg) (disp : Word)
  | pop (dst : Reg)
  | addImm (dst : Reg) (v : Word)
  | call (ret : Word)
  | swapgs
  | iretq
deriving DecidableEq, Repr

namespace Machine

def set (m : Machine) (r : Reg) (v : Word) : Machine := { m with regs := Function.update m.regs r v }

/-- `rsp -= 8`, then store at `[rsp]`. -/
def pushWord (m : Machine) (v : Word) : Machine :=
  { m.set .rsp (m.regs .rsp - 8) with mem := m.mem.write64 (m.regs .rsp - 8) v }

/-- Push the words of a list, from first to last. -/
def pushWords (m : Machine) (vs : List Word) : Machine := vs.foldl pushWord m

/-- The current privilege level. -/
def cpl (m : Machine) : ℕ := (m.cs.extractLsb' 0 2).toNat

end Machine

/-! ## Segments and `iretq` -/

/-- The privilege level a selector asks for. -/
def rpl (sel : BitVec 16) : ℕ := (sel.extractLsb' 0 2).toNat

/-- The privilege level of a descriptor. -/
def dpl (d : Word) : ℕ := (d.extractLsb' 45 2).toNat

/-- A selector whose index and table bits are 0. -/
def nullSel (sel : BitVec 16) : Bool := sel.extractLsb' 2 14 == 0

/-- The descriptor a selector names in the GDT; there is no LDT. -/
def descriptor (gdt : List Word) (sel : BitVec 16) : Option Word :=
  if sel.getLsbD 2 then none else gdt[(sel.extractLsb' 3 13).toNat]?

/-- A present 64-bit code segment that `iretq` may return to from level `cpl`. -/
def codeOk (gdt : List Word) (cpl : ℕ) (sel : BitVec 16) : Bool :=
  !nullSel sel && match descriptor gdt sel with
  | none => false
  | some d =>
    d.getLsbD 44 && d.getLsbD 43 && d.getLsbD 47 && d.getLsbD 53 && !d.getLsbD 54 &&
      decide (cpl ≤ rpl sel) && decide (if d.getLsbD 42 then dpl d ≤ rpl sel else dpl d = rpl sel)

/-- A stack segment for level `cpl`: null, below level 3, or present writable data. -/
def stackOk (gdt : List Word) (cpl : ℕ) (sel : BitVec 16) : Bool :=
  if nullSel sel then decide (cpl < 3 ∧ rpl sel = cpl)
  else match descriptor gdt sel with
  | none => false
  | some d =>
    d.getLsbD 44 && !d.getLsbD 43 && d.getLsbD 41 && d.getLsbD 47 && decide (rpl sel = cpl ∧ dpl d = cpl)

/-- Bits 47 to 63 of a canonical address are equal. -/
def canonical (a : Word) : Bool := a.extractLsb' 47 17 == 0 || a.extractLsb' 47 17 == BitVec.allOnes 17

/-- The flags that `iretq` at level `cpl` takes from the stack. -/
def flagMask (cpl : ℕ) (rflags : Word) : Word :=
  if cpl = 0 then 0x3D7FD5
  else if cpl ≤ (rflags.extractLsb' 12 2).toNat then 0x254FD5
  else 0x254DD5

/-- The flags after `iretq`; bit 1 is always set. -/
def loadFlags (cpl : ℕ) (old new : Word) : Word :=
  (new &&& flagMask cpl old) ||| (old &&& ~~~ flagMask cpl old) ||| 2

/-- `iretq` pops RIP, CS, RFLAGS, RSP and SS, in this order, from a stack that is mapped. The NT flag must be
clear. `none` stands for every fault. -/
def Machine.iretq (gdt : List Word) (m : Machine) : Option Machine :=
  let sp := m.regs .rsp
  let rip := m.mem.read64 sp
  let cs := (m.mem.read64 (sp + 8)).setWidth 16
  let rflags := m.mem.read64 (sp + 16)
  let rsp := m.mem.read64 (sp + 24)
  let ss := (m.mem.read64 (sp + 32)).setWidth 16
  if !m.rflags.getLsbD 14 && codeOk gdt m.cpl cs && canonical rip && stackOk gdt (rpl cs) ss then
    some { m.set .rsp rsp with rip := rip, cs := cs, ss := ss, rflags := loadFlags m.cpl m.rflags rflags }
  else none

/-- What an interrupt leaves on the stack for `iretq`, from the top down. -/
def Machine.frame (m : Machine) : List Word :=
  [m.rip, m.cs.setWidth 64, m.rflags, m.regs .rsp, m.ss.setWidth 64]

/-- An interrupt through a 64-bit interrupt gate with a level 0 selector, taken at level 0:
the stack is aligned and gets the frame; IF, TF, NT, RF and VM are cleared. From another
level it needs a TSS, which this machine does not have. -/
def Machine.interrupt (selector : BitVec 16) (m : Machine) : Option Machine :=
  if m.cpl = 0 then
    some { (m.set .rsp (m.regs .rsp &&& ~~~ 15)).pushWords m.frame.reverse with
      cs := selector, rflags := m.rflags &&& ~~~ 0x34300 }
  else none

/-- What the processor pushes: the frame, and for some exceptions an error code. -/
def Machine.fault (selector : BitVec 16) (err : Option Word) (m : Machine) : Option Machine :=
  (m.interrupt selector).map fun m => m.pushWords err.toList

/-! ## Execution -/

/-- Bit `k` when the condition holds. -/
def flagBit (k : ℕ) (c : Bool) : Word := if c then 1 <<< k else 0

/-- The flags after `a + b`: CF, PF, AF, ZF, SF and OF are set or cleared, the others stay. -/
def addFlags (a b rflags : Word) : Word :=
  let r := a + b
  (rflags &&& ~~~ 0x8D5) ||| flagBit 0 (decide (2 ^ 64 ≤ a.toNat + b.toNat)) |||
    flagBit 2 (((List.range 8).countP fun i => r.getLsbD i) % 2 == 0) |||
    flagBit 4 ((a ^^^ b ^^^ r).getLsbD 4) ||| flagBit 6 (r == 0) ||| flagBit 7 r.msb |||
    flagBit 11 (a.msb == b.msb && r.msb != a.msb)

def exec (gdt : List Word) (m : Machine) : Instr → Option Machine
  | .store base disp src => some { m with mem := m.mem.write64 (m.regs base + disp) (m.regs src) }
  | .load dst base disp => some (m.set dst (m.mem.read64 (m.regs base + disp)))
  | .mov dst src => some (m.set dst (m.regs src))
  | .push src => some (m.pushWord (m.regs src))
  | .pushImm v => some (m.pushWord v)
  | .pushMem base disp => some (m.pushWord (m.mem.read64 (m.regs base + disp)))
  | .pop dst => some ((m.set .rsp (m.regs .rsp + 8)).set dst (m.mem.read64 (m.regs .rsp)))
  | .addImm dst v => some { m.set dst (m.regs dst + v) with rflags := addFlags (m.regs dst) v m.rflags }
  | .call ret => some (m.pushWord ret)
  | .swapgs => if m.cpl = 0 then some { m with gsBase := m.kernelGsBase, kernelGsBase := m.gsBase } else none
  | .iretq => m.iretq gdt

/-- Straight-line code. -/
def run (gdt : List Word) (m : Machine) : List Instr → Option Machine
  | [] => some m
  | i :: code => (exec gdt m i).bind fun m => run gdt m code

variable {gdt : List Word} {m m' : Machine}

theorem run_append (code code' : List Instr) :
    run gdt m (code ++ code') = (run gdt m code).bind fun m => run gdt m code' := by
  induction code generalizing m with
  | nil => rfl
  | cons i code ih => simp only [List.cons_append, run, Option.bind_assoc, ih]

@[simp] theorem Machine.set_regs_self (m : Machine) (r : Reg) (v : Word) : (m.set r v).regs r = v := by
  simp [set]

theorem Machine.set_regs_ne {r r' : Reg} (h : r' ≠ r) (v : Word) : (m.set r v).regs r' = m.regs r' := by
  simp [set, h]

/-! ## Blocks of stores and loads -/

/-- `mov [base + d], r` for each pair. -/
def saveCode (base : Reg) (l : List (Word × Reg)) : List Instr := l.map fun x => .store base x.1 x.2

/-- The memory after `saveCode`, for the base address `a`. -/
def saved (regs : Reg → Word) (a : Word) (l : List (Word × Reg)) (mem : Mem) : Mem :=
  l.foldl (fun mem x => mem.write64 (a + x.1) (regs x.2)) mem

theorem run_save (base : Reg) (l : List (Word × Reg)) :
    run gdt m (saveCode base l) = some { m with mem := saved m.regs (m.regs base) l m.mem } := by
  induction l generalizing m with
  | nil => rfl
  | cons x l ih => exact ih

/-- Stores keep a word that is apart from all of them. -/
theorem read64_saved {regs : Reg → Word} {a b : Word} {l : List (Word × Reg)} {mem : Mem}
    (h : ∀ x ∈ l, Sep (a + x.1) 8 b 8) : (saved regs a l mem).read64 b = mem.read64 b := by
  induction l generalizing mem with
  | nil => rfl
  | cons x l ih =>
    rw [List.forall_mem_cons] at h
    exact (ih h.2).trans (Mem.read64_write64_sep h.1 mem _)

/-- `mov r, [base + d]` for each pair. -/
def loadCode (base : Reg) (l : List (Reg × Word)) : List Instr := l.map fun x => .load x.1 base x.2

/-- The registers after `loadCode`, for the base address `a`. -/
def loaded (mem : Mem) (a : Word) (l : List (Reg × Word)) (regs : Reg → Word) : Reg → Word :=
  l.foldl (fun regs x => Function.update regs x.1 (mem.read64 (a + x.2))) regs

theorem run_load {base : Reg} {l : List (Reg × Word)} (h : ∀ x ∈ l, x.1 ≠ base) :
    run gdt m (loadCode base l) = some { m with regs := loaded m.mem (m.regs base) l m.regs } := by
  induction l generalizing m with
  | nil => rfl
  | cons x l ih =>
    rw [List.forall_mem_cons] at h
    have := ih (m := m.set x.1 (m.mem.read64 (m.regs base + x.2))) h.2
    rw [Machine.set_regs_ne h.1.symm] at this
    exact this

/-- A register that is not loaded keeps its value. -/
theorem loaded_other {mem : Mem} {a : Word} {l : List (Reg × Word)} {regs : Reg → Word} {r : Reg}
    (h : ∀ x ∈ l, x.1 ≠ r) : loaded mem a l regs r = regs r := by
  induction l generalizing regs with
  | nil => rfl
  | cons x l ih =>
    rw [List.forall_mem_cons] at h
    exact (ih h.2).trans (Function.update_of_ne h.1.symm _ _)

/-! ## The stack -/

/-- The words from `sp` up are those of the list. -/
def OnStack (mem : Mem) : Word → List Word → Prop
  | _, [] => True
  | sp, v :: l => mem.read64 sp = v ∧ OnStack mem (sp + 8) l

theorem OnStack.congr {mem mem' : Mem} {sp : Word} {l : List Word} (h : OnStack mem sp l)
    (he : ∀ i < 8 * l.length, mem' (sp + BitVec.ofNat 64 i) = mem (sp + BitVec.ofNat 64 i)) :
    OnStack mem' sp l := by
  induction l generalizing sp with
  | nil => trivial
  | cons v l ih =>
    obtain ⟨rfl, h2⟩ := h
    rw [List.length_cons] at he
    refine ⟨Mem.read64_congr fun i hi => he i (by omega), ih h2 ?_⟩
    intro i hi
    have := he (8 + i) (by omega)
    rwa [show sp + BitVec.ofNat 64 (8 + i) = sp + 8 + BitVec.ofNat 64 i by bv_omega] at this

/-- Two machines that differ in `rsp` and in memory only. -/
structure SameButStack (m m' : Machine) : Prop where
  regs : ∀ r ≠ .rsp, m'.regs r = m.regs r
  rip : m'.rip = m.rip
  rflags : m'.rflags = m.rflags
  cs : m'.cs = m.cs
  ss : m'.ss = m.ss

@[simp] theorem Machine.pushWord_rsp (m : Machine) (v : Word) : (m.pushWord v).regs .rsp = m.regs .rsp - 8 := by
  simp [pushWord, set]

theorem Machine.pushWord_regs {r : Reg} (h : r ≠ .rsp) (v : Word) : (m.pushWord v).regs r = m.regs r :=
  set_regs_ne h _

theorem sameButStack_pushWords (vs : List Word) : SameButStack m (m.pushWords vs) := by
  induction vs generalizing m with
  | nil => exact ⟨fun _ _ => rfl, rfl, rfl, rfl, rfl⟩
  | cons v vs ih =>
    have h := ih (m := m.pushWord v)
    exact ⟨fun r hr => (h.regs r hr).trans (Machine.pushWord_regs hr _), h.rip, h.rflags, h.cs, h.ss⟩

theorem onStack_pushWord {l : List Word} (h : OnStack m.mem (m.regs .rsp) l) (hl : 8 * (l.length + 1) ≤ 2 ^ 64)
    (v : Word) : OnStack (m.pushWord v).mem ((m.pushWord v).regs .rsp) (v :: l) := by
  rw [Machine.pushWord_rsp]
  refine ⟨Mem.read64_write64 _ _ _, ?_⟩
  rw [BitVec.sub_add_cancel]
  exact h.congr fun i hi => Mem.write64_outside (by bv_omega) _ _

/-- **Pushed words are on the stack**, the last one on top. -/
theorem onStack_pushWords {l : List Word} (vs : List Word) (h : OnStack m.mem (m.regs .rsp) l)
    (hl : 8 * (vs.length + l.length) ≤ 2 ^ 64) :
    OnStack (m.pushWords vs).mem ((m.pushWords vs).regs .rsp) (vs.reverse ++ l) := by
  induction vs generalizing m l with
  | nil => exact h
  | cons v vs ih =>
    rw [List.length_cons] at hl
    have h1 := ih (onStack_pushWord h (by omega) v) (by rw [List.length_cons]; omega)
    rw [List.reverse_cons, List.append_assoc]
    exact h1

/-- The word at place `i` of a list that is on the stack. -/
theorem OnStack.get {mem : Mem} {sp v : Word} {l : List Word} {i : ℕ} (h : OnStack mem sp l)
    (hi : l[i]? = some v) : mem.read64 (sp + BitVec.ofNat 64 (8 * i)) = v := by
  induction l generalizing sp i with
  | nil => cases hi
  | cons w l ih =>
    cases i with
    | zero =>
      rw [List.getElem?_cons_zero, Option.some.injEq] at hi
      rw [← hi, ← h.1]
      exact congrArg mem.read64 (BitVec.add_zero sp)
    | succ i =>
      rw [← ih h.2 hi]
      congr 1
      bv_omega

theorem pushWords_rsp (vs : List Word) :
    (m.pushWords vs).regs .rsp = m.regs .rsp - BitVec.ofNat 64 (8 * vs.length) := by
  induction vs generalizing m with
  | nil => exact (BitVec.sub_zero _).symm
  | cons v vs ih =>
    have h := ih (m := m.pushWord v)
    rw [Machine.pushWord_rsp] at h
    rw [List.length_cons]
    apply h.trans
    bv_omega

/-- **An interrupt** leaves its frame on the stack and keeps the other registers. -/
theorem interrupt_eq (sel : BitVec 16) (h : m.cpl = 0) : ∃ m', m.interrupt sel = some m' ∧ m'.cs = sel ∧
    m'.rflags.getLsbD 14 = false ∧ OnStack m'.mem (m'.regs .rsp) m.frame ∧
    ∀ r ≠ .rsp, m'.regs r = m.regs r := by
  set m₁ := m.set .rsp (m.regs .rsp &&& ~~~ 15) with hm₁
  have hst := onStack_pushWords (m := m₁) (l := []) m.frame.reverse trivial (by simp [Machine.frame])
  rw [List.reverse_reverse, List.append_nil] at hst
  refine ⟨{ m₁.pushWords m.frame.reverse with cs := sel, rflags := m.rflags &&& ~~~ 0x34300 }, if_pos h, rfl,
    by simp, hst, ?_⟩
  intro r hr
  have h1 := (sameButStack_pushWords (m := m₁) m.frame.reverse).regs r hr
  exact h1.trans (Machine.set_regs_ne hr _)

/-- **A fault** leaves the error code on top of the frame, if there is one. -/
theorem fault_eq (sel : BitVec 16) (err : Option Word) (h : m.cpl = 0) : ∃ m', m.fault sel err = some m' ∧
    m'.cs = sel ∧ OnStack m'.mem (m'.regs .rsp) (err.toList ++ m.frame) ∧ ∀ r ≠ .rsp, m'.regs r = m.regs r := by
  obtain ⟨m₁, h1, hcs, -, hst, hr⟩ := interrupt_eq sel h
  have hsame := sameButStack_pushWords (m := m₁) err.toList
  refine ⟨m₁.pushWords err.toList, by rw [Machine.fault, h1, Option.map_some], hsame.cs.trans hcs, ?_,
    fun r hne => (hsame.regs r hne).trans (hr r hne)⟩
  cases err with
  | none => exact hst
  | some e => exact onStack_pushWords (m := m₁) [e] hst (by simp [Machine.frame])

/-- `push` of each value of a list. -/
theorem run_pushImms (gdt : List Word) (vs : List Word) :
    run gdt m (vs.map .pushImm) = some (m.pushWords vs) := by
  induction vs generalizing m with
  | nil => rfl
  | cons v vs ih => exact ih (m := m.pushWord v)

/-- `push` of each register of a list. -/
theorem run_pushes (gdt : List Word) {rs : List Reg} (h : .rsp ∉ rs) :
    run gdt m (rs.map .push) = some (m.pushWords (rs.map m.regs)) := by
  induction rs generalizing m with
  | nil => rfl
  | cons r rs ih =>
    rw [List.mem_cons, not_or] at h
    have hrs : rs.map (m.pushWord (m.regs r)).regs = rs.map m.regs :=
      List.map_congr_left fun r' hr' => Machine.pushWord_regs (by rintro rfl; exact h.2 hr') _
    have := ih (m := m.pushWord (m.regs r)) h.2
    rw [hrs] at this
    exact this

/-- `m'` is `m` after the values `f` of the registers in `rs` were popped off the stack, and
`l` is left on it. -/
structure Popped (m m' : Machine) (rs : List Reg) (f : Reg → Word) (l : List Word) : Prop where
  popped : ∀ r ∈ rs, m'.regs r = f r
  others : ∀ r ∉ rs, r ≠ .rsp → m'.regs r = m.regs r
  stack : OnStack m'.mem (m'.regs .rsp) l
  rflags : m'.rflags = m.rflags
  cs : m'.cs = m.cs

/-- **Registers are popped in order.** -/
theorem run_pops (gdt : List Word) {rs : List Reg} {f : Reg → Word} {l : List Word} (hrs : .rsp ∉ rs)
    (h : OnStack m.mem (m.regs .rsp) (rs.map f ++ l)) :
    ∃ m', run gdt m (rs.map .pop) = some m' ∧ Popped m m' rs f l := by
  induction rs generalizing m with
  | nil => exact ⟨m, rfl, by simp, fun _ _ _ => rfl, h, rfl, rfl⟩
  | cons r rs ih =>
    rw [List.mem_cons, not_or] at hrs
    obtain ⟨hv, h⟩ := h
    set m₁ := (m.set .rsp (m.regs .rsp + 8)).set r (m.mem.read64 (m.regs .rsp)) with hm₁
    have hsp : m₁.regs .rsp = m.regs .rsp + 8 := by
      rw [hm₁, Machine.set_regs_ne hrs.1, Machine.set_regs_self]
    have hr : m₁.regs r = f r := by rw [hm₁, Machine.set_regs_self, hv]
    have ho : ∀ r' ≠ r, r' ≠ .rsp → m₁.regs r' = m.regs r' := fun r' h1 h2 => by
      rw [hm₁, Machine.set_regs_ne h1, Machine.set_regs_ne h2]
    obtain ⟨m', hrun, hp⟩ := ih (m := m₁) hrs.2 (by rw [hsp]; exact h)
    refine ⟨m', hrun, ?_, ?_, hp.stack, hp.rflags, hp.cs⟩
    · rw [List.forall_mem_cons]
      refine ⟨?_, hp.popped⟩
      by_cases hmem : r ∈ rs
      · exact hp.popped r hmem
      · rw [hp.others r hmem (Ne.symm hrs.1), hr]
    · intro r' h1 h2
      rw [List.mem_cons, not_or] at h1
      rw [hp.others r' h1.2 h2, ho r' h1.1 h2]

/-- Pops move the stack pointer. -/
theorem run_pops_rsp {rs : List Reg} (hrs : .rsp ∉ rs) (h : run gdt m (rs.map .pop) = some m') :
    m'.regs .rsp = m.regs .rsp + BitVec.ofNat 64 (8 * rs.length) := by
  induction rs generalizing m with
  | nil =>
    obtain rfl := Option.some.inj h
    exact (BitVec.add_zero _).symm
  | cons r rs ih =>
    rw [List.mem_cons, not_or] at hrs
    have h := ih hrs.2 h
    rw [Machine.set_regs_ne hrs.1, Machine.set_regs_self] at h
    rw [h, List.length_cons]
    bv_omega

/-- Pops do not write. -/
theorem run_pops_mem {rs : List Reg} (h : run gdt m (rs.map .pop) = some m') : m'.mem = m.mem := by
  induction rs generalizing m with
  | nil => exact congrArg Machine.mem (Option.some.inj h).symm
  | cons r rs ih => exact ih (m := (m.set .rsp (m.regs .rsp + 8)).set r (m.mem.read64 (m.regs .rsp))) h

/-- What an `iretq` that does not fault has checked, and the flags it leaves. -/
theorem iretq_some (h : m.iretq gdt = some m') :
    codeOk gdt m.cpl ((m.mem.read64 (m.regs .rsp + 8)).setWidth 16) ∧
      m'.rflags = loadFlags m.cpl m.rflags (m.mem.read64 (m.regs .rsp + 16)) := by
  simp only [Machine.iretq, Option.ite_none_right_eq_some, Option.some.injEq, Bool.and_eq_true] at h
  obtain ⟨⟨⟨⟨-, hcs⟩, -⟩, -⟩, rfl⟩ := h
  exact ⟨hcs, rfl⟩

/-- Bit 1 of RFLAGS is set after an `iretq`. -/
theorem loadFlags_bit (cpl : ℕ) (old new : Word) : (loadFlags cpl old new).getLsbD 1 = true := by
  rw [loadFlags, BitVec.getLsbD_or]
  simp

/-- `iretq` of the frame that the stack holds. -/
theorem iretq_of_stack (gdt : List Word) {rip cs rflags rsp ss : Word} {l : List Word}
    (h : OnStack m.mem (m.regs .rsp) (rip :: cs :: rflags :: rsp :: ss :: l)) (hnt : m.rflags.getLsbD 14 = false)
    (hcs : codeOk gdt m.cpl (cs.setWidth 16)) (hrip : canonical rip)
    (hss : stackOk gdt (rpl (cs.setWidth 16)) (ss.setWidth 16)) :
    ∃ m', m.iretq gdt = some m' ∧ m'.regs = Function.update m.regs .rsp rsp ∧ m'.rip = rip ∧
      m'.rflags = loadFlags m.cpl m.rflags rflags := by
  obtain ⟨h1, h2, h3, h4, h5, -⟩ := h
  have e2 : m.regs .rsp + 8 + 8 = m.regs .rsp + 16 := by bv_omega
  have e3 : m.regs .rsp + 16 + 8 = m.regs .rsp + 24 := by bv_omega
  have e4 : m.regs .rsp + 24 + 8 = m.regs .rsp + 32 := by bv_omega
  simp only [e2, e3, e4] at h3 h4 h5
  refine ⟨{ m.set .rsp rsp with
    rip := rip
    cs := cs.setWidth 16
    ss := ss.setWidth 16
    rflags := loadFlags m.cpl m.rflags rflags }, ?_, rfl, rfl, rfl⟩
  simp only [Machine.iretq, h1, h2, h3, h4, h5, hnt, hcs, hrip, hss, Bool.not_false, Bool.and_self, if_true]

/-- What an `iretq` leaves as it is, and the segments it takes from the stack. -/
theorem iretq_rest (h : m.iretq gdt = some m') :
    m'.cs = (m.mem.read64 (m.regs .rsp + 8)).setWidth 16 ∧ m'.ss = (m.mem.read64 (m.regs .rsp + 32)).setWidth 16 ∧
      m'.mem = m.mem := by
  simp only [Machine.iretq, Option.ite_none_right_eq_some, Option.some.injEq] at h
  obtain ⟨-, rfl⟩ := h
  exact ⟨rfl, rfl, rfl⟩

/-- The flags that an `iretq` loads are those on the stack. -/
theorem loadFlags_and_mask (cpl : ℕ) (old new : Word) :
    loadFlags cpl old new &&& flagMask cpl old = new &&& flagMask cpl old := by
  have hbit : (2 : Word) &&& flagMask cpl old = 0 := by
    unfold flagMask
    split_ifs <;> decide
  ext i hi
  have hi' := congrArg (fun w : Word => w[i]) hbit
  simp only [BitVec.getElem_and] at hi'
  simp only [loadFlags, BitVec.getElem_and, BitVec.getElem_or, BitVec.getElem_not]
  cases hm : (flagMask cpl old)[i] with
  | false => simp
  | true =>
    rw [hm, Bool.and_true] at hi'
    rw [hi']
    simp

/-- An addition does not change NT. -/
theorem addFlags_nt (a b rflags : Word) : (addFlags a b rflags).getLsbD 14 = rflags.getLsbD 14 := by
  have hflag : ∀ k c, k ≠ 14 → (flagBit k c).getLsbD 14 = false := fun k c hk => by
    unfold flagBit
    split_ifs
    · show (BitVec.ofNat 64 (1 <<< k)).getLsbD 14 = false
      rw [BitVec.getLsbD_ofNat, Nat.one_shiftLeft, Nat.testBit_two_pow_of_ne hk, Bool.and_false]
    · simp
  simp only [addFlags, BitVec.getLsbD_or, hflag _ _ (show 0 ≠ 14 by decide), hflag _ _ (show 2 ≠ 14 by decide),
    hflag _ _ (show 4 ≠ 14 by decide), hflag _ _ (show 6 ≠ 14 by decide), hflag _ _ (show 7 ≠ 14 by decide),
    hflag _ _ (show 11 ≠ 14 by decide), Bool.or_false]
  simp

/-! ## What pushes leave -/

/-- The bytes of `m` from the stack pointer up, and those that are `n` bytes or more below it, are the same
in `m'`. -/
def KeepsBelow (n : ℕ) (m m' : Machine) : Prop := ∀ x, n ≤ (m.regs .rsp - 1 - x).toNat → m'.mem x = m.mem x

/-- Bytes further below a stack pointer that has moved down. -/
theorem below_moved {sp x : Word} {n k b : ℕ} (h : n + k ≤ (sp - 1 - x).toNat) (hb : b ≤ k) :
    n ≤ (sp - BitVec.ofNat 64 b - 1 - x).toNat := by
  bv_omega

theorem KeepsBelow.mono {n n' : ℕ} (h : KeepsBelow n m m') (hn : n ≤ n') : KeepsBelow n' m m' :=
  fun x hx => h x (hn.trans hx)

theorem KeepsBelow.trans {m'' : Machine} {n n' k b : ℕ} (h : KeepsBelow n m m') (h' : KeepsBelow n' m' m'')
    (hsp : m'.regs .rsp = m.regs .rsp - BitVec.ofNat 64 b) (hb : b ≤ k) (hn : n ≤ n' + k) :
    KeepsBelow (n' + k) m m'' := by
  intro x hx
  have hx' := below_moved hx hb
  rw [← hsp] at hx'
  exact (h' x hx').trans (h x (hn.trans hx))

theorem keepsBelow_pushWords (vs : List Word) : KeepsBelow (8 * vs.length) m (m.pushWords vs) := by
  induction vs generalizing m with
  | nil => exact fun _ _ => rfl
  | cons v vs ih =>
    intro x hx
    rw [List.length_cons] at hx
    have hrest := ih (m := m.pushWord v) x (by rw [Machine.pushWord_rsp]; bv_omega)
    exact hrest.trans (Mem.write64_outside (by bv_omega) _ _)

/-- An interrupt pushes its frame, below the aligned stack pointer, and clears NT. -/
theorem fault_keeps {sel : BitVec 16} {err : Option Word} (h : m.fault sel err = some m') :
    m'.cs = sel ∧ m'.rflags.getLsbD 14 = false ∧ KeepsBelow (8 * (5 + err.toList.length) + 15) m m' ∧
      ∃ k < 16, m'.regs .rsp = m.regs .rsp - BitVec.ofNat 64 (8 * (5 + err.toList.length) + k) := by
  simp only [Machine.fault, Machine.interrupt, Option.map_eq_some_iff, Option.ite_none_right_eq_some,
    Option.some.injEq] at h
  obtain ⟨m₁, ⟨-, rfl⟩, rfl⟩ := h
  obtain ⟨k, hk, hsp⟩ : ∃ k < 16, m.regs .rsp &&& ~~~ 15 = m.regs .rsp - BitVec.ofNat 64 k := by
    refine ⟨(m.regs .rsp &&& 15).toNat, ?_, ?_⟩
    · have := BitVec.toNat_and (m.regs .rsp) 15
      exact lt_of_le_of_lt (this ▸ Nat.and_le_right) (by decide)
    · rw [BitVec.ofNat_toNat, BitVec.setWidth_eq]
      have hsum : (m.regs .rsp &&& ~~~ 15) + (m.regs .rsp &&& 15) = m.regs .rsp := by
        rw [BitVec.add_eq_or_of_and_eq_zero]
        · ext i hi
          simp only [BitVec.getElem_or, BitVec.getElem_and, BitVec.getElem_not]
          cases (m.regs .rsp)[i] <;> simp
        · ext i hi
          simp only [BitVec.getElem_and, BitVec.getElem_not, BitVec.getElem_zero]
          cases (15 : Word)[i] <;> simp
      exact (BitVec.eq_sub_iff_add_eq).2 hsum
  set m₁ := m.set .rsp (m.regs .rsp &&& ~~~ 15) with hm₁
  have hsp₁ : m₁.regs .rsp = m.regs .rsp - BitVec.ofNat 64 k := by
    rw [hm₁, Machine.set_regs_self, hsp]
  set m₂ : Machine := { m₁.pushWords m.frame.reverse with cs := sel, rflags := m.rflags &&& ~~~ 0x34300 } with hm₂
  have hlen : m.frame.reverse.length = 5 := rfl
  have hsp₂ : m₂.regs .rsp = m.regs .rsp - BitVec.ofNat 64 (8 * 5 + k) := by
    refine (pushWords_rsp (m := m₁) m.frame.reverse).trans ?_
    rw [hsp₁, hlen]
    generalize m.regs .rsp = sp
    bv_omega
  have hsame := sameButStack_pushWords (m := m₂) err.toList
  refine ⟨hsame.cs, ?_, ?_, k, hk, ?_⟩
  · rw [hsame.rflags, hm₂]
    simp
  · have h1 : KeepsBelow (8 * 5 + 15) m m₁ := fun _ _ => rfl
    have h2 : KeepsBelow (8 * 5 + 15) m m₂ :=
      h1.trans (keepsBelow_pushWords (m := m₁) m.frame.reverse) hsp₁ (by omega) (by omega)
    have h3 := h2.trans (keepsBelow_pushWords (m := m₂) err.toList) (k := 8 * 5 + 15) hsp₂ (by omega) (by omega)
    rwa [show 8 * (5 + err.toList.length) + 15 = 8 * err.toList.length + (8 * 5 + 15) by omega]
  · rw [pushWords_rsp, hsp₂]
    generalize m.regs .rsp = sp
    bv_omega

/-- An interrupt in 64-bit mode does not load SS. -/
theorem fault_ss {sel : BitVec 16} {err : Option Word} (h : m.fault sel err = some m') : m'.ss = m.ss := by
  simp only [Machine.fault, Machine.interrupt, Option.map_eq_some_iff, Option.ite_none_right_eq_some,
    Option.some.injEq] at h
  obtain ⟨m₁, ⟨-, rfl⟩, rfl⟩ := h
  rw [(sameButStack_pushWords err.toList).ss]
  show ((m.set .rsp (m.regs .rsp &&& ~~~ 15)).pushWords m.frame.reverse).ss = m.ss
  rw [(sameButStack_pushWords m.frame.reverse).ss]
  rfl

/-! ## Calls -/

/-- The registers that a callee keeps. -/
def calleeSaved : List Reg := [.rbx, .rbp, .r12, .r13, .r14, .r15]

/-- The System V calling convention, from the first instruction of a callee in `m` to the
one after its `ret` in `m'`: the return address is gone from the stack, the callee-saved
registers and the `n` bytes of the caller's stack above are as before, and so is the
state that only privileged code changes. -/
structure SysVCall (n : ℕ) (m m' : Machine) : Prop where
  rsp : m'.regs .rsp = m.regs .rsp + 8
  saved : ∀ r ∈ calleeSaved, m'.regs r = m.regs r
  stack : ∀ i < n, m'.mem (m.regs .rsp + 8 + BitVec.ofNat 64 i) = m.mem (m.regs .rsp + 8 + BitVec.ofNat 64 i)
  cs : m'.cs = m.cs
  nt : m'.rflags.getLsbD 14 = m.rflags.getLsbD 14

/-- What the caller has on the stack is there after the call. -/
theorem SysVCall.onStack {n : ℕ} {ret : Word} {l : List Word} (h : SysVCall n m m')
    (hl : OnStack m.mem (m.regs .rsp) (ret :: l)) (hn : 8 * l.length ≤ n) :
    OnStack m'.mem (m'.regs .rsp) l := by
  rw [h.rsp]
  exact hl.2.congr fun i hi => h.stack i (by omega)

end Lib
