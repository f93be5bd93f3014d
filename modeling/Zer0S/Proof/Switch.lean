import Zer0S.Spec.Switch

/-!
# The context switch never restores a context

`switch_context` builds an `iretq` frame out of RIP and RFLAGS only, so `iretq` takes the
RFLAGS of the new context for CS and reads RFLAGS, RSP and SS from the new stack.

* `run_switch`: the whole call, as one `iretq`.
* `not_loaded`: CS comes from the RFLAGS field of the new context, and no value of it is good for both.
* `never_faithful`: no call does what a context switch is for. The only code segment has a
  selector with bit 1 clear, and RFLAGS has it set.
-/

namespace Zer0S

open Lib

variable {m m' : Machine}

/-- What the code saves of the registers, apart from RIP and RFLAGS. -/
def savedRegs : List (Word × Reg) :=
  [(0x00, .rax), (0x08, .rbx), (0x10, .rcx), (0x18, .rdx), (0x20, .rsi), (0x28, .rdi), (0x30, .rbp), (0x38, .rsp),
   (0x40, .r8), (0x48, .r9), (0x50, .r10), (0x58, .r11), (0x60, .r12), (0x68, .r13), (0x70, .r14), (0x78, .r15)]

/-- What it loads through `rsi` before the stack changes. -/
def loadedRegs : List (Reg × Word) :=
  [(.rax, 0x00), (.rbx, 0x08), (.rcx, 0x10), (.rdx, 0x18), (.rbp, 0x30), (.r8, 0x40), (.r9, 0x48), (.r10, 0x50),
   (.r11, 0x58), (.r12, 0x60), (.r13, 0x68), (.r14, 0x70), (.r15, 0x78), (.rsp, 0x38)]

/-- The code up to the loads. -/
def switchHead : List Instr :=
  saveCode .rdi savedRegs ++ [.load .rax .rsp 0, .store .rdi 0x80 .rax, .load .rax .rsp 8, .store .rdi 0x88 .rax]

/-- The code after the new stack pointer is loaded. -/
def switchTail : List Instr :=
  [.pushMem .rsi 0x88, .pushMem .rsi 0x80, .load .rsi .rsi 0x20, .load .rdi .rsi 0x28, .iretq]

theorem switchContext_eq : switchContext = switchHead ++ (loadCode .rsi loadedRegs ++ switchTail) := rfl

/-- The memory after the caller's context is saved. -/
def switchSaved (m : Machine) : Mem :=
  let mem := saved m.regs (m.regs .rdi) savedRegs m.mem
  let mem := mem.write64 (m.regs .rdi + 0x80) (mem.read64 (m.regs .rsp))
  mem.write64 (m.regs .rdi + 0x88) (mem.read64 (m.regs .rsp + 8))

theorem read64_switchSaved (h : Sep (m.regs .rdi) sizeofProcContext (m.regs .rsi) sizeofProcContext) :
    (switchSaved m).read64 (m.regs .rsi + 0x88) = (contextAt m.mem (m.regs .rsi)).rflags := by
  have hd : ∀ d : Word, d ≤ 0x88 → Sep (m.regs .rdi + d) 8 (m.regs .rsi + 0x88) 8 := fun d hd => by
    rw [sizeofProcContext] at h
    obtain ⟨h1, h2⟩ := h
    constructor <;> bv_omega
  rw [switchSaved, Mem.read64_write64_sep (hd _ (by decide)), Mem.read64_write64_sep (hd _ (by decide)),
    read64_saved]
  · rfl
  · have hl : ∀ x ∈ savedRegs, x.1 ≤ 0x88 := by decide
    intro x hx
    exact hd _ (hl x hx)

theorem run_switchHead : ∃ m' : Machine, run gdt m switchHead = some m' ∧ m'.mem = switchSaved m ∧
    m'.regs .rsi = m.regs .rsi ∧ m'.cs = m.cs := by
  set mem := saved m.regs (m.regs .rdi) savedRegs m.mem with hmem
  refine ⟨{ m with
    mem := switchSaved m
    regs := Function.update (Function.update m.regs .rax (mem.read64 (m.regs .rsp))) .rax
      ((mem.write64 (m.regs .rdi + 0x80) (mem.read64 (m.regs .rsp))).read64 (m.regs .rsp + 8)) }, ?_, rfl, ?_, rfl⟩
  · rw [switchHead, run_append, run_save, Option.bind_some, ← hmem]
    simp [run, exec, Machine.set, switchSaved, ← hmem]
  · simp

theorem run_switchLoad : ∃ m' : Machine, run gdt m (loadCode .rsi loadedRegs) = some m' ∧ m'.mem = m.mem ∧
    m'.regs .rsi = m.regs .rsi ∧ m'.cs = m.cs := by
  have hl : ∀ x ∈ loadedRegs, x.1 ≠ .rsi := by decide
  exact ⟨_, run_load hl, rfl, loaded_other hl, rfl⟩

/-- `iretq` finds the word pushed first in the place of CS. -/
theorem run_switchTail : ∃ t : Machine, run gdt m switchTail = t.iretq gdt ∧ t.cs = m.cs ∧
    t.mem.read64 (t.regs .rsp + 8) = m.mem.read64 (m.regs .rsi + 0x88) := by
  -- RFLAGS is pushed, then RIP, and nothing below them
  set v := m.mem.read64 (m.regs .rsi + 0x88) with hv
  set m₁ := m.pushWord v with hm₁
  set m₂ := m₁.pushWord (m₁.mem.read64 (m₁.regs .rsi + 0x80)) with hm₂
  have h0 : OnStack m.mem (m.regs .rsp) [] := trivial
  have hst : OnStack m₂.mem (m₂.regs .rsp) [m₁.mem.read64 (m₁.regs .rsi + 0x80), v] :=
    onStack_pushWord (onStack_pushWord h0 (by simp) v) (by simp) _
  set m₃ := m₂.set .rsi (m₂.mem.read64 (m₂.regs .rsi + 0x20)) with hm₃
  set m₄ := m₃.set .rdi (m₃.mem.read64 (m₃.regs .rsi + 0x28)) with hm₄
  have hsp : m₄.regs .rsp = m₂.regs .rsp := by
    rw [hm₄, Machine.set_regs_ne (by decide), hm₃, Machine.set_regs_ne (by decide)]
  refine ⟨m₄, Option.bind_fun_some _, rfl, ?_⟩
  rw [hsp]
  exact hst.2.1

/-- **A call of `switch_context`** ends in an `iretq` that takes the RFLAGS field of the new
context for CS. -/
theorem run_switch (h : Sep (m.regs .rdi) sizeofProcContext (m.regs .rsi) sizeofProcContext) :
    ∃ t : Machine, runSwitch m = t.iretq gdt ∧ t.cs = m.cs ∧
      t.mem.read64 (t.regs .rsp + 8) = (contextAt m.mem (m.regs .rsi)).rflags := by
  obtain ⟨m₁, h1, hmem1, hrsi1, hcs1⟩ := run_switchHead (m := m)
  obtain ⟨m₂, h2, hmem2, hrsi2, hcs2⟩ := run_switchLoad (m := m₁)
  obtain ⟨t, h3, hcs3, hread⟩ := run_switchTail (m := m₂)
  refine ⟨t, ?_, hcs3.trans (hcs2.trans hcs1), ?_⟩
  · rw [runSwitch, switchContext_eq, run_append, h1, Option.bind_some, run_append, h2, Option.bind_some, h3]
  · rw [hread, hmem2, hmem1, hrsi2, hrsi1, read64_switchSaved h]

/-- The kernel's descriptor table has one code segment, of level 0. -/
theorem codeOk_gdt {cpl : ℕ} {sel : BitVec 16} (h : codeOk gdt cpl sel) : sel = 0x08 := by
  rw [codeOk, Bool.and_eq_true] at h
  obtain ⟨-, h⟩ := h
  cases hd : descriptor gdt sel with
  | none => rw [hd] at h; cases h
  | some d =>
    rw [hd] at h
    simp only [Bool.and_eq_true, Bool.not_eq_true', decide_eq_true_eq] at h
    obtain ⟨⟨⟨⟨⟨⟨h1, h2⟩, -⟩, -⟩, -⟩, -⟩, h3⟩ := h
    rw [descriptor] at hd
    split at hd
    · cases hd
    · rename_i hti
      have hlt : (sel.extractLsb' 3 13).toNat < 3 := (List.getElem?_eq_some_iff.1 hd).1
      have hval : sel.toNat = 8 * (sel.extractLsb' 3 13).toNat + rpl sel := by
        rw [rpl, BitVec.extractLsb'_toNat, BitVec.extractLsb'_toNat]
        rw [BitVec.getLsbD, Nat.testBit_eq_decide_div_mod_eq, decide_eq_true_eq] at hti
        have := sel.isLt
        omega
      -- the null descriptor, the code segment, the data segment
      generalize hi : (sel.extractLsb' 3 13).toNat = i at *
      interval_cases i
      · cases hd; simp at h1
      · cases hd
        have h0 : rpl sel = 0 := h3.symm
        apply BitVec.eq_of_toNat_eq
        rw [hval, h0]; rfl
      · cases hd; simp at h2

/-- **No switch loads the new context**: where its RFLAGS field is good for CS, it is not
what RFLAGS holds in the end. -/
theorem not_loaded (h : Sep (m.regs .rdi) sizeofProcContext (m.regs .rsi) sizeofProcContext)
    (hrun : runSwitch m = some m') : machineContext m' ≠ contextAt m.mem (m.regs .rsi) := by
  obtain ⟨t, ht, -, hread⟩ := run_switch h
  rw [ht] at hrun
  obtain ⟨hcs, hfl⟩ := iretq_some hrun
  intro he
  set v := (contextAt m.mem (m.regs .rsi)).rflags with hv
  have hfv : m'.rflags = v := congrArg ProcContext.rflags he
  -- bit 1 of RFLAGS is always set, and that of the selector is not
  have h1 : v.getLsbD 1 = true := by rw [← hfv, hfl]; exact loadFlags_bit _ _ _
  have h2 : v.setWidth 16 = 0x08 := by rw [← hread]; exact codeOk_gdt hcs
  have h3 : (v.setWidth 16).getLsbD 1 = v.getLsbD 1 := by simp
  rw [h1, h2] at h3
  exact absurd h3 (by decide)

/-- **No call of `switch_context` switches the context**, whatever the machine and the two
contexts are. -/
theorem never_faithful (m : Machine)
    (h : Sep (m.regs .rdi) sizeofProcContext (m.regs .rsi) sizeofProcContext) :
    ¬ ∃ m', runSwitch m = some m' ∧ SwitchFaithful m m' := by
  rintro ⟨m', hrun, hf⟩
  exact not_loaded h hrun hf.loads

/-- A call with `old` at 0x20000 and `new` at 0x21000. -/
def switchCall (mem : Mem) : Machine where
  regs := Function.update (Function.update (fun _ => 0) .rdi 0x20000) .rsi 0x21000
  rip := 0
  rflags := 0x202
  cs := 0x08
  ss := 0x10
  gsBase := 0
  kernelGsBase := 0
  mem := mem

theorem never_faithful_zero : ¬ ∃ m', runSwitch (switchCall fun _ => 0) = some m' ∧
    SwitchFaithful (switchCall fun _ => 0) m' :=
  never_faithful (switchCall fun _ => 0) (by constructor <;> decide)

/-- The machine at a first switch to a process with stack 0x30000 and entry 0x100000, from a
caller with its return address at 0x40000. -/
def switchToNew : Machine :=
  (switchCall <| (((Mem.write64 (fun _ => 0) (0x21000 + 0x38) 0x30000).write64 (0x21000 + 0x80) 0x100000).write64
    (0x21000 + 0x88) 0x202).write64 0x40000 0x101000).set .rsp 0x40000

/-- The first switch to a process as `process_create` sets it up faults: its RFLAGS, 0x202,
are no selector of the descriptor table. -/
theorem switch_to_new_faults :
    contextAt switchToNew.mem (switchToNew.regs .rsi) =
        { ProcContext.zero with rsp := 0x30000, rip := 0x100000, rflags := 0x202 } ∧
      Sep (switchToNew.regs .rdi) sizeofProcContext (switchToNew.regs .rsi) sizeofProcContext ∧
      ¬ ∃ m', runSwitch switchToNew = some m' ∧ SwitchFaithful switchToNew m' := by
  have hrun : (runSwitch switchToNew).isNone := by decide +kernel
  refine ⟨by decide +kernel, by constructor <;> decide, ?_⟩
  rintro ⟨m', hm, -⟩
  rw [hm] at hrun
  cases hrun

end Zer0S
