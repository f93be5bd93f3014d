import Zer0S.Spec.Syscall

/-!
# What a system call returns

The stub saves every register that the dispatcher may change, `rax` too, and restores them
all, so the caller gets the number of the system call back instead of the value. And it
loads the fourth argument from `rdx` after it has overwritten `rdx` with the third one.

* `enter_cases`: the dispatcher gets `(num, arg1, arg2, arg2)`, and the saved registers
  are on its stack.
* `leave_restores`: after the dispatcher, the caller goes on with all its registers.
* `transparent_iff`: when these are the right arguments and the right value.
-/

namespace Zer0S

open Lib

variable {m m' m₁ : Machine} {ret num arg1 arg2 arg3 : Word} {dispatch : Machine → Machine}

/-- The registers that the stub saves, in the order of the pops. -/
def stubSaved : List Reg := [.r11, .r10, .r9, .r8, .rbp, .rdi, .rsi, .rdx, .rcx, .rbx, .rax]

/-- The moves between the pushes and the call. -/
def argMoves : List Instr := [.mov .rdi .rax, .mov .rsi .rbx, .mov .rdx .rcx, .mov .rcx .rdx]

theorem syscallHandlerEntry_eq : syscallHandlerEntry ret =
    .swapgs :: (stubSaved.reverse.map .push ++ (argMoves ++ [.call ret])) := rfl

theorem syscallHandlerExit_eq : syscallHandlerExit = stubSaved.map .pop ++ [.swapgs, .iretq] := rfl

/-- What the dispatcher finds: the call came from the wrapper in `m`, with what the stub saved
on the stack. -/
structure Entered (m m₁ : Machine) (ret : Word) : Prop where
  args : (m₁.regs .rdi, m₁.regs .rsi, m₁.regs .rdx, m₁.regs .rcx) =
    (m.regs .rax, m.regs .rbx, m.regs .rcx, m.regs .rcx)
  stack : OnStack m₁.mem (m₁.regs .rsp) (ret :: (stubSaved.map m.regs ++ m.frame))
  saved : ∀ r ∈ calleeSaved, m₁.regs r = m.regs r
  cs : m₁.cs = 0x08
  nt : m₁.rflags.getLsbD 14 = false

theorem run_argMoves : ∃ m' : Machine, run gdt m argMoves = some m' ∧ m'.mem = m.mem ∧ m'.cs = m.cs ∧
    m'.rflags = m.rflags ∧ (m'.regs .rdi, m'.regs .rsi, m'.regs .rdx, m'.regs .rcx) =
      (m.regs .rax, m.regs .rbx, m.regs .rcx, m.regs .rcx) ∧
    ∀ r, r ∉ [Reg.rdi, .rsi, .rdx, .rcx] → m'.regs r = m.regs r := by
  refine ⟨_, rfl, rfl, rfl, rfl, ?_, ?_⟩
  · simp [Machine.set]
  · intro r hr
    simp only [List.mem_cons, List.not_mem_nil, or_false, not_or] at hr
    simp [Machine.set, hr]

/-- **The way in.** -/
theorem enter_cases (ret : Word) (hk : KernelMode m) : ∃ m₁, enterDispatcher ret m = some m₁ ∧ Entered m m₁ ret := by
  have hcpl : m.cpl = 0 := by rw [Machine.cpl, hk.cs]; decide
  obtain ⟨m₀, h0, hcs0, hnt0, hst0, hr0⟩ := interrupt_eq 0x08 hcpl
  have hcpl0 : m₀.cpl = 0 := by rw [Machine.cpl, hcs0]; decide
  set s₀ : Machine := { m₀ with gsBase := m₀.kernelGsBase, kernelGsBase := m₀.gsBase } with hs₀
  have hswap : exec gdt m₀ .swapgs = some s₀ := if_pos hcpl0
  have hrsp : .rsp ∉ stubSaved.reverse := by decide
  have hpush := run_pushes gdt (m := s₀) hrsp
  set s₁ := s₀.pushWords (stubSaved.reverse.map s₀.regs) with hs₁
  have hsame : SameButStack s₀ s₁ := sameButStack_pushWords _
  have hst1 : OnStack s₁.mem (s₁.regs .rsp) (stubSaved.map m.regs ++ m.frame) := by
    have h := onStack_pushWords (m := s₀) (l := m.frame) (stubSaved.reverse.map s₀.regs) hst0
      (by simp [stubSaved, Machine.frame])
    have hregs : stubSaved.map s₀.regs = stubSaved.map m.regs :=
      List.map_congr_left fun r hr => hr0 r (by rintro rfl; revert hr; decide)
    rw [← List.map_reverse, List.reverse_reverse, hregs] at h
    exact h
  obtain ⟨s₂, hmov, hmem2, hcs2, hfl2, hargs, hr2⟩ := run_argMoves (m := s₁)
  have hregs : ∀ r, r ≠ .rsp → s₁.regs r = m.regs r := fun r hr => (hsame.regs r hr).trans (hr0 r hr)
  refine ⟨s₂.pushWord ret, ?_, ?_, ?_, ?_, ?_, ?_⟩
  · rw [enterDispatcher, h0, Option.bind_some, syscallHandlerEntry_eq, run, hswap, Option.bind_some, run_append,
      hpush, Option.bind_some, run_append, hmov]
    rfl
  · have h1 : ∀ r, r ≠ .rsp → (s₂.pushWord ret).regs r = s₂.regs r := fun r hr => Machine.pushWord_regs hr _
    rw [h1 _ (by decide), h1 _ (by decide), h1 _ (by decide), h1 _ (by decide), hargs, hregs _ (by decide),
      hregs _ (by decide), hregs _ (by decide)]
  · have hsp : s₂.regs .rsp = s₁.regs .rsp := hr2 _ (by decide)
    exact onStack_pushWord (by rw [hmem2, hsp]; exact hst1) (by simp [stubSaved, Machine.frame]) ret
  · intro r hr
    have hne : r ≠ .rsp := by rintro rfl; revert hr; decide
    have hno : r ∉ [Reg.rdi, .rsi, .rdx, .rcx] := by revert hr; cases r <;> decide
    rw [Machine.pushWord_regs hne, hr2 r hno, hregs r hne]
  · exact hcs2.trans (hsame.cs.trans hcs0)
  · have hfl : (s₂.pushWord ret).rflags = m₀.rflags := hfl2.trans hsame.rflags
    rw [hfl]; exact hnt0

/-- The `iretq` of a stub, when the frame is on the stack and the other registers are restored. -/
theorem iretq_frame {s : Machine} (hk : KernelMode m) (hst : OnStack s.mem (s.regs .rsp) m.frame)
    (hcs : s.cs = 0x08) (hnt : s.rflags.getLsbD 14 = false) (hr : ∀ r ≠ .rsp, s.regs r = m.regs r) :
    ∃ m₂, s.iretq gdt = some m₂ ∧ m₂.regs = m.regs ∧ m₂.rip = m.rip ∧
      m₂.rflags = loadFlags 0 s.rflags m.rflags := by
  have hcpl : s.cpl = 0 := by rw [Machine.cpl, hcs]; decide
  have hcsm : ((m.cs.setWidth 64).setWidth 16 : BitVec 16) = 0x08 := by rw [hk.cs]; decide
  have hssm : ((m.ss.setWidth 64).setWidth 16 : BitVec 16) = 0x10 := by rw [hk.ss]; decide
  obtain ⟨m₂, hiret, hregs, hrip, hflags⟩ := iretq_of_stack gdt (m := s) hst hnt
    (by rw [hcpl, hcsm]; decide) hk.rip (by rw [hcsm, hssm]; decide)
  rw [hcpl] at hflags
  refine ⟨m₂, hiret, ?_, hrip, hflags⟩
  funext r
  rw [hregs]
  by_cases hrsp : r = .rsp
  · rw [hrsp, Function.update_self]
  · rw [Function.update_of_ne hrsp, hr r hrsp]

/-- **The way out**: all registers are as they were before the interrupt, `rax` too. -/
theorem leave_restores (hk : KernelMode m) (he : Entered m m₁ ret) (hc : SysVCall 128 m₁ m') :
    ∃ m₂, leaveDispatcher m' = some m₂ ∧ m₂.regs = m.regs ∧ m₂.rip = m.rip := by
  have hst : OnStack m'.mem (m'.regs .rsp) (stubSaved.map m.regs ++ m.frame) :=
    hc.onStack he.stack (by simp [stubSaved, Machine.frame])
  have hrsp : .rsp ∉ stubSaved := by decide
  obtain ⟨s₁, hpop, hp⟩ := run_pops gdt hrsp hst
  have hcs1 : s₁.cs = 0x08 := hp.cs.trans (hc.cs.trans he.cs)
  have hcpl1 : s₁.cpl = 0 := by rw [Machine.cpl, hcs1]; decide
  set s₂ : Machine := { s₁ with gsBase := s₁.kernelGsBase, kernelGsBase := s₁.gsBase } with hs₂
  have hswap : exec gdt s₁ .swapgs = some s₂ := if_pos hcpl1
  have hnt : s₂.rflags.getLsbD 14 = false := by
    have h : s₂.rflags = m'.rflags := hp.rflags
    rw [h, hc.nt, he.nt]
  have hregs : ∀ r ≠ .rsp, s₂.regs r = m.regs r := by
    intro r hr
    by_cases hmem : r ∈ stubSaved
    · exact hp.popped r hmem
    · have hsv : r ∈ calleeSaved := by revert hr hmem; cases r <;> decide
      exact (hp.others r hmem hr).trans ((hc.saved r hsv).trans (he.saved r hsv))
  obtain ⟨m₂, hiret, hback, hrip, -⟩ := iretq_frame hk (s := s₂) hp.stack hcs1 hnt hregs
  refine ⟨m₂, ?_, hback, hrip⟩
  rw [leaveDispatcher, syscallHandlerExit_eq, run_append, hpop, Option.bind_some, run, hswap, Option.bind_some,
    run, exec, hiret]
  rfl

/-- The condition under which the stub does no harm: the third argument is passed twice,
and the value of the dispatcher is the number of the system call. -/
def CallOk (num arg2 arg3 : Word) : Prop := arg3 = arg2 ∧ (num = 1 ∧ arg2 = 1 ∨ num = -1)

/-- The value of the dispatcher is the number itself for a write of one byte, and for the
unknown number -1. -/
theorem dispatcher_eq_num (mem : Mem) (num arg1 arg2 arg3 : Word) :
    (syscallDispatcher mem num arg1 arg2 arg3).1 = num ↔ num = 1 ∧ arg2 = 1 ∨ num = -1 := by
  unfold syscallDispatcher
  split_ifs with h1 h2 h3 h4
  · subst h1; simp [sysWrite]
  · subst h2; simp [sysPrintString]
  · subst h3; simp [sysPrintHex]
  · subst h4; simp [sysGetchar]
  · have h : num ≠ 1 := h1
    exact ⟨fun hv => Or.inr hv.symm, fun hv => hv.elim (fun hv => absurd hv.1 h) Eq.symm⟩

theorem syscall_regs (num arg1 arg2 arg3 : Word) (m : Machine) :
    (syscall num arg1 arg2 arg3 m).regs .rax = num ∧ (syscall num arg1 arg2 arg3 m).regs .rbx = arg1 ∧
      (syscall num arg1 arg2 arg3 m).regs .rcx = arg2 := by
  simp [syscall, Machine.set]

/-- **A system call is transparent** exactly for the calls of `CallOk`. -/
theorem transparent_iff (hk : KernelMode m)
    (hd : ∀ m₁, enterDispatcher ret (syscall num arg1 arg2 arg3 m) = some m₁ → DispatcherCall m₁ (dispatch m₁)) :
    SyscallTransparent dispatch ret num arg1 arg2 arg3 m ↔ CallOk num arg2 arg3 := by
  obtain ⟨hrax, hrbx, hrcx⟩ := syscall_regs num arg1 arg2 arg3 m
  have hk' : KernelMode (syscall num arg1 arg2 arg3 m) := ⟨hk.cs, hk.ss, hk.rip⟩
  obtain ⟨m₁, henter, he⟩ := enter_cases ret hk'
  obtain ⟨habi, hres⟩ := hd m₁ henter
  obtain ⟨m₂, hleave, hregs, hrip⟩ := leave_restores hk' he habi
  have hargs := he.args
  rw [hrax, hrbx, hrcx] at hargs
  simp only [Prod.mk.injEq] at hargs
  obtain ⟨h1, h2, h3, h4⟩ := hargs
  rw [h1, h2, h3, h4] at hres
  have hrax2 : m₂.regs .rax = num := by rw [hregs, hrax]
  constructor
  · rintro ⟨a, b, ha, hab, hb, -, hr, -⟩
    obtain rfl := Option.some.inj (ha.symm.trans henter)
    obtain rfl := Option.some.inj (hb.symm.trans hleave)
    simp only [Prod.mk.injEq] at hab
    refine ⟨hab.2.2.2.symm.trans h4, ?_⟩
    rw [← dispatcher_eq_num a.mem num arg1 arg2 arg2, ← hres, ← hr, hrax2]
  · rintro ⟨rfl, hv⟩
    refine ⟨m₁, m₂, henter, by rw [h1, h2, h3, h4], hleave, hrip, ?_, fun r _ => by rw [hregs]⟩
    rw [hrax2, hres, (dispatcher_eq_num m₁.mem num arg1 arg3 arg3).2 hv]

/-- A compiled dispatcher that changes `rax` only. -/
def plainDispatch (m : Machine) : Machine :=
  (m.set .rsp (m.regs .rsp + 8)).set .rax
    (syscallDispatcher m.mem (m.regs .rdi) (m.regs .rsi) (m.regs .rdx) (m.regs .rcx)).1

theorem plainDispatch_call (m : Machine) : DispatcherCall m (plainDispatch m) where
  abi := {
    rsp := by simp [plainDispatch, Machine.set]
    saved := fun r hr => by
      rw [plainDispatch, Machine.set_regs_ne, Machine.set_regs_ne] <;> (rintro rfl; revert hr; decide)
    stack := fun _ _ => rfl
    cs := rfl
    nt := rfl }
  result := Machine.set_regs_self _ _ _

/-- A machine in the kernel with its stack at 0x40000. -/
def kernelMachine : Machine where
  regs := Function.update (fun _ => 0) .rsp 0x40000
  rip := 0x101000
  rflags := 0x202
  cs := 0x08
  ss := 0x10
  gsBase := 0
  kernelGsBase := 0
  mem := fun _ => 0

theorem kernelMode_kernelMachine : KernelMode kernelMachine where
  cs := rfl
  ss := rfl
  rip := by decide

/-- `syscall(SYS_WRITE, 0x20000, 1, 1)` -/
theorem transparent_iff_write : SyscallTransparent plainDispatch 0x102000 1 0x20000 1 1 kernelMachine :=
  (transparent_iff kernelMode_kernelMachine fun _ _ => plainDispatch_call _).2 ⟨rfl, Or.inl ⟨rfl, rfl⟩⟩

/-- `syscall(SYS_WRITE, 0x20000, 5, 7)`: the dispatcher gets 5 for its third argument. -/
theorem write_not_transparent :
    KernelMode kernelMachine ∧ (∀ m, DispatcherCall m (plainDispatch m)) ∧
      ¬ SyscallTransparent plainDispatch 0x102000 1 0x20000 5 7 kernelMachine := by
  refine ⟨kernelMode_kernelMachine, plainDispatch_call, ?_⟩
  have hrcx : (enterDispatcher 0x102000 (syscall 1 0x20000 5 7 kernelMachine)).map (fun m => m.regs .rcx) = some 5 := by
    decide +kernel
  rintro ⟨m₁, m₂, h1, hargs, -⟩
  rw [h1, Option.map_some, Option.some.injEq] at hrcx
  simp only [Prod.mk.injEq] at hargs
  rw [hargs.2.2.2] at hrcx
  exact absurd hrcx (by decide)

end Zer0S
