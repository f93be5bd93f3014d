import Zer0S.Proof.Exceptions
import Zer0S.Proof.StringCopies

/-!
# What a system call does

The interrupt and the stub push below the stack pointer of the caller, and the dispatcher reads the caller's
buffer or string after that, while it stores to its stack frame and to the screen. What is not in these
places is printed as it was.

* `enterDispatcher_keeps`: the bytes that the way in overwrites.
* `dispatcherRun_prints`: what the dispatcher prints, read byte by byte.
* `syscall_effect`: what is printed, and what the caller has afterwards.
-/

namespace Zer0S

open Lib

variable {m m₁ : Machine} {ret num arg1 arg2 arg3 : Word}

/-- The way in writes to the 151 bytes below the stack pointer only. -/
theorem enterDispatcher_keeps (henter : enterDispatcher ret m = some m₁) : KeepsBelow 151 m m₁ := by
  obtain ⟨m₀, h0, hrun⟩ := Option.bind_eq_some_iff.1 henter
  have hfault : m.fault 0x08 none = some m₀ := by
    rw [Machine.fault, h0]
    rfl
  obtain ⟨hcs, -, hkeeps₀, k, hlt, hsp₀⟩ := fault_keeps hfault
  have hcpl : m₀.cpl = 0 := by rw [Machine.cpl, hcs]; decide
  set s₀ : Machine := { m₀ with gsBase := m₀.kernelGsBase, kernelGsBase := m₀.gsBase } with hs₀
  have hswap : exec gdt m₀ .swapgs = some s₀ := if_pos hcpl
  have hpush := run_pushes gdt (m := s₀) (show .rsp ∉ stubSaved.reverse by decide)
  set s₁ := s₀.pushWords (stubSaved.reverse.map s₀.regs) with hs₁
  have hlen : (stubSaved.reverse.map s₀.regs).length = 11 := rfl
  obtain ⟨s₂, hmov, hmem₂, -, -, -, hregs₂⟩ := run_argMoves (m := s₁)
  have hm₁ : m₁ = s₂.pushWord ret := by
    rw [syscallHandlerEntry_eq, run, hswap, Option.bind_some, run_append, hpush, Option.bind_some, run_append, hmov]
      at hrun
    exact (Option.some.inj hrun).symm
  have hsp₁ : s₁.regs .rsp = m₀.regs .rsp - BitVec.ofNat 64 (8 * 11) := by
    rw [hs₁, pushWords_rsp, hlen]
  have hkeeps₁ : KeepsBelow (8 * 11) m₀ s₁ := by
    have hpushed := keepsBelow_pushWords (m := s₀) (stubSaved.reverse.map s₀.regs)
    rw [hlen] at hpushed
    exact hpushed
  have hkeeps₂ : KeepsBelow 8 s₁ m₁ := by
    have hpushed := keepsBelow_pushWords (m := s₂) [ret]
    intro x hx
    rw [← hregs₂ .rsp (by decide)] at hx
    rw [hm₁, ← hmem₂]
    exact hpushed x hx
  have hsp : s₁.regs .rsp = m.regs .rsp - BitVec.ofNat 64 (8 * 11 + (40 + k)) := by
    rw [hsp₁, hsp₀]
    generalize m.regs .rsp = sp
    simp only [Option.toList_none, List.length_nil]
    bv_omega
  have hkeeps : KeepsBelow (8 * 11 + 55) m s₁ := hkeeps₀.trans hkeeps₁ hsp₀ (by simp; omega) (by simp)
  exact hkeeps.trans hkeeps₂ (k := 8 * 11 + 55) hsp (by omega) (by omega)

/-! ## What the dispatcher prints -/

section loops

variable {own : Set Word} {mem mem₀ mem' : Mem} {out : List Byte} {str : Word} {n i : ℕ}

/-- The rounds of `SYS_WRITE` print the bytes of the buffer, if the dispatcher does not store there. -/
theorem writeLoop_out (h : WriteLoop own arg1 n i mem out mem') (hsame : MemKept own mem₀ mem)
    (hkept : ∀ j < n, arg1 + BitVec.ofNat 64 j ∉ own) :
    out = (List.range' i (n - i)).map (fun j => mem₀ (arg1 + BitVec.ofNat 64 j)) ∧ MemKept own mem₀ mem' := by
  induction h with
  | stop mem => exact ⟨by rw [Nat.sub_self]; rfl, hsame⟩
  | @char i mem mem₁ mem' out hi hown h ih =>
    obtain ⟨hout, hsame'⟩ := ih (hsame.trans hown)
    refine ⟨?_, hsame'⟩
    rw [hout, hsame _ (hkept i hi), show n - i = (n - (i + 1)) + 1 by omega, List.range'_succ, List.map_cons]

/-- There are such rounds. -/
theorem exists_writeLoop (own : Set Word) (arg1 : Word) (mem : Mem) (n : ℕ) :
    ∀ k i, i + k = n → ∃ out, WriteLoop own arg1 n i mem out mem
  | 0, i, h => ⟨[], by rw [show i = n by omega]; exact .stop mem⟩
  | k + 1, i, h => by
    obtain ⟨out, hout⟩ := exists_writeLoop own arg1 mem n k (i + 1) (by omega)
    exact ⟨_, .char (by omega) (.refl own mem) hout⟩

/-- `terminal_writestring` prints the characters of a string to which nothing is stored. -/
theorem writestringLoop_out (h : WritestringLoop own str mem out mem') (hsame : MemKept own mem₀ mem) :
    ∀ {u : List Byte} {i : ℕ}, str = arg1 + BitVec.ofNat 64 i → LineFrom (bytesFrom mem₀ arg1) i u →
      (∀ j ≤ i + u.length, arg1 + BitVec.ofNat 64 j ∉ own) → out = u ∧ MemKept own mem₀ mem' := by
  induction h with
  | @stop str mem h0 =>
    rintro u i rfl hu hkept
    have hhead : mem₀ (arg1 + BitVec.ofNat 64 i) = u.headD 0 := hu.head
    rw [← hsame _ (hkept i (by omega)), h0] at hhead
    exact ⟨(hu.eq_nil hhead.symm).symm, hsame⟩
  | @char str mem mem₁ mem' out h0 hown h ih =>
    rintro u i rfl hu hkept
    have hhead : mem₀ (arg1 + BitVec.ofNat 64 i) = u.headD 0 := hu.head
    have hbyte := hsame _ (hkept i (by omega))
    cases u with
    | nil => exact absurd (hbyte.trans hhead) h0
    | cons c u =>
      obtain ⟨hout, hsame'⟩ := ih (hsame.trans hown) (offset_next arg1 i) hu.tail
        fun j hj => hkept j (by rw [List.length_cons]; omega)
      exact ⟨by rw [hout, hbyte, hhead]; rfl, hsame'⟩

/-- It ends for a string. -/
theorem exists_writestringLoop (own : Set Word) : ∀ {u : List Byte} {i : ℕ}, LineFrom (bytesFrom mem arg1) i u →
    ∃ out, WritestringLoop own (arg1 + BitVec.ofNat 64 i) mem out mem
  | [], i, hu => ⟨[], .stop hu.head⟩
  | c :: u, i, hu => by
    obtain ⟨out, hout⟩ := exists_writestringLoop own hu.tail
    have hhead : mem (arg1 + BitVec.ofNat 64 i) = c := hu.head
    have hne : mem (arg1 + BitVec.ofNat 64 i) ≠ 0 := hhead ▸ hu.noNul c List.mem_cons_self
    exact ⟨_, .char hne (.refl own mem) (by rw [offset_next]; exact hout)⟩

end loops

/-- The characters that a print passes to `terminal_writechar`, with the strings that are in the memory. -/
def Chars (mem : Mem) : Print → List Byte → Prop
  | .text s, out => out = ascii s
  | .bytes s, out => out = s
  | .addr a, out => StringAt mem a out
  | .char c, out => out = [c]
  | .hex v, out => out = printHex v
  | .clear, out => out = []

/-- What a system call is to print: the characters of what `syscall_dispatcher` prints for the memory. -/
def Prints (mem : Mem) (num arg1 arg2 arg3 : Word) (out : List Byte) : Prop :=
  ∃ parts, List.Forall₂ (Chars mem) (syscallDispatcher mem num arg1 arg2 arg3).2 parts ∧ out = parts.flatten

/-- For a write these are the bytes of the buffer. -/
theorem prints_write {mem : Mem} {out : List Byte} : Prints mem sysWrite arg1 arg2 arg3 out ↔
    out = (List.range arg2.toNat).map fun i => mem (arg1 + BitVec.ofNat 64 i) := by
  unfold Prints syscallDispatcher
  rw [if_pos rfl]
  generalize List.range arg2.toNat = l
  constructor
  · rintro ⟨parts, hparts, rfl⟩
    rw [List.forall₂_map_left_iff] at hparts
    induction hparts with
    | nil => rfl
    | cons h _ ih => rw [List.flatten_cons, h, ih, List.map_cons, List.singleton_append]
  · rintro rfl
    refine ⟨l.map fun i => [mem (arg1 + BitVec.ofNat 64 i)], ?_, ?_⟩
    · rw [List.forall₂_map_left_iff, List.forall₂_map_right_iff]
      exact List.forall₂_same.2 fun _ _ => rfl
    · rw [← List.flatMap_def, List.map_eq_flatMap]

/-- The way in does not write to the address, and the dispatcher does not store to it. -/
def Kept (own : Set Word) (m : Machine) (x : Word) : Prop := 151 ≤ (m.regs .rsp - 1 - x).toNat ∧ x ∉ own

/-- So it is with each byte of the buffer of a write, and of the string that is printed, with its NUL. -/
def ArgsKept (own : Set Word) (m : Machine) (num arg1 arg2 : Word) : Prop :=
  (num = sysWrite → ∀ i < arg2.toNat, Kept own m (arg1 + BitVec.ofNat 64 i)) ∧
    (num = sysPrintString → ∃ s, StringAt m.mem arg1 s ∧ ∀ i ≤ s.length, Kept own m (arg1 + BitVec.ofNat 64 i))

variable {own : Set Word} {d : Machine} {out : List Byte} {mem' : Mem}

/-- A string of the caller is one of the dispatcher. -/
theorem stringAt_kept {s : List Byte} (hs : StringAt m.mem arg1 s) (hbelow : KeepsBelow 151 m d)
    (hkept : ∀ i ≤ s.length, Kept own m (arg1 + BitVec.ofNat 64 i)) : StringAt d.mem arg1 s where
  chars i hi := (hbelow _ (hkept i hi.le).1).trans (hs.chars i hi)
  nul := (hbelow _ (hkept s.length le_rfl).1).trans hs.nul
  noNul := hs.noNul

/-- **Output.** A run of the dispatcher prints what the caller's memory has. -/
theorem dispatcherRun_prints (hkept : ArgsKept own m num arg1 arg2) (hbelow : KeepsBelow 151 m d)
    (h : DispatcherRun own d.mem num arg1 arg2 out mem') :
    Prints m.mem num arg1 arg2 arg3 out ∧ MemKept own d.mem mem' := by
  obtain ⟨mem₀, hframe, h⟩ := h
  by_cases hwrite : num = sysWrite
  · rw [if_pos hwrite] at h
    obtain ⟨hout, hsame⟩ := writeLoop_out h hframe fun j hj => (hkept.1 hwrite j hj).2
    rw [hwrite, prints_write, hout, Nat.sub_zero, ← List.range_eq_range']
    exact ⟨List.map_congr_left fun i hi => hbelow _ (hkept.1 hwrite i (List.mem_range.1 hi)).1, hsame⟩
  unfold Prints syscallDispatcher
  rw [if_neg hwrite] at h ⊢
  split_ifs at h ⊢ with hstring hhex hgetchar
  · obtain ⟨s, hs, hkept⟩ := hkept.2 hstring
    have hd := stringAt_kept hs hbelow hkept
    obtain ⟨rfl, hsame⟩ := writestringLoop_out h hframe (BitVec.add_zero arg1).symm hd.lineFrom
      fun j hj => (hkept j (by omega)).2
    exact ⟨⟨[out], .cons hs .nil, (List.append_nil out).symm⟩, hsame⟩
  · exact ⟨⟨[printHex arg1], .cons rfl .nil, h.2.trans (List.append_nil _).symm⟩, hframe.trans h.1⟩
  · exact ⟨⟨[], .nil, h.2⟩, hframe.trans h.1⟩
  · refine ⟨⟨[ascii "\n[ERROR] Unknown syscall: ", printHex num, ascii "\n"], .cons rfl (.cons rfl (.cons rfl .nil)),
      ?_⟩, hframe.trans h.1⟩
    rw [h.2, List.append_assoc]
    rfl

/-- There is one. -/
theorem exists_dispatcherRun (hkept : ArgsKept own m num arg1 arg2) (hbelow : KeepsBelow 151 m d) :
    ∃ out mem', DispatcherRun own d.mem num arg1 arg2 out mem' := by
  by_cases hwrite : num = sysWrite
  · obtain ⟨out, hout⟩ := exists_writeLoop own arg1 d.mem arg2.toNat arg2.toNat 0 (Nat.zero_add _)
    exact ⟨out, d.mem, d.mem, .refl _ _, by rwa [if_pos hwrite]⟩
  by_cases hstring : num = sysPrintString
  · obtain ⟨s, hs, hkept⟩ := hkept.2 hstring
    obtain ⟨out, hout⟩ := exists_writestringLoop own (stringAt_kept hs hbelow hkept).lineFrom
    rw [BitVec.add_zero] at hout
    exact ⟨out, d.mem, d.mem, .refl _ _, by rwa [if_neg hwrite, if_pos hstring]⟩
  · exact ⟨_, d.mem, d.mem, .refl _ _, by rw [if_neg hwrite, if_neg hstring]; exact ⟨.refl _ _, rfl⟩⟩

/-! ## The whole call -/

/-- The way out writes nothing. -/
theorem leaveDispatcher_mem (h : leaveDispatcher m = some m₁) : m₁.mem = m.mem := by
  rw [leaveDispatcher, syscallHandlerExit_eq, run_append] at h
  obtain ⟨s₁, hpop, h⟩ := Option.bind_eq_some_iff.1 h
  obtain ⟨s₂, hswap, h⟩ := Option.bind_eq_some_iff.1 h
  obtain ⟨s₃, hiret, h⟩ := Option.bind_eq_some_iff.1 h
  obtain rfl := Option.some.inj h
  have hmem₂ : s₂.mem = s₁.mem := by
    rw [exec, Option.ite_none_right_eq_some, Option.some.injEq] at hswap
    rw [← hswap.2]
  exact (iretq_rest hiret).2.2.trans (hmem₂.trans (run_pops_mem hpop))

/-- The stack below the pushes of the way in, and the screen. -/
def stackAndScreen : Set Word := { x | (x - 0x30000).toNat < 0xFF00 ∨ (x - 0xB8000).toNat < 4000 }

/-- A dispatcher for a write of two characters: it stores them in the first two cells of the screen. -/
def screenDispatch (d : Machine) : Option (List Byte × Machine) :=
  some ([d.mem (d.regs .rsi), d.mem (d.regs .rsi + 1)],
    { plainDispatch d with
      mem := (d.mem.set 0xB8000 (d.mem (d.regs .rsi))).set 0xB8002 (d.mem (d.regs .rsi + 1)) })

/-- The machine in the kernel, with "AB" at 0x20000. -/
def textMachine : Machine := { kernelMachine with mem := (kernelMachine.mem.set 0x20000 0x41).set 0x20001 0x42 }

theorem screenDispatch_compiled {d : Machine} (hrdi : d.regs .rdi = 1) (hrsi : d.regs .rsi = 0x20000)
    (hrdx : d.regs .rdx = 2) (hrsp : d.regs .rsp = 0x3FF78) : CompiledDispatcher stackAndScreen screenDispatch d where
  returns _ := ⟨_, _, rfl⟩
  call out d' h := by
    obtain ⟨rfl, rfl⟩ := Prod.mk.inj (Option.some.inj h)
    have hplain := plainDispatch_call d
    have hcell (mem : Mem) (c : Byte) {a : Word} (ha : a ∈ stackAndScreen) :
        MemKept stackAndScreen mem (mem.set a c) :=
      fun x hx => Mem.set_ne (ne_of_mem_of_not_mem ha hx).symm c
    refine ⟨⟨⟨hplain.abi.rsp, hplain.abi.saved, fun i hi => ?_, rfl, rfl⟩, hplain.result⟩, d.mem, .refl _ _, ?_⟩
    · have h0 : (0x3FF78 + 8 + BitVec.ofNat 64 i : Word) ≠ 0xB8000 := by bv_omega
      have h2 : (0x3FF78 + 8 + BitVec.ofNat 64 i : Word) ≠ 0xB8002 := by bv_omega
      rw [hrsp]
      exact (Mem.set_ne h2 _).trans (Mem.set_ne h0 _)
    · rw [hrdi, hrsi, hrdx, if_pos (show (1 : Word) = sysWrite from rfl)]
      have hnext : d.mem (0x20000 + 1) = (d.mem.set 0xB8000 (d.mem 0x20000)) (0x20000 + BitVec.ofNat 64 1) :=
        (Mem.set_ne (by decide) _).symm
      rw [hnext]
      exact .char Nat.zero_lt_two (hcell _ _ (.inr (by decide)))
        (.char Nat.one_lt_two (hcell _ _ (.inr (by decide))) (.stop _))

/-- **A system call** returns and prints what `syscall_dispatcher` prints for the caller's memory, whatever the
third argument is. All the caller's registers come back, the number in `rax` too, and no byte of its memory
is different but those below its stack pointer and those that the dispatcher stores to. -/
theorem syscall_effect (hk : KernelMode m) (hkept : ArgsKept own m num arg1 arg2)
    {dispatch : Machine → Option (List Byte × Machine)}
    (hd : ∀ d, enterDispatcher ret (syscall num arg1 arg2 arg3 m) = some d → CompiledDispatcher own dispatch d) :
    ∃ out m', runSyscall dispatch ret num arg1 arg2 arg3 m = some (out, m') ∧
      Prints m.mem num arg1 arg2 arg3 out ∧ m'.rip = m.rip ∧ m'.regs = (syscall num arg1 arg2 arg3 m).regs ∧
      ∀ x, Kept own m x → m'.mem x = m.mem x := by
  obtain ⟨hrax, hrbx, hrcx⟩ := syscall_regs num arg1 arg2 arg3 m
  have hrsp : (syscall num arg1 arg2 arg3 m).regs .rsp = m.regs .rsp := by simp [syscall, Machine.set]
  have hk' : KernelMode (syscall num arg1 arg2 arg3 m) := ⟨hk.cs, hk.ss, hk.rip⟩
  obtain ⟨d, henter, he⟩ := enter_cases ret hk'
  have hargs := he.args
  rw [hrax, hrbx, hrcx] at hargs
  simp only [Prod.mk.injEq] at hargs
  obtain ⟨h1, h2, h3, -⟩ := hargs
  have hbelow : KeepsBelow 151 m d := by
    intro x hx
    exact enterDispatcher_keeps henter x (hrsp.symm ▸ hx)
  obtain ⟨hreturns, hcall⟩ := hd d henter
  rw [h1, h2, h3] at hreturns
  obtain ⟨out, d', hd'⟩ := hreturns (exists_dispatcherRun hkept hbelow)
  obtain ⟨hconvention, hrun⟩ := hcall out d' hd'
  rw [h1, h2, h3] at hrun
  obtain ⟨hprints, hsame⟩ := dispatcherRun_prints hkept hbelow hrun
  obtain ⟨m', hleave, hregs, hrip⟩ := leave_restores hk' he hconvention.abi
  refine ⟨out, m', ?_, hprints, hrip, hregs, ?_⟩
  · simp only [runSyscall, henter, hd', hleave, Option.bind_some, Option.map_some]
  · intro x hx
    rw [leaveDispatcher_mem hleave, hsame x hx.2, hbelow x hx.1]

theorem syscall_effect_write :
    ∃ m', runSyscall screenDispatch 0x102000 1 0x20000 2 7 textMachine = some ([0x41, 0x42], m') ∧
      m'.regs .rax = 1 ∧ m'.mem 0x20001 = 0x42 := by
  have hk : KernelMode textMachine := ⟨rfl, rfl, by decide⟩
  have hkept : ArgsKept stackAndScreen textMachine 1 0x20000 2 := by
    refine ⟨fun _ i hi => ?_, fun h => absurd h (by decide)⟩
    have hi' : i < 2 := hi
    interval_cases i <;> exact ⟨by decide, by simp [stackAndScreen]⟩
  have hargs : (enterDispatcher 0x102000 (syscall 1 0x20000 2 7 textMachine)).map
      (fun d => (d.regs .rdi, d.regs .rsi, d.regs .rdx, d.regs .rsp)) = some (1, 0x20000, 2, 0x3FF78) := by
    decide +kernel
  have hd (d : Machine) (hd : enterDispatcher 0x102000 (syscall 1 0x20000 2 7 textMachine) = some d) :
      CompiledDispatcher stackAndScreen screenDispatch d := by
    rw [hd, Option.map_some, Option.some.injEq, Prod.mk.injEq, Prod.mk.injEq, Prod.mk.injEq] at hargs
    exact screenDispatch_compiled hargs.1 hargs.2.1 hargs.2.2.1 hargs.2.2.2
  obtain ⟨out, m', hrun, hprints, -, hregs, hmem⟩ := syscall_effect hk hkept hd
  have hout : out = [0x41, 0x42] := prints_write.1 hprints
  exact ⟨m', hout ▸ hrun, by rw [hregs]; rfl, hmem 0x20001 ⟨by decide, by simp [stackAndScreen]⟩⟩

end Zer0S
