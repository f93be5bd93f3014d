import Zer0S.Proof.FirstFit
import Zer0S.Proof.ProcessOps
import Zer0S.Spec.Stacks

/-!
# A creation that fails

`process_create` returns NULL in two places. Without a free slot it has changed nothing. Without a
stack it has cleared the slot, made it READY and counted a pid, and it leaves all of that behind.

`create_atomic_iff`: so it changes nothing when it returns NULL exactly when there is no free slot,
or `kmalloc` does not fail for the stack.
-/

namespace Zer0S

open Lib Tiling

variable {k k' : Kernel} {s : Memory} {name : List Byte} {entry priority : Word}
  {flags : BitVec 32}

/-- The process table and the variables of `process.c` are the same. -/
structure SameProcesses (k k' : Kernel) : Prop where
  processes : k'.processes = k.processes
  readyQueue : k'.readyQueue = k.readyQueue
  currentProcess : k'.currentProcess = k.currentProcess
  nextPid : k'.nextPid = k.nextPid

/-- A creation that returns NULL changes nothing in `process.c`. -/
def CreateAtomic (name : List Byte) (entry priority : Word) (flags : BitVec 32) (k : Kernel) : Prop :=
  ∀ n k', processCreate n name entry priority flags k = some (none, k') → SameProcesses k k'

/-- `kmalloc` returns NULL for a kernel stack. -/
def StackFails (s : Memory) : Prop := ∃ n m, kmalloc n procStackSize s = some (0, m)

/-- `kmalloc` fails for a stack when no free block is large enough. -/
theorem stackFails_iff {l : List Seg} (hi : HeapAt s l) :
    StackFails s ↔ ¬ ∃ a, FreeBlock (heapSetup s) procStackSize.toNat a := by
  have hround : (roundUp procStackSize).toNat = procStackSize.toNat := by decide
  rw [← hround]
  constructor
  · rintro ⟨n, m, hk⟩
    exact (kmalloc_null_iff hi (by decide) hk).1 rfl
  · intro hno
    obtain ⟨n, ⟨ptr, m⟩, hk⟩ := kmalloc_returns hi procStackSize
    obtain rfl := (kmalloc_null_iff hi (by decide) hk).2 hno
    exact ⟨n, m, hk⟩

/-- A creation that gets no stack returns NULL and has counted a pid. -/
theorem create_without_stack {p : Slot} {m : Memory} (hf : findFreeProcess k = some p)
    (hk : kmalloc n procStackSize k.memory = some (0, m)) (name : List Byte) (entry priority : Word)
    (flags : BitVec 32) :
    ∃ k', processCreate n name entry priority flags k = some (none, k') ∧ k'.nextPid = k.nextPid + 1 ∧
      k'.state p = .ready := by
  obtain ⟨t, hc⟩ := processCreate_eq hf hk name entry priority flags
  refine ⟨_, hc, rfl, ?_⟩
  apply (congrFun (state_modify p fun _ => createdProcess name entry priority flags k 0) p).trans
  rw [Function.update_self]
  exact (createdProcess_fields name entry priority flags k 0).2.1

/-- **When a creation is atomic**, in any state. -/
theorem createAtomic_iff :
    CreateAtomic name entry priority flags k ↔ findFreeProcess k = none ∨ ¬ StackFails k.memory := by
  constructor
  · intro ha
    cases hf : findFreeProcess k with
    | none => exact Or.inl rfl
    | some p =>
      right
      rintro ⟨n, m, hk⟩
      obtain ⟨k', hc, hpid, -⟩ := create_without_stack hf hk name entry priority flags
      -- a pid was counted, so something changed
      have h := (ha n k' hc).nextPid
      rw [hpid] at h
      bv_omega
  · intro hor n k' hc
    rcases processCreate_cases hc with ⟨-, -, rfl⟩ | ⟨p, stack, m, -, hf, hk, hr, -⟩
    · exact ⟨rfl, rfl, rfl, rfl⟩
    · split_ifs at hr with h0
      refine absurd ⟨n, m, h0 ▸ hk⟩ (hor.resolve_left ?_)
      rw [hf]
      exact Option.some_ne_none p

/-- **Creation is atomic**, for any table, queue and arguments, exactly when there is no free slot or
`kmalloc` does not fail for the stack; and on a heap in a state of a run that is when a free block
is large enough for the stack. -/
theorem create_atomic_iff (k : Kernel) (name : List Byte) (entry priority : Word) (flags : BitVec 32) :
    (CreateAtomic name entry priority flags k ↔ findFreeProcess k = none ∨ ¬ StackFails k.memory) ∧
    ∀ s h tr, s.heapHead = 0 → Run HeapStep ⟨s, []⟩ tr h → h.s = k.memory →
      (CreateAtomic name entry priority flags k ↔
        findFreeProcess k = none ∨ ∃ a, FreeBlock (heapSetup k.memory) procStackSize.toNat a) := by
  refine ⟨createAtomic_iff, ?_⟩
  intro s h tr hs hr hk
  obtain ⟨⟨l, hi⟩, -⟩ := runInv_run hs hr
  rw [createAtomic_iff, ← hk, stackFails_iff hi.heap, not_not]

/-- After a request for 1 MiB there is room for a stack. -/
theorem create_atomic_room : ∃ tr h, Run HeapStep ⟨Memory.boot fun _ => 0, []⟩ tr h ∧
    tr.map Transition.label = [.kmalloc 0x100000] ∧
    CreateAtomic [0x41, 0] 0x100000 128 1 (Kernel.boot h.s) := by
  obtain ⟨tr, h, hr, hl, hc⟩ := exists_run_of_replay (heapExec_step (n := 3))
    (P := fun _ h => decide ((kmalloc 3 procStackSize h.s).map Prod.fst = some 0x2100030))
    (s := ⟨Memory.boot fun _ => 0, []⟩) (l := [.kmalloc 0x100000]) (by decide +kernel)
  obtain ⟨⟨ptr, s'⟩, hk, rfl⟩ := Option.map_eq_some_iff.1 (of_decide_eq_true hc)
  obtain ⟨⟨l, hi⟩, -⟩ := runInv_run rfl hr
  have hroom := not_not.1 ((kmalloc_null_iff hi.heap (by decide) hk).not.1 (by decide))
  exact ⟨tr, h, hr, hl, ((create_atomic_iff (Kernel.boot h.s) _ _ _ _).2 _ h tr rfl hr rfl).2 (Or.inr hroom)⟩

/-- Another caller took the whole heap: `process_create` returns NULL, and leaves a READY process
behind that has no stack and is in no queue. -/
theorem create_leaves_ready : ∃ tr a, Run (StackStep .first)
      ⟨processInit (Kernel.boot (Memory.boot fun _ => 0)), []⟩ tr a ∧
    tr.map Transition.label = [.kmalloc 0x800000] ∧ a.k.state 0 = .unused ∧
    ∃ n k', processCreate n [0x41, 0] 0x100000 128 1 a.k = some (none, k') ∧ k'.state 0 = .ready ∧
      k'.readyQueue = none ∧ ¬ SameProcesses a.k k' := by
  obtain ⟨tr, a, hr, hl, hc⟩ := exists_run_of_replay (stackExec_step (c := .first) (n := 3))
    (P := fun _ a => decide (a.k.state 0 = .unused ∧ (processCreate 3 [0x41, 0] 0x100000 128 1 a.k).map
      (fun r => (r.1, r.2.state 0, r.2.readyQueue)) = some (none, .ready, none)))
    (s := ⟨processInit (Kernel.boot (Memory.boot fun _ => 0)), []⟩) (l := [.kmalloc 0x800000])
    (by decide +kernel)
  obtain ⟨hu, hc⟩ := of_decide_eq_true hc
  obtain ⟨⟨r, k'⟩, hk, hx⟩ := Option.map_eq_some_iff.1 hc
  simp only [Prod.mk.injEq] at hx
  obtain ⟨rfl, hst, hq⟩ := hx
  refine ⟨tr, a, hr, hl, hu, 3, k', hk, hst, hq, ?_⟩
  intro hs
  rw [Kernel.state, hs.processes] at hst
  rw [Kernel.state, hst] at hu
  cases hu

end Zer0S
