import Zer0S.Lib.Last
import Zer0S.Lib.Trace
import Zer0S.Proof.Heap
import Zer0S.Spec.Process

/-!
# The ready queue over whole runs

`QueueExact k`: the list from `ready_queue` is finite, holds the READY processes and no
others, and `process_yield` returns.

* `processYield_spec`: what `process_yield` does to a finite queue.
* `queueExact_iff`: the queue is exact in every state of a run exactly when no call of the
  run takes a process out of the state READY while it stays queued, or leaves a process
  READY that is not queued (`QueueOk`).
-/

namespace Zer0S

open Lib

variable {k k' : Kernel} {c : Copy} {n : ℕ} {l t : List Slot} {p q : Slot} {op : ProcessOp}

/-! ## The queue's view of a state -/

/-- No process is in the state `u` after another one was set. -/
theorem update_ne {f : Slot → ProcState} {u v : ProcState} (hf : ∀ p, f p ≠ u) (hv : v ≠ u) (p : Slot) :
    Function.update f q v p ≠ u := by
  rw [Function.update_apply]
  split_ifs
  · exact hv
  · exact hf p

theorem state_modify (i : Slot) (f : Process → Process) :
    (k.modify i f).state = Function.update k.state i (f (k.processes i)).state := by
  funext j
  by_cases h : j = i
  · subst h; simp [Kernel.state, Kernel.modify]
  · simp [Kernel.state, Kernel.modify, h]

theorem next_modify (i : Slot) (f : Process → Process) :
    (k.modify i f).next = Function.update k.next i (f (k.processes i)).next := by
  funext j
  by_cases h : j = i
  · subst h; simp [Kernel.next, Kernel.modify]
  · simp [Kernel.next, Kernel.modify, h]

@[simp] theorem state_setState (i : Slot) (v : ProcState) :
    (k.setState i v).state = Function.update k.state i v := state_modify i _

@[simp] theorem next_setState (i : Slot) (v : ProcState) : (k.setState i v).next = k.next :=
  (next_modify i _).trans (Function.update_eq_self i k.next)

@[simp] theorem state_setNext (i : Slot) (v : Option Slot) : (k.setNext i v).state = k.state :=
  (state_modify i _).trans (Function.update_eq_self i k.state)

@[simp] theorem next_setNext (i : Slot) (v : Option Slot) :
    (k.setNext i v).next = Function.update k.next i v := next_modify i _

/-- What the queue sees of a state: everything but the memory, and the fields of processes
that are neither `state` nor `next`. -/
structure SameQueue (k k' : Kernel) : Prop where
  state : k'.state = k.state
  next : k'.next = k.next
  ready : k'.readyQueue = k.readyQueue
  current : k'.currentProcess = k.currentProcess
  dispatched : k'.dispatched = k.dispatched

theorem SameQueue.refl (k : Kernel) : SameQueue k k := ⟨rfl, rfl, rfl, rfl, rfl⟩

theorem sameQueue_print (k : Kernel) (t : List Print) : SameQueue k (k.print t) := ⟨rfl, rfl, rfl, rfl, rfl⟩

theorem sameQueue_memory (k : Kernel) (m : Memory) : SameQueue k { k with memory := m } :=
  ⟨rfl, rfl, rfl, rfl, rfl⟩

/-- Changing other fields of a process. -/
theorem sameQueue_modify (k : Kernel) (i : Slot) (f : Process → Process) (hs : ∀ p, (f p).state = p.state)
    (hn : ∀ p, (f p).next = p.next) : SameQueue k (k.modify i f) := by
  refine ⟨?_, ?_, rfl, rfl, rfl⟩
  · rw [state_modify, hs]
    exact Function.update_eq_self i k.state
  · rw [next_modify, hn]
    exact Function.update_eq_self i k.next

theorem SameQueue.trans {k'' : Kernel} (h : SameQueue k k') (h' : SameQueue k' k'') : SameQueue k k'' :=
  ⟨h'.state.trans h.state, h'.next.trans h.next, h'.ready.trans h.ready, h'.current.trans h.current,
    h'.dispatched.trans h.dispatched⟩

/-- The list from `ready_queue`. -/
def Queue (k : Kernel) (l : List Slot) : Prop := Chain k.next k.readyQueue l

/-! ## `process_yield` -/

/-- The process that `process_yield` puts back at the tail of the queue. -/
def back (k : Kernel) : List Slot :=
  match k.currentProcess with
  | none => []
  | some current => if k.state current = .running then [current] else []

/-- **What putting the running process back can do.** It is linked behind the last process of
the queue, READY. -/
theorem requeue_cases (h : requeue n q k = some k') :
    back k = [] ∧ k' = k ∨ ∃ current last, k.currentProcess = some current ∧ back k = [current] ∧
      loop (lastBody k.next) n q = some last ∧
      k' = ((k.setState current .ready).setNext last (some current)).setNext current none := by
  unfold requeue at h
  unfold back
  cases hcur : k.currentProcess with
  | none =>
    rw [hcur] at h
    exact Or.inl ⟨rfl, (Option.some.inj h).symm⟩
  | some current =>
    rw [hcur] at h
    simp only at h ⊢
    by_cases hrun : k.state current = .running
    · rw [if_pos hrun] at h ⊢
      obtain ⟨last, hl, rfl⟩ := Option.map_eq_some_iff.1 h
      rw [next_setState] at hl
      exact Or.inr ⟨current, last, rfl, rfl, hl, rfl⟩
    · rw [if_neg hrun] at h ⊢
      exact Or.inl ⟨rfl, (Option.some.inj h).symm⟩

/-- **What `process_yield` can do.** Nothing without a queue. -/
theorem processYield_cases (h : processYield c n k = some k') :
    k.readyQueue = none ∧ k' = k ∨
      ∃ q k₁, k.readyQueue = some q ∧ requeue n q k = some k₁ ∧ k' = dispatch c q k₁ := by
  unfold processYield at h
  cases hr : k.readyQueue with
  | none =>
    rw [hr] at h
    exact Or.inl ⟨rfl, (Option.some.inj h).symm⟩
  | some q =>
    rw [hr] at h
    obtain ⟨k₁, h1, rfl⟩ := Option.map_eq_some_iff.1 h
    exact Or.inr ⟨q, k₁, rfl, h1, rfl⟩

theorem requeue_det {m : ℕ} {k₁ k₂ : Kernel} (h₁ : requeue n q k = some k₁)
    (h₂ : requeue m q k = some k₂) : k₁ = k₂ := by
  rcases requeue_cases h₁ with ⟨hb₁, rfl⟩ | ⟨x, a, hx, hb₁, ha, rfl⟩ <;>
    rcases requeue_cases h₂ with ⟨hb₂, rfl⟩ | ⟨y, b, hy, hb₂, hb, rfl⟩
  · rfl
  · rw [hb₁] at hb₂
    cases hb₂
  · rw [hb₁] at hb₂
    cases hb₂
  · obtain rfl : x = y := Option.some.inj (hx.symm.trans hy)
    rw [loop_det ha hb]

/-- Calls of `process_yield` that return agree. -/
theorem processYield_det {m : ℕ} {k₁ k₂ : Kernel} (h₁ : processYield c n k = some k₁)
    (h₂ : processYield c m k = some k₂) : k₁ = k₂ := by
  rcases processYield_cases h₁ with ⟨hr₁, rfl⟩ | ⟨p, r₁, hr₁, hp, rfl⟩ <;>
    rcases processYield_cases h₂ with ⟨hr₂, rfl⟩ | ⟨q, r₂, hr₂, hq, rfl⟩
  · rfl
  · rw [hr₁] at hr₂
    cases hr₂
  · rw [hr₁] at hr₂
    cases hr₂
  · obtain rfl : p = q := Option.some.inj (hr₁.symm.trans hr₂)
    rw [requeue_det hp hq]

/-- **Putting the running process back**: it goes to the tail, READY. -/
theorem requeue_spec (hc : Chain k.next (some q) (q :: t)) (hb : ∀ p ∈ back k, p ∉ q :: t) :
    ∃ k', requeue (t.length + 1) q k = some k' ∧ Chain k'.next (some q) (q :: t ++ back k) ∧
      (∀ p, k'.state p = if p ∈ back k then .ready else k.state p) ∧ k'.dispatched = k.dispatched := by
  unfold requeue
  unfold back at hb ⊢
  cases hcur : k.currentProcess with
  | none => exact ⟨k, rfl, by simpa using hc, by simp, rfl⟩
  | some current =>
    rw [hcur] at hb
    simp only at hb ⊢
    by_cases hrun : k.state current = .running
    · simp only [if_pos hrun] at hb ⊢
      have hnot : current ∉ q :: t := hb current (by simp)
      have hlast := hc.lastLoop
      rw [next_setState, hlast]
      refine ⟨_, rfl, ?_, ?_, rfl⟩
      · have hl : (q :: t).getLast (by simp) ∈ q :: t := List.getLast_mem _
        simp only [next_setNext, next_setState]
        refine hc.snoc (by simp) (Function.update_self ..) ?_ ?_
        · rw [Function.update_of_ne (by rintro h; exact hnot (h ▸ hl)), Function.update_self]
        · intro b hbl hne
          rw [Function.update_of_ne (by rintro rfl; exact hnot hbl), Function.update_of_ne hne]
      · intro p
        simp only [state_setNext, state_setState, List.mem_singleton, Function.update_apply]
    · simp only [if_neg hrun]
      exact ⟨k, rfl, by simpa using hc, by simp, rfl⟩

/-- What taking the process at the head does to the queue; a tick more or less does not matter. -/
theorem dispatch_queue (c : Copy) (q : Slot) (k : Kernel) :
    (dispatch c q k).state = Function.update k.state q .running ∧
      (dispatch c q k).next = Function.update k.next q none ∧ (dispatch c q k).readyQueue = k.next q ∧
      (dispatch c q k).currentProcess = some q ∧
      (dispatch c q k).dispatched = (q, k.state q) :: k.dispatched := by
  set k₁ : Kernel := { k with
    dispatched := (q, k.state q) :: k.dispatched, currentProcess := some q, readyQueue := k.next q } with hk₁
  have hs : SameQueue ((k₁.setNext q none).setState q .running) (dispatch c q k) := by
    unfold dispatch
    simp only
    split_ifs
    · exact sameQueue_modify _ _ _ (fun _ => rfl) fun _ => rfl
    · exact .refl _
  refine ⟨?_, ?_, hs.ready, hs.current, hs.dispatched⟩
  · rw [hs.state, state_setState, state_setNext]
    rfl
  · rw [hs.next, next_setState, next_setNext]
    rfl

/-- **Taking the process at the head.** -/
theorem dispatch_spec {l : List Slot} (hc : Chain k.next (some q) (q :: l)) (c : Copy) :
    Queue (dispatch c q k) l ∧ (dispatch c q k).state = Function.update k.state q .running ∧
      (dispatch c q k).dispatched = (q, k.state q) :: k.dispatched ∧
      (dispatch c q k).currentProcess = some q := by
  obtain ⟨hst, hn, hr, hcur, hd⟩ := dispatch_queue c q k
  have hq : q ∉ l := (List.nodup_cons.1 hc.nodup).1
  refine ⟨?_, hst, hd, hcur⟩
  rw [Queue, hn, hr]
  exact (chain_cons.1 hc).2.update hq none

/-- **`process_yield`** on a finite queue, in which the process put back is not queued
already: nothing when the queue is empty, else the head runs and the rest remains, with
the process put back behind it. -/
theorem processYield_spec (hq : Queue k l) (hb : ∀ p ∈ back k, p ∉ l) (c : Copy) :
    match l with
    | [] => processYield c 0 k = some k
    | q :: t => ∃ k', processYield c (t.length + 1) k = some k' ∧ Queue k' (t ++ back k) ∧
        (∀ p, k'.state p = if p = q then .running else if p ∈ back k then .ready else k.state p) ∧
        k'.dispatched = (q, k.state q) :: k.dispatched ∧ k'.currentProcess = some q := by
  cases l with
  | nil =>
    have : k.readyQueue = none := hq
    simp only [processYield, this]
  | cons q t =>
    have hr : k.readyQueue = some q := (chain_cons.1 hq).1
    have hc : Chain k.next (some q) (q :: t) := by rw [← hr]; exact hq
    obtain ⟨k₁, h1, h2, h3, h4⟩ := requeue_spec hc hb
    obtain ⟨d1, d2, d3, d4⟩ := dispatch_spec h2 c
    have hqb : q ∉ back k := fun h => hb q h List.mem_cons_self
    refine ⟨dispatch c q k₁, ?_, d1, ?_, ?_, d4⟩
    · simp only [processYield, hr, h1, Option.map_some]
    · intro p
      rw [d2, Function.update_apply, h3]
    · rw [d3, h3, if_neg hqb, h4]

/-! ## What each call can do -/

/-- **`process_exit` and `process_sleep`** change the state of the current process and yield. -/
theorem leave_cases (hop : (∃ code, op = .exit code) ∨ ∃ ticks, op = .sleep ticks)
    (hs : ProcessStep c k op k') :
    k.currentProcess = none ∧ k' = k ∨
      ∃ current v k₁ n, k.currentProcess = some current ∧ v ≠ .ready ∧ v ≠ .running ∧ SameQueue k k₁ ∧
        processYield c n (k₁.setState current v) = some k' := by
  obtain ⟨n, h⟩ := hs
  cases hcur : k.currentProcess with
  | none =>
    left
    rcases hop with ⟨code, rfl⟩ | ⟨ticks, rfl⟩
    · simp only [processExec, processExit, hcur, Option.some.injEq] at h
      exact ⟨rfl, h.symm⟩
    · simp only [processExec, processSleep, hcur, Option.some.injEq] at h
      exact ⟨rfl, h.symm⟩
  | some current =>
    right
    rcases hop with ⟨code, rfl⟩ | ⟨ticks, rfl⟩
    · simp only [processExec, processExit, hcur] at h
      refine ⟨current, .zombie, _, n, rfl, by decide, by decide, ?_, h⟩
      split_ifs
      · exact sameQueue_print _ _
      · exact .refl _
    · simp only [processExec, processSleep, hcur] at h
      refine ⟨current, .sleeping, _, n, rfl, by decide, by decide, ?_, h⟩
      exact sameQueue_modify _ _ _ (fun _ => rfl) fun _ => rfl

/-- The process that a creation leaves in its slot, for the stack it got. -/
def createdProcess (name : List Byte) (entry priority : Word) (flags : BitVec 32) (k : Kernel) (stack : Word) :
    Process :=
  let proc := { newProcess k.nextPid name priority flags with kernelStack := stack }
  if stack = 0 then proc else
  { proc with
    context := { ProcContext.zero with rsp := stack + procStackSize, rip := entry, rflags := 0x202 }
    next := k.readyQueue }

theorem memory_print_nil (m : Memory) : m.print [] = m := by
  simp [Memory.print]

/-- **`process_create`** with a free slot writes that slot, and links it in when it got a stack. -/
theorem processCreate_eq {stack : Word} {m : Memory} (hf : findFreeProcess k = some p)
    (hk : kmalloc n procStackSize k.memory = some (stack, m)) (name : List Byte) (entry priority : Word)
    (flags : BitVec 32) :
    ∃ t, processCreate n name entry priority flags k = some (if stack = 0 then none else some p,
      { k.modify p fun _ => createdProcess name entry priority flags k stack with
        memory := m.print t
        nextPid := k.nextPid + 1
        readyQueue := if stack = 0 then k.readyQueue else some p }) := by
  unfold processCreate
  rw [hf]
  simp only [show ∀ (k : Kernel) i f, (k.modify i f).memory = k.memory from fun _ _ _ => rfl, hk]
  by_cases h0 : stack = 0
  · refine ⟨[], ?_⟩
    simp only [if_pos h0, createdProcess, memory_print_nil, Kernel.modify, Function.update_idem,
      Function.update_self]
  · refine ⟨[.text "[Process] Created: ", .bytes (cString name), .text " (PID: ", .hex k.nextPid, .text ")\n"], ?_⟩
    simp only [if_neg h0, createdProcess, Kernel.setNext, Kernel.modify, Function.update_idem,
      Function.update_self]
    rfl

theorem createdProcess_fields (name : List Byte) (entry priority : Word) (flags : BitVec 32) (k : Kernel)
    (stack : Word) : (createdProcess name entry priority flags k stack).pid = k.nextPid ∧
      (createdProcess name entry priority flags k stack).state = .ready ∧
      (createdProcess name entry priority flags k stack).kernelStack = stack ∧
      (createdProcess name entry priority flags k stack).next = if stack = 0 then none else k.readyQueue := by
  unfold createdProcess
  split_ifs
  · exact ⟨rfl, rfl, rfl, rfl⟩
  · exact ⟨rfl, rfl, rfl, rfl⟩

/-- **What `process_create` can do.** Nothing without a free slot. -/
theorem processCreate_cases {name : List Byte} {entry priority : Word} {flags : BitVec 32} {r : Option Slot}
    (h : processCreate n name entry priority flags k = some (r, k')) :
    findFreeProcess k = none ∧ r = none ∧ k' = k ∨
      ∃ p stack m t, findFreeProcess k = some p ∧ kmalloc n procStackSize k.memory = some (stack, m) ∧
        r = (if stack = 0 then none else some p) ∧
        k' = { k.modify p fun _ => createdProcess name entry priority flags k stack with
          memory := m.print t
          nextPid := k.nextPid + 1
          readyQueue := if stack = 0 then k.readyQueue else some p } := by
  cases hf : findFreeProcess k with
  | none =>
    rw [processCreate, hf] at h
    simp only [Option.some.injEq, Prod.mk.injEq] at h
    exact Or.inl ⟨rfl, h.1.symm, h.2.symm⟩
  | some p =>
    cases hk : kmalloc n procStackSize k.memory with
    | none =>
      rw [processCreate, hf] at h
      simp only [show ∀ (k : Kernel) i f, (k.modify i f).memory = k.memory from fun _ _ _ => rfl, hk] at h
      cases h
    | some y =>
      obtain ⟨t, ht⟩ := processCreate_eq hf hk name entry priority flags
      rw [h, Option.some.injEq, Prod.mk.injEq] at ht
      exact Or.inr ⟨p, y.1, y.2, t, rfl, rfl, ht.1, ht.2⟩

/-- A new process is READY, and at the head of the queue when it got a stack. -/
theorem create_cases {name : List Byte} {entry priority : Word} {flags : BitVec 32}
    (hs : ProcessStep c k (.create name entry priority flags) k') :
    findFreeProcess k = none ∧ k' = k ∨
      ∃ p n stack m, findFreeProcess k = some p ∧ kmalloc n procStackSize k.memory = some (stack, m) ∧
        k'.state = Function.update k.state p .ready ∧ k'.dispatched = k.dispatched ∧
        (stack = 0 ∧ k'.next = Function.update k.next p none ∧ k'.readyQueue = k.readyQueue ∨
          stack ≠ 0 ∧ k'.next = Function.update k.next p k.readyQueue ∧ k'.readyQueue = some p) := by
  obtain ⟨n, h⟩ := hs
  obtain ⟨⟨r, k₁⟩, hc, rfl⟩ := Option.map_eq_some_iff.1 h
  rcases processCreate_cases hc with ⟨hf, -, rfl⟩ | ⟨p, stack, m, t, hf, hk, -, rfl⟩
  · exact Or.inl ⟨hf, rfl⟩
  obtain ⟨-, hst, -, hn⟩ := createdProcess_fields name entry priority flags k stack
  refine Or.inr ⟨p, n, stack, m, hf, hk, ?_, rfl, ?_⟩
  · apply (state_modify p fun _ => _).trans
    rw [hst]
  · have hnext := next_modify (k := k) p fun _ => createdProcess name entry priority flags k stack
    rw [hn] at hnext
    by_cases h0 : stack = 0
    · rw [if_pos h0] at hnext
      exact Or.inl ⟨h0, hnext, if_pos h0⟩
    · rw [if_neg h0] at hnext
      exact Or.inr ⟨h0, hnext, if_neg h0⟩

/-- `process_destroy` of NULL does nothing. -/
theorem destroy_none (hs : ProcessStep c k (.destroy none) k') : k' = k := by
  obtain ⟨n, hs⟩ := hs
  exact (Option.some.inj hs).symm

theorem destroy_cases (hs : ProcessStep c k (.destroy (some p)) k') :
    k'.state = Function.update k.state p .dead ∧ k'.next = k.next ∧ k'.readyQueue = k.readyQueue ∧
      k'.dispatched = k.dispatched := by
  obtain ⟨n, h⟩ := hs
  simp only [processExec, processDestroy, Option.some.injEq] at h
  subst h
  have h1 : SameQueue k (if c = .first then k.print [.text "[Process] Destroying: ",
      .bytes (k.processes p).name, .text " (PID: ", .hex (k.processes p).pid, .text ")\n"] else k) := by
    split_ifs
    · exact sameQueue_print _ _
    · exact .refl _
  generalize (if c = .first then k.print [.text "[Process] Destroying: ", .bytes (k.processes p).name,
    .text " (PID: ", .hex (k.processes p).pid, .text ")\n"] else k) = k₁ at *
  have h2 : SameQueue k (if (k₁.processes p).kernelStack ≠ 0 then
      { k₁ with memory := kfree (k₁.processes p).kernelStack k₁.memory } else k₁) := by
    split_ifs
    · exact h1.trans (sameQueue_memory _ _)
    · exact h1
  refine ⟨?_, ?_, h2.ready, h2.dispatched⟩
  · rw [state_setState, h2.state]
  · rw [next_setState, h2.next]

theorem wakeup_cases {proc : Option Slot} (hs : ProcessStep c k (.wakeup proc) k') :
    k' = k ∨ ∃ p, proc = some p ∧ k.state p = .sleeping ∧ k'.state = Function.update k.state p .ready ∧
      k'.next = Function.update k.next p k.readyQueue ∧ k'.readyQueue = some p ∧
      k'.dispatched = k.dispatched := by
  obtain ⟨n, h⟩ := hs
  simp only [processExec, processWakeup, Option.some.injEq] at h
  subst h
  cases proc with
  | none => exact Or.inl rfl
  | some p =>
    simp only
    split_ifs with hp
    · exact Or.inl rfl
    · refine Or.inr ⟨p, rfl, by simpa using hp, ?_, ?_, rfl, rfl⟩
      · exact (state_setNext p _).trans (state_setState p _)
      · exact (next_setNext p _).trans (by rw [next_setState]; rfl)

theorem yield_cases (hq : Queue k l) (hb : ∀ p ∈ back k, p ∉ l) (h : processYield c n k = some k') :
    l = [] ∧ k' = k ∨ ∃ q t, l = q :: t ∧ Queue k' (t ++ back k) ∧
      (∀ p, k'.state p = if p = q then .running else if p ∈ back k then .ready else k.state p) ∧
      k'.dispatched = (q, k.state q) :: k.dispatched := by
  have hs := processYield_spec hq hb c
  cases l with
  | nil => exact Or.inl ⟨rfl, processYield_det h hs⟩
  | cons q t =>
    obtain ⟨k₁, h1, h2, h3, h4, -⟩ := hs
    obtain rfl := processYield_det h h1
    exact Or.inr ⟨q, t, rfl, h2, h3, h4⟩

/-- When the current process has left the state RUNNING, nobody is put back. -/
theorem leave_back {current : Slot} {v : ProcState} {k₁ : Kernel} (hcur : k.currentProcess = some current)
    (hv : v ≠ .running) (hs : SameQueue k k₁) :
    back (k₁.setState current v) = [] ∧
      (k₁.setState current v).state = Function.update k.state current v := by
  have hst : (k₁.setState current v).state = Function.update k.state current v := by
    rw [state_setState, hs.state]
  refine ⟨?_, hst⟩
  have hc : (k₁.setState current v).currentProcess = some current := hs.current.trans hcur
  rw [back, hc]
  simp only [hst, Function.update_self, if_neg hv]

/-- The queue when the current process has left the state RUNNING. -/
theorem leave_queue {current : Slot} {v : ProcState} {k₁ : Kernel} (hq : Queue k l)
    (hcur : k.currentProcess = some current) (hv : v ≠ .running) (hs : SameQueue k k₁) :
    Queue (k₁.setState current v) l ∧ back (k₁.setState current v) = [] ∧
      (k₁.setState current v).state = Function.update k.state current v := by
  refine ⟨?_, leave_back hcur hv hs⟩
  show Chain (k₁.setState current v).next k₁.readyQueue l
  rw [next_setState, hs.next, hs.ready]
  exact hq

/-- Leaving the CPU in a state other than RUNNING: the process is not put back. -/
theorem leave_yield {current : Slot} {v : ProcState} {k₁ : Kernel} (hq : Queue k l)
    (hcur : k.currentProcess = some current) (hv : v ≠ .running) (hs : SameQueue k k₁)
    (h : processYield c n (k₁.setState current v) = some k') :
    l = [] ∧ Queue k' [] ∧ k'.state = Function.update k.state current v ∧ k'.dispatched = k.dispatched ∨
      ∃ q t, l = q :: t ∧ Queue k' t ∧
        k'.state = Function.update (Function.update k.state current v) q .running ∧
        k'.dispatched = (q, Function.update k.state current v q) :: k.dispatched := by
  obtain ⟨hq₂, hb, hst⟩ := leave_queue hq hcur hv hs
  have hd : (k₁.setState current v).dispatched = k.dispatched := hs.dispatched
  rcases yield_cases hq₂ (by simp [hb]) h with ⟨rfl, rfl⟩ | ⟨q, t, rfl, h1, h2, h3⟩
  · exact Or.inl ⟨rfl, hq₂, hst, hd⟩
  · refine Or.inr ⟨q, t, rfl, by simpa [hb] using h1, ?_, by rw [h3, hst, hd]⟩
    funext p
    simp only [h2, hb, List.not_mem_nil, if_false, hst, Function.update_apply]

theorem mem_back (h : p ∈ back k) : k.state p = .running := by
  unfold back at h
  cases hc : k.currentProcess with
  | none => rw [hc] at h; simp at h
  | some current =>
    rw [hc] at h
    simp only at h
    split_ifs at h with hr
    · rw [List.mem_singleton.1 h]; exact hr
    · simp at h

/-! ## Free slots -/

/-- The slot passes the test of `find_free_process`. -/
def Reusable (k : Kernel) (p : Slot) : Prop := k.state p = .unused ∨ k.state p = .dead

instance (k : Kernel) (p : Slot) : Decidable (Reusable k p) := inferInstanceAs (Decidable (_ ∨ _))

/-- **`find_free_process`** returns the first slot that it may give out. -/
theorem findFreeProcess_eq_some : findFreeProcess k = some p ↔ Reusable k p ∧ ∀ j < p, ¬ Reusable k j := by
  have hfirst : ∀ {p}, findFreeProcess k = some p → Reusable k p ∧ ∀ j < p, ¬ Reusable k j := by
    intro p h
    obtain ⟨hp, as, bs, hl, has⟩ := List.find?_eq_some_iff_append.1 h
    refine ⟨of_decide_eq_true hp, ?_⟩
    intro j hj hr
    -- the slots behind it in the table have larger numbers
    have hsorted := List.pairwise_lt_finRange 256
    rw [hl, List.pairwise_append, List.pairwise_cons] at hsorted
    have hm := List.mem_finRange j
    rw [hl, List.mem_append, List.mem_cons] at hm
    rcases hm with hm | rfl | hm
    · have hno := has j hm
      rw [Bool.not_eq_true', decide_eq_false_iff_not] at hno
      exact hno hr
    · exact lt_irrefl j hj
    · exact lt_asymm hj (hsorted.2.1.1 j hm)
  refine ⟨hfirst, fun ⟨hp, hlow⟩ => ?_⟩
  cases hf : findFreeProcess k with
  | none => exact absurd hp (by simpa [Reusable] using List.find?_eq_none.1 hf p (List.mem_finRange p))
  | some p' =>
    obtain ⟨hp', hlow'⟩ := hfirst hf
    rcases lt_trichotomy p p' with h | rfl | h
    · exact absurd hp (hlow' p h)
    · rfl
    · exact absurd hp' (hlow p' h)

/-- A slot is reused only when it is UNUSED or DEAD. -/
theorem findFreeProcess_state (h : findFreeProcess k = some p) : k.state p = .unused ∨ k.state p = .dead :=
  (findFreeProcess_eq_some.1 h).1

/-! ## Exactness of the queue -/

/-- The queue is the list `l`, which holds the READY processes and no others. -/
structure Exact (k : Kernel) (l : List Slot) : Prop where
  queue : Queue k l
  ready : ∀ p, p ∈ l ↔ k.state p = .ready

/-- The law of the ready queue. -/
structure QueueExact (k : Kernel) : Prop where
  list : ∃ l, Chain k.next k.readyQueue l ∧ l.Nodup ∧ ∀ p, p ∈ l ↔ k.state p = .ready
  returns : ∀ c, ∃ rounds k', processYield c rounds k = some k'

/-- A call that keeps the queue exact: a creation finds no slot or gets its stack; a
process destroyed is not READY; a process that exits or sleeps is not READY, or is at the
head of the queue. -/
def QueueOk (k : Kernel) : ProcessOp → Prop
  | .create _ _ _ _ => findFreeProcess k = none ∨
      ∃ rounds stack m, kmalloc rounds procStackSize k.memory = some (stack, m) ∧ stack ≠ 0
  | .destroy proc => ∀ p, proc = some p → k.state p ≠ .ready
  | .exit _ | .sleep _ => ∀ p, k.currentProcess = some p → k.state p = .ready → k.readyQueue = some p
  | .yield | .wakeup _ => True

theorem Exact.back (h : Exact k l) : ∀ p ∈ back k, p ∉ l := by
  intro p hp hl
  have := (h.ready p).1 hl
  rw [mem_back hp] at this
  cases this

theorem Exact.law (h : Exact k l) : QueueExact k := by
  refine ⟨⟨l, h.queue, h.queue.nodup, h.ready⟩, ?_⟩
  intro c
  have hs := processYield_spec h.queue h.back c
  cases l with
  | nil => exact ⟨0, k, hs⟩
  | cons q t =>
    obtain ⟨k', h1, -⟩ := hs
    exact ⟨_, k', h1⟩

/-- In an exact queue the list is the one that is reached from `ready_queue`. -/
theorem QueueExact.ready_of (h : QueueExact k) (hq : Queue k l) : ∀ p, p ∈ l ↔ k.state p = .ready := by
  obtain ⟨l', h1, -, h2⟩ := h.list
  rwa [hq.det h1]

theorem exact_push (h : Exact k l) (hp : p ∉ l)
    (hst : k'.state = Function.update k.state p .ready) (hn : k'.next = Function.update k.next p k.readyQueue)
    (hr : k'.readyQueue = some p) : Exact k' (p :: l) := by
  constructor
  · rw [Queue, hn, hr]
    exact h.queue.push hp
  · intro r
    rw [hst, List.mem_cons, Function.update_apply]
    by_cases hrp : r = p
    · simp [hrp]
    · simp [hrp, h.ready r]

/-- The current process gives up the processor. -/
theorem exact_leave (h : Exact k l) (hs : ProcessStep c k op k')
    (hop : (∃ code, op = .exit code) ∨ ∃ ticks, op = .sleep ticks)
    (hok : ∀ p, k.currentProcess = some p → k.state p = .ready → k.readyQueue = some p) : ∃ l', Exact k' l' := by
  rcases leave_cases hop hs with ⟨-, rfl⟩ | ⟨current, v, k₁, n, hcur, hv, hvr, hsame, hy⟩
  · exact ⟨l, h⟩
  -- a process that leaves is not queued behind the head
  have hnot : ∀ q t, l = q :: t → current ∉ t := by
    rintro q t rfl hm
    have hhead := hok current hcur ((h.ready current).1 (List.mem_cons_of_mem _ hm))
    rw [(chain_cons.1 h.queue).1] at hhead
    rw [Option.some.inj hhead] at h
    exact (List.nodup_cons.1 h.queue.nodup).1 hm
  rcases leave_yield h.queue hcur hvr hsame hy with ⟨rfl, h1, h2, -⟩ | ⟨q, t, rfl, h1, h2, -⟩
  · refine ⟨[], h1, ?_⟩
    intro r
    rw [h2, Function.update_apply]
    split_ifs with hr
    · simp [hv]
    · exact h.ready r
  · refine ⟨t, h1, ?_⟩
    intro r
    have hq := (List.nodup_cons.1 h.queue.nodup).1
    rw [h2, Function.update_apply, Function.update_apply]
    split_ifs with hrq hrc
    · simp [hrq, hq]
    · simp [hrc, hv, hnot q t rfl]
    · rw [← h.ready r, List.mem_cons, or_iff_right hrq]

/-- The running process goes behind the queue. -/
theorem exact_yield (h : Exact k l) (hs : ProcessStep c k .yield k') : ∃ l', Exact k' l' := by
  obtain ⟨n, hs⟩ := hs
  rcases yield_cases h.queue h.back hs with ⟨-, rfl⟩ | ⟨q, t, rfl, h1, h2, -⟩
  · exact ⟨l, h⟩
  · refine ⟨_, h1, ?_⟩
    intro r
    have hq := (List.nodup_cons.1 h.queue.nodup).1
    have hqb : q ∉ Zer0S.back k := fun hb => h.back q hb List.mem_cons_self
    rw [h2, List.mem_append]
    split_ifs with hrq hrb
    · simp [hrq, hq, hqb]
    · simp [hrb]
    · simp only [hrb, or_false]
      rw [← h.ready r, List.mem_cons, or_iff_right hrq]

/-- **A call that meets the condition** keeps the queue exact. -/
theorem exact_step (h : Exact k l) (hok : QueueOk k op) (hs : ProcessStep c k op k') : ∃ l', Exact k' l' := by
  cases op with
  | create name entry priority flags =>
    rcases create_cases hs with ⟨-, rfl⟩ | ⟨p, n, stack, m, hf, hk, hst, -, ⟨h0, -⟩ | ⟨-, hn, hr⟩⟩
    · exact ⟨l, h⟩
    · rcases hok with hnone | ⟨n', stack', m', hk', hne⟩
      · rw [hf] at hnone; cases hnone
      · have := kmalloc_det hk hk'
        simp only [Prod.mk.injEq] at this
        exact absurd (this.1 ▸ h0) hne
    · refine ⟨_, exact_push h ?_ hst hn hr⟩
      intro hl
      have hst := (h.ready p).1 hl
      rcases findFreeProcess_state hf with hs | hs <;> rw [hs] at hst <;> cases hst
  | destroy proc =>
    cases proc with
    | none =>
      obtain rfl := destroy_none hs
      exact ⟨l, h⟩
    | some p =>
      obtain ⟨hst, hn, hr, -⟩ := destroy_cases hs
      refine ⟨l, by rw [Queue, hn, hr]; exact h.queue, ?_⟩
      intro r
      rw [hst, Function.update_apply]
      split_ifs with hrp
      · simp [hrp, h.ready p, hok p rfl]
      · exact h.ready r
  | exit code => exact exact_leave h hs (Or.inl ⟨code, rfl⟩) hok
  | sleep ticks => exact exact_leave h hs (Or.inr ⟨ticks, rfl⟩) hok
  | yield => exact exact_yield h hs
  | wakeup proc =>
    rcases wakeup_cases hs with rfl | ⟨p, -, hp, hst, hn, hr, -⟩
    · exact ⟨l, h⟩
    · refine ⟨_, exact_push h ?_ hst hn hr⟩
      intro hl
      rw [(h.ready p).1 hl] at hp
      cases hp

/-- **A call that does not** breaks the law. -/
theorem not_exact_step (h : Exact k l) (hok : ¬ QueueOk k op) (hs : ProcessStep c k op k') :
    ¬ QueueExact k' := by
  intro hx
  have leave : (∃ code, op = .exit code) ∨ (∃ ticks, op = .sleep ticks) →
      ¬ (∀ p, k.currentProcess = some p → k.state p = .ready → k.readyQueue = some p) → False := by
    intro hop hok
    push Not at hok
    obtain ⟨p, hp, hready, hhead⟩ := hok
    have hl := (h.ready p).2 hready
    rcases leave_cases hop hs with ⟨hn, -⟩ | ⟨current, v, k₁, n, hcur, hv, hvr, hsame, hy⟩
    · rw [hp] at hn; cases hn
    obtain rfl : p = current := Option.some.inj (hp.symm.trans hcur)
    rcases leave_yield h.queue hcur hvr hsame hy with ⟨rfl, -⟩ | ⟨q, t, rfl, h1, h2, -⟩
    · simp at hl
    · -- the process stays in the queue, in another state
      have hpq : p ≠ q := by
        rintro rfl
        exact hhead (chain_cons.1 h.queue).1
      have := (hx.ready_of h1 p).1 ((List.mem_cons.1 hl).resolve_left hpq)
      rw [h2, Function.update_of_ne hpq, Function.update_self] at this
      exact hv this
  cases op with
  | create name entry priority flags =>
    simp only [QueueOk, not_or, not_exists, not_and, not_not] at hok
    obtain ⟨hf, hk⟩ := hok
    rcases create_cases hs with ⟨hn, -⟩ | ⟨p, n, stack, m, hp, hk', hst, -, ⟨-, hn, hr⟩ | ⟨hne, -⟩⟩
    · exact hf hn
    · -- the slot is READY and not in the queue
      have hnot : p ∉ l := fun hl => by
        have hst := (h.ready p).1 hl
        rcases findFreeProcess_state hp with hs | hs <;> rw [hs] at hst <;> cases hst
      have hq : Queue k' l := by
        rw [Queue, hn, hr]
        exact h.queue.update hnot none
      exact hnot ((hx.ready_of hq p).2 (by rw [hst, Function.update_self]))
    · exact hne (hk n stack m hk')
  | destroy proc =>
    simp only [QueueOk] at hok
    push Not at hok
    obtain ⟨p, rfl, hready⟩ := hok
    obtain ⟨hst, hn, hr, -⟩ := destroy_cases hs
    have hq : Queue k' l := by rw [Queue, hn, hr]; exact h.queue
    have := (hx.ready_of hq p).1 ((h.ready p).2 hready)
    rw [hst, Function.update_self] at this
    cases this
  | exit code => exact leave (Or.inl ⟨code, rfl⟩) hok
  | sleep ticks => exact leave (Or.inr ⟨ticks, rfl⟩) hok
  | yield => exact hok trivial
  | wakeup => exact hok trivial

/-! ## Runs -/

/-- What clearing a slot leaves alone, clearing all of them does. -/
theorem clearSlots_unchanged {β : Type*} (obs : Kernel → β)
    (hobs : ∀ k i, obs (k.modify i fun _ => .zero) = obs k) (l : List Slot) (k : Kernel) :
    obs (l.foldl (fun k i => k.modify i fun _ => .zero) k) = obs k :=
  foldl_unchanged (fun k i => k.modify i fun _ => .zero) obs (fun k i _ => hobs k i) k

/-- Slots that are cleared one after the other are clear. -/
theorem clearSlots_processes (l : List Slot) (k : Kernel) (i : Slot) :
    (l.foldl (fun k i => k.modify i fun _ => .zero) k).processes i = if i ∈ l then .zero else k.processes i := by
  induction l generalizing k with
  | nil => simp
  | cons j l ih =>
    rw [List.foldl_cons, ih]
    by_cases hi : i ∈ l
    · simp [hi]
    · by_cases hij : i = j
      · subst hij
        simp [hi, Kernel.modify]
      · simp [hi, hij, Kernel.modify]

/-- `process_init` clears every slot, and leaves the queue's other variables alone. -/
theorem processInit_spec (k : Kernel) : (processInit k).processes = (fun _ => .zero) ∧
    (processInit k).readyQueue = k.readyQueue ∧ (processInit k).dispatched = k.dispatched := by
  unfold processInit
  refine ⟨?_, ?_, ?_⟩
  · funext i
    rw [Kernel.print_processes, clearSlots_processes, if_pos (List.mem_finRange i)]
  · rw [Kernel.print_readyQueue, clearSlots_unchanged Kernel.readyQueue fun _ _ => rfl, Kernel.print_readyQueue]
  · rw [Kernel.print_dispatched, clearSlots_unchanged Kernel.dispatched fun _ _ => rfl, Kernel.print_dispatched]

theorem exact_start (m : Memory) : Exact (processInit (Kernel.boot m)) [] := by
  obtain ⟨h1, h2, -⟩ := processInit_spec (Kernel.boot m)
  refine ⟨h2, ?_⟩
  intro p
  rw [Kernel.state, h1]
  simp [Process.zero]

/-- **When the ready queue is exact**, in every state of a run. -/
theorem queueExact_iff {m : Memory} {tr : List (Transition Kernel ProcessOp)}
    (hr : Run (ProcessStep c) (processInit (Kernel.boot m)) tr k) :
    (∀ e ∈ tr, QueueExact e.post) ↔ ∀ e ∈ tr, QueueOk e.pre e.label := by
  refine hr.always_iff (I := fun _ => True) (J := fun k => ∃ l, Exact k l) trivial ⟨[], exact_start m⟩
    (fun _ _ _ _ _ => trivial) ?_ ?_ ?_
  · rintro a i b - ⟨l, h⟩ hok hs
    exact exact_step h hok hs
  · rintro a ⟨l, h⟩
    exact h.law
  · rintro a i b - ⟨l, h⟩ hok hs
    exact not_exact_step h hok hs

/-- A run that creates a process and lets it run. -/
theorem queueExact_iff_one : ∃ tr k, Run (ProcessStep .first)
      (processInit (Kernel.boot (Memory.boot fun _ => 0))) tr k ∧
    tr.map Transition.label = [.create [0x41, 0] 0x100000 128 1, .yield] ∧
      ((∀ e ∈ tr, QueueExact e.post) ↔ ∀ e ∈ tr, QueueOk e.pre e.label) := by
  obtain ⟨tr, k, hr, hl, -⟩ := exists_run_of_replay (processExec_step (c := .first) (n := 2))
    (P := fun _ _ => true) (s := processInit (Kernel.boot (Memory.boot fun _ => 0)))
    (l := [.create [0x41, 0] 0x100000 128 1, .yield]) (by decide +kernel)
  exact ⟨tr, k, hr, hl, queueExact_iff hr⟩

/-- A process that is destroyed while it is queued stays in the queue. -/
theorem destroy_keeps_queued : ∃ tr k, Run (ProcessStep .first)
      (processInit (Kernel.boot (Memory.boot fun _ => 0))) tr k ∧
    tr.map Transition.label = [.create [0x41, 0] 0x100000 128 1, .destroy (some 0)] ∧
      k.readyQueue = some 0 ∧ k.state 0 = .dead ∧ ¬ QueueExact k := by
  obtain ⟨tr, k, hr, hl, hk⟩ := exists_run_of_replay (processExec_step (c := .first) (n := 2))
    (P := fun _ k => decide (k.readyQueue = some 0 ∧ k.state 0 = .dead))
    (s := processInit (Kernel.boot (Memory.boot fun _ => 0)))
    (l := [.create [0x41, 0] 0x100000 128 1, .destroy (some 0)]) (by decide +kernel)
  obtain ⟨h1, h2⟩ := of_decide_eq_true hk
  refine ⟨tr, k, hr, hl, h1, h2, ?_⟩
  intro hx
  obtain ⟨l, hc, -, hready⟩ := hx.list
  cases l with
  | nil => rw [chain_nil.1 hc] at h1; cases h1
  | cons q t =>
    rw [(chain_cons.1 hc).1] at h1
    have := (hready q).1 List.mem_cons_self
    rw [Option.some.inj h1, h2] at this
    cases this

end Zer0S
