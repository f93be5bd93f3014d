import Zer0S.Proof.ReadyQueue

/-!
# What each call does to any process table

The lemmas of `ReadyQueue` assume a queue that ends. These do not: a queue may be cut or
cyclic, and the current process may be dead or its slot reused. A call that returns still
changes little.

* `create_effect`, `destroy_effect`: one slot changes.
* `yield_effect`: the head of the queue runs, the process put back is READY, and nobody's
  pid or stack changes (`SameIds`).
* `leave_effect`: the same for `process_exit` and `process_sleep`, after the current process
  left the state RUNNING.
* `yield_rewired`: a yield writes the links of queued processes and of the process put back.
* `pointed_step`: the pointers of the queue and its links come from processes made READY.
-/

namespace Zer0S

open Lib

variable {k k' : Kernel} {c : Copy} {n : ℕ} {p q : Slot} {op : ProcessOp}

/-- What a call leaves alone that creates no process and frees no stack. -/
structure SameIds (k k' : Kernel) : Prop where
  pid : ∀ p, (k'.processes p).pid = (k.processes p).pid
  stack : ∀ p, (k'.processes p).kernelStack = (k.processes p).kernelStack
  nextPid : k'.nextPid = k.nextPid
  memory : ∃ t, k'.memory = k.memory.print t

theorem memory_print_print (m : Memory) (t t' : List Print) : (m.print t).print t' = m.print (t ++ t') := by
  simp [Memory.print]

theorem kernel_print_nil (k : Kernel) : k.print [] = k := by
  rw [Kernel.print, memory_print_nil]

theorem SameIds.refl (k : Kernel) : SameIds k k :=
  ⟨fun _ => rfl, fun _ => rfl, rfl, [], (memory_print_nil _).symm⟩

theorem SameIds.trans {k'' : Kernel} (h : SameIds k k') (h' : SameIds k' k'') : SameIds k k'' := by
  obtain ⟨t, ht⟩ := h.memory
  obtain ⟨t', ht'⟩ := h'.memory
  refine ⟨fun p => (h'.pid p).trans (h.pid p), fun p => (h'.stack p).trans (h.stack p),
    h'.nextPid.trans h.nextPid, t ++ t', ?_⟩
  rw [ht', ht, memory_print_print]

theorem sameIds_modify (k : Kernel) (i : Slot) {f : Process → Process} (hp : ∀ p, (f p).pid = p.pid)
    (hs : ∀ p, (f p).kernelStack = p.kernelStack) : SameIds k (k.modify i f) := by
  refine ⟨?_, ?_, rfl, [], (memory_print_nil _).symm⟩
  · intro p
    by_cases h : p = i
    · subst h; simp [Kernel.modify, hp]
    · simp [Kernel.modify, h]
  · intro p
    by_cases h : p = i
    · subst h; simp [Kernel.modify, hs]
    · simp [Kernel.modify, h]

theorem sameIds_setState (k : Kernel) (i : Slot) (v : ProcState) : SameIds k (k.setState i v) :=
  sameIds_modify k i (fun _ => rfl) fun _ => rfl

theorem sameIds_setNext (k : Kernel) (i : Slot) (v : Option Slot) : SameIds k (k.setNext i v) :=
  sameIds_modify k i (fun _ => rfl) fun _ => rfl

theorem sameIds_print (k : Kernel) (t : List Print) : SameIds k (k.print t) :=
  ⟨fun _ => rfl, fun _ => rfl, rfl, t, rfl⟩

/-! ## `process_yield` -/

theorem requeue_effect (h : requeue n q k = some k') :
    (∀ p, k'.state p = if p ∈ back k then .ready else k.state p) ∧ k'.currentProcess = k.currentProcess ∧
      SameIds k k' := by
  rcases requeue_cases h with ⟨hb, rfl⟩ | ⟨current, last, -, hb, -, rfl⟩
  · exact ⟨by simp [hb], rfl, .refl _⟩
  · refine ⟨?_, rfl, ?_⟩
    · intro p
      simp only [state_setNext, state_setState, hb, List.mem_singleton, Function.update_apply]
    · exact (sameIds_setState k _ _).trans ((sameIds_setNext _ _ _).trans (sameIds_setNext _ _ _))

theorem dispatch_effect (c : Copy) (q : Slot) (k : Kernel) :
    (dispatch c q k).state = Function.update k.state q .running ∧ (dispatch c q k).currentProcess = some q ∧
      SameIds k (dispatch c q k) := by
  obtain ⟨hst, -, -, hcur, -⟩ := dispatch_queue c q k
  refine ⟨hst, hcur, ?_⟩
  set k₁ : Kernel := { k with
    dispatched := (q, k.state q) :: k.dispatched, currentProcess := some q, readyQueue := k.next q } with hk₁
  have hids : SameIds k k₁ := ⟨fun _ => rfl, fun _ => rfl, rfl, [], (memory_print_nil _).symm⟩
  have hids₂ : SameIds k ((k₁.setNext q none).setState q .running) :=
    hids.trans ((sameIds_setNext _ _ _).trans (sameIds_setState _ _ _))
  unfold dispatch
  simp only
  split_ifs
  · exact hids₂.trans (sameIds_modify _ _ (fun _ => rfl) fun _ => rfl)
  · exact hids₂

/-- **`process_yield`** does nothing without a queue. Else the head runs. -/
theorem yield_effect (h : processYield c n k = some k') :
    k.readyQueue = none ∧ k' = k ∨ ∃ q, k.readyQueue = some q ∧ k'.currentProcess = some q ∧
      (∀ p, k'.state p = if p = q then .running else if p ∈ back k then .ready else k.state p) ∧
      SameIds k k' := by
  rcases processYield_cases h with hnone | ⟨q, k₁, hr, h1, rfl⟩
  · exact Or.inl hnone
  · obtain ⟨hst, -, hids⟩ := requeue_effect h1
    obtain ⟨hst', hcur, hids'⟩ := dispatch_effect c q k₁
    refine Or.inr ⟨q, hr, hcur, ?_, hids.trans hids'⟩
    intro p
    rw [hst', Function.update_apply, hst]

/-! ## Links that `process_yield` writes -/

theorem SameQueue.rewired {N : Slot → Prop} (hs : SameQueue k k') :
    Rewired N k.next k.readyQueue k'.next k'.readyQueue := by
  rw [hs.next, hs.ready]
  exact .refl N _ _

/-- A process is put back at the tail: of the list's links, only that of the last node changes. -/
theorem requeue_rewired (h : requeue n q k = some k') (hq : Linked k.next k.readyQueue q) :
    k'.readyQueue = k.readyQueue ∧ Rewired (· ∈ back k) k.next k.readyQueue k'.next k'.readyQueue := by
  rcases requeue_cases h with ⟨-, rfl⟩ | ⟨current, last, -, hback, hl, rfl⟩
  · exact ⟨rfl, .refl _ _ _⟩
  · have hlast : Linked k.next k.readyQueue last := linked_lastLoop hl hq
    rw [hback]
    refine ⟨rfl, .intro ?_ (fun a ha => Or.inl (.head ha)) ?_⟩
    · intro a ha hn
      have hac : a ≠ current := by simpa using hn
      have hal : a ≠ last := fun e => ha (e ▸ hlast)
      rw [next_setNext, next_setNext, next_setState, Function.update_of_ne hac, Function.update_of_ne hal]
    · intro a b ha hb
      rw [next_setNext, next_setNext, next_setState, Function.update_apply, Function.update_apply] at hb
      split_ifs at hb with hac hal
      · exact Or.inr (List.mem_singleton.2 (Option.some.inj hb).symm)
      · exact Or.inl (.next (ha.resolve_right fun hm => hac (List.mem_singleton.1 hm)) hb)

/-- The head is taken: its link is cleared, and the list goes on behind it. -/
theorem dispatch_rewired (c : Copy) (hq : k.readyQueue = some q) :
    Rewired (fun _ => False) k.next k.readyQueue (dispatch c q k).next (dispatch c q k).readyQueue := by
  obtain ⟨-, hn, hr, -, -⟩ := dispatch_queue c q k
  have hhead : Linked k.next k.readyQueue q := .head hq
  rw [hn, hr]
  exact .relink hhead (fun b hb => by cases hb) fun b hb => .next hhead hb

theorem yield_rewired (h : processYield c n k = some k') :
    Rewired (· ∈ back k) k.next k.readyQueue k'.next k'.readyQueue := by
  rcases processYield_cases h with ⟨-, rfl⟩ | ⟨q, k₁, hr, h1, rfl⟩
  · exact .refl _ _ _
  · obtain ⟨hq, h1⟩ := requeue_rewired h1 (.head hr)
    have h2 := dispatch_rewired c (hq.trans hr)
    exact h1.trans (h2.mono fun _ h => h.elim)

/-! ## The other calls -/

/-- The current process leaves the state RUNNING and yields. -/
theorem leave_yield_effect {k₁ : Kernel} {current : Slot} {v : ProcState} (hcur : k.currentProcess = some current)
    (hv : v ≠ .running) (hq : SameQueue k k₁) (hids : SameIds k k₁)
    (hy : processYield c n (k₁.setState current v) = some k') :
    SameIds k k' ∧
      (k.readyQueue = none ∧ k'.currentProcess = some current ∧ k'.state = Function.update k.state current v ∨
        ∃ q, k.readyQueue = some q ∧ k'.currentProcess = some q ∧
          k'.state = Function.update (Function.update k.state current v) q .running) := by
  obtain ⟨hback, hst⟩ := leave_back hcur hv hq
  have hids₁ : SameIds k (k₁.setState current v) := hids.trans (sameIds_setState _ _ _)
  have hrq : (k₁.setState current v).readyQueue = k.readyQueue := hq.ready
  rcases yield_effect hy with ⟨hn, rfl⟩ | ⟨q, hr, hc, hs, hids₂⟩
  · exact ⟨hids₁, Or.inl ⟨hrq ▸ hn, hq.current.trans hcur, hst⟩⟩
  · refine ⟨hids₁.trans hids₂, Or.inr ⟨q, hrq ▸ hr, hc, ?_⟩⟩
    -- nobody is put back: the one that left is no longer RUNNING
    funext p
    simp only [hs, hback, List.not_mem_nil, if_false, hst, Function.update_apply]

/-- **`process_exit` and `process_sleep`** do nothing without a current process. Else that
process leaves the state RUNNING, and then the head of the queue runs, if any. -/
theorem leave_effect (hop : (∃ code, op = .exit code) ∨ ∃ ticks, op = .sleep ticks) (hs : ProcessStep c k op k') :
    k.currentProcess = none ∧ k' = k ∨ ∃ current v, k.currentProcess = some current ∧
      (v = .zombie ∨ v = .sleeping) ∧ SameIds k k' ∧
      (k.readyQueue = none ∧ k'.currentProcess = some current ∧ k'.state = Function.update k.state current v ∨
        ∃ q, k.readyQueue = some q ∧ k'.currentProcess = some q ∧
          k'.state = Function.update (Function.update k.state current v) q .running) := by
  obtain ⟨n, h⟩ := hs
  cases hcur : k.currentProcess with
  | none =>
    left
    rcases hop with ⟨code, rfl⟩ | ⟨ticks, rfl⟩
    · simp only [processExec, processExit, hcur, Option.some.injEq] at h
      exact ⟨rfl, h.symm⟩
    · simp only [processExec, processSleep, hcur, Option.some.injEq] at h
      exact ⟨rfl, h.symm⟩
  | some current =>
    right
    -- both set the state and yield
    rcases hop with ⟨code, rfl⟩ | ⟨ticks, rfl⟩
    · simp only [processExec, processExit, hcur] at h
      refine ⟨current, .zombie, rfl, Or.inl rfl, leave_yield_effect hcur (by decide) ?_ ?_ h⟩
      · split_ifs
        · exact sameQueue_print _ _
        · exact .refl _
      · split_ifs
        · exact sameIds_print _ _
        · exact .refl _
    · simp only [processExec, processSleep, hcur] at h
      refine ⟨current, .sleeping, rfl, Or.inr rfl, leave_yield_effect hcur (by decide) ?_ ?_ h⟩
      · exact sameQueue_modify _ _ _ (fun _ => rfl) fun _ => rfl
      · exact sameIds_modify _ _ (fun _ => rfl) fun _ => rfl

/-- **`process_create`** takes a slot that was UNUSED or DEAD, if there is one, and gives it the
next pid; without a stack the process is READY all the same. -/
theorem create_effect {name : List Byte} {entry priority : Word} {flags : BitVec 32}
    (hs : ProcessStep c k (.create name entry priority flags) k') :
    findFreeProcess k = none ∧ k' = k ∨
      ∃ p n stack m proc t, findFreeProcess k = some p ∧ kmalloc n procStackSize k.memory = some (stack, m) ∧
        k'.processes = Function.update k.processes p proc ∧ proc.pid = k.nextPid ∧ proc.state = .ready ∧
        proc.kernelStack = stack ∧ k'.nextPid = k.nextPid + 1 ∧ k'.currentProcess = k.currentProcess ∧
        k'.memory = m.print t := by
  obtain ⟨n, h⟩ := hs
  obtain ⟨⟨r, k₁⟩, hc, rfl⟩ := Option.map_eq_some_iff.1 h
  rcases processCreate_cases hc with ⟨hf, -, rfl⟩ | ⟨p, stack, m, t, hf, hk, -, rfl⟩
  · exact Or.inl ⟨hf, rfl⟩
  · obtain ⟨hpid, hst, hks, -⟩ := createdProcess_fields name entry priority flags k stack
    exact Or.inr ⟨p, n, stack, m, _, t, hf, hk, rfl, hpid, hst, hks, rfl, rfl, rfl⟩

/-- A creation that succeeds returns the slot it found, and got a stack. -/
theorem processCreate_result {name : List Byte} {entry priority : Word} {flags : BitVec 32}
    (h : processCreate n name entry priority flags k = some (some p, k')) :
    findFreeProcess k = some p ∧ ∃ stack m, kmalloc n procStackSize k.memory = some (stack, m) ∧ stack ≠ 0 := by
  rcases processCreate_cases h with ⟨-, hr, -⟩ | ⟨x, stack, m, -, hf, hk, hr, -⟩
  · cases hr
  · split_ifs at hr with h0
    exact ⟨hf.trans hr.symm, stack, m, hk, h0⟩

theorem kfree_print (ptr : Word) (m : Memory) (t : List Print) : kfree ptr (m.print t) = (kfree ptr m).print t := by
  by_cases h : ptr = 0
  · simp only [kfree, if_pos h]
  · simp only [kfree, if_neg h, Memory.print]

/-- **`process_destroy`** makes one slot DEAD and frees its stack; `kfree` of NULL does nothing. -/
theorem destroy_effect (hs : ProcessStep c k (.destroy (some p)) k') :
    k'.processes = Function.update k.processes p { k.processes p with state := .dead } ∧
      k'.nextPid = k.nextPid ∧ k'.currentProcess = k.currentProcess ∧
      ∃ t, k'.memory = (kfree (k.processes p).kernelStack k.memory).print t := by
  obtain ⟨n, h⟩ := hs
  simp only [processExec, processDestroy, Option.some.injEq] at h
  subst h
  -- the definitions differ in what they print
  obtain ⟨t, ht⟩ : ∃ t, (if c = .first then k.print [.text "[Process] Destroying: ",
      .bytes (k.processes p).name, .text " (PID: ", .hex (k.processes p).pid, .text ")\n"] else k) = k.print t := by
    split_ifs
    · exact ⟨_, rfl⟩
    · exact ⟨[], (kernel_print_nil k).symm⟩
  rw [ht, Kernel.print_processes]
  by_cases h0 : (k.processes p).kernelStack = 0
  · rw [if_neg (not_not.2 h0), kfree, if_pos h0]
    exact ⟨rfl, rfl, rfl, t, rfl⟩
  · rw [if_pos h0]
    exact ⟨rfl, rfl, rfl, t, kfree_print ..⟩

/-- **`process_wakeup`** makes one slot READY, if it was SLEEPING. -/
theorem wakeup_effect {proc : Option Slot} (hs : ProcessStep c k (.wakeup proc) k') :
    k' = k ∨ ∃ p, proc = some p ∧ k.state p = .sleeping ∧ k'.state = Function.update k.state p .ready ∧
      k'.currentProcess = k.currentProcess ∧ SameIds k k' := by
  obtain ⟨n, h⟩ := hs
  simp only [processExec, processWakeup, Option.some.injEq] at h
  subst h
  cases proc with
  | none => exact Or.inl rfl
  | some p =>
    simp only
    split_ifs with hp
    · exact Or.inl rfl
    · refine Or.inr ⟨p, rfl, by simpa using hp, ?_, rfl, ?_⟩
      · exact (state_setNext p _).trans (state_setState p _)
      · have hids := (sameIds_setState k p .ready).trans (sameIds_setNext _ p k.readyQueue)
        exact ⟨hids.pid, hids.stack, hids.nextPid, hids.memory⟩

/-- Neither takes the CPU from the current process. -/
theorem create_current {name : List Byte} {entry priority : Word} {flags : BitVec 32}
    (hs : ProcessStep c k (.create name entry priority flags) k') : k'.currentProcess = k.currentProcess := by
  rcases create_effect hs with ⟨-, rfl⟩ | ⟨_, _, _, _, _, _, -, -, -, -, -, -, -, hc, -⟩
  · rfl
  · exact hc

theorem wakeup_current {proc : Option Slot} (hs : ProcessStep c k (.wakeup proc) k') :
    k'.currentProcess = k.currentProcess := by
  rcases wakeup_effect hs with rfl | ⟨_, -, -, -, hc, -⟩
  · rfl
  · exact hc

/-- `process_init` leaves the current process and the next pid alone, and prints. -/
theorem processInit_vars (k : Kernel) :
    (processInit k).currentProcess = k.currentProcess ∧ (processInit k).nextPid = k.nextPid ∧
      ∃ t, (processInit k).memory = k.memory.print t := by
  unfold processInit
  refine ⟨?_, ?_, [.text "\n[Process] Initializing process manager...\n"] ++
    [.text "[Process] Process manager ready\n"], ?_⟩
  · rw [Kernel.print_currentProcess, clearSlots_unchanged Kernel.currentProcess fun _ _ => rfl,
      Kernel.print_currentProcess]
  · rw [Kernel.print_nextPid, clearSlots_unchanged Kernel.nextPid fun _ _ => rfl, Kernel.print_nextPid]
  · rw [Kernel.print_memory, clearSlots_unchanged Kernel.memory fun _ _ => rfl, Kernel.print_memory,
      memory_print_print]

/-! ## Pointers -/

/-- A variable or a link of a process points to `p`. -/
def Pointed (k : Kernel) (p : Slot) : Prop :=
  k.readyQueue = some p ∨ k.currentProcess = some p ∨ ∃ q, k.next q = some p

theorem pointed_setNext {i : Slot} {v : Option Slot} (h : Pointed (k.setNext i v) p) :
    Pointed k p ∨ v = some p := by
  rcases h with h | h | ⟨q, h⟩
  · exact Or.inl (Or.inl h)
  · exact Or.inl (Or.inr (Or.inl h))
  · rw [next_setNext, Function.update_apply] at h
    split_ifs at h
    · exact Or.inr h
    · exact Or.inl (Or.inr (Or.inr ⟨q, h⟩))

theorem SameQueue.pointed (hs : SameQueue k k') : Pointed k' p ↔ Pointed k p := by
  rw [Pointed, Pointed, hs.ready, hs.current, hs.next]

theorem pointed_setState {i : Slot} {v : ProcState} : Pointed (k.setState i v) p ↔ Pointed k p := by
  rw [Pointed, Pointed, next_setState]
  rfl

theorem pointed_requeue (h : requeue n q k = some k') (hp : Pointed k' p) : Pointed k p := by
  rcases requeue_cases h with ⟨-, rfl⟩ | ⟨current, last, hcur, -, -, rfl⟩
  · exact hp
  · -- the new links are to the current process and to NULL
    have hp := (pointed_setNext hp).resolve_right (by simp)
    rcases pointed_setNext hp with hp | hp
    · exact pointed_setState.1 hp
    · exact Or.inr (Or.inl (hcur.trans hp))

theorem pointed_dispatch (hp : Pointed (dispatch c q k) p) : p = q ∨ Pointed k p := by
  obtain ⟨-, hn, hr, hcur, -⟩ := dispatch_queue c q k
  rcases hp with h | h | ⟨i, h⟩
  · exact Or.inr (Or.inr (Or.inr ⟨q, hr.symm.trans h⟩))
  · exact Or.inl (Option.some.inj (hcur.symm.trans h)).symm
  · rw [hn, Function.update_apply] at h
    split_ifs at h
    exact Or.inr (Or.inr (Or.inr ⟨i, h⟩))

theorem pointed_yield (h : processYield c n k = some k') (hp : Pointed k' p) : Pointed k p := by
  rcases processYield_cases h with ⟨-, rfl⟩ | ⟨q, k₁, hr, h1, rfl⟩
  · exact hp
  · rcases pointed_dispatch hp with rfl | hp
    · exact Or.inl hr
    · exact pointed_requeue h1 hp

/-- **A new pointer** is to a process that was just made READY. -/
theorem pointed_step (hs : ProcessStep c k op k') (hp : Pointed k' p) : Pointed k p ∨ k'.state p = .ready := by
  have leave : (∃ code, op = .exit code) ∨ (∃ ticks, op = .sleep ticks) → Pointed k p := by
    intro hop
    rcases leave_cases hop hs with ⟨-, rfl⟩ | ⟨current, v, k₁, n, -, -, -, hq, hy⟩
    · exact hp
    · exact hq.pointed.1 (pointed_setState.1 (pointed_yield hy hp))
  -- a process that is linked in at the head
  have push : ∀ x : Slot, k'.state x = .ready → k'.next = Function.update k.next x k.readyQueue →
      k'.readyQueue = some x → k'.currentProcess = k.currentProcess → Pointed k p ∨ k'.state p = .ready := by
    intro x hst hn hr hc
    rcases hp with h | h | ⟨i, h⟩
    · rw [hr] at h
      exact Or.inr (Option.some.inj h ▸ hst)
    · exact Or.inl (Or.inr (Or.inl (hc.symm.trans h)))
    · rw [hn, Function.update_apply] at h
      split_ifs at h
      · exact Or.inl (Or.inl h)
      · exact Or.inl (Or.inr (Or.inr ⟨i, h⟩))
  cases op with
  | create name entry priority flags =>
    have hc := create_current hs
    rcases create_cases hs with ⟨-, rfl⟩ | ⟨x, n, stack, m, -, -, hst, -, ⟨-, hn, hr⟩ | ⟨-, hn, hr⟩⟩
    · exact Or.inl hp
    · left
      rcases hp with h | h | ⟨i, h⟩
      · exact Or.inl (hr.symm.trans h)
      · exact Or.inr (Or.inl (hc.symm.trans h))
      · rw [hn, Function.update_apply] at h
        split_ifs at h
        exact Or.inr (Or.inr ⟨i, h⟩)
    · exact push x (by rw [hst, Function.update_self]) hn hr hc
  | destroy proc =>
    left
    cases proc with
    | none =>
      obtain rfl := destroy_none hs
      exact hp
    | some x =>
      obtain ⟨-, hn, hr, -⟩ := destroy_cases hs
      obtain ⟨-, -, hc, -⟩ := destroy_effect hs
      rwa [Pointed, hn, hr, hc] at hp
  | exit code => exact Or.inl (leave (Or.inl ⟨code, rfl⟩))
  | sleep ticks => exact Or.inl (leave (Or.inr ⟨ticks, rfl⟩))
  | yield =>
    obtain ⟨n, hs⟩ := hs
    exact Or.inl (pointed_yield hs hp)
  | wakeup proc =>
    have hc := wakeup_current hs
    rcases wakeup_cases hs with rfl | ⟨x, -, -, hst, hn, hr, -⟩
    · exact Or.inl hp
    · exact push x (by rw [hst, Function.update_self]) hn hr hc

end Zer0S
