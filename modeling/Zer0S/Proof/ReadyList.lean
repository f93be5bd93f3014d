import Zer0S.Proof.RunQueues

/-!
# The list of `scheduler.c` as a queue

`scheduler_add` links a process in at the head without a look at the list. As long as it gets no process
that is in the list already, `ready_list` is a finite list, and the three operations are those of a
queue: `queueStep` puts a process in front, takes it out, or moves the first process behind the others.

* `represents_step`: each operation returns, and does what the queue does.
* `listSound_iff`: the list is finite and the walks over it end in every state of a run exactly when no
  process is added twice.
* `readyList_refines`: in such a run the list is the queue, and as many calls of `scheduler_yield` as
  there are processes change nothing, each process coming to the head once.
-/

namespace Zer0S

open Lib

variable {s s' t s₀ : Sched} {c : Copy} {n m : ℕ} {p q : Slot} {l : List Slot} {op : SchedOp}
  {tr trs : List (Transition Sched SchedOp)}

/-- An operation of `scheduler.c`. -/
def ListOp (op : SchedOp) : Prop := ∀ o, op ≠ .process o

/-- `scheduler_add` gets a process that is not in the list. -/
def FreshAdd (s : Sched) (op : SchedOp) : Prop := ∀ p, op = .add (some p) → ¬ Linked s.k.next s.readyList p

/-- The operations on a queue. -/
def queueStep (l : List Slot) : SchedOp → List Slot
  | .add (some p) => p :: l
  | .remove (some p) => l.erase p
  | .yield => l.rotate 1
  | _ => l

/-- `ready_list` is the list `l`. -/
def Represents (s : Sched) (l : List Slot) : Prop := Chain s.k.next s.readyList l

/-- `ready_list` is finite and holds no process twice, and the calls that walk over it return. -/
structure ListSound (s : Sched) : Prop where
  finite : ∃ l, Represents s l ∧ l.Nodup
  remove : ∀ p, ∃ n s', schedulerRemove n (some p) s = some s'
  yield : ∃ n s', schedulerYield n s = some s'

/-! ## The operations -/

/-- The walk of `scheduler_remove` over a list without the process. -/
theorem removeLoop_absent : ∀ {l : List Slot} {current : Option Slot}, Chain s.k.next (s.link current) l → p ∉ l →
    loop (removeBody s p) (l.length + 1) current = some none
  | [], current, hc, _ => loop_done (by rw [removeBody, chain_nil.1 hc])
  | x :: l, current, hc, hp => by
    obtain ⟨e, hl⟩ := chain_cons.1 hc
    obtain ⟨hx, hp⟩ : p ≠ x ∧ p ∉ l := by simpa using hp
    have hbody : removeBody s p current = .inl (some x) := by
      rw [removeBody, e]
      exact if_neg (Ne.symm hx)
    rw [List.length_cons, loop_next hbody]
    exact removeLoop_absent hl hp

/-- It finds the place that points to the process: the link of the one before it, if there is one. -/
theorem removeLoop_place : ∀ {l₁ l₂ : List Slot} {current : Option Slot},
    Chain s.k.next (s.link current) (l₁ ++ p :: l₂) → p ∉ l₁ →
    loop (removeBody s p) (l₁.length + 1) current = some (some (l₁.getLast?.or current))
  | [], l₂, current, hc, _ => loop_done (by rw [removeBody, (chain_cons.1 hc).1]; exact if_pos rfl)
  | x :: l₁, l₂, current, hc, hp => by
    obtain ⟨e, hl⟩ := chain_cons.1 hc
    obtain ⟨hx, hp⟩ : p ≠ x ∧ p ∉ l₁ := by simpa using hp
    have hbody : removeBody s p current = .inl (some x) := by
      rw [removeBody, e]
      exact if_neg (Ne.symm hx)
    have hlast : (x :: l₁).getLast?.or current = l₁.getLast?.or (some x) := by
      rw [List.getLast?_cons, Option.some_or]
      cases l₁.getLast? <;> rfl
    rw [List.length_cons, loop_next hbody, hlast]
    exact removeLoop_place hl hp

theorem represents_add (h : Represents s l) (hp : p ∉ l) : Represents (schedulerAdd (some p) s) (p :: l) := by
  show Chain ((s.k.setState p .ready).setNext p s.readyList).next (some p) (p :: l)
  rw [next_setNext, next_setState]
  exact Chain.push h hp

/-- **`scheduler_remove`** takes the process out, wherever it is. -/
theorem represents_remove (h : Represents s l) (p : Slot) :
    ∃ n s', schedulerRemove n (some p) s = some s' ∧ Represents s' (l.erase p) := by
  have hstart : Chain s.k.next (s.link none) l := h
  by_cases hp : p ∈ l
  · obtain ⟨l₁, l₂, rfl, hp₁⟩ := List.eq_append_cons_of_mem hp
    have hloop := removeLoop_place hstart hp₁
    rw [Option.or_none] at hloop
    rw [List.erase_append_right _ hp₁, List.erase_cons_head]
    rcases List.eq_nil_or_concat l₁ with rfl | ⟨l₁, q, rfl⟩
    · -- the head
      refine ⟨_, _, by rw [schedulerRemove, hloop]; rfl, ?_⟩
      show Chain (s.k.setNext p none).next (s.k.next p) l₂
      rw [next_setNext]
      exact Chain.unlink_head h
    · -- behind `q`
      rw [List.concat_eq_append] at h hloop ⊢
      rw [List.getLast?_concat] at hloop
      rw [Represents, List.append_assoc, List.singleton_append] at h
      refine ⟨_, _, by rw [schedulerRemove, hloop]; rfl, ?_⟩
      show Chain ((s.k.setNext q (s.k.next p)).setNext p none).next s.readyList (l₁ ++ [q] ++ l₂)
      rw [next_setNext, next_setNext, List.append_assoc, List.singleton_append]
      exact h.unlink
  · refine ⟨l.length + 1, s, ?_, by rwa [List.erase_of_not_mem hp]⟩
    rw [schedulerRemove, removeLoop_absent hstart hp]
    rfl

/-- **`scheduler_yield`** moves the first process behind the others. -/
theorem represents_yield (h : Represents s l) :
    ∃ n s', schedulerYield n s = some s' ∧ Represents s' (l.rotate 1) := by
  match l with
  | [] =>
    have he : s.readyList = none := h
    exact ⟨0, s, by rw [schedulerYield, he], h⟩
  | [a] =>
    obtain ⟨e, hn⟩ := chain_cons.1 h
    have hn : s.k.next a = none := hn
    refine ⟨0, s, by rw [schedulerYield, e]; simp only [hn], ?_⟩
    rwa [List.rotate_singleton]
  | a :: b :: l =>
    obtain ⟨e, hl⟩ := chain_cons.1 h
    have hb : s.k.next a = some b := (chain_cons.1 hl).1
    rw [hb] at hl
    have hloop := hl.lastLoop
    set last := (b :: l).getLast (by simp) with hlast
    refine ⟨l.length + 1, ⟨(s.k.setNext last (some a)).setNext a none, some b, s.tickCount⟩, ?_, ?_⟩
    · rw [schedulerYield, e]
      simp only [hb, hloop, Option.map_some]
    · show Chain ((s.k.setNext last (some a)).setNext a none).next (some b) ((a :: b :: l).rotate 1)
      rw [next_setNext, next_setNext, List.rotate_cons_succ, List.rotate_zero]
      have ha : a ∉ b :: l := (List.nodup_cons.1 (Chain.nodup h)).1
      have hne : last ≠ a := fun e => ha (e ▸ List.getLast_mem _)
      refine hl.snoc (by simp) (Function.update_self ..) ?_ ?_
      · rw [← hlast, Function.update_of_ne hne, Function.update_self]
      · intro x hx hxl
        rw [Function.update_of_ne (fun e : x = a => ha (e ▸ hx)), Function.update_of_ne hxl]

/-- **Step.** An operation returns, and does to the list what it does to the queue. -/
theorem represents_step (h : Represents s l) (hop : ListOp op) (hadd : FreshAdd s op) (c : Copy) :
    ∃ n s', schedExec c n s op = some s' ∧ Represents s' (queueStep l op) := by
  cases op with
  | process o => exact absurd rfl (hop o)
  | add proc =>
    cases proc with
    | none => exact ⟨0, s, rfl, h⟩
    | some p =>
      have hp : p ∉ l := fun hp => hadd p rfl (Chain.linked_iff h |>.2 hp)
      exact ⟨0, _, rfl, represents_add h hp⟩
  | remove proc =>
    cases proc with
    | none => exact ⟨0, s, rfl, h⟩
    | some p => exact represents_remove h p
  | yield => exact represents_yield h
  | tick => exact ⟨0, _, rfl, h⟩

/-- Calls that return agree. -/
theorem schedExec_det {s₁ s₂ : Sched} (hop : ListOp op) (h₁ : schedExec c n s op = some s₁)
    (h₂ : schedExec c m s op = some s₂) : s₁ = s₂ := by
  cases op with
  | process o => exact absurd rfl (hop o)
  | add proc => exact Option.some.inj (h₁.symm.trans h₂)
  | remove proc =>
    cases proc with
    | none => exact Option.some.inj (h₁.symm.trans h₂)
    | some p =>
      obtain ⟨r₁, hl₁, rfl⟩ := Option.map_eq_some_iff.1 h₁
      obtain ⟨r₂, hl₂, rfl⟩ := Option.map_eq_some_iff.1 h₂
      rw [loop_det hl₁ hl₂]
  | yield =>
    rcases schedulerYield_cases h₁ with ⟨rfl, ha⟩ | ⟨f₁, x₁, l₁, hf₁, hx₁, hl₁, rfl⟩ <;>
      rcases schedulerYield_cases h₂ with ⟨rfl, hb⟩ | ⟨f₂, x₂, l₂, hf₂, hx₂, hl₂, rfl⟩
    · rfl
    · exact absurd ((ha _ hf₂).symm.trans hx₂) (by simp)
    · exact absurd ((hb _ hf₁).symm.trans hx₁) (by simp)
    · obtain rfl : f₁ = f₂ := Option.some.inj (hf₁.symm.trans hf₂)
      obtain rfl : x₁ = x₂ := Option.some.inj (hx₁.symm.trans hx₂)
      rw [loop_det hl₁ hl₂]
  | tick => exact Option.some.inj (h₁.symm.trans h₂)

/-- So a call that returns does what the queue does. -/
theorem represents_of_step (h : Represents s l) (hop : ListOp op) (hadd : FreshAdd s op)
    (hs : SchedStep c s op s') : Represents s' (queueStep l op) := by
  obtain ⟨n, hs⟩ := hs
  obtain ⟨m, s₁, h₁, hr⟩ := represents_step h hop hadd c
  exact schedExec_det hop h₁ hs ▸ hr

/-! ## Runs -/

/-- The queue after the operations. -/
def queueAfter (ops : List SchedOp) : List Slot := ops.foldl queueStep []

theorem Represents.sound (h : Represents s l) : ListSound s := by
  refine ⟨⟨l, h, Chain.nodup h⟩, ?_, ?_⟩
  · intro p
    obtain ⟨n, s', hs, -⟩ := represents_remove h p
    exact ⟨n, s', hs⟩
  · obtain ⟨n, s', hs, -⟩ := represents_yield h
    exact ⟨n, s', hs⟩

theorem represents_init (s₀ : Sched) : Represents (schedulerInit s₀) [] := chain_nil.2 rfl

/-- **A sound list.** In every state of a run of the operations of `scheduler.c`, the list is finite and
without repetitions and the calls that walk over it return, exactly when `scheduler_add` never gets a
process that is in the list. -/
theorem listSound_iff (hr : Run (SchedStep c) (schedulerInit s₀) tr t) (hops : ∀ e ∈ tr, ListOp e.label) :
    (∀ e ∈ tr, ListSound e.post) ↔ ∀ e ∈ tr, FreshAdd e.pre e.label := by
  refine (hr.restrict (C := fun _ op => ListOp op) hops).always_iff (I := fun _ => True)
    (J := fun s => ∃ l, Represents s l) trivial ⟨[], represents_init s₀⟩ (fun _ _ _ _ _ => trivial) ?_ ?_ ?_
  · rintro a op b - ⟨l, h⟩ hadd ⟨hs, hop⟩
    exact ⟨_, represents_of_step h hop hadd hs⟩
  · rintro a ⟨l, h⟩
    exact h.sound
  · -- a process that is in the list is added
    rintro a op b - - hadd ⟨⟨n, hs⟩, -⟩ hb
    simp only [FreshAdd, not_forall, not_not] at hadd
    obtain ⟨p, rfl, hp⟩ := hadd
    obtain rfl := Option.some.inj hs
    obtain ⟨l, hl, -⟩ := hb.finite
    apply not_chain_push hp l
    have hl : Chain ((a.k.setState p .ready).setNext p a.readyList).next (some p) l := hl
    rwa [next_setNext, next_setState] at hl

/-- **Run.** The list is the queue. -/
theorem represents_run (hr : Run (SchedStep c) (schedulerInit s₀) tr t) (hops : ∀ e ∈ tr, ListOp e.label)
    (hadd : ∀ e ∈ tr, FreshAdd e.pre e.label) : Represents t (queueAfter (tr.map Transition.label)) := by
  have hrun := hr.last_ind (P := fun tr s => (∀ e ∈ tr, ListOp e.label ∧ FreshAdd e.pre e.label) →
    Represents s (queueAfter (tr.map Transition.label))) (fun _ => represents_init s₀)
    fun tr a op b _ ih hs hok => by
      obtain ⟨hop, hadd⟩ := hok _ (List.mem_append_right _ List.mem_cons_self)
      have h := ih fun e he => hok e (List.mem_append_left _ he)
      rw [List.map_append, queueAfter, List.foldl_append]
      exact represents_of_step h hop hadd hs
  exact hrun fun e he => ⟨hops e he, hadd e he⟩

/-! ## A round of `scheduler_yield` -/

/-- The same state with other links of the processes. -/
def Kernel.relink (k : Kernel) (f : Slot → Option Slot) : Kernel :=
  { k with processes := fun i => { k.processes i with next := f i } }

theorem setNext_relink (k : Kernel) (q : Slot) (v : Option Slot) :
    k.setNext q v = k.relink (Function.update k.next q v) := by
  have hp : (k.setNext q v).processes = (k.relink (Function.update k.next q v)).processes := by
    funext i
    by_cases h : i = q
    · subst h
      simp [Kernel.setNext, Kernel.modify, Kernel.relink]
    · simp [Kernel.setNext, Kernel.modify, Kernel.relink, Kernel.next, h]
  show { k with processes := (k.setNext q v).processes } = _
  rw [hp]
  rfl

/-- Nothing but the links of `l` and the head of the list is different. -/
structure Moved (l : List Slot) (s s' : Sched) : Prop where
  rest : s'.k = s.k.relink s'.k.next
  ticks : s'.tickCount = s.tickCount
  others : ∀ q, q ∉ l → s'.k.next q = s.k.next q

theorem Moved.refl (l : List Slot) (s : Sched) : Moved l s s := ⟨rfl, rfl, fun _ _ => rfl⟩

theorem Moved.trans {s'' : Sched} (h : Moved l s s') (h' : Moved l s' s'') : Moved l s s'' := by
  refine ⟨?_, h'.ticks.trans h.ticks, fun q hq => (h'.others q hq).trans (h.others q hq)⟩
  rw [h'.rest, h.rest]
  rfl

theorem Moved.perm {l' : List Slot} (h : Moved l s s') (hl : ∀ q, q ∈ l → q ∈ l') : Moved l' s s' :=
  ⟨h.rest, h.ticks, fun q hq => h.others q (mt (hl q) hq)⟩

theorem yield_moved (hl : Represents s l) (h : schedulerYield n s = some s') : Moved l s s' := by
  have hothers : ∀ q, q ∉ l → s'.k.next q = s.k.next q := fun q hq =>
    (schedYield_effect h).links.links q (mt (Chain.linked_iff hl).1 hq) (by simp)
  rcases schedulerYield_cases h with ⟨rfl, -⟩ | ⟨first, second, last, -, -, -, rfl⟩
  · exact .refl l _
  · refine ⟨?_, rfl, hothers⟩
    simp only [setNext_relink]
    rfl

theorem Represents.head (h : Represents s l) : s.readyList = l.head? := by
  cases l with
  | nil => exact h
  | cons a l => exact (chain_cons.1 h).1

/-- Calls of `scheduler_yield` rotate the list. -/
theorem yields_run (hr : Run (SchedStep c) s trs s') :
    ∀ {l m}, Represents s l → trs.map Transition.label = List.replicate m .yield →
      Represents s' (l.rotate m) ∧ Moved l s s' ∧
        trs.map (fun e => e.pre.readyList) = (List.range m).map fun i => (l.rotate i).head? := by
  induction hr with
  | nil s =>
    intro l m h hm
    obtain rfl : m = 0 := by simpa using hm.symm
    exact ⟨by rwa [List.rotate_zero], .refl _ _, rfl⟩
  | @cons s s₁ s' op trs hs hr ih =>
    intro l m h hm
    cases m with
    | zero => cases hm
    | succ m =>
      rw [List.map_cons, List.replicate_succ] at hm
      obtain ⟨hop, htail⟩ := List.cons.inj hm
      obtain rfl : op = .yield := hop
      have h1 : Represents s₁ (l.rotate 1) :=
        represents_of_step h (fun _ h => by cases h) (fun _ h => by cases h) hs
      obtain ⟨h2, h3, h4⟩ := ih h1 htail
      obtain ⟨n, hs⟩ := hs
      refine ⟨?_, (yield_moved h hs).trans (h3.perm fun q hq => List.mem_rotate.1 hq), ?_⟩
      · rwa [List.rotate_rotate, Nat.add_comm] at h2
      · rw [List.map_cons, h4, List.range_succ_eq_map, List.map_cons, List.map_map, h.head, List.rotate_zero]
        simp only [List.rotate_rotate, Function.comp_def, Nat.succ_eq_add_one, Nat.add_comm]

/-- Such calls return. -/
theorem exists_yields (c : Copy) (m : ℕ) : ∀ {s l}, Represents s l →
    ∃ trs s', Run (SchedStep c) s trs s' ∧ trs.map Transition.label = List.replicate m .yield := by
  induction m with
  | zero => exact fun {s l} _ => ⟨[], s, .nil s, rfl⟩
  | succ m ih =>
    intro s l h
    obtain ⟨n, s₁, hs, h1⟩ := represents_yield h
    obtain ⟨trs, s', hr, hl⟩ := ih h1
    have hs : SchedStep c s .yield s₁ := ⟨n, hs⟩
    exact ⟨_, s', .cons hs hr, by rw [List.map_cons, hl, List.replicate_succ]⟩

/-- As many calls of `scheduler_yield` as the list `l` has processes return and change nothing, and
before them each of the processes is at the head once. -/
def YieldRound (c : Copy) (s : Sched) (l : List Slot) : Prop :=
  (∃ trs s', Run (SchedStep c) s trs s' ∧ trs.map Transition.label = List.replicate l.length .yield) ∧
    ∀ trs s', Run (SchedStep c) s trs s' → trs.map Transition.label = List.replicate l.length .yield →
      s' = s ∧ trs.map (fun e => e.pre.readyList) = l.map some ∧
        ∀ p ∈ l, (trs.map fun e => e.pre.readyList).count (some p) = 1

theorem Represents.yieldRound (h : Represents s l) (c : Copy) : YieldRound c s l := by
  refine ⟨exists_yields c l.length h, ?_⟩
  intro trs s' hr hl
  obtain ⟨h1, h2, h3⟩ := yields_run hr h hl
  rw [List.rotate_length] at h1
  have hheads : trs.map (fun e => e.pre.readyList) = l.map some := by
    rw [h3]
    apply List.ext_getElem (by simp)
    intro i hi _
    have hi : i < l.length := by simpa using hi
    rw [List.getElem_map, List.getElem_map, List.getElem_range, List.head?_rotate hi, List.getElem?_eq_getElem hi]
  refine ⟨?_, hheads, ?_⟩
  · -- the links of the list are determined by it, and the others were not written
    have hnext : s'.k.next = s.k.next := by
      funext q
      by_cases hq : q ∈ l
      · exact Chain.next_eq h h1 q hq
      · exact h2.others q hq
    have hk : s'.k = s.k := h2.rest.trans (by rw [hnext]; rfl)
    have hlist : s'.readyList = s.readyList := h1.head.trans h.head.symm
    show (⟨s'.k, s'.readyList, s'.tickCount⟩ : Sched) = ⟨s.k, s.readyList, s.tickCount⟩
    rw [hk, hlist, h2.ticks]
  · intro p hp
    rw [hheads, List.count_map_of_injective l some (Option.some_injective _)]
    exact List.count_eq_one_of_mem (Chain.nodup h) hp

/-- **Refinement.** After any run of the operations of `scheduler.c` in which `scheduler_add` only gets
processes that are not in the list, the list is the queue, all operations return again, and a round of
`scheduler_yield` brings each process to the head once and changes nothing. -/
theorem readyList_refines (hr : Run (SchedStep c) (schedulerInit s₀) tr t) (hops : ∀ e ∈ tr, ListOp e.label)
    (hadd : ∀ e ∈ tr, FreshAdd e.pre e.label) :
    Represents t (queueAfter (tr.map Transition.label)) ∧
      (∀ op, ListOp op → FreshAdd t op → ∃ t', SchedStep c t op t') ∧
      YieldRound c t (queueAfter (tr.map Transition.label)) := by
  have h := represents_run hr hops hadd
  refine ⟨h, ?_, h.yieldRound c⟩
  intro op hop hadd
  obtain ⟨n, t', hs, -⟩ := represents_step h hop hadd c
  exact ⟨t', n, hs⟩

/-- The condition as a test, for lists of at most `rounds` processes. -/
def freshTest (rounds : ℕ) (s : Sched) : SchedOp → Bool
  | .process _ => false
  | .add (some p) => decide (nth s.k.next s.readyList rounds = none ∧
      ∀ i ∈ List.range rounds, nth s.k.next s.readyList i ≠ some p)
  | _ => true

theorem freshAdd_of_test (h : freshTest n s op = true) : ListOp op ∧ FreshAdd s op := by
  unfold freshTest at h
  split at h
  · cases h
  · rename_i p
    obtain ⟨h1, h2⟩ := of_decide_eq_true h
    refine ⟨by rintro o ⟨⟩, ?_⟩
    intro q hq
    obtain rfl : p = q := by simpa using hq
    exact not_linked_of_nth h1 fun i hi => h2 i (List.mem_range.2 hi)
  · rename_i h1 h2
    exact ⟨h1, fun q hq => absurd hq (h2 q)⟩

/-- The state of both modules before any process exists. -/
def schedEmpty : Sched := ⟨Kernel.boot (Memory.boot fun _ => 0), none, 0⟩

/-- Three processes, the one in the middle removed. -/
theorem listSound_five : ∃ tr t, Run (SchedStep .first) (schedulerInit schedEmpty) tr t ∧
    tr.map Transition.label = [.add (some 0), .add (some 1), .add (some 2), .remove (some 1), .yield] ∧
    ∀ e ∈ tr, ListSound e.post := by
  obtain ⟨tr, t, hr, hl, hk⟩ := exists_run_of_replay (schedExec_step (c := .first) (n := 4))
    (P := fun tr _ => decide (∀ e ∈ tr, freshTest 3 e.pre e.label = true)) (s := schedulerInit schedEmpty)
    (l := [.add (some 0), .add (some 1), .add (some 2), .remove (some 1), .yield]) (by decide +kernel)
  have hok := of_decide_eq_true hk
  exact ⟨tr, t, hr, hl, (listSound_iff hr fun e he => (freshAdd_of_test (hok e he)).1).2
    fun e he => (freshAdd_of_test (hok e he)).2⟩

/-- A process that is added twice: the list does not end, and removing another process never returns. -/
theorem added_twice_cycles : ∃ tr t, Run (SchedStep .first) (schedulerInit schedEmpty) tr t ∧
    tr.map Transition.label = [.add (some 0), .add (some 0)] ∧ (¬ ∃ l, Represents t l) ∧
    (∀ n, schedulerRemove n (some 1) t = none) ∧ ∀ n, schedulerYield n t = none := by
  obtain ⟨tr, t, hr, hl, hk⟩ := exists_run_of_replay (schedExec_step (c := .first) (n := 4))
    (P := fun _ t => decide (t.readyList = some 0 ∧ t.k.next 0 = some 0)) (s := schedulerInit schedEmpty)
    (l := [.add (some 0), .add (some 0)]) (by decide +kernel)
  obtain ⟨hhead, hnext⟩ := of_decide_eq_true hk
  refine ⟨tr, t, hr, hl, ?_, ?_, ?_⟩
  · rintro ⟨l, h⟩
    have hnot : ¬ Chain (Function.update t.k.next 0 (some 0)) (some 0) l := not_chain_push (.head rfl) l
    rw [← hnext, Function.update_eq_self, hnext, ← hhead] at hnot
    exact hnot h
  · intro n
    -- the walk stays at the process
    have hgo : ∀ current, t.link current = some 0 →
        ∃ current', removeBody t 1 current = .inl current' ∧ t.link current' = some 0 := fun current h =>
      ⟨some 0, by rw [removeBody, h]; rfl, hnext⟩
    have hstart : t.link none = some 0 := hhead
    rw [schedulerRemove, loop_never hgo hstart]
    rfl
  · intro n
    have hgo : ∀ q : Slot, q = 0 → ∃ q', lastBody t.k.next q = .inl q' ∧ q' = 0 := by
      rintro q rfl
      exact ⟨0, by rw [lastBody, hnext], rfl⟩
    rw [schedulerYield, hhead]
    simp only [hnext, loop_never hgo rfl, Option.map_none]

/-- The same three processes: the list is the queue, and two calls of `scheduler_yield` change nothing. -/
theorem readyList_refines_five : ∃ tr t, Run (SchedStep .first) (schedulerInit schedEmpty) tr t ∧
    tr.map Transition.label = [.add (some 0), .add (some 1), .add (some 2), .remove (some 1), .yield] ∧
    Represents t [0, 2] ∧ YieldRound .first t [0, 2] := by
  obtain ⟨tr, t, hr, hl, hk⟩ := exists_run_of_replay (schedExec_step (c := .first) (n := 4))
    (P := fun tr _ => decide (∀ e ∈ tr, freshTest 3 e.pre e.label = true)) (s := schedulerInit schedEmpty)
    (l := [.add (some 0), .add (some 1), .add (some 2), .remove (some 1), .yield]) (by decide +kernel)
  have hok := of_decide_eq_true hk
  obtain ⟨h1, -, h3⟩ := readyList_refines hr (fun e he => (freshAdd_of_test (hok e he)).1)
    fun e he => (freshAdd_of_test (hok e he)).2
  have hqueue : queueAfter (tr.map Transition.label) = [0, 2] := by rw [hl]; decide
  rw [hqueue] at h1 h3
  exact ⟨tr, t, hr, hl, h1, h3⟩

end Zer0S
