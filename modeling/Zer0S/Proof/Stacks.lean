import Zer0S.Proof.HeapSafe
import Zer0S.Proof.ProcessOps
import Zer0S.Spec.Stacks

/-!
# Who owns a kernel stack

`process_destroy` frees the stack of a process and leaves the pointer in the slot. A second
destruction frees it again, when it may belong to somebody else.

`stackSafe_iff`: all steps of a run are safe (`StackSafe`) exactly when no DEAD process that has
a stack pointer is destroyed (`DestroyOk`). The invariant (`StackInv`): the stack of a process
that is not DEAD is a live block of its own, and DEAD and UNUSED slots own nothing.
-/

namespace Zer0S

open Lib Tiling

variable {c : Copy} {a b : StackState} {op : StackOp} {l : List Seg} {p : Slot} {x : Block}

/-- The kernel stack of a process. -/
def stackOf (a : StackState) (p : Slot) : Word := (a.k.processes p).kernelStack

/-- The heap, as its callers see it. -/
def StackState.heap (a : StackState) : HeapState := ⟨a.k.memory, a.live.map Block.alloc⟩

/-! ## What is safe -/

/-- The live blocks are distinct and apart, as they were handed out, and the stack of every
process that is not DEAD is one of them. -/
structure StackLaw (a : StackState) : Prop where
  nodup : (a.live.map fun x => x.alloc.ptr).Nodup
  intact : ∀ x ∈ a.live, heapBlock a.k.memory.mem (x.alloc.ptr - sizeofHeapBlock) = x.alloc.header
  used : ∀ x ∈ a.live, x.alloc.header.used ≠ 0
  apart : a.live.Pairwise fun x y => Apart x.alloc.ptr.toNat x.alloc.header.size.toNat
    y.alloc.ptr.toNat y.alloc.header.size.toNat
  owns : ∀ p, a.k.state p ≠ .dead → stackOf a p ≠ 0 →
    ∃ x ∈ a.live, x.owner = some p ∧ x.alloc.ptr = stackOf a p

/-- A safe step: the stack freed is a live block of that process; destroying a DEAD process again
changes nothing but the text printed; no live block is freed by anybody but its owner; and the
law holds afterwards. -/
structure StackSafe (e : Transition StackState StackOp) : Prop where
  owned : ∀ p, e.label = .destroy (some p) → stackOf e.pre p ≠ 0 →
    ∃ x ∈ e.pre.live, x.owner = some p ∧ x.alloc.ptr = stackOf e.pre p
  again : ∀ p, e.label = .destroy (some p) → e.pre.k.state p = .dead →
    e.post.k.processes = e.pre.k.processes ∧ e.post.live = e.pre.live ∧
      ∃ t, e.post.k.memory = e.pre.k.memory.print t
  kept : ∀ x ∈ e.pre.live, e.label ≠ .kfree x.alloc.ptr →
    (∀ p, x.owner = some p → e.label ≠ .destroy (some p)) → x ∈ e.post.live
  law : StackLaw e.post

/-- No DEAD process with a stack pointer is destroyed. -/
def DestroyOk (a : StackState) : StackOp → Prop
  | .destroy (some p) => a.k.state p = .dead → stackOf a p = 0
  | _ => True

/-! ## The invariant -/

/-- The heap is well formed, and stacks and owners agree. -/
structure StackInv (a : StackState) (l : List Seg) : Prop where
  heap : RunInv a.heap l
  owns : ∀ p, a.k.state p ≠ .dead → stackOf a p ≠ 0 →
    ∃ x ∈ a.live, x.owner = some p ∧ x.alloc.ptr = stackOf a p
  owners : ∀ x ∈ a.live, ∀ p, x.owner = some p →
    a.k.state p ≠ .unused ∧ a.k.state p ≠ .dead ∧ stackOf a p = x.alloc.ptr

theorem StackInv.nodup (h : StackInv a l) : (a.live.map fun x => x.alloc.ptr).Nodup := by
  have := h.heap.nodup
  rwa [StackState.heap, List.map_map] at this

theorem StackInv.backs (h : StackInv a l) (hx : x ∈ a.live) : ∃ q k, Backs l x.alloc q k :=
  h.heap.live x.alloc (List.mem_map_of_mem hx)

/-- A live pointer is not NULL. -/
theorem StackInv.ptr_ne (h : StackInv a l) (hx : x ∈ a.live) : x.alloc.ptr ≠ 0 := by
  obtain ⟨q, k, hb⟩ := h.backs hx
  have := h.heap.heap.bounds hb.used
  rw [hb.ptr]
  exact ptr_ne_zero (by omega)

/-- A pointer is that of one live block. -/
theorem StackInv.ptr_inj (h : StackInv a l) {y : Block} (hx : x ∈ a.live) (hy : y ∈ a.live)
    (he : x.alloc.ptr = y.alloc.ptr) : x = y :=
  List.inj_on_of_nodup_map h.nodup hx hy he

theorem StackInv.law (h : StackInv a l) : StackLaw a where
  nodup := h.nodup
  intact := by
    intro x hx
    obtain ⟨q, k, hb⟩ := h.backs hx
    exact hb.header_eq h.heap.heap
  used := by
    intro x hx
    obtain ⟨q, k, hb⟩ := h.backs hx
    rw [hb.header]
    simp [header]
  apart := by
    refine List.Pairwise.imp_of_mem (fun {x y} hx hy hne => ?_) (List.pairwise_map.1 h.nodup)
    obtain ⟨q, k, hb⟩ := h.backs hx
    obtain ⟨r, j, hc⟩ := h.backs hy
    have hi := h.heap.heap
    rw [hb.toNat_ptr hi, hc.toNat_ptr hi, hb.size hi, hc.size hi]
    unfold Apart
    rcases place_disjoint hb.used hc.used with h' | h' | h'
    · simp only [Prod.mk.injEq] at h'
      exact absurd (by rw [hb.ptr, hc.ptr, h'.1]) hne
    · simp only at h'; omega
    · simp only at h'; omega
  owns := h.owns

/-! ## Steps -/

theorem map_giveTo (o : Option Slot) (size ptr : Word) (s : Memory) (live : List Block) :
    (giveTo o size ptr s live).map Block.alloc = handOut size ptr s (live.map Block.alloc) := by
  unfold giveTo handOut
  split_ifs <;> rfl

theorem map_giveBack (ptr : Word) (live : List Block) :
    (giveBack ptr live).map Block.alloc = (live.map Block.alloc).filter fun e => e.ptr ≠ ptr := by
  rw [giveBack, List.filter_map]
  rfl

theorem RunInv.print {h : HeapState} (hi : RunInv h l) (t : List Print) : RunInv ⟨h.s.print t, h.live⟩ l :=
  ⟨hi.heap.print t, hi.live, hi.nodup⟩

theorem mem_giveTo {o : Option Slot} {size ptr : Word} {s : Memory} {live : List Block} :
    x ∈ giveTo o size ptr s live ↔
      ptr ≠ 0 ∧ x = ⟨⟨ptr, size, heapBlock s.mem (ptr - sizeofHeapBlock)⟩, o⟩ ∨ x ∈ live := by
  unfold giveTo
  split_ifs with h0
  · exact ⟨Or.inr, fun h => h.resolve_left fun h => h.1 h0⟩
  · rw [List.mem_cons, and_iff_right h0]

theorem mem_giveBack {ptr : Word} {live : List Block} : x ∈ giveBack ptr live ↔ x ∈ live ∧ x.alloc.ptr ≠ ptr := by
  simp [giveBack]

/-- A slot whose process the step does not touch. -/
theorem slot_eq {k k' : Kernel} {proc : Process} {p q : Slot} (hp : k'.processes = Function.update k.processes p proc)
    (hq : q ≠ p) : k'.state q = k.state q ∧ (k'.processes q).kernelStack = (k.processes q).kernelStack := by
  rw [Kernel.state, hp, Function.update_of_ne hq]
  exact ⟨rfl, rfl⟩

/-- **A creation**: the block is the stack of the process in the slot. -/
theorem stackInv_create (h : StackInv a l) {n : ℕ} {name : List Byte} {entry priority : Word} {flags : BitVec 32}
    {proc : Option Slot} {k' : Kernel}
    (hc : processCreate n name entry priority flags a.k = some (proc, k')) :
    ∃ l', StackInv ⟨k', giveStack proc k' a.live⟩ l' := by
  rcases processCreate_cases hc with ⟨-, rfl, rfl⟩ | ⟨p, stack, m, t, hf, hk, hr, hk'⟩
  · exact ⟨l, h⟩
  obtain ⟨-, hst, hks, -⟩ := createdProcess_fields name entry priority flags a.k stack
  have hp : k'.processes = Function.update a.k.processes p (createdProcess name entry priority flags a.k stack) := by
    rw [hk']
    rfl
  have hm : k'.memory = m.print t := by rw [hk']
  have hpstack : (k'.processes p).kernelStack = stack := by rw [hp, Function.update_self, hks]
  have hpstate : k'.state p = .ready := by rw [Kernel.state, hp, Function.update_self, hst]
  have hlive : giveStack proc k' a.live = giveTo (some p) procStackSize stack m a.live := by
    rw [hr]
    split_ifs with h0
    · rw [giveStack, giveTo, if_pos h0]
    · rw [giveStack, hpstack, hm]
      rfl
  -- the slot was free, so it owned nothing
  have hne : ∀ x ∈ a.live, ∀ q, x.owner = some q → q ≠ p := by
    rintro x hx q ho rfl
    obtain ⟨h1, h2, -⟩ := h.owners x hx q ho
    exact (findFreeProcess_state hf).elim h1 h2
  obtain ⟨-, l', hi, -⟩ := kmalloc_handOut h.heap hk
  rw [hlive]
  refine ⟨l', ?_, ?_, ?_⟩
  · rw [StackState.heap, map_giveTo, hm]
    exact hi.print t
  · intro q hq h0
    by_cases hqp : q = p
    · subst hqp
      rw [stackOf, hpstack] at h0
      exact ⟨_, mem_giveTo.2 (Or.inl ⟨h0, rfl⟩), rfl, hpstack.symm⟩
    · obtain ⟨e1, e2⟩ := slot_eq hp hqp
      rw [stackOf, e2] at h0
      obtain ⟨x, hx, hxo, hxp⟩ := h.owns q (e1 ▸ hq) h0
      exact ⟨x, mem_giveTo.2 (Or.inr hx), hxo, hxp.trans e2.symm⟩
  · intro x hx q ho
    rcases mem_giveTo.1 hx with ⟨-, rfl⟩ | hx
    · obtain rfl := Option.some.inj ho
      exact ⟨by rw [hpstate]; decide, by rw [hpstate]; decide, hpstack⟩
    · obtain ⟨e1, e2⟩ := slot_eq hp (hne x hx q ho)
      obtain ⟨h1, h2, h3⟩ := h.owners x hx q ho
      exact ⟨e1 ▸ h1, e1 ▸ h2, e2.trans h3⟩

/-- **A destruction** that meets the condition. -/
theorem stackInv_destroy (h : StackInv a l) (hok : a.k.state p = .dead → stackOf a p = 0) :
    ∃ l', StackInv ⟨processDestroy c (some p) a.k, giveBack (stackOf a p) a.live⟩ l' := by
  have hs : ProcessStep c a.k (.destroy (some p)) (processDestroy c (some p) a.k) := ⟨0, rfl⟩
  obtain ⟨hp, -, -, t, hm⟩ := destroy_effect hs
  have hpstate : (processDestroy c (some p) a.k).state p = .dead := by
    rw [Kernel.state, hp, Function.update_self]
  -- the stack, if any, is a block of the process
  have hown : stackOf a p ≠ 0 → ∃ x ∈ a.live, x.owner = some p ∧ x.alloc.ptr = stackOf a p :=
    fun h0 => h.owns p (fun hd => h0 (hok hd)) h0
  have hptr : stackOf a p = 0 ∨ stackOf a p ∈ a.heap.live.map Alloc.ptr := by
    by_cases h0 : stackOf a p = 0
    · exact Or.inl h0
    · obtain ⟨x, hx, -, hxp⟩ := hown h0
      exact Or.inr (hxp ▸ List.mem_map_of_mem (List.mem_map_of_mem hx))
  obtain ⟨-, l', hi⟩ := kfree_live h.heap hptr
  refine ⟨l', ?_, ?_, ?_⟩
  · rw [StackState.heap, map_giveBack, hm]
    exact hi.print t
  · intro q hq h0
    have hqp : q ≠ p := by
      rintro rfl
      exact hq hpstate
    obtain ⟨e1, e2⟩ := slot_eq hp hqp
    rw [stackOf, e2] at h0
    obtain ⟨x, hx, hxo, hxp⟩ := h.owns q (e1 ▸ hq) h0
    refine ⟨x, mem_giveBack.2 ⟨hx, ?_⟩, hxo, hxp.trans e2.symm⟩
    intro he
    -- no block is the stack of two processes
    obtain ⟨y, hy, hyo, hyp⟩ := hown (fun h0' => h.ptr_ne hx (he.trans h0'))
    rw [h.ptr_inj hx hy (he.trans hyp.symm), hyo] at hxo
    exact hqp (Option.some.inj hxo).symm
  · intro x hx q ho
    obtain ⟨hx, hxp⟩ := mem_giveBack.1 hx
    obtain ⟨h1, h2, h3⟩ := h.owners x hx q ho
    have hqp : q ≠ p := by
      rintro rfl
      exact hxp h3.symm
    obtain ⟨e1, e2⟩ := slot_eq hp hqp
    exact ⟨e1 ▸ h1, e1 ▸ h2, e2.trans h3⟩

/-- **Step.** A step that meets the condition keeps the invariant. -/
theorem stackInv_step (h : StackInv a l) (hok : DestroyOk a op) (hs : StackStep c a op b) : ∃ l', StackInv b l' := by
  cases hs with
  | @kmalloc n size ptr s' hk =>
    obtain ⟨-, l', hi, -⟩ := kmalloc_handOut h.heap hk
    refine ⟨l', ?_, ?_, ?_⟩
    · rw [StackState.heap, map_giveTo]
      exact hi
    · intro p hst h0
      obtain ⟨x, hx, hxo, hxp⟩ := h.owns p hst h0
      exact ⟨x, mem_giveTo.2 (Or.inr hx), hxo, hxp⟩
    · intro x hx p ho
      rcases mem_giveTo.1 hx with ⟨-, rfl⟩ | hx
      · cases ho
      · exact h.owners x hx p ho
  | @kfree ptr hp =>
    have hp' : ptr = 0 ∨ ptr ∈ a.heap.live.map Alloc.ptr := by
      apply hp.imp_right
      rintro ⟨x, hx, -, rfl⟩
      exact List.mem_map_of_mem (List.mem_map_of_mem hx)
    obtain ⟨-, l', hi⟩ := kfree_live h.heap hp'
    refine ⟨l', ?_, ?_, fun x hx p ho => h.owners x (mem_giveBack.1 hx).1 p ho⟩
    · rw [StackState.heap, map_giveBack]
      exact hi
    · intro p hst h0
      obtain ⟨x, hx, hxo, hxp⟩ := h.owns p hst h0
      refine ⟨x, mem_giveBack.2 ⟨hx, ?_⟩, hxo, hxp⟩
      intro he
      -- a stack is not a block that a caller got itself
      rcases hp with rfl | ⟨y, hy, hyo, hyp⟩
      · exact h.ptr_ne hx he
      · rw [h.ptr_inj hx hy (he.trans hyp.symm), hyo] at hxo
        cases hxo
  | @write x addr v hx ha =>
    have hi := (write_payload h.heap (List.mem_map_of_mem hx) ha v).2
    exact ⟨l, hi, h.owns, h.owners⟩
  | create hc => exact stackInv_create h hc
  | @destroy proc =>
    cases proc with
    | none => exact ⟨l, h⟩
    | some p => exact stackInv_destroy h hok

/-- **The safe steps** from a state with the invariant are those that meet the condition. -/
theorem stackSafe_step (h : StackInv a l) (hs : StackStep c a op b) : StackSafe ⟨a, op, b⟩ ↔ DestroyOk a op := by
  constructor
  · intro hsafe
    cases op with
    | destroy proc =>
      cases proc with
      | none => trivial
      | some p =>
        intro hd
        by_contra h0
        -- a DEAD process owns no block
        obtain ⟨x, hx, hxo, -⟩ := hsafe.owned p rfl h0
        exact (h.owners x hx p hxo).2.1 hd
    | kmalloc size => trivial
    | kfree ptr => trivial
    | write addr v => trivial
    | create name entry priority flags => trivial
  · intro hok
    obtain ⟨l', h'⟩ := stackInv_step h hok hs
    refine ⟨?_, ?_, ?_, h'.law⟩
    · rintro p rfl h0
      exact h.owns p (fun hd => h0 (hok hd)) h0
    · rintro p rfl hd
      have h0 : (a.k.processes p).kernelStack = 0 := hok hd
      cases hs
      have hps : ProcessStep c a.k (.destroy (some p)) (processDestroy c (some p) a.k) := ⟨0, rfl⟩
      obtain ⟨hp, -, -, t, hm⟩ := destroy_effect hps
      refine ⟨?_, ?_, t, ?_⟩
      · rw [hp]
        apply Function.update_eq_self_iff.2
        rw [← show a.k.state p = .dead from hd]
        rfl
      · refine List.filter_eq_self.2 fun x hx => decide_eq_true ?_
        rw [h0]
        exact h.ptr_ne hx
      · rw [hm, h0, kfree, if_pos rfl]
    · intro x hx hk hdn
      cases hs with
      | kmalloc => exact mem_giveTo.2 (Or.inr hx)
      | kfree hp => exact mem_giveBack.2 ⟨hx, fun he => hk (by rw [he])⟩
      | write => exact hx
      | @create _ _ _ _ _ proc k' hc =>
        cases proc with
        | none => exact hx
        | some p => exact mem_giveTo.2 (Or.inr hx)
      | @destroy proc =>
        cases proc with
        | none => exact hx
        | some p =>
          refine mem_giveBack.2 ⟨hx, ?_⟩
          intro he
          -- the block is the stack that is freed, so it belongs to `p`
          have h0 : stackOf a p ≠ 0 := fun h0 => h.ptr_ne hx (he.trans h0)
          obtain ⟨y, hy, hyo, hyp⟩ := h.owns p (fun hd => h0 (hok hd)) h0
          obtain rfl := h.ptr_inj hx hy (he.trans hyp.symm)
          exact hdn p hyo rfl

/-! ## Runs -/

theorem stackInv_start {m : Memory} (hm : m.heapHead = 0) :
    StackInv ⟨processInit (Kernel.boot m), []⟩ freshHeap := by
  refine ⟨?_, ?_, by simp⟩
  · obtain ⟨-, -, t, ht⟩ := processInit_vars (Kernel.boot m)
    rw [StackState.heap, ht]
    exact (runInv_start hm).print t
  · intro p hst h0
    rw [stackOf, (processInit_spec (Kernel.boot m)).1] at h0
    exact absurd rfl h0

/-- **When kernel stacks are safe**, in every step of a run. -/
theorem stackSafe_iff {m : Memory} {tr : List (Transition StackState StackOp)} (hm : m.heapHead = 0)
    (hr : Run (StackStep c) ⟨processInit (Kernel.boot m), []⟩ tr a) :
    (∀ e ∈ tr, StackSafe e) ↔ ∀ e ∈ tr, DestroyOk e.pre e.label :=
  hr.forall_iff (J := fun a => ∃ l, StackInv a l) ⟨_, stackInv_start hm⟩
    (fun _ _ _ ⟨_, h⟩ hok hs => stackInv_step h hok hs) fun _ _ _ ⟨_, h⟩ hs => stackSafe_step h hs

/-- The condition as a test. -/
def destroyTest (a : StackState) : StackOp → Bool
  | .destroy (some p) => a.k.state p ≠ .dead ∨ stackOf a p = 0
  | _ => true

theorem destroyOk_of_test (h : destroyTest a op = true) : DestroyOk a op := by
  cases op with
  | destroy proc =>
    cases proc with
    | none => trivial
    | some p => exact fun hd => (of_decide_eq_true h).resolve_left (not_not.2 hd)
  | kmalloc size => trivial
  | kfree ptr => trivial
  | write addr v => trivial
  | create name entry priority flags => trivial

/-- A run that destroys a process once, and reuses its slot and its stack. -/
theorem stackSafe_iff_reuse : ∃ tr a, Run (StackStep .first)
      ⟨processInit (Kernel.boot (Memory.boot fun _ => 0)), []⟩ tr a ∧
    tr.map Transition.label = [.create [0x41, 0] 0x100000 128 1, .kmalloc 64, .destroy (some 0),
      .create [0x42, 0] 0x100000 128 1, .kfree 0x2002030] ∧
    a.live.map (fun x => (x.alloc.ptr, x.owner)) = [(0x2000018, some 0)] ∧ ∀ e ∈ tr, StackSafe e := by
  obtain ⟨tr, a, hr, hl, ha⟩ := exists_run_of_replay (stackExec_step (c := .first) (n := 4))
    (P := fun tr a => decide (a.live.map (fun x => (x.alloc.ptr, x.owner)) = [(0x2000018, some 0)] ∧
      ∀ e ∈ tr, destroyTest e.pre e.label = true))
    (s := ⟨processInit (Kernel.boot (Memory.boot fun _ => 0)), []⟩)
    (l := [.create [0x41, 0] 0x100000 128 1, .kmalloc 64, .destroy (some 0),
      .create [0x42, 0] 0x100000 128 1, .kfree 0x2002030]) (by decide +kernel)
  obtain ⟨h1, hok⟩ := of_decide_eq_true ha
  exact ⟨tr, a, hr, hl, h1, (stackSafe_iff rfl hr).2 fun e he => destroyOk_of_test (hok e he)⟩

/-- The second destruction of a process frees a block that a caller got from `kmalloc`. -/
theorem destroyed_twice : ∃ tr a, Run (StackStep .first)
      ⟨processInit (Kernel.boot (Memory.boot fun _ => 0)), []⟩ tr a ∧
    tr.map Transition.label = [.create [0x41, 0] 0x100000 128 1, .destroy (some 0), .kmalloc 8192,
      .destroy (some 0)] ∧
    ∃ e ∈ tr, e.label = .destroy (some 0) ∧ stackOf e.pre 0 = 0x2000018 ∧
      e.pre.live.map (fun x => (x.alloc.ptr, x.owner)) = [(0x2000018, none)] ∧ ¬ StackSafe e := by
  obtain ⟨tr, a, hr, hl, ha⟩ := exists_run_of_replay (stackExec_step (c := .first) (n := 3))
    (P := fun tr _ => decide (∃ e ∈ tr, e.label = .destroy (some 0) ∧ stackOf e.pre 0 = 0x2000018 ∧
      e.pre.live.map (fun x => (x.alloc.ptr, x.owner)) = [(0x2000018, none)]))
    (s := ⟨processInit (Kernel.boot (Memory.boot fun _ => 0)), []⟩)
    (l := [.create [0x41, 0] 0x100000 128 1, .destroy (some 0), .kmalloc 8192, .destroy (some 0)])
    (by decide +kernel)
  obtain ⟨e, he, h1, h2, h3⟩ := of_decide_eq_true ha
  refine ⟨tr, a, hr, hl, e, he, h1, h2, h3, ?_⟩
  intro hsafe
  obtain ⟨x, hx, hxo, -⟩ := hsafe.owned 0 h1 (by rw [h2]; decide)
  have := List.mem_map_of_mem (f := fun x : Block => (x.alloc.ptr, x.owner)) hx
  rw [h3, List.mem_singleton, hxo] at this
  exact absurd (congrArg Prod.snd this) (by simp)

end Zer0S
