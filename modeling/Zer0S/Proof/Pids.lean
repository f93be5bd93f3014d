import Zer0S.Proof.HeapState
import Zer0S.Proof.ProcessOps
import Zer0S.Spec.Clients

/-!
# A pid names one process

`PidsTo n k`: `n` pids were given out, all slots that are not UNUSED have different pids from
1 to `n`, and every pointer is to such a slot.

* `table_step`: a call gives the next pid to one slot that was UNUSED or DEAD, or changes no
  pid and leaves the UNUSED slots UNUSED.
* `pid_old`: a pid from before a run still names the same process after it, if any.
* `pids_unique`: the law, for fewer than `2 ^ 64` creations. With `2 ^ 64 - 1` of them
  `next_pid` is 0 again (`next_pid_wraps`).
-/

namespace Zer0S

open Lib Tiling

variable {k k' : Kernel} {c : Copy} {n : ℕ} {p q : Slot} {op : ProcessOp}

/-- The slot was given to a process. -/
def Taken (k : Kernel) (p : Slot) : Prop := k.state p ≠ .unused

/-! ## What a call does to the table -/

/-- No pid changes, and UNUSED slots stay UNUSED. -/
structure SameTable (k k' : Kernel) : Prop where
  pid : ∀ p, (k'.processes p).pid = (k.processes p).pid
  nextPid : k'.nextPid = k.nextPid
  taken : ∀ p, Taken k' p ↔ Taken k p

/-- The slot `p` gets a process with the next pid. -/
structure NewPid (k k' : Kernel) (p : Slot) : Prop where
  free : k.state p = .unused ∨ k.state p = .dead
  pid : (k'.processes p).pid = k.nextPid
  taken : Taken k' p
  others : ∀ q, q ≠ p → k'.processes q = k.processes q
  nextPid : k'.nextPid = k.nextPid + 1

theorem taken_update {v : ProcState} (hp : Taken k p) (hv : v ≠ .unused)
    (hst : k'.state = Function.update k.state p v) : Taken k' q ↔ Taken k q := by
  rw [Taken, hst, Function.update_apply]
  split_ifs with hq
  · exact iff_of_true hv (hq ▸ hp)
  · rfl

theorem SameIds.table (hs : SameIds k k') (ht : ∀ p, Taken k' p ↔ Taken k p) : SameTable k k' :=
  ⟨hs.pid, hs.nextPid, ht⟩

/-- A creation that finds a slot. -/
theorem create_new {name : List Byte} {entry priority : Word} {flags : BitVec 32}
    (hs : ProcessStep c k (.create name entry priority flags) k') (hf : findFreeProcess k = some p) :
    NewPid k k' p := by
  rcases create_effect hs with ⟨hn, -⟩ | ⟨x, -, -, -, proc, -, hx, -, hp, hpid, hst, -, hnext, -, -⟩
  · rw [hf] at hn
    cases hn
  · obtain rfl : p = x := Option.some.inj (hf.symm.trans hx)
    refine ⟨findFreeProcess_state hf, by rw [hp, Function.update_self, hpid], ?_, ?_, hnext⟩
    · rw [Taken, Kernel.state, hp, Function.update_self, hst]
      decide
    · intro q hq
      rw [hp, Function.update_of_ne hq]

/-- **A call that creates nothing** leaves the table alone, when the pointers of the queue and the
pointer passed to the call are to slots that were given to processes. -/
theorem table_step (hop : op.creates = false) (hi : ∀ p, Pointed k p → Taken k p)
    (harg : ∀ p, op.arg = some p → Taken k p) (hs : ProcessStep c k op k') : SameTable k k' := by
  have leave : (∃ code, op = .exit code) ∨ (∃ ticks, op = .sleep ticks) → SameTable k k' := by
    intro hop
    rcases leave_effect hop hs with ⟨-, rfl⟩ | ⟨current, v, hcur, hv, hids, h⟩
    · exact (SameIds.refl k').table fun _ => Iff.rfl
    · have hc : Taken k current := hi current (Or.inr (Or.inl hcur))
      have hv : v ≠ .unused := by rcases hv with rfl | rfl <;> decide
      apply hids.table
      intro p
      rcases h with ⟨-, -, hst⟩ | ⟨q, hr, -, hst⟩
      · exact taken_update hc hv hst
      · have h1 : Taken (k.setState current v) p ↔ Taken k p := taken_update hc hv (state_setState current v)
        have hq : Taken (k.setState current v) q :=
          (taken_update hc hv (state_setState current v)).2 (hi q (Or.inl hr))
        rw [← h1]
        exact taken_update (v := .running) hq (by decide) (hst.trans (by rw [state_setState]))
  cases op with
  | create name entry priority flags => cases hop
  | destroy proc =>
    cases proc with
    | none =>
      obtain rfl := destroy_none hs
      exact (SameIds.refl _).table fun _ => Iff.rfl
    | some p =>
      obtain ⟨hp, hn, -, -⟩ := destroy_effect hs
      refine ⟨?_, hn, fun q => taken_update (harg p rfl) (by decide) (destroy_cases hs).1⟩
      intro q
      by_cases hq : q = p
      · rw [hp, hq, Function.update_self]
      · rw [hp, Function.update_of_ne hq]
  | exit code => exact leave (Or.inl ⟨code, rfl⟩)
  | sleep ticks => exact leave (Or.inr ⟨ticks, rfl⟩)
  | yield =>
    obtain ⟨n, hs⟩ := hs
    rcases yield_effect hs with ⟨-, rfl⟩ | ⟨q, hr, -, hst, hids⟩
    · exact (SameIds.refl _).table fun _ => Iff.rfl
    · apply hids.table
      intro p
      rw [Taken, hst]
      split_ifs with hpq hpb
      · exact iff_of_true (by decide) (hpq ▸ hi q (Or.inl hr))
      · -- the process put back was RUNNING
        apply iff_of_true (by decide)
        intro h
        rw [mem_back hpb] at h
        cases h
      · rfl
  | wakeup proc =>
    rcases wakeup_effect hs with rfl | ⟨p, -, hsl, hst, -, hids⟩
    · exact (SameIds.refl k').table fun _ => Iff.rfl
    · refine hids.table fun q => taken_update ?_ (by decide) hst
      intro h
      rw [hsl] at h
      cases h

/-! ## The invariant -/

/-- The pids 1 to `n` were given out. -/
structure PidsTo (n : ℕ) (k : Kernel) : Prop where
  next : k.nextPid = BitVec.ofNat 64 (n + 1)
  range : ∀ p, Taken k p → 0 < (k.processes p).pid.toNat ∧ (k.processes p).pid.toNat ≤ n
  inj : ∀ p q, Taken k p → Taken k q → (k.processes p).pid = (k.processes q).pid → p = q
  pointed : ∀ p, Pointed k p → Taken k p

theorem PidsTo.same (h : PidsTo n k) (ht : SameTable k k') (hp : ∀ p, Pointed k' p → Pointed k p ∨ Taken k' p) :
    PidsTo n k' where
  next := ht.nextPid.trans h.next
  range := by
    intro p htk
    rw [ht.pid]
    exact h.range p ((ht.taken p).1 htk)
  inj := by
    intro p q htp htq he
    rw [ht.pid, ht.pid] at he
    exact h.inj p q ((ht.taken p).1 htp) ((ht.taken q).1 htq) he
  pointed := by
    intro p hpt
    rcases hp p hpt with hpt | hpt
    · exact (ht.taken p).2 (h.pointed p hpt)
    · exact hpt

theorem PidsTo.new_toNat (h : PidsTo n k) (hn : n + 1 < 2 ^ 64) : k.nextPid.toNat = n + 1 := by
  rw [h.next, BitVec.toNat_ofNat, Nat.mod_eq_of_lt hn]

theorem PidsTo.new (h : PidsTo n k) (ht : NewPid k k' p) (hn : n + 1 < 2 ^ 64)
    (hp : ∀ p, Pointed k' p → Pointed k p ∨ Taken k' p) : PidsTo (n + 1) k' := by
  have hnew := h.new_toNat hn
  have hold : ∀ q, q ≠ p → Taken k' q → Taken k q := by
    intro q hq htq
    rwa [Taken, Kernel.state, ht.others q hq] at htq
  -- an old pid is not the next one
  have hne : ∀ q, q ≠ p → Taken k' q → (k'.processes q).pid ≠ (k'.processes p).pid := by
    intro q hq htq he
    rw [ht.others q hq, ht.pid] at he
    have := (h.range q (hold q hq htq)).2
    rw [he, hnew] at this
    omega
  refine ⟨?_, ?_, ?_, ?_⟩
  · rw [ht.nextPid, h.next, BitVec.ofNat_add (n + 1) 1]
    rfl
  · intro q htq
    by_cases hq : q = p
    · rw [hq, ht.pid, hnew]
      omega
    · have := h.range q (hold q hq htq)
      rw [ht.others q hq]
      omega
  · intro x y htx hty he
    by_cases hx : x = p
    · by_cases hy : y = p
      · rw [hx, hy]
      · exact absurd (hx ▸ he).symm (hne y hy hty)
    · by_cases hy : y = p
      · exact absurd (hy ▸ he) (hne x hx htx)
      · rw [ht.others x hx, ht.others y hy] at he
        exact h.inj x y (hold x hx htx) (hold y hy hty) he
  · intro q hpt
    rcases hp q hpt with hpt | hpt
    · by_cases hq : q = p
      · exact hq ▸ ht.taken
      · have := h.pointed q hpt
        rwa [Taken, Kernel.state, ← ht.others q hq] at this
    · exact hpt

/-! ## Callers -/

variable {a b : Client} {op' : ClientOp} {tr : List (Transition Client ClientOp)}

/-- The invariant of a run of callers: also the pointers returned are to processes. -/
structure ClientInv (n : ℕ) (a : Client) : Prop where
  pids : PidsTo n a.k
  handles : ∀ p ∈ a.handles, Taken a.k p

/-- **Step of a caller.** -/
theorem client_step (hi : ClientInv n a) (hs : ClientStep c a op' b) :
    ((op'.creates = true → findFreeProcess a.k = none) ∧ SameTable a.k b.k ∨
      op'.creates = true ∧ ∃ p, findFreeProcess a.k = some p ∧ NewPid a.k b.k p) ∧
      (∀ p, Pointed b.k p → Pointed a.k p ∨ Taken b.k p) ∧ ∀ p ∈ b.handles, p ∈ a.handles ∨ Taken b.k p := by
  have hpt : ∀ {op : ProcessOp} {k' : Kernel}, ProcessStep c a.k op k' →
      ∀ p, Pointed k' p → Pointed a.k p ∨ Taken k' p := by
    intro op k' hs p hp
    apply (pointed_step hs hp).imp_right
    intro h
    rw [Taken, h]
    decide
  have hids : SameTable a.k a.k := (SameIds.refl a.k).table fun _ => Iff.rfl
  cases hs with
  | @create rounds name entry priority flags proc k' hk =>
    have hs : ProcessStep c a.k (.create name entry priority flags) k' :=
      ⟨rounds, by simp only [processExec, hk, Option.map_some]⟩
    refine ⟨?_, hpt hs, ?_⟩
    · cases hf : findFreeProcess a.k with
      | none =>
        rcases create_effect hs with ⟨-, rfl⟩ | ⟨x, -, -, -, -, -, hx, -⟩
        · exact Or.inl ⟨fun _ => rfl, hids⟩
        · rw [hf] at hx
          cases hx
      | some p => exact Or.inr ⟨rfl, p, rfl, create_new hs hf⟩
    · intro p hp
      rcases List.mem_append.1 hp with hp | hp
      · obtain rfl := Option.mem_toList.1 hp
        exact Or.inr (create_new hs (processCreate_result hk).1).taken
      · exact Or.inl hp
  | @call op k' hop harg hs =>
    refine ⟨Or.inl ⟨?_, ?_⟩, hpt hs, fun p hp => Or.inl hp⟩
    · intro h
      rw [ClientOp.creates, hop] at h
      cases h
    · exact table_step hop hi.pids.pointed (fun p hp => hi.handles p (harg p hp)) hs
  | @getByPid pid =>
    refine ⟨Or.inl ⟨fun h => (by cases h), hids⟩, fun p hp => Or.inl hp, ?_⟩
    intro p hp
    rcases List.mem_append.1 hp with hp | hp
    · -- the lookup skips UNUSED slots
      have := List.find?_some (Option.mem_toList.1 hp)
      exact Or.inr (of_decide_eq_true this).2
    · exact Or.inl hp
  | getCurrent =>
    refine ⟨Or.inl ⟨fun h => (by cases h), hids⟩, fun p hp => Or.inl hp, ?_⟩
    intro p hp
    rcases List.mem_append.1 hp with hp | hp
    · exact Or.inr (hi.pids.pointed p (Or.inr (Or.inl (Option.mem_toList.1 hp))))
    · exact Or.inl hp

/-- **The invariant** after a step. -/
theorem clientInv_step (hi : ClientInv n a) (hs : ClientStep c a op' b)
    (hn : n + 1 < 2 ^ 64 ∨ op'.creates = false) :
    (op'.creates = true → findFreeProcess a.k = none) ∧ SameTable a.k b.k ∧ ClientInv n b ∨
      op'.creates = true ∧ ∃ p, findFreeProcess a.k = some p ∧ NewPid a.k b.k p ∧ ClientInv (n + 1) b := by
  obtain ⟨ht, hpt, hh⟩ := client_step hi hs
  rcases ht with ⟨hf, ht⟩ | ⟨hc, p, hf, ht⟩
  · refine Or.inl ⟨hf, ht, hi.pids.same ht hpt, ?_⟩
    intro p hp
    exact (hh p hp).elim (fun h => (ht.taken p).2 (hi.handles p h)) id
  · have hn : n + 1 < 2 ^ 64 := hn.resolve_right (by simp [hc])
    refine Or.inr ⟨hc, p, hf, ht, hi.pids.new ht hn hpt, ?_⟩
    intro q hq
    rcases hh q hq with hq | hq
    · by_cases hqp : q = p
      · exact hqp ▸ ht.taken
      · have := hi.handles q hq
        rwa [Taken, Kernel.state, ← ht.others q hqp] at this
    · exact hq

/-- **Old pids.** After a run the pids up to `n` are those of the processes that had them before,
in slots that no call took since. -/
theorem pid_old (hr : Run (ClientStep c) a tr b) : ∀ n, ClientInv n a → n + creations tr < 2 ^ 64 →
    ∃ n', n' ≤ n + creations tr ∧ ClientInv n' b ∧ ∀ q, Taken b.k q → (b.k.processes q).pid.toNat ≤ n →
      Taken a.k q ∧ (a.k.processes q).pid = (b.k.processes q).pid ∧ ∀ e ∈ tr, ¬ Creates e q := by
  induction hr with
  | nil a => exact fun n hi hn => ⟨n, by omega, hi, fun q hq _ => ⟨hq, rfl, by simp⟩⟩
  | @cons a a₁ b i tr hs hr ih =>
    intro n hi hn
    have hcons : creations (⟨a, i, a₁⟩ :: tr) = creations tr + if i.creates = true then 1 else 0 :=
      List.countP_cons
    rw [hcons] at hn
    have hn1 : n + 1 < 2 ^ 64 ∨ i.creates = false := by
      cases hc : i.creates
      · exact Or.inr rfl
      · rw [hc, if_pos rfl] at hn
        exact Or.inl (by omega)
    rcases clientInv_step hi hs hn1 with ⟨hf, ht, hi'⟩ | ⟨hc, p, hf, ht, hi'⟩
    · obtain ⟨n', hle, hb, hold⟩ := ih n hi' (by omega)
      refine ⟨n', by omega, hb, ?_⟩
      intro q hq hpid
      obtain ⟨h1, h2, h3⟩ := hold q hq hpid
      refine ⟨(ht.taken q).1 h1, (ht.pid q).symm.trans h2, List.forall_mem_cons.2 ⟨?_, h3⟩⟩
      rintro ⟨hc, hq'⟩
      rw [hf hc] at hq'
      cases hq'
    · rw [hc, if_pos rfl] at hcons hn
      obtain ⟨n', hle, hb, hold⟩ := ih (n + 1) hi' (by omega)
      refine ⟨n', by omega, hb, ?_⟩
      intro q hq hpid
      obtain ⟨h1, h2, h3⟩ := hold q hq (by omega)
      -- the slot just taken has a pid above `n`
      have hqp : q ≠ p := by
        rintro rfl
        rw [← h2, ht.pid, hi.pids.new_toNat (by omega)] at hpid
        omega
      rw [ht.others q hqp] at h2
      refine ⟨?_, h2, List.forall_mem_cons.2 ⟨?_, h3⟩⟩
      · rwa [Taken, Kernel.state, ht.others q hqp] at h1
      · rintro ⟨-, hq'⟩
        exact hqp (Option.some.inj (hq'.symm.trans hf))

theorem clientInv_start (m : Memory) : ClientInv 0 ⟨processInit (Kernel.boot m), []⟩ := by
  have hp := (processInit_spec (Kernel.boot m)).1
  have hr := (processInit_spec (Kernel.boot m)).2.1
  have hst : ∀ p, ¬ Taken (processInit (Kernel.boot m)) p := by
    intro p h
    apply h
    rw [Kernel.state, hp]
    rfl
  obtain ⟨hcur, hnext, -⟩ := processInit_vars (Kernel.boot m)
  refine ⟨⟨hnext, fun p h => absurd h (hst p), fun p q h => absurd h (hst p), ?_⟩, by simp⟩
  · rintro p (h | h | ⟨q, h⟩)
    · rw [hr] at h
      cases h
    · rw [hcur] at h
      cases h
    · rw [Kernel.next, hp] at h
      cases h

/-! ## The law -/

/-- Pids name processes. -/
structure PidLaw (k : Kernel) : Prop where
  distinct : ∀ p q, Taken k p → Taken k q → (k.processes p).pid = (k.processes q).pid → p = q
  nonzero : ∀ p, Taken k p → (k.processes p).pid ≠ 0
  resolves : ∀ p, Taken k p → processGetByPid (k.processes p).pid k = some p

/-- The lookup finds a slot with the pid. -/
theorem processGetByPid_some {pid : Word} (h : processGetByPid pid k = some p) :
    (k.processes p).pid = pid ∧ Taken k p := by
  unfold processGetByPid at h
  have := List.find?_some h
  exact of_decide_eq_true (p := _ ∧ k.state p ≠ .unused) this

theorem PidsTo.law (h : PidsTo n k) : PidLaw k := by
  refine ⟨h.inj, ?_, ?_⟩
  · intro p hp h0
    have := (h.range p hp).1
    rw [h0] at this
    simp at this
  · intro p hp
    cases hg : processGetByPid (k.processes p).pid k with
    | none =>
      have := List.find?_eq_none.1 hg p (List.mem_finRange p)
      simp only [decide_eq_true_eq, not_and, not_not] at this
      exact absurd (this trivial) hp
    | some q =>
      obtain ⟨hq, htq⟩ := processGetByPid_some hg
      rw [h.inj q p htq hp hq]

/-- A creation overwrites the slot it finds. -/
theorem create_overwrites (hs : ClientStep c a op' b) (hc : op'.creates = true)
    (hne : b.k.processes p ≠ a.k.processes p) : a.k.state p = .unused ∨ a.k.state p = .dead := by
  cases hs with
  | @create rounds name entry priority flags proc k' hk =>
    have hs : ProcessStep c a.k (.create name entry priority flags) k' :=
      ⟨rounds, by simp only [processExec, hk, Option.map_some]⟩
    rcases create_effect hs with ⟨-, rfl⟩ | ⟨x, -, -, -, proc, -, hx, -, hp, -⟩
    · exact absurd rfl hne
    · by_cases hpx : p = x
      · exact hpx ▸ findFreeProcess_state hx
      · exact absurd ((congrFun hp p).trans (Function.update_of_ne hpx ..)) hne
  | call hop =>
    rw [ClientOp.creates, hop] at hc
    cases hc
  | getByPid => cases hc
  | getCurrent => cases hc

/-- **A pid names one process**, with fewer than `2 ^ 64` creations: the law holds; a creation
overwrites only a slot that was UNUSED or DEAD; and a pid given out by a creation resolves to
nothing, or to the slot of that creation, which no later one took. The pids are below `next_pid`
with one creation less. -/
theorem pids_unique {m : Memory} (hr : Run (ClientStep c) ⟨processInit (Kernel.boot m), []⟩ tr a)
    (hn : creations tr < 2 ^ 64) :
    PidLaw a.k ∧
    (creations tr + 1 < 2 ^ 64 → ∀ p, Taken a.k p → (a.k.processes p).pid < a.k.nextPid) ∧
    (∀ e ∈ tr, e.label.creates = true → ∀ p, e.post.k.processes p ≠ e.pre.k.processes p →
      e.pre.k.state p = .unused ∨ e.pre.k.state p = .dead) ∧
    ∀ tr₁ e tr₂ p q, tr = tr₁ ++ e :: tr₂ → Creates e p →
      processGetByPid (e.post.k.processes p).pid a.k = some q → q = p ∧ ∀ e' ∈ tr₂, ¬ Creates e' p := by
  obtain ⟨n, hle, hi, -⟩ := pid_old hr 0 (clientInv_start m) (by omega)
  refine ⟨hi.pids.law, ?_, ?_, ?_⟩
  · intro hn' p hp
    have := (hi.pids.range p hp).2
    rw [BitVec.lt_def, hi.pids.new_toNat (by omega)]
    omega
  · intro e he hc p hne
    exact create_overwrites (hr.step_of_mem e he) hc hne
  · intro tr₁ e tr₂ p q htr hc hg
    subst htr
    obtain ⟨h1, h2, h3⟩ := hr.split
    have hsum : creations (tr₁ ++ e :: tr₂) = creations tr₁ + (creations tr₂ + 1) := by
      rw [creations, List.countP_append, List.countP_cons, if_pos hc.1]
      rfl
    obtain ⟨n₁, hle₁, hi₁, -⟩ := pid_old h1 0 (clientInv_start m) (by omega)
    rcases clientInv_step hi₁ h2 (Or.inl (by omega)) with ⟨hf, -⟩ | ⟨-, x, hx, ht, hi₂⟩
    · have := hc.2
      rw [hf hc.1] at this
      cases this
    · obtain rfl : p = x := Option.some.inj (hc.2.symm.trans hx)
      obtain ⟨hpid, htq⟩ := processGetByPid_some hg
      obtain ⟨-, -, -, hold⟩ := pid_old h3 _ hi₂ (by omega)
      obtain ⟨hq₁, hq₂, hq₃⟩ := hold q htq (by rw [hpid, ht.pid, hi₁.pids.new_toNat (by omega)])
      obtain rfl := hi₂.pids.inj q p hq₁ ht.taken (hq₂.trans hpid)
      exact ⟨rfl, hq₃⟩

/-- A run that reuses a slot: the first pid resolves to nothing, the second to the slot. -/
theorem pids_unique_reuse : ∃ tr a, Run (ClientStep .first)
      ⟨processInit (Kernel.boot (Memory.boot fun _ => 0)), []⟩ tr a ∧
    tr.map Transition.label = [.call (.create [0x41, 0] 0x100000 128 1), .call (.destroy (some 0)),
      .call (.create [0x42, 0] 0x100000 128 1)] ∧
    processGetByPid 1 a.k = none ∧ processGetByPid 2 a.k = some 0 ∧ PidLaw a.k ∧
    ∀ p, Taken a.k p → (a.k.processes p).pid < a.k.nextPid := by
  obtain ⟨tr, a, hr, hl, ha⟩ := exists_run_of_replay (clientExec_step (c := .first) (n := 3))
    (P := fun tr a => decide (processGetByPid 1 a.k = none ∧ processGetByPid 2 a.k = some 0 ∧
      creations tr = 2))
    (s := ⟨processInit (Kernel.boot (Memory.boot fun _ => 0)), []⟩)
    (l := [.call (.create [0x41, 0] 0x100000 128 1), .call (.destroy (some 0)),
      .call (.create [0x42, 0] 0x100000 128 1)]) (by decide +kernel)
  obtain ⟨h1, h2, h3⟩ := of_decide_eq_true ha
  obtain ⟨hlaw, hlt, -⟩ := pids_unique hr (by omega)
  exact ⟨tr, a, hr, hl, h1, h2, hlaw, hlt (by omega)⟩

/-! ## The last pid -/

/-- The heap is one free block, and slot 0 is the first that `find_free_process` finds. -/
structure Idle (k : Kernel) : Prop where
  heap : HeapAt k.memory freshHeap
  slot : k.state 0 = .unused ∨ k.state 0 = .dead

theorem findFreeProcess_zero (h : k.state 0 = .unused ∨ k.state 0 = .dead) : findFreeProcess k = some 0 :=
  findFreeProcess_eq_some.2 ⟨h, fun j hj => absurd hj (Fin.not_lt_zero j)⟩

/-- The heap after one kernel stack was taken. -/
def stackHeap : List Seg := [⟨8192, true⟩, ⟨8 * 1024 * 1024 - 8192 - 24, false⟩]

theorem firstFit_stack : firstFit 24 32 (roundUp procStackSize).toNat heapBase freshHeap =
    some (heapBase, stackHeap) := by
  have : (roundUp procStackSize).toNat = 8192 := by decide
  rw [this]
  simp [freshHeap, firstFit, Tiling.split, stackHeap]

theorem release_stack : release 24 heapBase heapBase stackHeap = freshHeap := by
  simp [freshHeap, release, merge, stackHeap]

/-- A creation whose stack is found returns the slot, with the stack in it. -/
theorem processCreate_of_kmalloc (name : List Byte) (entry priority : Word) (flags : BitVec 32) {stack : Word}
    {m : Memory} (hf : findFreeProcess k = some p) (hk : kmalloc n procStackSize k.memory = some (stack, m))
    (h0 : stack ≠ 0) : ∃ k' t, processCreate n name entry priority flags k = some (some p, k') ∧
      (k'.processes p).kernelStack = stack ∧ k'.nextPid = k.nextPid + 1 ∧ k'.memory = m.print t := by
  obtain ⟨t, hc⟩ := processCreate_eq hf hk name entry priority flags
  rw [if_neg h0] at hc
  refine ⟨_, t, hc, ?_, rfl, rfl⟩
  simp only [Kernel.modify, Function.update_self]
  exact (createdProcess_fields name entry priority flags k stack).2.2.1

/-- One creation, and the destruction of the process, use up one pid. -/
theorem idle_cycle (h : Idle a.k) : ∃ a₁ b,
    ClientStep c a (.call (.create [0x41, 0] 0x100000 128 1)) a₁ ∧
    ClientStep c a₁ (.call (.destroy (some 0))) b ∧ Idle b.k ∧ b.k.state 0 = .dead ∧
    b.k.nextPid = a.k.nextPid + 1 := by
  have hf := findFreeProcess_zero h.slot
  obtain ⟨n, ⟨stack, m⟩, hk⟩ := kmalloc_returns h.heap procStackSize
  rcases kmalloc_cases h.heap hk with ⟨h0, -⟩ | ⟨-, hnone, -⟩ | ⟨-, p, l, hff, hst, h0, hinv, -⟩
  · exact absurd h0 (by decide)
  · rw [firstFit_stack] at hnone
    cases hnone
  rw [firstFit_stack] at hff
  simp only [Option.some.injEq, Prod.mk.injEq] at hff
  obtain ⟨rfl, rfl⟩ := hff
  obtain ⟨k₁, t, hc, hks, hnext, hm⟩ := processCreate_of_kmalloc [0x41, 0] 0x100000 128 1 hf hk h0
  -- the process is destroyed by the pointer that was returned
  have hd : ProcessStep c k₁ (.destroy (some 0)) (processDestroy c (some 0) k₁) := ⟨0, rfl⟩
  obtain ⟨hp', hnext', -, t', hm'⟩ := destroy_effect hd
  have hdead : (processDestroy c (some 0) k₁).state 0 = .dead := by
    rw [Kernel.state, hp', Function.update_self]
  refine ⟨_, ⟨processDestroy c (some 0) k₁, _⟩, .create hc, .call rfl ?_ hd, ⟨Or.inr ?_, Or.inr hdead⟩,
    hdead, hnext'.trans hnext⟩
  · intro p hp
    obtain rfl := Option.some.inj hp
    exact List.mem_cons_self
  · -- the freed stack is merged with the rest
    have hu : UsedBlock stackHeap heapBase 8192 := by simp [UsedBlock, UsedAt, stackHeap]
    have hfree := (heapInv_kfree hinv hu).1
    rw [← hst, release_stack] at hfree
    rw [hm', hks, hm, kfree_print]
    exact (hfree.print t).print t'

theorem idle_start (m : Memory) (h : m.heapHead = 0) : Idle (processInit (Kernel.boot m)) := by
  refine ⟨Or.inl ⟨?_, rfl⟩, Or.inl ?_⟩
  · obtain ⟨-, -, t, ht⟩ := processInit_vars (Kernel.boot m)
    rw [ht, print_heapHead]
    exact h
  · rw [Kernel.state, (processInit_spec (Kernel.boot m)).1]
    rfl

/-- `n` such cycles. -/
theorem idle_run (c : Copy) : ∀ (n : ℕ) (a : Client), Idle a.k → ∃ tr b, Run (ClientStep c) a tr b ∧
    creations tr = n ∧ b.k.nextPid = a.k.nextPid + BitVec.ofNat 64 n ∧
    (a.k.state 0 = .dead ∨ 0 < n → b.k.state 0 = .dead) := by
  intro n
  induction n with
  | zero => exact fun a _ => ⟨[], a, .nil a, rfl, by simp, fun h => h.resolve_right (by simp)⟩
  | succ n ih =>
    intro a h
    obtain ⟨a₁, b, h1, h2, hi, hdead, hnext⟩ := idle_cycle (c := c) h
    obtain ⟨tr, b', hr, hc, hnext', hst⟩ := ih b hi
    refine ⟨_, b', .cons h1 (.cons h2 hr), ?_, ?_, fun _ => hst (Or.inl hdead)⟩
    · rw [creations, List.countP_cons_of_pos rfl, List.countP_cons_of_neg Bool.false_ne_true]
      exact congrArg (· + 1) hc
    · rw [hnext', hnext, BitVec.add_assoc, Nat.add_comm n 1, BitVec.ofNat_add]
      rfl

/-- **With `2 ^ 64 - 1` creations** the pids are not below `next_pid`, which is 0. -/
theorem next_pid_wraps : ∃ tr a, Run (ClientStep .first)
      ⟨processInit (Kernel.boot (Memory.boot fun _ => 0)), []⟩ tr a ∧ creations tr = 2 ^ 64 - 1 ∧
    a.k.nextPid = 0 ∧ ∃ p, Taken a.k p ∧ ¬ (a.k.processes p).pid < a.k.nextPid := by
  obtain ⟨tr, a, hr, hc, hn, hst⟩ := idle_run .first (2 ^ 64 - 1)
    ⟨processInit (Kernel.boot (Memory.boot fun _ => 0)), []⟩ (idle_start _ rfl)
  have h0 : a.k.nextPid = 0 := by
    rw [hn, (processInit_vars _).2.1]
    decide
  refine ⟨tr, a, hr, hc, h0, 0, ?_, ?_⟩
  · rw [Taken, hst (Or.inr (by norm_num))]
    decide
  · rw [h0, BitVec.lt_def]
    simp

end Zer0S
