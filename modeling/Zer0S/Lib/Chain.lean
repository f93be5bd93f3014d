import Mathlib.Tactic
import Zer0S.Lib.Loop

/-!
# Null-terminated linked lists

The nodes are of any type and `next` gives the node a node points to, if any.
`Chain next h l` says that following `next` from the head pointer `h` visits the
nodes `l` in order and then ends.

* `Chain.nodup`: a list that ends visits no node twice.
* `Chain.push`, `Chain.snoc`, `Chain.congr`: linking a node in at the head or at the
  tail, and changing nodes that are not in the list.
* `Chain.unlink_head`, `Chain.unlink`: taking a node out.
* `Chain.next_eq`: the nodes in order determine the links.
* `Chain.lastLoop`: the loop that walks to the last node returns it.
* `not_chain_push`: linking a node in twice.
* `Linked next h a`: `a` is reached from `h`, also in a list that does not end; `nth` is the
  sequence of these nodes, and `nth_congr` says what it depends on.
* `Rewired N`: an update of a list that writes only the links of its nodes and of the nodes `N`;
  `Rewired.nth_eq`, `Rewired.apart`: it leaves a list without such nodes alone.
-/

namespace Lib

variable {α : Type*} {next next' : α → Option α} {h : Option α} {a x : α} {l l' : List α}

/-- Following `next` from `h` visits `l` and ends. -/
def Chain (next : α → Option α) : Option α → List α → Prop
  | h, [] => h = none
  | h, a :: l => h = some a ∧ Chain next (next a) l

@[simp] theorem chain_nil : Chain next h [] ↔ h = none := Iff.rfl

@[simp] theorem chain_cons : Chain next h (a :: l) ↔ h = some a ∧ Chain next (next a) l := Iff.rfl

/-- A head pointer has one list. -/
theorem Chain.det : ∀ {l l' : List α} {h : Option α}, Chain next h l → Chain next h l' → l = l'
  | [], [], _, _, _ => rfl
  | [], b :: l', h, h1, h2 => by simp only [chain_nil, chain_cons] at h1 h2; simp [h1] at h2
  | a :: l, [], h, h1, h2 => by simp only [chain_nil, chain_cons] at h1 h2; simp [h2] at h1
  | a :: l, b :: l', h, h1, h2 => by
    obtain ⟨e1, h1⟩ := chain_cons.1 h1
    obtain ⟨e2, h2⟩ := chain_cons.1 h2
    obtain rfl : a = b := by rw [e1] at e2; exact Option.some.inj e2
    rw [Chain.det h1 h2]

/-- The list from a node of the list on. -/
theorem Chain.suffix : ∀ {l₁ : List α} {h : Option α}, Chain next h (l₁ ++ a :: l) →
    Chain next (some a) (a :: l)
  | [], _, hc => by obtain ⟨-, hc⟩ := chain_cons.1 hc; exact chain_cons.2 ⟨rfl, hc⟩
  | _ :: _, _, hc => (chain_cons.1 hc).2.suffix

/-- **A list that ends visits no node twice.** -/
theorem Chain.nodup (hc : Chain next h l) : l.Nodup := by
  induction l generalizing h with
  | nil => exact List.nodup_nil
  | cons a l ih =>
    obtain ⟨-, hl⟩ := chain_cons.1 hc
    refine List.nodup_cons.2 ⟨?_, ih hl⟩
    intro ha
    -- a second visit to `a` would start the same list again
    obtain ⟨l₁, l₂, rfl⟩ := List.append_of_mem ha
    have h1 : Chain next (some a) (a :: (l₁ ++ a :: l₂)) := chain_cons.2 ⟨rfl, hl⟩
    have := congrArg List.length (h1.det hl.suffix)
    simp only [List.length_cons, List.length_append] at this
    omega

/-- The list does not depend on nodes outside it. -/
theorem Chain.congr (hn : ∀ b ∈ l, next' b = next b) (hc : Chain next h l) : Chain next' h l := by
  induction l generalizing h with
  | nil => exact hc
  | cons b l ih =>
    obtain ⟨e, hl⟩ := chain_cons.1 hc
    refine chain_cons.2 ⟨e, ?_⟩
    rw [hn b List.mem_cons_self]
    exact ih (fun c hcl => hn c (List.mem_cons_of_mem _ hcl)) hl

/-- The nodes of a list in order determine their links. -/
theorem Chain.next_eq {h' : Option α} (hc : Chain next h l) (hc' : Chain next' h' l) :
    ∀ b ∈ l, next' b = next b := by
  induction l generalizing h h' with
  | nil => simp
  | cons a l ih =>
    obtain ⟨-, h1⟩ := chain_cons.1 hc
    obtain ⟨-, h2⟩ := chain_cons.1 hc'
    refine List.forall_mem_cons.2 ⟨?_, ih h1 h2⟩
    cases l with
    | nil => rw [chain_nil.1 h1, chain_nil.1 h2]
    | cons b l => rw [(chain_cons.1 h1).1, (chain_cons.1 h2).1]

theorem Chain.update [DecidableEq α] (hc : Chain next h l) (hx : x ∉ l) (v : Option α) :
    Chain (Function.update next x v) h l :=
  hc.congr fun _ hb => Function.update_of_ne (by rintro rfl; exact hx hb) ..

/-- **Linking in at the head.** -/
theorem Chain.push [DecidableEq α] (hc : Chain next h l) (hx : x ∉ l) :
    Chain (Function.update next x h) (some x) (x :: l) :=
  chain_cons.2 ⟨rfl, by rw [Function.update_self]; exact hc.update hx h⟩

/-- **Linking in at the tail.** The last node now points to `x`, which ends the list. -/
theorem Chain.snoc (hc : Chain next h l) (hl : l ≠ []) (hx : next' x = none)
    (hlast : next' (l.getLast hl) = some x) (hn : ∀ b ∈ l, b ≠ l.getLast hl → next' b = next b) :
    Chain next' h (l ++ [x]) := by
  induction l generalizing h with
  | nil => exact absurd rfl hl
  | cons b l ih =>
    obtain ⟨e, ht⟩ := chain_cons.1 hc
    refine chain_cons.2 ⟨e, ?_⟩
    rcases List.eq_nil_or_concat l with rfl | ⟨l₀, z, rfl⟩
    · simp only [List.getLast_singleton] at hlast
      exact chain_cons.2 ⟨hlast, hx⟩
    · have hl' : l₀.concat z ≠ [] := by simp
      have hlz : (b :: l₀.concat z).getLast hl = (l₀.concat z).getLast hl' := List.getLast_cons hl'
      have hnd := hc.nodup
      have hb : b ≠ (b :: l₀.concat z).getLast hl := by
        rw [hlz]
        rintro hbz
        exact (List.nodup_cons.1 hnd).1 (hbz ▸ List.getLast_mem hl')
      rw [hn b List.mem_cons_self hb]
      apply ih ht hl' (by rw [← hlz]; exact hlast)
      intro c hcl hcz
      exact hn c (List.mem_cons_of_mem _ hcl) (by rw [hlz]; exact hcz)

/-- **Unlinking the head.** -/
theorem Chain.unlink_head [DecidableEq α] (hc : Chain next h (x :: l)) :
    Chain (Function.update next x none) (next x) l :=
  (chain_cons.1 hc).2.update (List.nodup_cons.1 hc.nodup).1 none

/-- **Unlinking a node behind another one**: that one takes over its link. -/
theorem Chain.unlink [DecidableEq α] : ∀ {l : List α} {h : Option α}, Chain next h (l ++ a :: x :: l') →
    Chain (Function.update (Function.update next a (next x)) x none) h (l ++ a :: l')
  | [], h, hc => by
    obtain ⟨e, hx⟩ := chain_cons.1 hc
    obtain ⟨ha, hxl⟩ := List.nodup_cons.1 hc.nodup
    have hxl : x ∉ l' := (List.nodup_cons.1 hxl).1
    have hax : a ≠ x := fun e => ha (e ▸ List.mem_cons_self)
    refine chain_cons.2 ⟨e, ?_⟩
    rw [Function.update_of_ne hax, Function.update_self]
    exact ((chain_cons.1 hx).2.update (fun hal => ha (List.mem_cons_of_mem _ hal)) _).update hxl none
  | b :: l, h, hc => by
    obtain ⟨e, hl⟩ := chain_cons.1 hc
    have hb := (List.nodup_cons.1 hc.nodup).1
    have hba : b ≠ a := fun e => hb (by simp [e])
    have hbx : b ≠ x := fun e => hb (by simp [e])
    refine chain_cons.2 ⟨e, ?_⟩
    rw [Function.update_of_ne hbx, Function.update_of_ne hba]
    exact hl.unlink

/-- One round of the walk to the last node. -/
def lastBody (next : α → Option α) (p : α) : α ⊕ α :=
  match next p with
  | some q => .inl q
  | none => .inr p

/-- **The walk to the last node ends there.** -/
theorem Chain.lastLoop : ∀ {l : List α} {a : α}, Chain next (some a) (a :: l) →
    loop (lastBody next) (l.length + 1) a = some ((a :: l).getLast (by simp))
  | [], a, hc => by
    have : next a = none := (chain_cons.1 hc).2
    exact loop_done (by simp [lastBody, this])
  | b :: l, a, hc => by
    obtain ⟨hb, hl⟩ := chain_cons.1 (chain_cons.1 hc).2
    have hbody : lastBody next a = .inl b := by simp [lastBody, hb]
    rw [List.length_cons, loop_next hbody, Chain.lastLoop (chain_cons.2 ⟨rfl, hl⟩)]
    simp

/-- `a` is reached from the head pointer `h`. -/
inductive Linked (next : α → Option α) (h : Option α) : α → Prop
  | head {a : α} : h = some a → Linked next h a
  | next {a b : α} : Linked next h a → next a = some b → Linked next h b

theorem Linked.cons {b : α} (ha : Linked next (next b) a) (e : h = some b) : Linked next h a := by
  induction ha with
  | head e' => exact .next (.head e) e'
  | next _ hb ih => exact .next ih hb

/-- In a list that ends, the nodes reached are its members. -/
theorem Chain.linked_iff (hc : Chain next h l) : Linked next h a ↔ a ∈ l := by
  constructor
  · intro ha
    induction ha with
    | head e =>
      cases l with
      | nil => simp [chain_nil.1 hc] at e
      | cons b l => obtain ⟨e', -⟩ := chain_cons.1 hc; rw [e] at e'; simp_all
    | @next a b _ hb ih =>
      obtain ⟨l₁, l₂, rfl⟩ := List.append_of_mem ih
      have h2 := (chain_cons.1 hc.suffix).2
      cases l₂ with
      | nil => rw [chain_nil, hb] at h2; simp at h2
      | cons c l₂ =>
        obtain ⟨e, -⟩ := chain_cons.1 h2
        rw [hb] at e
        simp [Option.some.inj e]
  · intro ha
    induction l generalizing h with
    | nil => simp at ha
    | cons b l ih =>
      obtain ⟨e, hl⟩ := chain_cons.1 hc
      rcases List.mem_cons.1 ha with rfl | ha
      · exact .head e
      · exact (ih hl ha).cons e

/-- Changing the link of a node that is reached: it is still reached. -/
theorem Linked.update [DecidableEq α] (hx : Linked next h x) (v : Option α) :
    Linked (Function.update next x v) h x := by
  -- the nodes reached before it keep their links
  have key : ∀ {a}, Linked next h a →
      Linked (Function.update next x v) h a ∨ Linked (Function.update next x v) h x := by
    intro a ha
    induction ha with
    | head e => exact Or.inl (.head e)
    | @next a b _ hb ih =>
      rcases ih with ha | hx
      · by_cases hax : a = x
        · exact Or.inr (hax ▸ ha)
        · exact Or.inl (.next ha (by rwa [Function.update_of_ne hax]))
      · exact Or.inr hx
  exact (key hx).elim id id

/-- **Linking in a node that is in the list** closes a cycle. -/
theorem not_chain_push [DecidableEq α] (hx : Linked next h x) (l : List α) :
    ¬ Chain (Function.update next x h) (some x) l := by
  intro hc
  cases l with
  | nil => cases hc
  | cons b l =>
    obtain ⟨e, hl⟩ := chain_cons.1 hc
    obtain rfl := Option.some.inj e
    have hnot := (List.nodup_cons.1 hc.nodup).1
    rw [Function.update_self] at hl
    exact hnot (hl.linked_iff.1 (hx.update h))

/-- The `n`-th node from the head pointer `h` on, also in a list that does not end. -/
def nth (next : α → Option α) (h : Option α) : ℕ → Option α
  | 0 => h
  | n + 1 => (nth next h n).bind next

theorem linked_of_nth : ∀ {n : ℕ} {a : α}, nth next h n = some a → Linked next h a
  | 0, _, e => .head e
  | _ + 1, _, e => by
    obtain ⟨b, hb, he⟩ := Option.bind_eq_some_iff.1 e
    exact .next (linked_of_nth hb) he

theorem linked_iff_nth : Linked next h a ↔ ∃ n, nth next h n = some a := by
  constructor
  · intro ha
    induction ha with
    | head e => exact ⟨0, e⟩
    | next _ hb ih =>
      obtain ⟨n, hn⟩ := ih
      exact ⟨n + 1, by rw [nth, hn, Option.bind_some, hb]⟩
  · rintro ⟨n, hn⟩
    exact linked_of_nth hn

/-- A list that has ended has ended. -/
theorem nth_none {n m : ℕ} (hn : nth next h n = none) (hnm : n ≤ m) : nth next h m = none := by
  induction m, hnm using Nat.le_induction with
  | base => exact hn
  | succ m _ ih => rw [nth, ih, Option.bind_none]

/-- In a list of at most `n` nodes, what is not among the first `n` is not reached. -/
theorem not_linked_of_nth {n : ℕ} (hn : nth next h n = none) (ha : ∀ i < n, nth next h i ≠ some a) :
    ¬ Linked next h a := by
  intro hl
  obtain ⟨i, hi⟩ := linked_iff_nth.1 hl
  rcases Nat.lt_or_ge i n with hlt | hge
  · exact ha i hlt hi
  · rw [nth_none hn hge] at hi
    cases hi

/-- **Frame.** A list does not depend on nodes that are not reached. -/
theorem nth_congr (hn : ∀ a, Linked next h a → next' a = next a) : ∀ n, nth next' h n = nth next h n
  | 0 => rfl
  | n + 1 => by
    rw [nth, nth, nth_congr hn n]
    cases e : nth next h n with
    | none => rfl
    | some a => exact hn a (linked_of_nth e)

/-- What is reached stays in a set that the head is in and the links do not leave. -/
theorem Linked.mem {S : α → Prop} (ha : Linked next h a) (hh : ∀ a, h = some a → S a)
    (hs : ∀ a b, S a → next a = some b → S b) : S a := by
  induction ha with
  | head e => exact hh _ e
  | next _ hb ih => exact hs _ _ ih hb

/-- The walk to the last node ends at a node that is reached. -/
theorem linked_lastLoop : ∀ {n : ℕ} {a x : α}, loop (lastBody next) n a = some x → Linked next h a →
    Linked next h x
  | 0, _, _, e, _ => by cases e
  | n + 1, a, x, e, ha => by
    cases hb : next a with
    | none =>
      rw [loop_done (show lastBody next a = .inr a by simp [lastBody, hb])] at e
      exact Option.some.inj e ▸ ha
    | some b =>
      rw [loop_next (show lastBody next a = .inl b by simp [lastBody, hb])] at e
      exact linked_lastLoop e (.next ha hb)

/-! ## Updates of a list -/

/-- The list from `h` along `next` becomes the list from `h'` along `next'`; the update writes only
the links of nodes of the list and of the nodes `N`, and links in no other node. -/
structure Rewired (N : α → Prop) (next : α → Option α) (h : Option α) (next' : α → Option α) (h' : Option α) :
    Prop where
  links : ∀ a, ¬ Linked next h a → ¬ N a → next' a = next a
  reach : ∀ a, Linked next' h' a → Linked next h a ∨ N a

variable {N N' : α → Prop} {g h' h'' : Option α} {next'' : α → Option α}

theorem Rewired.refl (N : α → Prop) (next : α → Option α) (h : Option α) : Rewired N next h next h :=
  ⟨fun _ _ _ => rfl, fun _ ha => Or.inl ha⟩

/-- The nodes of the list and `N` contain the new head, and the new links do not leave them. -/
theorem Rewired.intro (links : ∀ a, ¬ Linked next h a → ¬ N a → next' a = next a)
    (head : ∀ a, h' = some a → Linked next h a ∨ N a)
    (closed : ∀ a b, Linked next h a ∨ N a → next' a = some b → Linked next h b ∨ N b) :
    Rewired N next h next' h' :=
  ⟨links, fun _ ha => ha.mem head closed⟩

theorem Rewired.trans (h1 : Rewired N next h next' h') (h2 : Rewired N next' h' next'' h'') :
    Rewired N next h next'' h'' := by
  constructor
  · intro a ha hn
    have ha' : ¬ Linked next' h' a := fun hl => (h1.reach a hl).elim ha hn
    rw [h2.links a ha' hn, h1.links a ha hn]
  · intro a ha
    rcases h2.reach a ha with ha | ha
    · exact h1.reach a ha
    · exact Or.inr ha

theorem Rewired.mono (h1 : Rewired N next h next' h') (hN : ∀ a, N a → N' a) : Rewired N' next h next' h' :=
  ⟨fun a ha hn => h1.links a ha (mt (hN a) hn), fun a ha => (h1.reach a ha).imp_right (hN a)⟩

/-- Linking in at the head. -/
theorem Rewired.push [DecidableEq α] (next : α → Option α) (h : Option α) (x : α) :
    Rewired (· = x) next h (Function.update next x h) (some x) := by
  refine .intro (fun a _ ha => Function.update_of_ne ha ..) (fun a ha => Or.inr (Option.some.inj ha).symm) ?_
  intro a b ha hb
  rw [Function.update_apply] at hb
  split_ifs at hb with hax
  · exact Or.inl (.head hb)
  · exact Or.inl (.next (ha.resolve_right hax) hb)

/-- Clearing a link. -/
theorem Rewired.clear [DecidableEq α] (next : α → Option α) (h : Option α) (x : α) :
    Rewired (· = x) next h (Function.update next x none) h := by
  refine .intro (fun a _ ha => Function.update_of_ne ha ..) (fun a ha => Or.inl (.head ha)) ?_
  intro a b ha hb
  rw [Function.update_apply] at hb
  split_ifs at hb with hax
  exact Or.inl (.next (ha.resolve_right hax) hb)

/-- Rewriting two links of the list, and the head, to nodes of the list. -/
theorem Rewired.relink₂ [DecidableEq α] {x y : α} {v w : Option α} (hx : Linked next h x) (hy : Linked next h y)
    (hv : ∀ b, v = some b → Linked next h b) (hw : ∀ b, w = some b → Linked next h b)
    (hh : ∀ b, h' = some b → Linked next h b) :
    Rewired (fun _ => False) next h (Function.update (Function.update next x v) y w) h' := by
  refine .intro ?_ (fun a ha => Or.inl (hh a ha)) fun a b ha hb => Or.inl ?_
  · intro a ha _
    have hay : a ≠ y := fun e => ha (e ▸ hy)
    have hax : a ≠ x := fun e => ha (e ▸ hx)
    rw [Function.update_of_ne hay, Function.update_of_ne hax]
  · rw [Function.update_apply, Function.update_apply] at hb
    split_ifs at hb
    · exact hw b hb
    · exact hv b hb
    · exact .next (ha.resolve_right id) hb

theorem Rewired.relink [DecidableEq α] {x : α} {v : Option α} (hx : Linked next h x)
    (hv : ∀ b, v = some b → Linked next h b) (hh : ∀ b, h' = some b → Linked next h b) :
    Rewired (fun _ => False) next h (Function.update next x v) h' := by
  have h1 : Rewired (fun _ => False) next h (Function.update (Function.update next x v) x v) h' :=
    .relink₂ hx hx hv hv hh
  rwa [Function.update_idem] at h1

variable (hr : Rewired N next h next' h') (hd : ∀ a, Linked next g a → ¬ Linked next h a ∧ ¬ N a)
include hr hd

/-- **Frame.** The update leaves a list without nodes of its own and `N` alone, -/
theorem Rewired.nth_eq : nth next' g = nth next g :=
  funext (nth_congr fun a ha => hr.links a (hd a ha).1 (hd a ha).2)

theorem Rewired.linked_iff : Linked next' g a ↔ Linked next g a := by
  rw [linked_iff_nth, linked_iff_nth, hr.nth_eq hd]

/-- and keeps the two lists apart. -/
theorem Rewired.apart (ha : Linked next' g a) : ¬ Linked next' h' a := by
  have ha := hd a ((hr.linked_iff hd).1 ha)
  intro hl
  exact (hr.reach a hl).elim ha.1 ha.2

end Lib
