import Mathlib.Tactic

/-!
# Runs of a labelled transition system

A run is a list of transitions, each with the state before it, its label and the
state after it, so that a condition on the inputs of every step and a property of
every state reached can be stated about the same object.

* `Run.split`: the run up to a transition, and the run from it on.
* `Run.last_ind`: induction on the last step, for properties of the whole run so far.
* `Run.restrict`: a run of steps that meet a condition.
* `Run.invariant`: what one step preserves, every state of a run has.
* `Run.invariant_of`: the same when only steps that meet a condition preserve it.
* `Run.forall_iff`, `Run.always_iff`: if a step that meets the condition keeps the property and a
  step that does not breaks it, the property holds along a run exactly when every
  step of the run meets the condition.
* `Run.stable`: what no step undoes still holds at the end.
* `replay`: runs an executable step function, for runs on given inputs.
* `rel_map`: results of two systems that are related stay related under a map.
-/

namespace Lib

/-- One step of a run: the state before it, its label, the state after it. -/
structure Transition (σ ι : Type*) where
  pre : σ
  label : ι
  post : σ

variable {σ ι : Type*} {step : σ → ι → σ → Prop}

/-- `Run step s tr t`: the transitions `tr` lead from `s` to `t`. -/
inductive Run (step : σ → ι → σ → Prop) : σ → List (Transition σ ι) → σ → Prop
  | nil (s : σ) : Run step s [] s
  | cons {s s' t : σ} {i : ι} {tr : List (Transition σ ι)} :
      step s i s' → Run step s' tr t → Run step s (⟨s, i, s'⟩ :: tr) t

variable {s t : σ} {tr : List (Transition σ ι)}

/-- Every transition of a run is a step. -/
theorem Run.step_of_mem (h : Run step s tr t) : ∀ e ∈ tr, step e.pre e.label e.post := by
  induction h with
  | nil => simp
  | cons hs _ ih =>
    intro e he
    rcases List.mem_cons.1 he with rfl | he
    · exact hs
    · exact ih e he

/-- A run passes through the states of each of its transitions. -/
theorem Run.split {tr₁ tr₂ : List (Transition σ ι)} {e : Transition σ ι}
    (h : Run step s (tr₁ ++ e :: tr₂) t) :
    Run step s tr₁ e.pre ∧ step e.pre e.label e.post ∧ Run step e.post tr₂ t := by
  induction tr₁ generalizing s with
  | nil =>
    cases h with
    | cons hs hr => exact ⟨.nil _, hs, hr⟩
  | cons d tr₁ ih =>
    cases h with
    | cons hs hr =>
      obtain ⟨h1, h2, h3⟩ := ih hr
      exact ⟨.cons hs h1, h2, h3⟩

/-- One more transition behind a sequence: an element of the whole is the last, or one before it. -/
theorem snoc_split {α : Type*} {l pre post : List α} {e x : α} (h : l ++ [e] = pre ++ x :: post) :
    pre = l ∧ x = e ∧ post = [] ∨ ∃ post', post = post' ++ [e] ∧ l = pre ++ x :: post' := by
  rcases List.eq_nil_or_concat post with rfl | ⟨post', y, rfl⟩
  · obtain ⟨h1, h2⟩ := List.append_inj' h rfl
    exact Or.inl ⟨h1.symm, (List.singleton_inj.1 h2).symm, rfl⟩
  · rw [List.concat_eq_append, ← List.cons_append, ← List.append_assoc] at h
    obtain ⟨h1, h2⟩ := List.append_inj' h rfl
    exact Or.inr ⟨post', by rw [List.concat_eq_append, List.singleton_inj.1 h2], h1⟩

/-- **Induction on the last step** of a run: a property of the transitions so far and the state they
lead to. -/
theorem Run.last_ind {P : List (Transition σ ι) → σ → Prop} (h : Run step s tr t) (h0 : P [] s)
    (hstep : ∀ tr a i b, Run step s tr a → P tr a → step a i b → P (tr ++ [⟨a, i, b⟩]) b) : P tr t := by
  induction tr using List.reverseRecOn generalizing t with
  | nil =>
    cases h
    exact h0
  | append_singleton tr e ih =>
    obtain ⟨h1, hs, h2⟩ := h.split
    cases h2
    exact hstep tr _ _ _ h1 (ih h1) hs

/-- A run whose steps all meet a condition is a run of the steps that do. -/
theorem Run.restrict {C : σ → ι → Prop} (h : Run step s tr t) (hC : ∀ e ∈ tr, C e.pre e.label) :
    Run (fun a i b => step a i b ∧ C a i) s tr t := by
  induction h with
  | nil => exact .nil _
  | cons hs _ ih =>
    obtain ⟨h1, h2⟩ := List.forall_mem_cons.1 hC
    exact .cons ⟨hs, h1⟩ (ih h2)

/-- **Conditional invariant.** If every step of the run meets `C`, and steps that meet
`C` preserve `I`, then `I` holds in every state of the run. -/
theorem Run.invariant_of {I : σ → Prop} {C : σ → ι → Prop} (h : Run step s tr t) (h0 : I s)
    (hstep : ∀ a i b, I a → C a i → step a i b → I b) (hC : ∀ e ∈ tr, C e.pre e.label) :
    I t ∧ ∀ e ∈ tr, I e.pre ∧ I e.post := by
  induction h with
  | nil => exact ⟨h0, by simp⟩
  | cons hs hr ih =>
    have h1 := hstep _ _ _ h0 (hC _ List.mem_cons_self) hs
    obtain ⟨ht, he⟩ := ih h1 fun e he => hC e (List.mem_cons_of_mem _ he)
    refine ⟨ht, ?_⟩
    intro e he'
    rcases List.mem_cons.1 he' with rfl | he'
    · exact ⟨h0, h1⟩
    · exact he e he'

/-- **Invariant.** What every step preserves holds in every state of the run. -/
theorem Run.invariant {I : σ → Prop} (h : Run step s tr t) (h0 : I s)
    (hstep : ∀ a i b, I a → step a i b → I b) : I t ∧ ∀ e ∈ tr, I e.pre ∧ I e.post :=
  h.invariant_of (C := fun _ _ => True) h0 (fun a i b ha _ hs => hstep a i b ha hs) fun _ _ => trivial

/-- **Exactness of a condition.** If steps that meet `C` keep `J`, and from `J` a step is good
exactly when it meets `C`, then all steps of the run are good exactly when all meet `C`. -/
theorem Run.forall_iff {J : σ → Prop} {C : σ → ι → Prop} {Q : Transition σ ι → Prop} (h : Run step s tr t)
    (hJ0 : J s) (hJ : ∀ a i b, J a → C a i → step a i b → J b)
    (hQ : ∀ a i b, J a → step a i b → (Q ⟨a, i, b⟩ ↔ C a i)) :
    (∀ e ∈ tr, Q e) ↔ ∀ e ∈ tr, C e.pre e.label := by
  induction h with
  | nil => simp
  | @cons s s' t i tr hs hr ih =>
    rw [List.forall_mem_cons, List.forall_mem_cons, hQ _ _ _ hJ0 hs]
    by_cases hc : C s i
    · rw [ih (hJ _ _ _ hJ0 hc hs)]
    · simp [hc]

/-- **Exactness along a run.** `I` holds whatever the steps are. From `I` and `J`, a
step that meets `C` keeps `J`, and a step that does not ends outside `P`. Since `J`
implies `P`, the run stays in `P` exactly when all its steps meet `C`. -/
theorem Run.always_iff {I J P : σ → Prop} {C : σ → ι → Prop} (h : Run step s tr t) (hI0 : I s)
    (hJ0 : J s) (hI : ∀ a i b, I a → step a i b → I b)
    (hJ : ∀ a i b, I a → J a → C a i → step a i b → J b) (hP : ∀ a, J a → P a)
    (hbad : ∀ a i b, I a → J a → ¬ C a i → step a i b → ¬ P b) :
    (∀ e ∈ tr, P e.post) ↔ ∀ e ∈ tr, C e.pre e.label := by
  refine h.forall_iff (J := fun a => I a ∧ J a) (Q := fun e => P e.post) ⟨hI0, hJ0⟩ ?_ ?_
  · intro a i b ha hc hs
    exact ⟨hI a i b ha.1 hs, hJ a i b ha.1 ha.2 hc hs⟩
  · intro a i b ha hs
    refine ⟨?_, fun hc => hP b (hJ a i b ha.1 ha.2 hc hs)⟩
    intro hp
    by_contra hc
    exact hbad a i b ha.1 ha.2 hc hs hp

/-- What no step of the run undoes, and some step brings about, holds at the end. -/
theorem Run.stable {J : σ → Prop} (h : Run step s tr t) (hJ : ∀ e ∈ tr, J e.pre → J e.post)
    (he : ∃ e ∈ tr, J e.post) : J t := by
  have hend : J s ∨ (∃ e ∈ tr, J e.post) → J t := by
    clear he
    induction h with
    | nil => rintro (h | ⟨e, he, -⟩); exacts [h, absurd he (by simp)]
    | @cons s s' t i tr hs hr ih =>
      have h1 := hJ _ List.mem_cons_self
      have ih := ih fun e he => hJ e (List.mem_cons_of_mem _ he)
      rintro (h | ⟨e, he, hj⟩)
      · exact ih (Or.inl (h1 h))
      · rcases List.mem_cons.1 he with rfl | he
        · exact ih (Or.inl hj)
        · exact ih (Or.inr ⟨e, he, hj⟩)
  exact hend (Or.inr he)

/-- Run a step function on a list of labels. -/
def replay (f : σ → ι → Option σ) : σ → List ι → Option (List (Transition σ ι) × σ)
  | s, [] => some ([], s)
  | s, i :: l =>
    match f s i with
    | none => none
    | some s' => (replay f s' l).map fun r => (⟨s, i, s'⟩ :: r.1, r.2)

/-- A replay of steps is a run. -/
theorem replay_run {f : σ → ι → Option σ} (hf : ∀ s i s', f s i = some s' → step s i s') :
    ∀ {l : List ι} {s t : σ} {tr : List (Transition σ ι)}, replay f s l = some (tr, t) →
      Run step s tr t ∧ tr.map Transition.label = l := by
  intro l
  induction l with
  | nil =>
    intro s t tr h
    simp only [replay, Option.some.injEq, Prod.mk.injEq] at h
    obtain ⟨rfl, rfl⟩ := h
    exact ⟨.nil s, rfl⟩
  | cons i l ih =>
    intro s t tr h
    unfold replay at h
    cases hs : f s i with
    | none => simp [hs] at h
    | some s' =>
      simp only [hs] at h
      obtain ⟨⟨tr', t'⟩, h1, h2⟩ := Option.map_eq_some_iff.1 h
      simp only [Prod.mk.injEq] at h2
      obtain ⟨rfl, rfl⟩ := h2
      obtain ⟨hr, hl⟩ := ih h1
      exact ⟨.cons (hf _ _ _ hs) hr, by simp [hl]⟩

/-- A replay whose result passes the test `P` gives a run whose result does. -/
theorem exists_run_of_replay {f : σ → ι → Option σ} (hf : ∀ s i s', f s i = some s' → step s i s')
    {P : List (Transition σ ι) → σ → Bool} {l : List ι}
    (h : (replay f s l).any (fun r => P r.1 r.2) = true) :
    ∃ tr t, Run step s tr t ∧ tr.map Transition.label = l ∧ P tr t = true := by
  obtain ⟨⟨tr, t⟩, h1, h2⟩ := (Option.any_eq_true _ _).1 h
  obtain ⟨hr, hl⟩ := replay_run hf h1
  exact ⟨tr, t, hr, hl, h2⟩

/-- What a related value is mapped to is related. -/
theorem rel_map {α β γ δ : Type*} {R : α → β → Prop} {S : γ → δ → Prop} {g : α → γ} {g' : β → δ} {x : Option α}
    {y : Option β} (h : Option.Rel R x y) (hg : ∀ a b, R a b → S (g a) (g' b)) :
    Option.Rel S (x.map g) (y.map g') := by
  cases h with
  | none => exact .none
  | some hab => exact .some (hg _ _ hab)

end Lib
