import Zer0S.Lib.Trace

/-!
# Runs of two systems, and runs that end

* `Run.append`: one run after another.
* `Run.simulate`: if each step of one system is matched by a run of another whose labels are what
  the step shows, so is each run.
* `Run.length_le`: when each step lowers a measure, a run has at most as many steps as the measure is
  at its start.
* `exists_stuck`: then there is a run that ends where there is no step.
-/

namespace Lib

variable {σ ι τ κ : Type*} {step : σ → ι → σ → Prop} {step' : τ → κ → τ → Prop} {s t u : σ}
  {tr tr' : List (Transition σ ι)}

/-- The labels of the transitions. -/
def labels (tr : List (Transition σ ι)) : List ι := tr.map Transition.label

@[simp] theorem labels_nil : labels ([] : List (Transition σ ι)) = [] := rfl

@[simp] theorem labels_cons (e : Transition σ ι) (tr : List (Transition σ ι)) :
    labels (e :: tr) = e.label :: labels tr := rfl

@[simp] theorem labels_append (tr tr' : List (Transition σ ι)) : labels (tr ++ tr') = labels tr ++ labels tr' :=
  List.map_append

/-- One run after another. -/
theorem Run.append (h : Run step s tr t) (h' : Run step t tr' u) : Run step s (tr ++ tr') u := by
  induction h with
  | nil => exact h'
  | cons hs _ ih => exact .cons hs (ih h')

/-- A run of a system with more steps. -/
theorem Run.mono {step₁ : σ → ι → σ → Prop} (h : Run step s tr t) (hstep : ∀ a i b, step a i b → step₁ a i b) :
    Run step₁ s tr t := by
  induction h with
  | nil => exact .nil _
  | cons hs _ ih => exact .cons (hstep _ _ _ hs) ih

/-- **Simulation.** Related states stay related along a run of the first system, and the second makes
the steps that the transitions show. -/
theorem Run.simulate {R : σ → τ → Prop} {shown : Transition σ ι → List κ} (h : Run step s tr t)
    (hstep : ∀ a i b x, R a x → step a i b → ∃ tr' y, Run step' x tr' y ∧ labels tr' = shown ⟨a, i, b⟩ ∧ R b y)
    {x : τ} (hR : R s x) : ∃ tr' y, Run step' x tr' y ∧ labels tr' = tr.flatMap shown ∧ R t y := by
  induction h generalizing x with
  | nil => exact ⟨[], x, .nil x, rfl, hR⟩
  | cons hs _ ih =>
    obtain ⟨tr₁, y, hr₁, hl₁, hRy⟩ := hstep _ _ _ _ hR hs
    obtain ⟨tr₂, z, hr₂, hl₂, hRz⟩ := ih hRy
    refine ⟨tr₁ ++ tr₂, z, hr₁.append hr₂, ?_, hRz⟩
    rw [labels_append, hl₁, hl₂, List.flatMap_cons]

/-- **A measure** that every step lowers, in the states with `I`, bounds the length of a run. -/
theorem Run.length_le {I : σ → Prop} {size : σ → ℕ} (h : Run step s tr t) (hI : I s)
    (hstep : ∀ a i b, I a → step a i b → I b) (hsize : ∀ a i b, I a → step a i b → size b < size a) :
    tr.length ≤ size s := by
  induction h with
  | nil => exact Nat.zero_le _
  | @cons s s' t i tr hs _ ih =>
    have h1 := ih (hstep s i s' hI hs)
    have h2 := hsize s i s' hI hs
    rw [List.length_cons]
    omega

/-- **To the end.** With such a measure some run cannot go on. -/
theorem exists_stuck {I : σ → Prop} {size : σ → ℕ} (hI : I s) (hstep : ∀ a i b, I a → step a i b → I b)
    (hsize : ∀ a i b, I a → step a i b → size b < size a) : ∃ tr t, Run step s tr t ∧ ∀ i u, ¬ step t i u := by
  induction hn : size s using Nat.strong_induction_on generalizing s with
  | _ n ih =>
    by_cases hstuck : ∀ i u, ¬ step s i u
    · exact ⟨[], s, .nil s, hstuck⟩
    · push Not at hstuck
      obtain ⟨i, u, hs⟩ := hstuck
      have hlt := hsize s i u hI hs
      rw [hn] at hlt
      obtain ⟨tr, t, hr, ht⟩ := ih _ hlt (hstep s i u hI hs) rfl
      exact ⟨⟨s, i, u⟩ :: tr, t, .cons hs hr, ht⟩

end Lib
