import Mathlib.Tactic

/-!
# The last of a sequence of writes

When each element of a sequence sets what is observed of a state or leaves it alone, then only the last one
that sets it matters.

* `lastWith p l`: the last element of `l` with `p`.
* `foldl_lastWith`: what is observed after a sequence.
* `foldl_unchanged`: what no element changes.
-/

namespace Lib

variable {σ ι β : Type*} {p : ι → Bool} {l : List ι} {e : ι}

/-- The last element with `p`. -/
def lastWith (p : ι → Bool) (l : List ι) : Option ι := (l.filter p).getLast?

theorem lastWith_snoc (p : ι → Bool) (l : List ι) (e : ι) :
    lastWith p (l ++ [e]) = if p e then some e else lastWith p l := by
  unfold lastWith
  rw [List.filter_append]
  by_cases he : p e
  · rw [if_pos he, List.filter_cons_of_pos he, List.filter_nil, List.getLast?_concat]
  · rw [if_neg he, List.filter_cons_of_neg he, List.filter_nil, List.append_nil]

theorem lastWith_eq_none : lastWith p l = none ↔ ∀ e ∈ l, ¬ p e := by
  unfold lastWith
  rw [List.getLast?_eq_none_iff, List.filter_eq_nil_iff]

/-- **Only the last write matters.** `J` is what the writes keep and need. -/
theorem foldl_lastWith (p : ι → Bool) (f : σ → ι → σ) (obs : σ → β) (value : ι → β) (J : σ → Prop) {s : σ}
    (hobs : ∀ s, J s → ∀ e ∈ l, obs (f s e) = if p e then value e else obs s) (hJ : ∀ s, J s → ∀ e ∈ l, J (f s e))
    (hs : J s) : J (l.foldl f s) ∧ obs (l.foldl f s) = ((lastWith p l).map value).getD (obs s) := by
  induction l using List.reverseRecOn with
  | nil => exact ⟨hs, rfl⟩
  | append_singleton l e ih =>
    obtain ⟨hj, ho⟩ := ih (fun s h e he => hobs s h e (List.mem_append_left _ he))
      fun s h e he => hJ s h e (List.mem_append_left _ he)
    have he : e ∈ l ++ [e] := List.mem_append_right _ List.mem_cons_self
    rw [List.foldl_append, List.foldl_cons, List.foldl_nil]
    refine ⟨hJ _ hj e he, ?_⟩
    rw [hobs _ hj e he, lastWith_snoc, ho]
    by_cases hp : p e
    · rw [if_pos hp, if_pos hp]
      rfl
    · rw [if_neg hp, if_neg hp]

/-- What no element changes. -/
theorem foldl_unchanged (f : σ → ι → σ) (obs : σ → β) (hobs : ∀ s, ∀ e ∈ l, obs (f s e) = obs s) (s : σ) :
    obs (l.foldl f s) = obs s := by
  induction l generalizing s with
  | nil => rfl
  | cons e l ih =>
    rw [List.foldl_cons, ih (fun s e he => hobs s e (List.mem_cons_of_mem _ he)), hobs s e List.mem_cons_self]

end Lib
