import Mathlib.Tactic

/-!
# Loops

`loop body n s` runs a `while` loop for at most `n` rounds: `body` either goes on
with a new state or ends the loop with a result. `none` means that `n` rounds were
not enough, so a loop returns when some number of rounds gives `some`.

* `loop_det`: a loop has one result.
* `Returns f r`: `f` gives `r` when it gets enough rounds.
* `loop_total`: a loop whose rounds keep an invariant and lower a measure returns.
* `loop_never`: a loop whose rounds all go on does not return.

`forLoop f lo n s` is the counted loop `f lo`, `f (lo + 1)`, ..., `n` rounds.
-/

namespace Lib

variable {σ ρ : Type*}

/-- A `while` loop, cut off after `n` rounds. -/
def loop (body : σ → σ ⊕ ρ) : ℕ → σ → Option ρ
  | 0, _ => none
  | n + 1, s =>
    match body s with
    | .inl s' => loop body n s'
    | .inr r => some r

variable {body : σ → σ ⊕ ρ} {s s' : σ} {r : ρ} {n m : ℕ}

theorem loop_next (h : body s = .inl s') : loop body (n + 1) s = loop body n s' := by
  simp [loop, h]

theorem loop_done (h : body s = .inr r) : loop body (n + 1) s = some r := by
  simp [loop, h]

/-- More rounds do not change a result. -/
theorem loop_mono (hnm : n ≤ m) (h : loop body n s = some r) : loop body m s = some r := by
  induction n generalizing m s with
  | zero => simp [loop] at h
  | succ n ih =>
    obtain ⟨m, rfl⟩ : ∃ m', m = m' + 1 := ⟨m - 1, by omega⟩
    cases hb : body s with
    | inl s' =>
      rw [loop_next hb] at h ⊢
      exact ih (by omega) h
    | inr r' => rwa [loop_done hb] at h ⊢

/-- A loop has one result. -/
theorem loop_det {r' : ρ} (h : loop body n s = some r) (h' : loop body m s = some r') : r = r' := by
  have h1 := loop_mono (le_max_left n m) h
  have h2 := loop_mono (le_max_right n m) h'
  exact Option.some.inj (h1.symm.trans h2)

/-- The computation `f` has the result `r`, if it gets enough rounds. -/
def Returns (f : ℕ → Option ρ) (r : ρ) : Prop := ∃ n, ∀ m, n ≤ m → f m = some r

theorem Returns.det {f : ℕ → Option ρ} {r' : ρ} (h : Returns f r) (h' : Returns f r') : r = r' := by
  obtain ⟨n, hn⟩ := h
  obtain ⟨n', hn'⟩ := h'
  have h1 := hn (max n n') (le_max_left ..)
  have h2 := hn' (max n n') (le_max_right ..)
  exact Option.some.inj (h1.symm.trans h2)

theorem loop_returns (h : loop body n s = some r) : Returns (fun n => loop body n s) r :=
  ⟨n, fun _ hm => loop_mono hm h⟩

/-- **A loop returns** when every round that goes on keeps the invariant and lowers the measure; what
holds of the results that a round ends with holds of its result. -/
theorem loop_total {I : σ → Prop} {Q : ρ → Prop} (μ : σ → ℕ)
    (hgo : ∀ s s', I s → body s = .inl s' → I s' ∧ μ s' < μ s) (hend : ∀ s r, I s → body s = .inr r → Q r)
    (s : σ) (hs : I s) : ∃ n r, loop body n s = some r ∧ Q r := by
  induction hm : μ s using Nat.strong_induction_on generalizing s with
  | _ m ih =>
    cases hb : body s with
    | inr r => exact ⟨1, r, loop_done hb, hend s r hs hb⟩
    | inl s' =>
      obtain ⟨hs', hlt⟩ := hgo s s' hs hb
      obtain ⟨n, r, hn, hr⟩ := ih (μ s') (hm ▸ hlt) s' hs' rfl
      exact ⟨n + 1, r, (loop_next hb).trans hn, hr⟩

/-- **A loop that never returns**: every round goes on and keeps the invariant. -/
theorem loop_never {I : σ → Prop} (hgo : ∀ s, I s → ∃ s', body s = .inl s' ∧ I s') (hs : I s) :
    loop body n s = none := by
  induction n generalizing s with
  | zero => rfl
  | succ n ih =>
    obtain ⟨s', hb, hs'⟩ := hgo s hs
    rw [loop_next hb]
    exact ih hs'

/-- Counted loop: `f lo`, `f (lo + 1)`, ..., `n` rounds in all. -/
def forLoop (f : ℕ → σ → σ) : ℕ → ℕ → σ → σ
  | _, 0, s => s
  | lo, n + 1, s => forLoop f (lo + 1) n (f lo s)

/-- The last round of a counted loop. -/
theorem forLoop_snoc (f : ℕ → σ → σ) (lo : ℕ) : ∀ n s, forLoop f lo (n + 1) s = f (lo + n) (forLoop f lo n s) := by
  intro n
  induction n generalizing lo with
  | zero => intro s; rfl
  | succ n ih =>
    intro s
    have hlast := ih (lo + 1) (f lo s)
    rwa [show lo + 1 + n = lo + (n + 1) by omega] at hlast

/-- A counted loop goes through the list of its counters. -/
theorem forLoop_eq_foldl (f : ℕ → σ → σ) : ∀ n s, forLoop f 0 n s = (List.range n).foldl (fun s i => f i s) s := by
  intro n
  induction n with
  | zero => intro s; rfl
  | succ n ih =>
    intro s
    rw [forLoop_snoc, Nat.zero_add, ih, List.range_succ, List.foldl_append]
    rfl

/-- **Invariant of a counted loop**, indexed by the loop counter. -/
theorem forLoop_ind {f : ℕ → σ → σ} (P : ℕ → σ → Prop) (lo : ℕ) :
    ∀ n s, P lo s → (∀ i s, lo ≤ i → i < lo + n → P i s → P (i + 1) (f i s)) →
      P (lo + n) (forLoop f lo n s) := by
  intro n
  induction n generalizing lo with
  | zero => intro s h0 _; exact h0
  | succ n ih =>
    intro s h0 hs
    have h1 := hs lo s le_rfl (by omega) h0
    have h2 := ih (lo + 1) (f lo s) h1 fun i s hi hn => hs i s (by omega) (by omega)
    rwa [show lo + 1 + n = lo + (n + 1) by omega] at h2

end Lib
