import Zer0S.Lib.Loop

/-!
# Computations that are given a number of rounds

`Steady f`: more rounds do not change a result of `f`. Loops are steady, and so is what is composed of
steady computations; what a steady computation gives with some number of rounds is what it returns.
-/

namespace Lib

variable {σ ρ τ : Type*} {f : ℕ → Option ρ} {r : ρ} {n : ℕ}

/-- More rounds do not change a result. -/
def Steady (f : ℕ → Option ρ) : Prop := ∀ n m r, n ≤ m → f n = some r → f m = some r

theorem steady_const (o : Option ρ) : Steady fun _ => o := fun _ _ _ _ h => h

theorem steady_loop (body : σ → σ ⊕ ρ) (s : σ) : Steady fun n => loop body n s := by
  intro n m r hnm h
  exact loop_mono hnm h

theorem Steady.bind {g : ℕ → ρ → Option τ} (hf : Steady f) (hg : ∀ a, Steady fun n => g n a) :
    Steady fun n => (f n).bind (g n) := by
  intro n m r hnm h
  obtain ⟨a, ha, h⟩ := Option.bind_eq_some_iff.1 h
  have hm := hf n m a hnm ha
  show (f m).bind (g m) = some r
  rw [hm]
  exact hg a n m r hnm h

theorem Steady.map (hf : Steady f) (g : ρ → τ) : Steady fun n => (f n).map g := by
  intro n m r hnm h
  obtain ⟨a, ha, rfl⟩ := Option.map_eq_some_iff.1 h
  show (f m).map g = some (g a)
  rw [hf n m a hnm ha]
  rfl

theorem Steady.ite {c : Prop} [Decidable c] {g : ℕ → Option ρ} (hf : Steady f) (hg : Steady g) :
    Steady fun n => if c then f n else g n := by
  by_cases hc : c
  · simpa only [if_pos hc] using hf
  · simpa only [if_neg hc] using hg

/-- A result is what is returned. -/
theorem Steady.returns (hf : Steady f) (h : f n = some r) : Returns f r :=
  ⟨n, fun m hm => hf n m r hm h⟩

theorem Returns.bind {g : ℕ → ρ → Option τ} {t : τ} (hf : Returns f r) (hg : Returns (fun n => g n r) t) :
    Returns (fun n => (f n).bind (g n)) t := by
  obtain ⟨n, hn⟩ := hf
  obtain ⟨m, hm⟩ := hg
  refine ⟨max n m, ?_⟩
  intro k hk
  show (f k).bind (g k) = some t
  rw [hn k (le_of_max_le_left hk)]
  exact hm k (le_of_max_le_right hk)

theorem Returns.map (hf : Returns f r) (g : ρ → τ) : Returns (fun n => (f n).map g) (g r) := by
  obtain ⟨n, hn⟩ := hf
  refine ⟨n, ?_⟩
  intro k hk
  show (f k).map g = some (g r)
  rw [hn k hk]
  rfl

theorem returns_const (r : ρ) : Returns (fun _ => some r) r := ⟨0, fun _ _ => rfl⟩

end Lib
