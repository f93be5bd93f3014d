import Mathlib.Data.List.Basic

/-!
# Interleavings

`Interleaving l r w`: the elements of `w` are those of `l` and those of `r`, each list in its own order.

* `Interleaving.append`: interleavings one after the other.
* `Interleaving.snoc_left`, `Interleaving.snoc_right`: what is added behind one of the lists.
-/

namespace Lib

variable {α : Type*} {l l' r r' w w' : List α}

inductive Interleaving : List α → List α → List α → Prop
  | nil : Interleaving [] [] []
  | fst {l r w : List α} (a : α) : Interleaving l r w → Interleaving (a :: l) r (a :: w)
  | snd {l r w : List α} (a : α) : Interleaving l r w → Interleaving l (a :: r) (a :: w)

/-- One after the other. -/
theorem Interleaving.append (h : Interleaving l r w) (h' : Interleaving l' r' w') :
    Interleaving (l ++ l') (r ++ r') (w ++ w') := by
  induction h with
  | nil => exact h'
  | fst a _ ih => exact .fst a ih
  | snd a _ ih => exact .snd a ih

theorem interleaving_left (p : List α) : Interleaving p [] p := by
  induction p with
  | nil => exact .nil
  | cons a p ih => exact .fst a ih

theorem interleaving_right (p : List α) : Interleaving [] p p := by
  induction p with
  | nil => exact .nil
  | cons a p ih => exact .snd a ih

/-- More behind the first list. -/
theorem Interleaving.snoc_left (h : Interleaving l r w) (p : List α) : Interleaving (l ++ p) r (w ++ p) := by
  have := h.append (interleaving_left p)
  rwa [List.append_nil] at this

/-- More behind the second list. -/
theorem Interleaving.snoc_right (h : Interleaving l r w) (p : List α) : Interleaving l (r ++ p) (w ++ p) := by
  have := h.append (interleaving_right p)
  rwa [List.append_nil] at this

end Lib
