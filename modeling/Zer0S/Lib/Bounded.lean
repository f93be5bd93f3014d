import Mathlib.Tactic

/-!
# Lists of bounded length

A list with its bound, for buffers that drop what does not fit. No list that is too long can be
built.
-/

namespace Lib

/-- A list of at most `n` elements. -/
@[ext]
structure Bounded (n : ℕ) (α : Type*) where
  toList : List α
  length_le : toList.length ≤ n
deriving DecidableEq

namespace Bounded

variable {n : ℕ} {α : Type*}

/-- No elements. -/
def empty : Bounded n α := ⟨[], Nat.zero_le n⟩

/-- There is no room for another element. -/
def Full (l : Bounded n α) : Prop := n ≤ l.toList.length

instance (l : Bounded n α) : Decidable l.Full := inferInstanceAs (Decidable (n ≤ l.toList.length))

/-- Add an element at the end, if there is room. -/
def push (a : α) (l : Bounded n α) : Bounded n α :=
  if h : l.Full then l
  else ⟨l.toList ++ [a], by
    unfold Full at h
    rw [List.length_append, List.length_singleton]
    omega⟩

/-- Take the last element away. -/
def pop (l : Bounded n α) : Bounded n α := ⟨l.toList.dropLast, by
  have := l.length_le
  rw [List.length_dropLast]
  omega⟩

@[simp] theorem toList_empty : (empty : Bounded n α).toList = [] := rfl

@[simp] theorem toList_pop (l : Bounded n α) : l.pop.toList = l.toList.dropLast := rfl

theorem push_full {l : Bounded n α} (h : l.Full) (a : α) : l.push a = l := dif_pos h

theorem toList_push {l : Bounded n α} (h : ¬ l.Full) (a : α) : (l.push a).toList = l.toList ++ [a] := by
  unfold push
  rw [dif_neg h]

end Bounded

end Lib
