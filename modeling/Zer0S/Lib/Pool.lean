import Mathlib.Tactic

/-!
# A pool that hands out its least free member

`Pool U`: the members of `U` that are free, and those that are handed out, as a list. The
fields keep the two apart, so no state of the pool has a member in both or handed out
twice. A member may be in neither, when it was lost (`lose`).

`take` hands out the least free member, `give` takes a member back.
-/

namespace Lib

variable {α : Type*} [LinearOrder α]

/-- A pool over the members of `U`. -/
structure Pool (U : Finset α) where
  free : Finset α
  live : List α
  free_sub : free ⊆ U
  live_sub : ∀ a ∈ live, a ∈ U
  apart : ∀ a ∈ live, a ∉ free
  nodup : live.Nodup

namespace Pool

variable {U : Finset α} {P : Pool U} {a : α}

/-- All members are free. -/
def full (U : Finset α) : Pool U := ⟨U, [], subset_rfl, by simp, by simp, List.nodup_nil⟩

/-- Hand out the least free member. -/
def take (P : Pool U) : Option (α × Pool U) :=
  if h : P.free.Nonempty then
    some (P.free.min' h, {
      free := P.free.erase (P.free.min' h)
      live := P.free.min' h :: P.live
      free_sub := (Finset.erase_subset _ _).trans P.free_sub
      live_sub := List.forall_mem_cons.2 ⟨P.free_sub (P.free.min'_mem h), P.live_sub⟩
      apart := List.forall_mem_cons.2 ⟨Finset.notMem_erase _ _,
        fun a ha hf => P.apart a ha (Finset.mem_of_mem_erase hf)⟩
      nodup := List.nodup_cons.2 ⟨fun hm => P.apart _ hm (P.free.min'_mem h), P.nodup⟩ })
  else none

/-- Forget a member that was handed out. -/
def lose (P : Pool U) (a : α) : Pool U where
  free := P.free
  live := P.live.filter (· ≠ a)
  free_sub := P.free_sub
  live_sub b hb := P.live_sub b (List.mem_filter.1 hb).1
  apart b hb := P.apart b (List.mem_filter.1 hb).1
  nodup := P.nodup.filter _

/-- Take back a member that was handed out. -/
def give (P : Pool U) (a : α) (ha : a ∈ P.live) : Pool U where
  free := insert a P.free
  live := P.live.filter (· ≠ a)
  free_sub := Finset.insert_subset (P.live_sub a ha) P.free_sub
  live_sub b hb := P.live_sub b (List.mem_filter.1 hb).1
  apart b hb := by
    obtain ⟨hm, hne⟩ := List.mem_filter.1 hb
    intro hf
    exact (Finset.mem_insert.1 hf).elim (by simpa using hne) (P.apart b hm)
  nodup := P.nodup.filter _

/-- `a` is the least free member. -/
theorem take_eq_some (ha : a ∈ P.free) (hmin : ∀ b ∈ P.free, a ≤ b) :
    ∃ P', P.take = some (a, P') ∧ P'.free = P.free.erase a ∧ P'.live = a :: P.live := by
  have hne : P.free.Nonempty := ⟨a, ha⟩
  have hm : P.free.min' hne = a :=
    le_antisymm (Finset.min'_le _ _ ha) (hmin _ (P.free.min'_mem hne))
  subst hm
  exact ⟨_, dif_pos hne, rfl, rfl⟩

theorem take_eq_none (h : P.free = ∅) : P.take = none := by
  rw [take, dif_neg (by simp [h])]

end Pool

end Lib
