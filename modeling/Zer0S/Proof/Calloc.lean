import Zer0S.Proof.FirstFit

/-!
# When `kcalloc` delivers what was asked for

`kcalloc` computes `num * size` in 64 bits, so for large factors it asks `kmalloc` for too little,
and near `2 ^ 64` its loop clears far more than the block it got.

`kcallocOk_iff`: a block that is returned holds `num * size` zeroes, with nothing else cleared,
exactly when the product is at most `2 ^ 64 - 8`, or no block is returned.
-/

namespace Zer0S

open Lib Tiling

variable {h : HeapState} {l : List Seg} {s s' s₁ : Memory} {num size ptr x : Word} {n : ℕ} {m : Mem}

/-- A block that `kcalloc` returns has a payload of at least `num * size` bytes, computed without
wrap-around; these are 0; and the loop changed no byte outside the payload. -/
def KcallocOk (num size : Word) (s : Memory) : Prop :=
  ∀ n ptr s', kcalloc n num size s = some (ptr, s') → ptr ≠ 0 →
    num.toNat * size.toNat ≤ (heapBlock s'.mem (ptr - sizeofHeapBlock)).size.toNat ∧
    (∀ i < num.toNat * size.toNat, s'.mem (ptr + BitVec.ofNat 64 i) = 0) ∧
    ∃ s₁, kmalloc n (num * size) s = some (ptr, s₁) ∧
      ∀ x, (heapBlock s₁.mem (ptr - sizeofHeapBlock)).size ≤ x - ptr → s'.mem x = s₁.mem x

/-- The product does not wrap around, also when it is rounded up; or no block is returned, since it
wraps around to 0 or no free block is large enough for what is left of it. -/
def ProductOk (num size : Word) (s : Memory) : Prop :=
  num.toNat * size.toNat ≤ 2 ^ 64 - 8 ∨ num * size = 0 ∨
    ¬ ∃ a, FreeBlock (heapSetup s) (roundUp (num * size)).toNat a

/-! ## The loop -/

/-- **What the loop clears.** -/
theorem zeroBytes_eq (ptr n : Word) (m : Mem) (x : Word) :
    zeroBytes ptr n m x = if (x - ptr).toNat < n.toNat then 0 else m x := by
  have hn := n.isLt
  have h := forLoop_ind (f := fun i m => m.set (ptr + BitVec.ofNat 64 i) 0)
    (fun i (k : Mem) => k x = if (x - ptr).toNat < i then 0 else m x) 0 n.toNat m (by simp) ?_
  · rw [Nat.zero_add] at h
    exact h
  · intro i k _ hi hk
    by_cases hx : x = ptr + BitVec.ofNat 64 i
    · have : (x - ptr).toNat = i := by bv_omega
      rw [hx, Mem.set_self, ← hx, if_pos (by omega)]
    · have : (x - ptr).toNat ≠ i := fun he => hx (by bv_omega)
      rw [Mem.set_ne hx, hk]
      congr 1
      rw [eq_iff_iff]
      omega

/-- What `kcalloc` does after `kmalloc`. -/
theorem kcalloc_cases (hk : kcalloc n num size s = some (ptr, s')) : ∃ s₁,
    kmalloc n (num * size) s = some (ptr, s₁) ∧
      (ptr ≠ 0 → s'.mem = zeroBytes ptr (num * size) s₁.mem) := by
  obtain ⟨⟨p, s₁⟩, h1, h2⟩ := Option.map_eq_some_iff.1 hk
  by_cases hp : p = 0
  · rw [if_neg (not_not.2 hp), Prod.mk.injEq] at h2
    obtain ⟨rfl, rfl⟩ := h2
    exact ⟨_, h1, fun h => absurd hp h⟩
  · rw [if_pos hp, Prod.mk.injEq] at h2
    obtain ⟨rfl, rfl⟩ := h2
    exact ⟨s₁, h1, fun _ => rfl⟩

/-- The header of the block is cleared when the loop goes nearly around the whole memory. -/
theorem size_zeroBytes (hn : 2 ^ 64 - 8 ≤ n) {v : Word} (hv : v.toNat = n) :
    (heapBlock (zeroBytes ptr v m) (ptr - sizeofHeapBlock)).size = 0 := by
  have h0 : Mem.read64 (fun _ => 0) (ptr - sizeofHeapBlock) = 0 := by
    simp [Mem.read64, Mem.load]
  rw [heapBlock, ← h0]
  apply Mem.read64_congr
  intro i hi
  rw [zeroBytes_eq, if_pos]
  rw [hv]
  unfold sizeofHeapBlock
  bv_omega

/-- The header of the block is kept when the loop stays inside the payload. -/
theorem heapBlock_zeroBytes {v : Word} (hv : v.toNat ≤ 2 ^ 64 - 24) :
    heapBlock (zeroBytes ptr v m) (ptr - sizeofHeapBlock) = heapBlock m (ptr - sizeofHeapBlock) := by
  apply heapBlock_congr
  intro i hi
  rw [zeroBytes_eq, if_neg]
  unfold sizeofHeapBlock
  bv_omega

/-! ## The block -/

/-- The block that a request was granted, in memory. -/
theorem kmalloc_block {w : Word} (hi : HeapAt s l) (hk : kmalloc n w s = some (ptr, s₁)) (h0 : ptr ≠ 0) :
    (roundUp w).toNat ≤ (heapBlock s₁.mem (ptr - sizeofHeapBlock)).size.toNat ∧
      (heapBlock s₁.mem (ptr - sizeofHeapBlock)).size.toNat ≤ 8 * 1024 * 1024 := by
  rcases kmalloc_cases hi hk with ⟨-, h, -⟩ | ⟨-, -, h, -⟩ | ⟨-, p, l', hff, rfl, -, hinv, -⟩
  · exact absurd h h0
  · exact absurd h h0
  · obtain ⟨k, hk, -, hiff⟩ := usedAt_firstFit (by omega) hff
    have hu := (hiff p k).2 (Or.inr ⟨rfl, rfl⟩)
    have hb := hinv.bounds hu
    rw [heapBase_eq, heapEnd_eq] at hb
    have hsize : (heapBlock s₁.mem (BitVec.ofNat 64 p)).size.toNat = k := by
      rw [hinv.header_eq hu]
      exact toNat_ofNat (show k < 2 ^ 64 by omega)
    rw [ptr_sub, hsize]
    omega

theorem toNat_mul_of_lt (h : num.toNat * size.toNat < 2 ^ 64) : (num * size).toNat = num.toNat * size.toNat := by
  rw [BitVec.toNat_mul, Nat.mod_eq_of_lt h]

/-- **A product that fits** is delivered. -/
theorem kcallocOk_of_le (hi : HeapAt s l) (hle : num.toNat * size.toNat ≤ 2 ^ 64 - 8) : KcallocOk num size s := by
  intro n ptr s' hk h0
  obtain ⟨s₁, hm, hz⟩ := kcalloc_cases hk
  have hw := toNat_mul_of_lt (show num.toNat * size.toNat < 2 ^ 64 by omega)
  have hr := le_roundUp (w := num * size) (by omega)
  obtain ⟨h1, h2⟩ := kmalloc_block hi hm h0
  -- the loop stays inside the payload, so the header is that of `kmalloc`
  rw [hz h0, heapBlock_zeroBytes (by omega)]
  refine ⟨by omega, ?_, s₁, hm, ?_⟩
  · intro i hlt
    rw [zeroBytes_eq, if_pos]
    bv_omega
  · intro x hx
    rw [BitVec.le_def] at hx
    rw [zeroBytes_eq, if_neg (by omega)]

/-- **A product that does not fit** is not delivered, whenever a block is returned. -/
theorem not_kcallocOk (hi : HeapAt s l) (hlt : 2 ^ 64 - 8 < num.toNat * size.toNat) (hw : num * size ≠ 0)
    (hf : ∃ a, FreeBlock (heapSetup s) (roundUp (num * size)).toNat a) : ¬ KcallocOk num size s := by
  intro hok
  obtain ⟨n, ⟨ptr, s₁⟩, hm⟩ := kmalloc_returns hi (num * size)
  have h0 : ptr ≠ 0 := (kmalloc_null_iff hi hw hm).not.2 (not_not.2 hf)
  obtain ⟨hle, -⟩ := hok n ptr { s₁ with mem := zeroBytes ptr (num * size) s₁.mem }
    (by rw [kcalloc, hm, Option.map_some, if_pos h0]) h0
  have h64 := (heapBlock (zeroBytes ptr (num * size) s₁.mem) (ptr - sizeofHeapBlock)).size.isLt
  -- the payload is less than 2 ^ 64 bytes, so the product did not wrap around and the header is gone
  have hp : num.toNat * size.toNat < 2 ^ 64 := lt_of_le_of_lt hle h64
  rw [size_zeroBytes (by omega) (toNat_mul_of_lt hp)] at hle
  have hz : (0 : Word).toNat = 0 := rfl
  omega

/-- **`kcalloc` delivers what was asked for** in every state of a run, exactly when the product does
not exceed `2 ^ 64 - 8` or no block is returned for what is left of it. -/
theorem kcallocOk_iff {tr : List (Transition HeapState HeapOp)} (hs : s.heapHead = 0)
    (hr : Run HeapStep ⟨s, []⟩ tr h) :
    KcallocOk num size h.s ↔ ProductOk num size h.s := by
  obtain ⟨⟨l, hi⟩, -⟩ := runInv_run hs hr
  constructor
  · intro hok
    by_contra hn
    rw [ProductOk, not_or, not_or, not_not] at hn
    exact not_kcallocOk hi.heap (by omega) hn.2.1 hn.2.2 hok
  · rintro (hle | hw | hf)
    · exact kcallocOk_of_le hi.heap hle
    -- otherwise no block is returned
    all_goals
      intro n ptr s' hk h0
      obtain ⟨s₁, hm, -⟩ := kcalloc_cases hk
    · rw [hw, kmalloc, if_pos rfl] at hm
      simp only [Option.some.injEq, Prod.mk.injEq] at hm
      exact absurd hm.1.symm h0
    · have hw : num * size ≠ 0 := by
        intro hw
        rw [hw, kmalloc, if_pos rfl] at hm
        simp only [Option.some.injEq, Prod.mk.injEq] at hm
        exact h0 hm.1.symm
      exact absurd ((kmalloc_null_iff hi.heap hw hm).2 hf) h0

/-- Five items of 100 bytes, after a request. -/
theorem kcallocOk_iff_five : ∃ tr h, Run HeapStep ⟨Memory.boot fun _ => 0, []⟩ tr h ∧
    tr.map Transition.label = [.kmalloc 64] ∧ KcallocOk 5 100 h.s := by
  obtain ⟨tr, h, hr, hl, -⟩ := exists_run_of_replay (heapExec_step (n := 3)) (P := fun _ _ => true)
    (s := ⟨Memory.boot fun _ => 0, []⟩) (l := [.kmalloc 64]) (by decide +kernel)
  exact ⟨tr, h, hr, hl, (kcallocOk_iff rfl hr).2 (Or.inl (by decide))⟩

/-- `2 ^ 61 + 1` items of 8 bytes: the product wraps around to 8, and a block of 8 bytes is returned. -/
theorem kcalloc_wraps : ∃ tr h, Run HeapStep ⟨Memory.boot fun _ => 0, []⟩ tr h ∧
    tr.map Transition.label = [.kmalloc 64] ∧ (0x2000000000000001 : Word) * 8 = 8 ∧
    (∃ n ptr s', kcalloc n 0x2000000000000001 8 h.s = some (ptr, s') ∧ ptr ≠ 0 ∧
      (heapBlock s'.mem (ptr - sizeofHeapBlock)).size = 8) ∧
    ¬ KcallocOk 0x2000000000000001 8 h.s := by
  obtain ⟨tr, h, hr, hl, hc⟩ := exists_run_of_replay (heapExec_step (n := 3))
    (P := fun _ h => decide ((kcalloc 3 0x2000000000000001 8 h.s).map (fun r =>
      (r.1, (heapBlock r.2.mem (r.1 - sizeofHeapBlock)).size)) = some (0x2000070, 8)))
    (s := ⟨Memory.boot fun _ => 0, []⟩) (l := [.kmalloc 64]) (by decide +kernel)
  obtain ⟨⟨ptr, s'⟩, hk, hx⟩ := Option.map_eq_some_iff.1 (of_decide_eq_true hc)
  simp only [Prod.mk.injEq] at hx
  obtain ⟨hp, hz⟩ := hx
  have h0 : ptr ≠ 0 := by
    rw [hp]
    decide
  refine ⟨tr, h, hr, hl, by decide, ⟨3, ptr, s', hk, h0, hz⟩, ?_⟩
  intro hok
  have hle := (hok 3 ptr s' hk h0).1
  rw [hz] at hle
  exact absurd hle (by decide)

end Zer0S
