import Zer0S.Lib.Tiling
import Zer0S.Spec.Memory

/-!
# The heap in memory is a tiling

`Tiles m e a l`: the memory holds the headers of the blocks `l`, placed one after the
other from address `a`, and the region ends at `e`. The header of a block is a function
of its address, its size and its flag (`header`): its `next` is the end of the block, or
NULL when the block is the last one.

* `Tiles.det`: the headers in memory determine the list.
* `kmallocLoop`: the search loop of `kmalloc` is `firstFit` of the tiling.
* `tiles_takeBlock`, `tiles_freeBlock`: what `kmalloc` and `kfree` write keeps the tiling,
  and turns its list into that of `firstFit` and `release`.
-/

namespace Zer0S

open Lib Tiling

variable {m : Mem} {a b v x : Word}

/-! ## Headers in memory -/

theorem heapBlock_congr {m' : Mem} (h : ∀ i < 24, m (a + BitVec.ofNat 64 i) = m' (a + BitVec.ofNat 64 i)) :
    heapBlock m a = heapBlock m' a := by
  have h8 : ∀ i < 4, m (a + 8 + BitVec.ofNat 64 i) = m' (a + 8 + BitVec.ofNat 64 i) := by
    intro i hi
    have := h (8 + i) (by omega)
    rwa [show a + BitVec.ofNat 64 (8 + i) = a + 8 + BitVec.ofNat 64 i by bv_omega] at this
  have h16 : ∀ i < 8, m (a + 16 + BitVec.ofNat 64 i) = m' (a + 16 + BitVec.ofNat 64 i) := by
    intro i hi
    have := h (16 + i) (by omega)
    rwa [show a + BitVec.ofNat 64 (16 + i) = a + 16 + BitVec.ofNat 64 i by bv_omega] at this
  rw [heapBlock, heapBlock, Mem.read64_congr fun i hi => h i (by omega), Mem.read32_congr h8,
    Mem.read64_congr h16]

theorem heapBlock_setSize (m : Mem) (a v : Word) :
    heapBlock (setSize a v m) a = { heapBlock m a with size := v } := by
  have h1 : Sep a 8 (a + 8) 4 := by constructor <;> bv_omega
  have h2 : Sep a 8 (a + 16) 8 := by constructor <;> bv_omega
  simp only [heapBlock, setSize, Mem.read64_write64, Mem.read32_write64_sep h1, Mem.read64_write64_sep h2]

theorem heapBlock_setUsed (m : Mem) (a : Word) (v : BitVec 32) :
    heapBlock (setUsed a v m) a = { heapBlock m a with used := v } := by
  have h1 : Sep (a + 8) 4 a 8 := by constructor <;> bv_omega
  have h2 : Sep (a + 8) 4 (a + 16) 8 := by constructor <;> bv_omega
  simp only [heapBlock, setUsed, Mem.read32_write32, Mem.read64_write32_sep h1, Mem.read64_write32_sep h2]

theorem heapBlock_setNext (m : Mem) (a v : Word) :
    heapBlock (setNext a v m) a = { heapBlock m a with next := v } := by
  have h1 : Sep (a + 16) 8 a 8 := by constructor <;> bv_omega
  have h2 : Sep (a + 16) 8 (a + 8) 4 := by constructor <;> bv_omega
  simp only [heapBlock, setNext, Mem.read64_write64, Mem.read64_write64_sep h1, Mem.read32_write64_sep h2]

/-! Header writes change the 24 bytes of the header only. -/

theorem setSize_outside (h : 24 ≤ (x - a).toNat) : setSize a v m x = m x :=
  Mem.write64_outside (by omega) m v

theorem setUsed_outside {v : BitVec 32} (h : 24 ≤ (x - a).toNat) : setUsed a v m x = m x :=
  Mem.write32_outside (by bv_omega) m v

theorem setNext_outside (h : 24 ≤ (x - a).toNat) : setNext a v m x = m x :=
  Mem.write64_outside (by bv_omega) m v

theorem heapBlock_of_outside {m' : Mem} (h : Sep a 24 b 24)
    (hm : ∀ x, 24 ≤ (x - a).toNat → m' x = m x) : heapBlock m' b = heapBlock m b :=
  heapBlock_congr fun _ hi => hm _ (h.outside (by norm_num) hi)

theorem heapBlock_setSize_sep (h : Sep a 24 b 24) : heapBlock (setSize a v m) b = heapBlock m b :=
  heapBlock_of_outside h fun _ hx => setSize_outside hx

theorem heapBlock_setUsed_sep {v : BitVec 32} (h : Sep a 24 b 24) :
    heapBlock (setUsed a v m) b = heapBlock m b :=
  heapBlock_of_outside h fun _ hx => setUsed_outside hx

theorem heapBlock_setNext_sep (h : Sep a 24 b 24) : heapBlock (setNext a v m) b = heapBlock m b :=
  heapBlock_of_outside h fun _ hx => setNext_outside hx

/-! ## Taking and freeing a block in memory -/

/-- The block cut off by a split. -/
def restBlock (size current : Word) : Word := current + sizeofHeapBlock + size

/-- **A split** leaves the block with the size asked for and puts the rest behind it. -/
theorem takeBlock_split {size p : Word} (h : size + sizeofHeapBlock + heapMinBlock ≤ (heapBlock m p).size)
    (hs : Sep p 24 (restBlock size p) 24) :
    heapBlock (takeBlock size p m) p = ⟨size, 1, restBlock size p⟩ ∧
      heapBlock (takeBlock size p m) (restBlock size p) =
        ⟨(heapBlock m p).size - size - sizeofHeapBlock, 0, (heapBlock m p).next⟩ := by
  -- each write to one of the two headers keeps the other
  have hs' := hs.symm
  unfold restBlock at hs hs' ⊢
  simp only [takeBlock, if_pos h]
  constructor
  · simp [heapBlock_setUsed, heapBlock_setNext, heapBlock_setSize]
  · simp [heapBlock_setUsed, heapBlock_setNext, heapBlock_setSize, heapBlock_setUsed_sep hs,
      heapBlock_setNext_sep hs, heapBlock_setSize_sep hs, heapBlock_setSize_sep hs',
      heapBlock_setUsed_sep hs']

theorem takeBlock_whole {size p : Word} (h : ¬ size + sizeofHeapBlock + heapMinBlock ≤ (heapBlock m p).size) :
    heapBlock (takeBlock size p m) p = { heapBlock m p with used := 1 } := by
  simp only [takeBlock, if_neg h, heapBlock_setUsed]

/-- `kmalloc` writes the header of the block it takes and, in a split, that of the rest. -/
theorem takeBlock_outside {size p : Word} (h1 : 24 ≤ (x - p).toNat)
    (h2 : size + sizeofHeapBlock + heapMinBlock ≤ (heapBlock m p).size →
      24 ≤ (x - restBlock size p).toNat) : takeBlock size p m x = m x := by
  unfold restBlock at h2
  by_cases h : size + sizeofHeapBlock + heapMinBlock ≤ (heapBlock m p).size
  · simp only [takeBlock, if_pos h]
    rw [setUsed_outside h1, setNext_outside h1, setSize_outside h1, setNext_outside (h2 h),
      setUsed_outside (h2 h), setSize_outside (h2 h)]
  · simp only [takeBlock, if_neg h]
    rw [setUsed_outside h1]

/-- **A free without merge** clears the flag. -/
theorem freeBlock_alone {p : Word}
    (h : (heapBlock m p).next = 0 ∨ Sep p 24 (heapBlock m p).next 24 ∧
      (heapBlock m (heapBlock m p).next).used ≠ 0) :
    heapBlock (freeBlock p m) p = { heapBlock m p with used := 0 } := by
  have hn : (heapBlock (setUsed p 0 m) p).next = (heapBlock m p).next := by simp [heapBlock_setUsed]
  have hc : ¬ ((heapBlock m p).next ≠ 0 ∧ (heapBlock (setUsed p 0 m) (heapBlock m p).next).used = 0) := by
    rintro ⟨h0, h1⟩
    rcases h with h | ⟨hs, h⟩
    · exact h0 h
    · rw [heapBlock_setUsed_sep hs] at h1
      exact h h1
  simp only [freeBlock, if_neg hc, heapBlock_setUsed]

/-- **A free with merge** takes over the next block's bytes and its link. -/
theorem freeBlock_merge {p : Word} (h0 : (heapBlock m p).next ≠ 0)
    (hs : Sep p 24 (heapBlock m p).next 24) (hu : (heapBlock m (heapBlock m p).next).used = 0) :
    heapBlock (freeBlock p m) p =
      ⟨(heapBlock m p).size + (sizeofHeapBlock + (heapBlock m (heapBlock m p).next).size), 0,
        (heapBlock m (heapBlock m p).next).next⟩ := by
  have hn : (heapBlock (setUsed p 0 m) p).next = (heapBlock m p).next := by simp [heapBlock_setUsed]
  have hc : (heapBlock m p).next ≠ 0 ∧ (heapBlock (setUsed p 0 m) (heapBlock m p).next).used = 0 := by
    rw [heapBlock_setUsed_sep hs]; exact ⟨h0, hu⟩
  simp only [freeBlock, hn, if_pos hc]
  simp [heapBlock_setNext, heapBlock_setSize, heapBlock_setUsed, heapBlock_setSize_sep hs,
    heapBlock_setUsed_sep hs]

/-- `kfree` writes the header of the block it frees only. -/
theorem freeBlock_outside {p : Word} (h : 24 ≤ (x - p).toNat) : freeBlock p m x = m x := by
  simp only [freeBlock]
  split_ifs
  · rw [setNext_outside h, setSize_outside h, setUsed_outside h]
  · rw [setUsed_outside h]

/-! ## Tilings in memory -/

/-- The `next` of a block that ends at `n`, in a heap that ends at `e`. -/
def nextOf (e n : ℕ) : Word := if n = e then 0 else BitVec.ofNat 64 n

/-- The header of the block `s` at address `q`, in a heap that ends at `e`. -/
def header (e q : ℕ) (s : Seg) : HeapBlock :=
  ⟨BitVec.ofNat 64 s.size, if s.used then 1 else 0, nextOf e (q + (24 + s.size))⟩

/-- The memory holds the headers of the blocks `l`, placed from address `a`. -/
def Tiles (m : Mem) (e a : ℕ) (l : List Seg) : Prop :=
  ∀ y ∈ place 24 a l, heapBlock m (BitVec.ofNat 64 y.1) = header e y.1 y.2

variable {e p q r : ℕ} {l pre post : List Seg} {s : Seg}

theorem tiles_cons {c : ℕ} : Tiles m e c (s :: l) ↔
    heapBlock m (BitVec.ofNat 64 c) = header e c s ∧ Tiles m e (c + (24 + s.size)) l := by
  simp only [Tiles, place_cons, List.forall_mem_cons]

theorem tiles_append {c : ℕ} {l' : List Seg} : Tiles m e c (l ++ l') ↔
    Tiles m e c l ∧ Tiles m e (c + span 24 l) l' := by
  simp only [Tiles, mem_place_append]
  constructor
  · intro h; exact ⟨fun y hy => h y (Or.inl hy), fun y hy => h y (Or.inr hy)⟩
  · rintro ⟨h1, h2⟩ y (hy | hy)
    · exact h1 y hy
    · exact h2 y hy

/-- **The headers determine the tiling.** -/
theorem Tiles.det : ∀ {l l' : List Seg} {c : ℕ}, Tiles m e c l → Tiles m e c l' → c + span 24 l = e →
    c + span 24 l' = e → e < 2 ^ 64 → l = l' := by
  intro l
  induction l with
  | nil =>
    intro l' c _ _ h h' _
    cases l' with
    | nil => rfl
    | cons t l' =>
      simp only [span_nil, span_cons] at h h'
      omega
  | cons s l ih =>
    intro l' c hT hT' h h' hlt
    cases l' with
    | nil =>
      simp only [span_nil, span_cons] at h h'
      omega
    | cons t l' =>
      obtain ⟨hs, hT⟩ := tiles_cons.1 hT
      obtain ⟨ht, hT'⟩ := tiles_cons.1 hT'
      rw [span_cons] at h h'
      -- one header, so one size and one flag
      have heq := hs.symm.trans ht
      have hsize : s.size = t.size := by
        have := congrArg (fun b => b.size.toNat) heq
        simp only [header, BitVec.toNat_ofNat] at this
        rwa [Nat.mod_eq_of_lt (by omega), Nat.mod_eq_of_lt (by omega)] at this
      have hused : s.used = t.used := by
        have := congrArg HeapBlock.used heq
        simp only [header] at this
        cases hu : s.used <;> cases hv : t.used <;> simp [hu, hv] at this ⊢
      have hst : s = t := by
        cases s; cases t
        simp only at hsize hused
        rw [hsize, hused]
      subst hst
      rw [ih hT hT' (by omega) (by omega) hlt]

/-- A tiling stays when the bytes of its headers do. -/
theorem Tiles.congr {m' : Mem} {c : ℕ} (h : Tiles m e c l)
    (hm : ∀ y ∈ place 24 c l, ∀ i < 24, m' (BitVec.ofNat 64 (y.1 + i)) = m (BitVec.ofNat 64 (y.1 + i))) :
    Tiles m' e c l := by
  intro y hy
  rw [← h y hy]
  apply heapBlock_congr
  intro i hi
  rw [← BitVec.ofNat_add]
  exact hm y hy i hi

/-- A tiling stays when the memory changes outside its region only. -/
theorem Tiles.congr_region {m' : Mem} {c : ℕ} (h : Tiles m e c l)
    (hm : ∀ z, c ≤ z → z < c + span 24 l → m' (BitVec.ofNat 64 z) = m (BitVec.ofNat 64 z)) :
    Tiles m' e c l := by
  apply h.congr
  intro y hy i hi
  have := place_bounds hy
  exact hm _ (by omega) (by omega)

theorem toNat_ofNat {n : ℕ} (h : n < 2 ^ 64) : (BitVec.ofNat 64 n).toNat = n := by
  rw [BitVec.toNat_ofNat, Nat.mod_eq_of_lt h]

theorem ofNat_ne_zero {n : ℕ} (h0 : 0 < n) (h : n < 2 ^ 64) : BitVec.ofNat 64 n ≠ 0 := by
  intro h'
  have := congrArg BitVec.toNat h'
  rw [toNat_ofNat h] at this
  simp at this
  omega

/-- The distance of two addresses. -/
theorem toNat_sub_ofNat {n k : ℕ} (h : k ≤ n) (hn : n < 2 ^ 64) :
    (BitVec.ofNat 64 n - BitVec.ofNat 64 k).toNat = n - k := by
  rw [BitVec.toNat_sub, toNat_ofNat hn, toNat_ofNat (by omega)]
  omega

/-- An address below `k` is far from it, going up with wrap-around. -/
theorem le_toNat_sub_ofNat {n k : ℕ} (h : n < k) (hk : k + 24 < 2 ^ 64) :
    24 ≤ (BitVec.ofNat 64 n - BitVec.ofNat 64 k).toNat := by
  rw [BitVec.toNat_sub, toNat_ofNat (by omega), toNat_ofNat (by omega)]
  omega

/-- A request has one result. -/
theorem kmalloc_det {w : Word} {n k : ℕ} {s : Memory} {x y : Word × Memory}
    (hx : kmalloc n w s = some x) (hy : kmalloc k w s = some y) : x = y := by
  unfold kmalloc at hx hy
  split_ifs at hx hy
  · exact Option.some.inj (hx.symm.trans hy)
  · simp only at hx hy
    cases h₁ : loop (kmallocBody (heapSetup s).mem (roundUp w)) n (heapSetup s).heapHead with
    | none => rw [h₁] at hx; cases hx
    | some r₁ =>
      cases h₂ : loop (kmallocBody (heapSetup s).mem (roundUp w)) k (heapSetup s).heapHead with
      | none => rw [h₂] at hy; cases hy
      | some r₂ =>
        rw [h₁, loop_det h₁ h₂] at hx
        rw [h₂] at hy
        exact Option.some.inj (hx.symm.trans hy)

/-- **The search loop of `kmalloc` is `firstFit`.** -/
theorem kmallocLoop {w : Word} : ∀ {l : List Seg} {c : ℕ}, l ≠ [] → Tiles m e c l → c + span 24 l = e →
    0 < c → e < 2 ^ 64 → loop (kmallocBody m w) (l.length + 1) (BitVec.ofNat 64 c) =
      some ((firstFit 24 32 w.toNat c l).map fun y => BitVec.ofNat 64 y.1) := by
  intro l
  induction l with
  | nil => intro c h; exact absurd rfl h
  | cons s l ih =>
    intro c _ hT he hc hlt
    obtain ⟨hs, hT⟩ := tiles_cons.1 hT
    rw [span_cons] at he
    have hc0 := ofNat_ne_zero hc (n := c) (by omega)
    have hsz : (heapBlock m (BitVec.ofNat 64 c)).size.toNat = s.size := by
      rw [hs]; exact toNat_ofNat (by omega)
    have hu : (heapBlock m (BitVec.ofNat 64 c)).used = 0 ↔ s.used = false := by
      rw [hs]; cases h : s.used <;> simp [header, h]
    -- the loop and `firstFit` make the same test
    unfold firstFit
    by_cases hfit : s.used = false ∧ w.toNat ≤ s.size
    · rw [if_pos hfit]
      apply loop_done
      have : w ≤ (heapBlock m (BitVec.ofNat 64 c)).size := by rw [BitVec.le_def, hsz]; exact hfit.2
      simp only [kmallocBody, if_neg hc0, if_pos (And.intro (hu.2 hfit.1) this), Option.map_some]
    · rw [if_neg hfit]
      have hno : ¬ ((heapBlock m (BitVec.ofNat 64 c)).used = 0 ∧
          w ≤ (heapBlock m (BitVec.ofNat 64 c)).size) := by
        rw [BitVec.le_def, hsz, hu]; exact hfit
      have hb : kmallocBody m w (BitVec.ofNat 64 c) = .inl (nextOf e (c + (24 + s.size))) := by
        rw [kmallocBody, if_neg hc0, if_neg hno, hs]; rfl
      rw [List.length_cons, loop_next hb]
      rcases l with _ | ⟨t, l⟩
      · -- the last block links to NULL, where the loop ends
        have : nextOf e (c + (24 + s.size)) = 0 := if_pos (by simpa using he)
        rw [this]
        rfl
      · have hn : nextOf e (c + (24 + s.size)) = BitVec.ofNat 64 (c + (24 + s.size)) := by
          apply if_neg
          rw [span_cons] at he
          omega
        rw [hn, ih (by simp) hT (by omega) (by omega) hlt]
        simp [Option.map_map, Function.comp_def]

/-! ## What the two operations do to a tiling -/

section Ops

variable {c : ℕ} {w : Word}

/-- The block in the middle of a tiling, and the bounds of its region. -/
theorem tiles_mid (hT : Tiles m e c (pre ++ s :: post)) :
    heapBlock m (BitVec.ofNat 64 (c + span 24 pre)) = header e (c + span 24 pre) s :=
  (tiles_cons.1 (tiles_append.1 hT).2).1

theorem split_cond (hlt : e < 2 ^ 63) (hs : s.size < e) (hr : w.toNat ≤ s.size) :
    w + sizeofHeapBlock + heapMinBlock ≤ (header e p s).size ↔ w.toNat + 24 + 32 ≤ s.size := by
  simp only [header, sizeofHeapBlock, heapMinBlock, BitVec.le_def, toNat_ofNat (show s.size < 2 ^ 64 by omega)]
  rw [BitVec.toNat_add, BitVec.toNat_add]
  simp only [show (24 : Word).toNat = 24 from rfl, show (32 : Word).toNat = 32 from rfl]
  omega

theorem restBlock_ofNat :
    restBlock w (BitVec.ofNat 64 p) = BitVec.ofNat 64 (p + (24 + w.toNat)) := by
  have hw : BitVec.ofNat 64 w.toNat = w := by simp
  rw [restBlock, BitVec.ofNat_add, BitVec.ofNat_add, hw, BitVec.add_assoc]
  rfl

/-- `kmalloc` writes inside the block it takes. -/
theorem takeBlock_frame (hlt : e < 2 ^ 63) (hr : w.toNat ≤ s.size) (hp : p + (24 + s.size) ≤ e)
    (hh : heapBlock m (BitVec.ofNat 64 p) = header e p s) {z : ℕ} (hz : z < 2 ^ 64)
    (hzp : z < p ∨ p + (24 + s.size) ≤ z) :
    takeBlock w (BitVec.ofNat 64 p) m (BitVec.ofNat 64 z) = m (BitVec.ofNat 64 z) := by
  apply takeBlock_outside
  · rcases hzp with h | h
    · exact le_toNat_sub_ofNat h (by omega)
    · rw [toNat_sub_ofNat (by omega) hz]; omega
  · rw [hh, split_cond hlt (by omega) hr, restBlock_ofNat]
    intro hs
    rcases hzp with h | h
    · exact le_toNat_sub_ofNat (by omega) (by omega)
    · rw [toNat_sub_ofNat (by omega) hz]; omega

/-- **Taking a block** in memory is the split of the tiling. -/
theorem tiles_takeBlock (hlt : e < 2 ^ 63) (hT : Tiles m e c (pre ++ s :: post))
    (he : c + span 24 (pre ++ s :: post) = e) (hr : w.toNat ≤ s.size) :
    Tiles (takeBlock w (BitVec.ofNat 64 (c + span 24 pre)) m) e c
      (pre ++ split 24 32 w.toNat s ++ post) := by
  have hh := tiles_mid hT
  obtain ⟨h1, h2⟩ := tiles_append.1 hT
  obtain ⟨-, h2⟩ := tiles_cons.1 h2
  rw [span_append, span_cons] at he
  set p := c + span 24 pre with hp
  have hpe : p + (24 + s.size) ≤ e := by omega
  have hfr := fun z hz hzp => takeBlock_frame (z := z) hlt hr hpe hh hz hzp
  rw [List.append_assoc, tiles_append, tiles_append, span_split hr]
  refine ⟨h1.congr_region fun z _ _ => hfr z (by omega) (by omega), ?_,
    h2.congr_region fun z _ _ => hfr z (by omega) (by omega)⟩
  rw [← hp]
  by_cases hs : w.toNat + 24 + 32 ≤ s.size
  · -- the block is cut: its header and the header of the rest are new
    have hcond := (split_cond (p := p) hlt (by omega) hr).2 hs
    have hsep : Sep (BitVec.ofNat 64 p) 24 (restBlock w (BitVec.ofNat 64 p)) 24 := by
      rw [restBlock_ofNat]
      exact sep_ofNat (by omega) (by omega) (by omega) (by omega)
    rw [← hh] at hcond
    obtain ⟨hb1, hb2⟩ := takeBlock_split hcond hsep
    rw [restBlock_ofNat] at hb1 hb2
    rw [split, if_pos hs, tiles_cons, tiles_cons]
    refine ⟨?_, ?_, by simp [Tiles]⟩
    · rw [hb1]
      have hne : p + (24 + w.toNat) ≠ e := by omega
      simp [header, nextOf, hne]
    · rw [hb2, hh]
      have hsize : BitVec.ofNat 64 s.size - w - sizeofHeapBlock =
          BitVec.ofNat 64 (s.size - w.toNat - 24) := by
        unfold sizeofHeapBlock
        bv_omega
      have hend : p + (24 + w.toNat) + (24 + (s.size - w.toNat - 24)) = p + (24 + s.size) := by omega
      simp only [header, hsize, hend]
      rfl
  · -- the block is taken as a whole: only its flag is new
    have hcond := mt (split_cond (p := p) hlt (by omega) hr).1 hs
    rw [← hh] at hcond
    rw [split, if_neg hs, tiles_cons]
    refine ⟨?_, by simp [Tiles]⟩
    rw [takeBlock_whole hcond, hh]
    rfl

/-- `kfree` writes the header of the block it frees. -/
theorem freeBlock_frame {z : ℕ} (hp : p + 24 < 2 ^ 64) (hz : z < 2 ^ 64) (hzp : z < p ∨ p + 24 ≤ z) :
    freeBlock (BitVec.ofNat 64 p) m (BitVec.ofNat 64 z) = m (BitVec.ofNat 64 z) := by
  apply freeBlock_outside
  rcases hzp with h | h
  · exact le_toNat_sub_ofNat h hp
  · rw [toNat_sub_ofNat (by omega) hz]; omega

/-- **Freeing a block** in memory is the merge of the tiling. -/
theorem tiles_freeBlock (hlt : e < 2 ^ 63) (hT : Tiles m e c (pre ++ s :: post))
    (he : c + span 24 (pre ++ s :: post) = e) :
    Tiles (freeBlock (BitVec.ofNat 64 (c + span 24 pre)) m) e c (pre ++ merge 24 s post) := by
  have hh := tiles_mid hT
  obtain ⟨h1, h2⟩ := tiles_append.1 hT
  obtain ⟨-, h2⟩ := tiles_cons.1 h2
  rw [span_append, span_cons] at he
  set p := c + span 24 pre with hp
  have hfr := fun z hz hzp => freeBlock_frame (m := m) (p := p) (z := z) (by omega) hz hzp
  rw [tiles_append]
  refine ⟨h1.congr_region fun z _ _ => hfr z (by omega) (by omega), ?_⟩
  rw [← hp]
  have h2' : Tiles (freeBlock (BitVec.ofNat 64 p) m) e (p + (24 + s.size)) post :=
    h2.congr_region fun z _ _ => hfr z (by omega) (by omega)
  rcases post with _ | ⟨t, post⟩
  · -- the last block: `next` is NULL
    have hn : (heapBlock m (BitVec.ofNat 64 p)).next = 0 := by
      rw [hh]; rw [span_nil] at he; exact if_pos (by omega)
    rw [merge, tiles_cons, freeBlock_alone (Or.inl hn), hh]
    exact ⟨rfl, by simp [Tiles]⟩
  · rw [span_cons] at he
    have hn : (heapBlock m (BitVec.ofNat 64 p)).next = BitVec.ofNat 64 (p + (24 + s.size)) := by
      rw [hh]; exact if_neg (by omega)
    have ht := (tiles_cons.1 h2).1
    have hsep : Sep (BitVec.ofNat 64 p) 24 (heapBlock m (BitVec.ofNat 64 p)).next 24 := by
      rw [hn]; exact sep_ofNat (by omega) (by omega) (by omega) (by omega)
    rw [← hn] at ht
    -- the flag of the next block decides whether it is merged
    cases hu : t.used with
    | true =>
      have hused : (heapBlock m (heapBlock m (BitVec.ofNat 64 p)).next).used ≠ 0 := by
        rw [ht]; simp [header, hu]
      rw [merge, if_pos hu, tiles_cons, freeBlock_alone (Or.inr ⟨hsep, hused⟩), hh]
      exact ⟨rfl, h2'⟩
    | false =>
      have hused : (heapBlock m (heapBlock m (BitVec.ofNat 64 p)).next).used = 0 := by
        rw [ht]; simp [header, hu]
      have hne : (heapBlock m (BitVec.ofNat 64 p)).next ≠ 0 := by
        rw [hn]; exact ofNat_ne_zero (by omega) (by omega)
      rw [merge, if_neg (by simp [hu]), tiles_cons, freeBlock_merge hne hsep hused, ht, hh]
      have hend : p + (24 + (s.size + (24 + t.size))) = p + (24 + s.size) + (24 + t.size) := by omega
      constructor
      · simp only [header, BitVec.ofNat_add, hend]
        rfl
      · rw [hend]
        exact (tiles_cons.1 h2').2

end Ops

end Zer0S
