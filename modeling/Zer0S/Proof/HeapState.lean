import Zer0S.Proof.Heap

/-!
# `kmalloc` and `kfree` on the state of `memory.c`

`HeapInv s l`: the heap of `s` is set up and is the tiling `l` of the heap window.
`HeapAt s l` also covers the state before the first request, where `l` is the single
free block the first request sets up.

* `kmalloc_cases`: everything a call of `kmalloc` that returns can do.
* `kmalloc_returns`: a call of `kmalloc` returns.
* `heapInv_kfree`: what `kfree` of a used block does.
* `FramesKept`: neither touches the frame allocator's variables or any byte outside the
  heap window.
-/

namespace Zer0S

open Lib Tiling

/-- `HEAP_START`, as a number. -/
def heapBase : ℕ := 0x2000000

/-- The bytes of the heap: one header and 8 MiB. -/
def heapSpan : ℕ := 24 + 8 * 1024 * 1024

/-- The first address behind the heap. -/
def heapEnd : ℕ := heapBase + heapSpan

theorem heapBase_eq : heapBase = 33554432 := rfl

theorem heapSpan_eq : heapSpan = 8388632 := rfl

theorem heapEnd_eq : heapEnd = 41943064 := rfl

theorem heapEnd_lt : heapEnd < 2 ^ 63 := by decide

theorem heapStart_eq : heapStart = BitVec.ofNat 64 heapBase := rfl

attribute [irreducible] heapBase heapSpan heapEnd

/-- The blocks the first request sets up. -/
def freshHeap : List Seg := [⟨8 * 1024 * 1024, false⟩]

/-- The heap is set up, and its blocks are `l`. -/
structure HeapInv (s : Memory) (l : List Seg) : Prop where
  head : s.heapHead = heapStart
  tiles : Tiles s.mem heapEnd heapBase l
  span : span 24 l = heapSpan
  dvd : ∀ b ∈ l, 8 ∣ b.size

/-- The blocks the next request finds are `l`. -/
def HeapAt (s : Memory) (l : List Seg) : Prop := s.heapHead = 0 ∧ l = freshHeap ∨ HeapInv s l

/-- The frame allocator's variables and the bytes outside the heap window are the same. -/
structure FramesKept (s s' : Memory) : Prop where
  bitmap : s'.frameBitmap = s.frameBitmap
  total : s'.totalPages = s.totalPages
  used : s'.usedPages = s.usedPages
  free : s'.freePages = s.freePages
  touched : s'.touched = s.touched
  outside : ∀ x : Word, x.toNat < heapBase ∨ heapEnd ≤ x.toNat → s'.mem x = s.mem x

theorem FramesKept.refl (s : Memory) : FramesKept s s := ⟨rfl, rfl, rfl, rfl, rfl, fun _ _ => rfl⟩

theorem FramesKept.trans {s s' s'' : Memory} (h : FramesKept s s') (h' : FramesKept s' s'') :
    FramesKept s s'' :=
  ⟨h'.bitmap.trans h.bitmap, h'.total.trans h.total, h'.used.trans h.used, h'.free.trans h.free,
    h'.touched.trans h.touched, fun x hx => (h'.outside x hx).trans (h.outside x hx)⟩

variable {s s' : Memory} {l l' : List Seg} {w ptr : Word} {n p k : ℕ}

theorem HeapInv.ne_nil (h : HeapInv s l) : l ≠ [] := by
  rintro rfl
  have := h.span
  rw [heapSpan_eq] at this
  simp at this

theorem HeapInv.head_ne (h : HeapInv s l) : s.heapHead ≠ 0 := by
  rw [h.head]; decide

theorem HeapInv.end_eq (h : HeapInv s l) : heapBase + Tiling.span 24 l = heapEnd := by
  rw [h.span, heapBase_eq, heapSpan_eq, heapEnd_eq]

/-- The memory determines the blocks. -/
theorem HeapInv.det (h : HeapInv s l) (h' : HeapInv s l') : l = l' :=
  h.tiles.det h'.tiles h.end_eq h'.end_eq (by have := heapEnd_lt; omega)

theorem HeapAt.det (h : HeapAt s l) (h' : HeapAt s l') : l = l' := by
  rcases h with ⟨h0, rfl⟩ | h
  · rcases h' with ⟨-, rfl⟩ | h'
    · rfl
    · exact absurd h0 h'.head_ne
  · rcases h' with ⟨h0, -⟩ | h'
    · exact absurd h0 h.head_ne
    · exact h.det h'

/-- Changing the text printed changes nothing about the heap. -/
theorem HeapInv.print (h : HeapInv s l) (t : List Print) : HeapInv (s.print t) l :=
  ⟨h.head, h.tiles, h.span, h.dvd⟩

theorem HeapAt.print (h : HeapAt s l) (t : List Print) : HeapAt (s.print t) l :=
  h.imp_right fun h => h.print t

/-! ## Rounding -/

theorem toNat_roundUp (w : Word) : (roundUp w).toNat = (w.toNat + 7) % 2 ^ 64 / 8 * 8 := by
  -- clearing the low three bits is a shift down and up
  have h : roundUp w = (w + 7) >>> 3 <<< 3 := by
    apply BitVec.eq_of_getLsbD_eq
    intro i hi
    unfold roundUp
    rw [BitVec.getLsbD_and, BitVec.getLsbD_not, BitVec.getLsbD_shiftLeft, BitVec.getLsbD_ushiftRight]
    have h7 : (7 : Word).getLsbD i = decide (i < 3) := by
      by_cases h3 : i < 3
      · interval_cases i <;> rfl
      · have h8 := Nat.pow_le_pow_right (n := 2) (by omega) (show 3 ≤ i by omega)
        have : (7 : Word).getLsbD i = Nat.testBit 7 i := rfl
        rw [this, Nat.testBit_lt_two_pow (by omega)]
        simp [h3]
    rw [h7]
    by_cases h3 : i < 3
    · simp [h3, hi]
    · simp [h3, hi, show 3 + (i - 3) = i by omega]
  have h7 : (7 : Word).toNat = 7 := rfl
  rw [h, BitVec.toNat_shiftLeft, BitVec.toNat_ushiftRight, BitVec.toNat_add, h7, Nat.shiftLeft_eq,
    Nat.shiftRight_eq_div_pow]
  omega

theorem dvd_roundUp (w : Word) : 8 ∣ (roundUp w).toNat := by
  rw [toNat_roundUp]; exact Nat.dvd_mul_left 8 _

/-- A request that does not wrap around is rounded up. -/
theorem le_roundUp (h : w.toNat ≤ 2 ^ 64 - 8) : w.toNat ≤ (roundUp w).toNat := by
  rw [toNat_roundUp, Nat.mod_eq_of_lt (by omega)]; omega

/-- A request that wraps around is rounded to nothing. -/
theorem roundUp_wrap (h : 2 ^ 64 - 8 < w.toNat) : (roundUp w).toNat = 0 := by
  have := w.isLt
  rw [toNat_roundUp]; omega

/-! ## The first request -/

theorem heapInv_fresh (h : s.heapHead = 0) : HeapInv (heapSetup s) freshHeap := by
  simp only [heapSetup, if_pos h]
  refine ⟨rfl, ?_, ?_, ?_⟩
  · rw [freshHeap, tiles_cons]
    refine ⟨?_, by simp [Tiles]⟩
    have hn : nextOf heapEnd (heapBase + (24 + 8 * 1024 * 1024)) = 0 :=
      if_pos (by rw [heapBase_eq, heapEnd_eq])
    rw [← heapStart_eq, header, hn, heapBlock_setNext, heapBlock_setUsed, heapBlock_setSize]
    rfl
  · rw [heapSpan_eq]; rfl
  · simp [freshHeap]

theorem HeapAt.setup (h : HeapAt s l) : HeapInv (heapSetup s) l := by
  rcases h with ⟨h0, rfl⟩ | h
  · exact heapInv_fresh h0
  · rwa [heapSetup, if_neg h.head_ne]

theorem heapSetup_kept (s : Memory) : FramesKept s (heapSetup s) := by
  unfold heapSetup
  split_ifs
  · refine ⟨rfl, rfl, rfl, rfl, rfl, ?_⟩
    intro x hx
    have h : 24 ≤ (x - heapStart).toNat := by
      have h1 : heapStart.toNat = 33554432 := rfl
      have := x.isLt
      rw [BitVec.toNat_sub, h1]
      rw [heapBase_eq, heapEnd_eq] at hx
      omega
    simp only [setNext_outside h, setUsed_outside h, setSize_outside h]
  · exact .refl s

/-! ## Used blocks -/

/-- The block whose header is at `p` is used and has a payload of `k` bytes. -/
def UsedBlock (l : List Seg) (p k : ℕ) : Prop := UsedAt 24 heapBase l p k

theorem HeapInv.bounds (h : HeapInv s l) (hu : UsedBlock l p k) :
    heapBase ≤ p ∧ p + (24 + k) ≤ heapEnd := by
  have := UsedAt.bounds hu
  rwa [h.end_eq] at this

/-- The header of a used block, as it stands in memory. -/
theorem HeapInv.header_eq (h : HeapInv s l) (hu : UsedBlock l p k) :
    heapBlock s.mem (BitVec.ofNat 64 p) = header heapEnd p ⟨k, true⟩ :=
  h.tiles (p, ⟨k, true⟩) hu

theorem not_usedBlock_fresh : ¬ UsedBlock freshHeap p k := by
  simp [UsedBlock, UsedAt, freshHeap]

/-- Before the first request there is no used block. -/
theorem HeapAt.inv_of_used (h : HeapAt s l) (hu : UsedBlock l p k) : HeapInv s l := by
  rcases h with ⟨-, rfl⟩ | h
  · exact absurd hu not_usedBlock_fresh
  · exact h

/-! ## Pointers -/

theorem ptr_sub (p : ℕ) : BitVec.ofNat 64 p + sizeofHeapBlock - sizeofHeapBlock = BitVec.ofNat 64 p := by
  bv_omega

theorem toNat_ptr (h : p + 24 < 2 ^ 64) : (BitVec.ofNat 64 p + sizeofHeapBlock).toNat = p + 24 := by
  rw [BitVec.toNat_add, toNat_ofNat (by omega), show sizeofHeapBlock.toNat = 24 from rfl]
  omega

/-- Headers at different addresses are behind different pointers. -/
theorem ptr_inj {p q : ℕ} (hp : p < heapEnd) (hq : q < heapEnd)
    (h : BitVec.ofNat 64 p + sizeofHeapBlock = BitVec.ofNat 64 q + sizeofHeapBlock) : p = q := by
  have hlt := heapEnd_lt
  have h := congrArg (fun w => (w - sizeofHeapBlock).toNat) h
  simpa only [ptr_sub, toNat_ofNat (show p < 2 ^ 64 by omega),
    toNat_ofNat (show q < 2 ^ 64 by omega)] using h

theorem ptr_ne_zero {p : ℕ} (hp : p < heapEnd) : BitVec.ofNat 64 p + sizeofHeapBlock ≠ 0 := by
  have hlt := heapEnd_lt
  intro h0
  have := congrArg BitVec.toNat h0
  rw [toNat_ptr (by omega)] at this
  simp at this

/-! ## `kmalloc` -/

/-- The state after the request took the block with header `p`. -/
def tookBlock (s : Memory) (w : Word) (p : ℕ) : Memory :=
  { heapSetup s with mem := takeBlock (roundUp w) (BitVec.ofNat 64 p) (heapSetup s).mem }

/-- **`kmalloc` is `firstFit`**, given enough rounds. -/
theorem kmalloc_eq (h : HeapAt s l) (hw : w ≠ 0) (hn : l.length + 1 ≤ n) :
    kmalloc n w s =
      match firstFit 24 32 (roundUp w).toNat heapBase l with
      | none => some (0, (heapSetup s).print [.text "[ERROR] kmalloc: Out of heap memory!\n"])
      | some (p, _) => some (BitVec.ofNat 64 p + sizeofHeapBlock, tookBlock s w p) := by
  have hi := h.setup
  have hl := kmallocLoop (w := roundUp w) hi.ne_nil hi.tiles hi.end_eq (by rw [heapBase_eq]; omega)
    (by rw [heapEnd_eq]; omega)
  have hl := loop_mono hn hl
  rw [← heapStart_eq, ← hi.head] at hl
  simp only [kmalloc, if_neg hw, hl]
  cases hf : firstFit 24 32 (roundUp w).toNat heapBase l with
  | none => rfl
  | some y => rfl

theorem heapInv_tookBlock (h : HeapAt s l)
    (hf : firstFit 24 32 (roundUp w).toNat heapBase l = some (p, l')) : HeapInv (tookBlock s w p) l' := by
  have hi := h.setup
  obtain ⟨pre, b, post, rfl, -, hr, rfl, rfl, -⟩ := firstFit_spec hf
  exact ⟨hi.head, tiles_takeBlock heapEnd_lt hi.tiles hi.end_eq hr, (span_firstFit hf).trans hi.span,
    dvd_firstFit (by decide) (dvd_roundUp w) hi.dvd hf⟩

theorem tookBlock_kept (h : HeapAt s l)
    (hf : firstFit 24 32 (roundUp w).toNat heapBase l = some (p, l')) :
    FramesKept s (tookBlock s w p) := by
  have hi := h.setup
  obtain ⟨pre, b, post, rfl, -, hr, rfl, rfl, -⟩ := firstFit_spec hf
  have he := hi.end_eq
  rw [span_append, span_cons] at he
  have hp := tiles_mid hi.tiles
  refine (heapSetup_kept s).trans ⟨rfl, rfl, rfl, rfl, rfl, ?_⟩
  intro x hx
  have := takeBlock_frame (z := x.toNat) heapEnd_lt hr (by omega) hp x.isLt (by omega)
  simpa [tookBlock] using this

/-- **What a call of `kmalloc` can do**: nothing for a request of 0 bytes, fail, or take the
first block that fits. -/
theorem kmalloc_cases (h : HeapAt s l) (hk : kmalloc n w s = some (ptr, s')) :
    w = 0 ∧ ptr = 0 ∧ s' = s ∨
    w ≠ 0 ∧ firstFit 24 32 (roundUp w).toNat heapBase l = none ∧ ptr = 0 ∧ HeapInv s' l ∧
      FramesKept s s' ∨
    w ≠ 0 ∧ ∃ p l', firstFit 24 32 (roundUp w).toNat heapBase l = some (p, l') ∧
      ptr = BitVec.ofNat 64 p + sizeofHeapBlock ∧ ptr ≠ 0 ∧ HeapInv s' l' ∧ FramesKept s s' := by
  by_cases hw : w = 0
  · subst hw
    simp only [kmalloc, if_true, Option.some.injEq, Prod.mk.injEq] at hk
    exact Or.inl ⟨rfl, hk.1.symm, hk.2.symm⟩
  right
  -- a result in `n` rounds is the result in enough rounds
  have hbig : kmalloc (n + (l.length + 1)) w s = some (ptr, s') := by
    rw [← hk]
    simp only [kmalloc, if_neg hw] at hk ⊢
    cases hl : loop (kmallocBody (heapSetup s).mem (roundUp w)) n (heapSetup s).heapHead with
    | none => rw [hl] at hk; simp at hk
    | some r => rw [loop_mono (Nat.le_add_right n (l.length + 1)) hl]
  rw [kmalloc_eq h hw (by omega)] at hbig
  cases hf : firstFit 24 32 (roundUp w).toNat heapBase l with
  | none =>
    rw [hf] at hbig
    simp only [Option.some.injEq, Prod.mk.injEq] at hbig
    obtain ⟨rfl, rfl⟩ := hbig
    obtain ⟨k1, k2, k3, k4, k5, k6⟩ := heapSetup_kept s
    exact Or.inl ⟨hw, rfl, rfl, h.setup.print _, k1, k2, k3, k4, k5, k6⟩
  | some y =>
    obtain ⟨p, l'⟩ := y
    rw [hf] at hbig
    simp only [Option.some.injEq, Prod.mk.injEq] at hbig
    obtain ⟨rfl, rfl⟩ := hbig
    have hi := heapInv_tookBlock h hf
    obtain ⟨k, -, -, hiff⟩ := usedAt_firstFit (by omega) hf
    have hb := hi.bounds ((hiff p k).2 (Or.inr ⟨rfl, rfl⟩))
    exact Or.inr ⟨hw, p, l', rfl, rfl, ptr_ne_zero (by omega), hi, tookBlock_kept h hf⟩

/-- **`kmalloc` returns.** -/
theorem kmalloc_returns (h : HeapAt s l) (w : Word) : ∃ n r, kmalloc n w s = some r := by
  by_cases hw : w = 0
  · exact ⟨0, _, by rw [kmalloc, if_pos hw]⟩
  · refine ⟨l.length + 1, ?_⟩
    rw [kmalloc_eq h hw le_rfl]
    cases firstFit 24 32 (roundUp w).toNat heapBase l <;> exact ⟨_, rfl⟩

/-! ## `kfree` and writes of callers -/

/-- **`kfree` of a used block is `release`.** -/
theorem heapInv_kfree (h : HeapInv s l) (hu : UsedBlock l p k) :
    HeapInv (kfree (BitVec.ofNat 64 p + sizeofHeapBlock) s) (release 24 p heapBase l) ∧
      FramesKept s (kfree (BitVec.ofNat 64 p + sizeofHeapBlock) s) := by
  have hb := h.bounds hu
  have hlt := heapEnd_lt
  have h0 : BitVec.ofNat 64 p + sizeofHeapBlock ≠ 0 := by
    intro h0
    have := congrArg BitVec.toNat h0
    rw [toNat_ptr (by omega)] at this
    simp at this
  obtain ⟨pre, post, hl, hp⟩ := exists_split_of_mem hu
  simp only at hl hp
  subst hl
  have hd := h.dvd
  have ht := tiles_freeBlock hlt h.tiles h.end_eq
  rw [← hp] at ht
  have hr : release 24 p heapBase (pre ++ ⟨k, true⟩ :: post) = pre ++ merge 24 ⟨k, true⟩ post := by
    rw [hp, release_spec (by omega)]
  rw [kfree, if_neg h0, ptr_sub, hr]
  refine ⟨⟨h.head, by simpa only using ht, ?_, ?_⟩, ⟨rfl, rfl, rfl, rfl, rfl, ?_⟩⟩
  · have := h.span
    rw [span_append, span_cons] at this
    rw [span_append, span_merge, this]
  · intro b hb
    rcases List.mem_append.1 hb with hb | hb
    · exact hd b (by simp [hb])
    · exact dvd_merge (by decide) (hd ⟨k, true⟩ (by simp)) (fun t ht => hd t (by simp [ht])) b hb
  · intro x hx
    have := freeBlock_frame (m := s.mem) (p := p) (z := x.toNat) (by omega) x.isLt (by omega)
    simpa using this

/-- **A write into the payload of a used block** leaves all blocks as they are. -/
theorem heapInv_write (h : HeapInv s l) (hu : UsedBlock l p k) {a : Word} (ha : p + 24 ≤ a.toNat)
    (hak : a.toNat < p + 24 + k) (v : Byte) :
    HeapInv { s with mem := s.mem.set a v } l ∧ FramesKept s { s with mem := s.mem.set a v } := by
  have hb := h.bounds hu
  have hlt := heapEnd_lt
  refine ⟨⟨h.head, h.tiles.congr ?_, h.span, h.dvd⟩, rfl, rfl, rfl, rfl, rfl, ?_⟩
  · intro y hy i hi
    -- a header byte is outside the payload
    have hy' := place_bounds hy
    rw [h.end_eq] at hy'
    apply Mem.set_ne
    intro he
    have he := congrArg BitVec.toNat he
    rw [toNat_ofNat (by omega)] at he
    rcases place_disjoint hu hy with h' | h' | h'
    · rw [← h'] at he
      simp only at he
      omega
    · simp only at h'; omega
    · simp only at h'; omega
  · intro x hx
    apply Mem.set_ne
    rintro rfl
    omega

end Zer0S
