import Zer0S.Spec.Callers

/-!
# The frame allocator keeps its bitmap and its counters in step

`FramesInv s g`: the bitmap in memory holds the bits `g`, one for each page, and the two
counters are the number of set and of clear bits.

* `framesInv_memoryInit`: it holds after `memory_init`, with the pages of the kernel set.
* `allocFrame_cases`, `freeFrame_cases`: everything `alloc_frame` and `free_frame` can do,
  for any argument.
* `frame_accounting`: the counters after any sequence of calls.
-/

namespace Zer0S

open Lib

/-- The bit of page `i` in the bitmap. -/
def frameBit (s : Memory) (i : ℕ) : Bool :=
  (s.mem (s.frameBitmap + BitVec.ofNat 64 (i / 8))).getLsbD (i % 8)

/-- The pages that `memory_init` counts. -/
def pageCount : ℕ := 16384

/-- The bitmap holds the bits `g`, and the counters count them. -/
structure FramesInv (s : Memory) (g : ℕ → Bool) : Prop where
  bitmap : s.frameBitmap = bitmapAddr
  total : s.totalPages.toNat = pageCount
  packed : Packed (fun q => s.mem (bitmapAddr + BitVec.ofNat 64 q)) pageCount g
  used : s.usedPages.toNat = popcount pageCount g
  counts : s.usedPages.toNat + s.freePages.toNat = pageCount
  touched : ∀ o ∈ s.touched, o.toNat < 2048

/-- The heap's variable and the bytes outside the bitmap are the same. -/
structure HeapKept (s s' : Memory) : Prop where
  head : s'.heapHead = s.heapHead
  outside : ∀ x : Word, x.toNat < bitmapAddr.toNat ∨ bitmapAddr.toNat + 2048 ≤ x.toNat →
    s'.mem x = s.mem x

theorem HeapKept.refl (s : Memory) : HeapKept s s := ⟨rfl, fun _ _ => rfl⟩

theorem HeapKept.trans {s s' s'' : Memory} (h : HeapKept s s') (h' : HeapKept s' s'') : HeapKept s s'' :=
  ⟨h'.head.trans h.head, fun x hx => (h'.outside x hx).trans (h.outside x hx)⟩

variable {s s' : Memory} {g : ℕ → Bool} {i j : ℕ} {addr b : Word}

theorem FramesInv.bit (hi : FramesInv s g) (hj : j < pageCount) : frameBit s j = g j := by
  rw [frameBit, hi.bitmap]; exact hi.packed j hj

/-- Changing the text printed changes nothing about the frames. -/
theorem FramesInv.print (hi : FramesInv s g) (t : List Print) : FramesInv (s.print t) g :=
  ⟨hi.bitmap, hi.total, hi.packed, hi.used, hi.counts, hi.touched⟩

theorem toNat_div8 (b : Word) : (b / 8).toNat = b.toNat / 8 := BitVec.toNat_udiv ..

theorem toNat_mod8 (b : Word) : (b % 8).toNat = b.toNat % 8 := BitVec.toNat_umod ..

theorem ofNat_div8 (b : Word) : BitVec.ofNat 64 (b.toNat / 8) = b / 8 := by
  rw [← toNat_div8]; exact BitVec.ofNat_toNat ..

/-- Bytes of the bitmap at different offsets are at different addresses. -/
theorem bitmapAddr_ne {p q : ℕ} (hp : p < 2048) (hq : q < 2048) (h : p ≠ q) :
    bitmapAddr + BitVec.ofNat 64 p ≠ bitmapAddr + BitVec.ofNat 64 q := by
  unfold bitmapAddr
  bv_omega

/-! ## Bit operations -/

theorem toNat_bitmapAddr_add {q : ℕ} (hq : q < 2048) :
    (bitmapAddr + BitVec.ofNat 64 q).toNat = bitmapAddr.toNat + q := by
  have hc : bitmapAddr.toNat = 12582912 := rfl
  rw [BitVec.toNat_add, BitVec.toNat_ofNat, hc]
  omega

/-- A write to a byte of the bitmap changes no byte outside it. -/
theorem set_outside_bitmap {q : ℕ} (hq : q < 2048) (m : Mem) (v : Byte) {x : Word}
    (hx : x.toNat < bitmapAddr.toNat ∨ bitmapAddr.toNat + 2048 ≤ x.toNat) :
    m.set (bitmapAddr + BitVec.ofNat 64 q) v x = m x := by
  apply Mem.set_ne
  rintro rfl
  rw [toNat_bitmapAddr_add hq] at hx
  omega

theorem heapKept_setBit (hm : s.frameBitmap = bitmapAddr) (hb : b.toNat < pageCount) :
    HeapKept s (bitmapSetBit s.frameBitmap b s) := by
  unfold pageCount at hb
  refine ⟨rfl, ?_⟩
  intro x hx
  simp only [bitmapSetBit, hm, ← ofNat_div8]
  exact set_outside_bitmap (by omega) _ _ hx

theorem heapKept_clearBit (hm : s.frameBitmap = bitmapAddr) (hb : b.toNat < pageCount) :
    HeapKept s (bitmapClearBit s.frameBitmap b s) := by
  unfold pageCount at hb
  refine ⟨rfl, ?_⟩
  intro x hx
  simp only [bitmapClearBit, hm, ← ofNat_div8]
  exact set_outside_bitmap (by omega) _ _ hx

/-- The counters do not matter for the heap. -/
theorem HeapKept.counters (h : HeapKept s s') (u f : Word) :
    HeapKept s { s' with usedPages := u, freePages := f } :=
  ⟨h.head, h.outside⟩

theorem packed_setBit (hp : Packed (fun q => s.mem (bitmapAddr + BitVec.ofNat 64 q)) pageCount g)
    (hm : s.frameBitmap = bitmapAddr) (hb : b.toNat < pageCount) :
    Packed (fun q => (bitmapSetBit s.frameBitmap b s).mem (bitmapAddr + BitVec.ofNat 64 q)) pageCount
      (Function.update g b.toNat true) := by
  unfold pageCount at hb
  refine hp.set ?_ ?_
  · simp only [bitmapSetBit, hm, ofNat_div8, Mem.set_self, toNat_mod8]
  · intro j hj hne
    simp only [bitmapSetBit, hm, ← ofNat_div8]
    unfold pageCount at hj
    exact Mem.set_ne (bitmapAddr_ne (by omega) (by omega) hne) _

theorem packed_clearBit (hp : Packed (fun q => s.mem (bitmapAddr + BitVec.ofNat 64 q)) pageCount g)
    (hm : s.frameBitmap = bitmapAddr) (hb : b.toNat < pageCount) :
    Packed (fun q => (bitmapClearBit s.frameBitmap b s).mem (bitmapAddr + BitVec.ofNat 64 q)) pageCount
      (Function.update g b.toNat false) := by
  unfold pageCount at hb
  refine hp.clear ?_ ?_
  · simp only [bitmapClearBit, hm, ofNat_div8, Mem.set_self, toNat_mod8]
  · intro j hj hne
    simp only [bitmapClearBit, hm, ← ofNat_div8]
    unfold pageCount at hj
    exact Mem.set_ne (bitmapAddr_ne (by omega) (by omega) hne) _

/-- Accessing the byte of a bit stays in the bitmap. -/
theorem touched_cons (ht : ∀ o ∈ s.touched, o.toNat < 2048) (hb : b.toNat < pageCount) :
    ∀ o ∈ b / 8 :: s.touched, o.toNat < 2048 := by
  unfold pageCount at hb
  refine List.forall_mem_cons.2 ⟨?_, ht⟩
  rw [toNat_div8]
  omega

/-- **Testing a bit** returns it and changes nothing. -/
theorem bitmapTestBit_spec (hi : FramesInv s g) (hb : b.toNat < pageCount) :
    (bitmapTestBit s.frameBitmap b s).1 = g b.toNat ∧
      FramesInv (bitmapTestBit s.frameBitmap b s).2 g := by
  refine ⟨?_, hi.bitmap, hi.total, hi.packed, hi.used, hi.counts, touched_cons hi.touched hb⟩
  have hm : b.toNat % 8 < 8 := Nat.mod_lt _ (by omega)
  simp only [bitmapTestBit, hi.bitmap, toNat_mod8, byteTest_eq hm, ← ofNat_div8]
  exact hi.packed _ hb

/-! ## `alloc_frame` -/

/-- **The search loop** ends at the first clear bit, or finds none. -/
theorem findFreeFrameFrom_spec : ∀ n i s, FramesInv s g → i + n = pageCount →
    FramesInv (findFreeFrameFrom n (BitVec.ofNat 64 i) s).2 g ∧
      (findFreeFrameFrom n (BitVec.ofNat 64 i) s).2.mem = s.mem ∧
      (findFreeFrameFrom n (BitVec.ofNat 64 i) s).2.heapHead = s.heapHead ∧
      ((findFreeFrameFrom n (BitVec.ofNat 64 i) s).1 = -1 ∧ (∀ k, i ≤ k → k < pageCount → g k = true) ∨
        ∃ j, j < pageCount ∧ g j = false ∧ (∀ k, i ≤ k → k < j → g k = true) ∧
          (findFreeFrameFrom n (BitVec.ofNat 64 i) s).1 = BitVec.ofNat 64 j) := by
  intro n
  induction n with
  | zero =>
    intro i s hi hn
    exact ⟨hi, rfl, rfl, Or.inl ⟨rfl, fun k h1 h2 => by omega⟩⟩
  | succ n ih =>
    intro i s hi hn
    have hn' : i < 2 ^ 64 := by unfold pageCount at hn; omega
    have hlt : (BitVec.ofNat 64 i).toNat = i := by rw [BitVec.toNat_ofNat, Nat.mod_eq_of_lt hn']
    obtain ⟨h1, h2⟩ := bitmapTestBit_spec (b := BitVec.ofNat 64 i) hi (by omega)
    rw [hlt] at h1
    simp only [findFreeFrameFrom, h1]
    -- the loop stops at a clear bit; after a set one, the rest is as the induction says
    cases hg : g i with
    | false => exact ⟨h2, rfl, rfl, Or.inr ⟨i, by omega, hg, fun k h1 h2 => by omega, rfl⟩⟩
    | true =>
      have hstep : ∀ {P : ℕ → Prop}, (∀ k, i + 1 ≤ k → P k → g k = true) → ∀ k, i ≤ k → P k → g k = true := by
        intro P h k hk hp
        rcases Nat.eq_or_lt_of_le hk with rfl | hk
        · exact hg
        · exact h k hk hp
      obtain ⟨h3, h4, h5, h6⟩ := ih (i + 1) _ h2 (by omega)
      rw [BitVec.ofNat_add] at h3 h4 h5 h6
      refine ⟨h3, h4, h5, ?_⟩
      rcases h6 with ⟨h6, h7⟩ | ⟨j, h6, h7, h8, h9⟩
      · exact Or.inl ⟨h6, hstep h7⟩
      · exact Or.inr ⟨j, h6, h7, hstep h8, h9⟩

theorem findFreeFrame_spec (hi : FramesInv s g) :
    FramesInv (findFreeFrame s).2 g ∧ (findFreeFrame s).2.mem = s.mem ∧
      (findFreeFrame s).2.heapHead = s.heapHead ∧
      ((findFreeFrame s).1 = -1 ∧ (∀ k < pageCount, g k = true) ∨
        ∃ j < pageCount, g j = false ∧ (∀ k < j, g k = true) ∧ (findFreeFrame s).1 = BitVec.ofNat 64 j) := by
  have := findFreeFrameFrom_spec s.totalPages.toNat 0 s hi (by rw [hi.total]; omega)
  simpa [findFreeFrame] using this

/-- Setting a clear bit and counting it. -/
theorem framesInv_set (hi : FramesInv s g) (hb : b.toNat < pageCount) (hg : g b.toNat = false) :
    FramesInv { bitmapSetBit s.frameBitmap b s with
      usedPages := s.usedPages + 1, freePages := s.freePages - 1 } (Function.update g b.toNat true) := by
  have hp := popcount_set hb hg
  have hle := popcount_le pageCount (Function.update g b.toNat true)
  have hu := hi.used
  have hc := hi.counts
  have h1 : (s.usedPages + 1).toNat = s.usedPages.toNat + 1 := by unfold pageCount at *; bv_omega
  have h2 : (s.freePages - 1).toNat + 1 = s.freePages.toNat := by unfold pageCount at *; bv_omega
  refine ⟨hi.bitmap, hi.total, packed_setBit hi.packed hi.bitmap hb, ?_, ?_, touched_cons hi.touched hb⟩
  · simp only [h1]; omega
  · simp only [h1]; omega

/-- Clearing a set bit and counting it. -/
theorem framesInv_clear (hi : FramesInv s g) (hb : b.toNat < pageCount) (hg : g b.toNat = true) :
    FramesInv { bitmapClearBit s.frameBitmap b s with
      usedPages := s.usedPages - 1, freePages := s.freePages + 1 } (Function.update g b.toNat false) := by
  have hp := popcount_clear hb hg
  have hle := popcount_le pageCount g
  have hu := hi.used
  have hc := hi.counts
  have h1 : (s.usedPages - 1).toNat + 1 = s.usedPages.toNat := by unfold pageCount at *; bv_omega
  have h2 : (s.freePages + 1).toNat = s.freePages.toNat + 1 := by unfold pageCount at *; bv_omega
  refine ⟨hi.bitmap, hi.total, packed_clearBit hi.packed hi.bitmap hb, ?_, ?_, touched_cons hi.touched hb⟩
  · simp only; omega
  · simp only [h2]; omega

/-- **What `alloc_frame` can do**: fail when all bits are set, or set the first clear bit
and return the address of its page. -/
theorem allocFrame_cases (hi : FramesInv s g) : HeapKept s (allocFrame s).2 ∧
    ((∀ k < pageCount, g k = true) ∧ (findFreeFrame s).1 = -1 ∧ (allocFrame s).1 = 0 ∧
        FramesInv (allocFrame s).2 g ∨
      ∃ j < pageCount, g j = false ∧ (∀ k < j, g k = true) ∧ (findFreeFrame s).1 ≠ -1 ∧
        (allocFrame s).1 = BitVec.ofNat 64 (j * 4096) ∧
        FramesInv (allocFrame s).2 (Function.update g j true)) := by
  have hb : s.frameBitmap ≠ 0 := by rw [hi.bitmap]; decide
  obtain ⟨h1, h2, h3, h4⟩ := findFreeFrame_spec hi
  simp only [allocFrame, if_neg hb]
  generalize findFreeFrame s = r at *
  obtain ⟨frame, s₁⟩ := r
  simp only at h1 h2 h3 h4 ⊢
  have hk : HeapKept s s₁ := ⟨h3, fun x _ => by rw [h2]⟩
  rcases h4 with ⟨rfl, h5⟩ | ⟨j, h4, h5, h6, rfl⟩
  · -- out of memory: only the message is printed
    simp only [if_true]
    exact ⟨hk.trans ⟨rfl, fun _ _ => rfl⟩, Or.inl ⟨h5, trivial, trivial, h1.print _⟩⟩
  · have hj : (BitVec.ofNat 64 j).toNat = j := by
      unfold pageCount at h4; rw [BitVec.toNat_ofNat, Nat.mod_eq_of_lt (by omega)]
    -- the number of a page is never taken for the failure
    have hne : BitVec.ofNat 64 j ≠ -1 := by
      intro h; have := congrArg BitVec.toNat h; rw [hj] at this; unfold pageCount at h4; simp at this; omega
    have hs := framesInv_set (b := BitVec.ofNat 64 j) h1 (by rw [hj]; exact h4) (by rw [hj]; exact h5)
    rw [hj] at hs
    simp only [if_neg hne]
    have hset := heapKept_setBit (b := BitVec.ofNat 64 j) h1.bitmap (by rw [hj]; exact h4)
    refine ⟨hk.trans (hset.counters _ _), Or.inr ⟨j, h4, h5, h6, hne, ?_, hs⟩⟩
    rw [BitVec.ofNat_mul]; rfl

/-- `alloc_frame` takes the first clear bit. -/
theorem allocFrame_lowest {j : ℕ} (hi : FramesInv s g) (hj : j < pageCount) (hg : g j = false)
    (hmin : ∀ k < j, g k = true) : (findFreeFrame s).1 ≠ -1 ∧ (allocFrame s).1 = BitVec.ofNat 64 (j * 4096) ∧
      FramesInv (allocFrame s).2 (Function.update g j true) := by
  obtain ⟨-, ⟨hall, -⟩ | ⟨k, -, hgk, hmin', hn, ha, h⟩⟩ := allocFrame_cases hi
  · rw [hall j hj] at hg
    cases hg
  · have hjk : j = k := by
      rcases Nat.lt_trichotomy j k with hlt | heq | hlt
      · rw [hmin' j hlt] at hg
        cases hg
      · exact heq
      · rw [hmin k hlt] at hgk
        cases hgk
    rw [hjk]
    exact ⟨hn, ha, h⟩

/-! ## `free_frame` -/

/-- The page `free_frame` frees, if it does. -/
def Freed (g : ℕ → Bool) (addr : Word) : Prop :=
  addr ≠ 0 ∧ addr.toNat / 4096 < pageCount ∧ g (addr.toNat / 4096) = true

/-- **What `free_frame` can do**, for any address. -/
theorem freeFrame_cases (hi : FramesInv s g) (addr : Word) : HeapKept s (freeFrame addr s) ∧
    (Freed g addr ∧ FramesInv (freeFrame addr s) (Function.update g (addr.toNat / 4096) false) ∨
      ¬ Freed g addr ∧ FramesInv (freeFrame addr s) g) := by
  have hb : s.frameBitmap ≠ 0 := by rw [hi.bitmap]; decide
  have hd : (addr / pageSize).toNat = addr.toNat / 4096 := BitVec.toNat_udiv ..
  -- the three tests of the source: NULL, the end of the memory, the bit
  by_cases h0 : addr = 0
  · rw [freeFrame, if_pos (Or.inr h0)]
    exact ⟨.refl s, Or.inr ⟨fun h => h.1 h0, hi⟩⟩
  simp only [freeFrame, hb, h0, or_self, if_false]
  by_cases hr : s.totalPages ≤ addr / pageSize
  · rw [if_pos hr]
    rw [BitVec.le_def, hd, hi.total] at hr
    exact ⟨.refl s, Or.inr ⟨fun h => by have := h.2.1; omega, hi⟩⟩
  rw [if_neg hr]
  rw [BitVec.le_def, hd, hi.total, not_le] at hr
  obtain ⟨h1, h2⟩ := bitmapTestBit_spec (b := addr / pageSize) hi (by rw [hd]; exact hr)
  rw [hd] at h1
  have hk : HeapKept s (bitmapTestBit s.frameBitmap (addr / pageSize) s).2 := ⟨rfl, fun _ _ => rfl⟩
  generalize bitmapTestBit s.frameBitmap (addr / pageSize) s = r at *
  obtain ⟨used, s₁⟩ := r
  simp only at h1 h2 hk ⊢
  subst h1
  cases hg : g (addr.toNat / 4096) with
  | false =>
    simp only [Bool.false_eq_true, if_false]
    exact ⟨hk, Or.inr ⟨fun h => by simp [h.2.2] at hg, h2⟩⟩
  | true =>
    have hc := framesInv_clear (b := addr / pageSize) h2 (by rw [hd]; exact hr) (by rw [hd]; exact hg)
    rw [hd] at hc
    simp only [if_true]
    have hclear := heapKept_clearBit (b := addr / pageSize) h2.bitmap (by rw [hd]; exact hr)
    exact ⟨hk.trans (hclear.counters _ _), Or.inl ⟨⟨h0, hr, hg⟩, hc⟩⟩

/-! ## `memory_init` -/

/-- The pages `memory_init` marks: from 1 MiB up to the page behind the bitmap. -/
def kernelPage (i : ℕ) : Bool := decide (256 ≤ i ∧ i < 3073)

/-- The loop that clears the bitmap. -/
theorem clearBitmap_spec (hm : s.frameBitmap = bitmapAddr) (ht : ∀ o ∈ s.touched, o.toNat < 2048) :
    Packed (fun q => (clearBitmap 2048 s).mem (bitmapAddr + BitVec.ofNat 64 q)) pageCount (fun _ => false) ∧
      (clearBitmap 2048 s).frameBitmap = bitmapAddr ∧
      (clearBitmap 2048 s).totalPages = s.totalPages ∧ (clearBitmap 2048 s).usedPages = s.usedPages ∧
      (∀ o ∈ (clearBitmap 2048 s).touched, o.toNat < 2048) ∧ HeapKept s (clearBitmap 2048 s) := by
  simp only [clearBitmap, show (2048 : Word).toNat = 2048 from rfl]
  have h := forLoop_ind (f := fun i s => { s with
      mem := s.mem.set (s.frameBitmap + BitVec.ofNat 64 i) 0, touched := BitVec.ofNat 64 i :: s.touched })
    (fun i (n : Memory) => n.frameBitmap = bitmapAddr ∧ n.totalPages = s.totalPages ∧
      n.usedPages = s.usedPages ∧ (∀ o ∈ n.touched, o.toNat < 2048) ∧ HeapKept s n ∧
      ∀ q < i, n.mem (bitmapAddr + BitVec.ofNat 64 q) = 0)
    0 2048 s ⟨hm, rfl, rfl, ht, .refl s, by simp⟩ ?_
  · obtain ⟨h1, h2, h3, h4, h5, h6⟩ := h
    refine ⟨?_, h1, h2, h3, h4, h5⟩
    intro i hi
    unfold pageCount at hi
    have h0 := h6 (i / 8) (by omega)
    exact (congrArg (fun v => BitVec.getLsbD v (i % 8)) h0).trans (by simp)
  · rintro i n - hi ⟨h1, h2, h3, h4, h5, h6⟩
    refine ⟨h1, h2, h3, List.forall_mem_cons.2 ⟨?_, h4⟩, h5.trans ?_, ?_⟩
    · rw [BitVec.toNat_ofNat]; omega
    · refine ⟨rfl, ?_⟩
      intro x hx
      simp only [h1]
      exact set_outside_bitmap (by omega) _ _ hx
    · intro q hq
      simp only [h1]
      by_cases hqi : q = i
      · rw [hqi, Mem.set_self]
      · rw [Mem.set_ne (bitmapAddr_ne (by omega) (by omega) hqi), h6 q (by omega)]

/-- The loop that marks the pages of the kernel. -/
theorem markKernelPages_spec (hm : s.frameBitmap = bitmapAddr) (ht : s.totalPages.toNat = pageCount)
    (hu : s.usedPages = 0) (hto : ∀ o ∈ s.touched, o.toNat < 2048)
    (hp : Packed (fun q => s.mem (bitmapAddr + BitVec.ofNat 64 q)) pageCount fun _ => false) :
    Packed (fun q => (markKernelPages 256 3073 s).mem (bitmapAddr + BitVec.ofNat 64 q)) pageCount kernelPage ∧
      (markKernelPages 256 3073 s).frameBitmap = bitmapAddr ∧
      (markKernelPages 256 3073 s).totalPages.toNat = pageCount ∧
      (markKernelPages 256 3073 s).usedPages = 2817 ∧
      (∀ o ∈ (markKernelPages 256 3073 s).touched, o.toNat < 2048) ∧
      HeapKept s (markKernelPages 256 3073 s) := by
  have hn : min (3073 : Word).toNat s.totalPages.toNat - 256 = 2817 := by
    rw [ht]; rfl
  simp only [markKernelPages, show (256 : Word).toNat = 256 from rfl, hn]
  clear hn
  have h := forLoop_ind (f := fun i s =>
      let s := bitmapSetBit s.frameBitmap (BitVec.ofNat 64 i) s
      { s with usedPages := s.usedPages + 1 })
    (fun i (n : Memory) => n.frameBitmap = bitmapAddr ∧ n.totalPages.toNat = pageCount ∧
      n.usedPages = BitVec.ofNat 64 (i - 256) ∧ (∀ o ∈ n.touched, o.toNat < 2048) ∧ HeapKept s n ∧
      Packed (fun q => n.mem (bitmapAddr + BitVec.ofNat 64 q)) pageCount fun j => decide (256 ≤ j ∧ j < i))
    256 2817 s ⟨hm, ht, hu, hto, .refl s, ?_⟩ ?_
  · simp only [Nat.reduceAdd, Nat.reduceSub] at h
    obtain ⟨h1, h2, h3, h4, h5, h6⟩ := h
    exact ⟨h6, h1, h2, h3, h4, h5⟩
  · refine fun j hj => (hp j hj).trans ?_
    simp only [false_eq_decide_iff]; omega
  · rintro i n hlo hi ⟨h1, h2, h3, h4, h5, h6⟩
    have hb : (BitVec.ofNat 64 i).toNat = i := by rw [BitVec.toNat_ofNat, Nat.mod_eq_of_lt (by omega)]
    have hbp : (BitVec.ofNat 64 i).toNat < pageCount := by rw [hb]; unfold pageCount; omega
    refine ⟨h1, h2, ?_, touched_cons h4 hbp, h5.trans ((heapKept_setBit h1 hbp).counters _ _), ?_⟩
    · have hi1 : i + 1 - 256 = i - 256 + 1 := by omega
      show n.usedPages + BitVec.ofNat 64 1 = _
      rw [h3, hi1, BitVec.ofNat_add]
    · have hs := packed_setBit h6 h1 hbp
      rw [hb] at hs
      intro j hj
      apply (hs j hj).trans
      by_cases hji : j = i
      · subst hji
        simp only [Function.update_self, true_eq_decide_iff]; omega
      · rw [Function.update_of_ne hji, decide_eq_decide]; omega

/-- Counting the free pages as the ones not used. -/
def countFree (s : Memory) : Memory := { s with freePages := s.totalPages - s.usedPages }

/-- `memory_init` up to its texts: set the variables, clear the bitmap, mark the pages. -/
theorem memoryInit_eq (s : Memory) : ∃ s₀ p q r, s₀.frameBitmap = bitmapAddr ∧
    s₀.totalPages = 16384 ∧ s₀.usedPages = s.usedPages ∧ s₀.touched = s.touched ∧ HeapKept s s₀ ∧
    memoryInit s =
      (countFree (markKernelPages 256 3073 (((clearBitmap 2048 s₀).print p).print q))).print r := by
  have ht : (64 * 1024 * 1024 / pageSize : Word) = 16384 := by decide
  have hb : ((16384 : Word) + 7) / 8 = 2048 := by decide
  have hs : (1 * 1024 * 1024 / pageSize : Word) = 256 := by decide
  have he : (bitmapAddr + 2048 + pageSize - 1) / pageSize = 3073 := by decide
  simp only [memoryInit, print_totalPages, ht, hb, hs, he, ← countFree.eq_def]
  refine ⟨_, _, _, _, ?_, ?_, ?_, ?_, ?_, rfl⟩
  · rfl
  · rfl
  · rfl
  · rfl
  · exact ⟨rfl, fun _ _ => rfl⟩

theorem framesInv_countFree (hb : s.frameBitmap = bitmapAddr) (ht : s.totalPages.toNat = pageCount)
    (hu : s.usedPages = 2817) (hto : ∀ o ∈ s.touched, o.toNat < 2048)
    (hp : Packed (fun q => s.mem (bitmapAddr + BitVec.ofNat 64 q)) pageCount kernelPage) :
    FramesInv (countFree s) kernelPage := by
  have hn : (2817 : Word).toNat = 2817 := rfl
  have hpop : popcount pageCount kernelPage = 2817 :=
    popcount_interval 256 3073 (by decide) fun i _ => by simp [kernelPage]
  refine ⟨hb, ht, hp, ?_, ?_, hto⟩
  · show s.usedPages.toNat = _
    rw [hu, hpop, hn]
  · show s.usedPages.toNat + (s.totalPages - s.usedPages).toNat = _
    rw [hu, BitVec.toNat_sub, ht, hn, pageCount]

/-- `memory_init` from the cleared bitmap on. -/
theorem framesInv_marked (hb : s.frameBitmap = bitmapAddr) (ht : s.totalPages.toNat = pageCount)
    (hu : s.usedPages = 0) (hto : ∀ o ∈ s.touched, o.toNat < 2048)
    (hp : Packed (fun q => s.mem (bitmapAddr + BitVec.ofNat 64 q)) pageCount fun _ => false)
    (p q r : List Print) :
    FramesInv ((countFree (markKernelPages 256 3073 ((s.print p).print q))).print r) kernelPage ∧
      HeapKept s ((countFree (markKernelPages 256 3073 ((s.print p).print q))).print r) := by
  obtain ⟨m1, m2, m3, m4, m5, m6⟩ := markKernelPages_spec (s := (s.print p).print q) hb ht hu hto hp
  refine ⟨(framesInv_countFree m2 m3 m4 m5 m1).print r, ?_, ?_⟩
  · simpa [countFree] using m6.head
  · intro x hx
    simpa [countFree] using m6.outside x hx

/-- **`memory_init`** starts the invariant, with the pages of the kernel set. -/
theorem framesInv_memoryInit (hu : s.usedPages = 0) (hto : s.touched = []) :
    FramesInv (memoryInit s) kernelPage ∧ HeapKept s (memoryInit s) := by
  obtain ⟨s₀, p, q, r, h1, h2, h3, h4, h5, h6⟩ := memoryInit_eq s
  obtain ⟨c1, c2, c3, c4, c5, c6⟩ := clearBitmap_spec h1 (by simp [h4, hto])
  have ht : (clearBitmap 2048 s₀).totalPages.toNat = pageCount := by
    rw [c3, h2, pageCount, show (16384 : Word).toNat = 16384 from rfl]
  have hm := framesInv_marked c2 ht (c4.trans (h3.trans hu)) c5 c1 p q r
  rw [h6]
  exact ⟨hm.1, (h5.trans c6).trans hm.2⟩

/-! ## Any sequence of calls -/

/-- **Step.** A call keeps the invariant, for some bits. -/
theorem framesInv_exec (hi : FramesInv s g) (op : FrameOp) :
    HeapKept s (frameExec s op) ∧ ∃ g', FramesInv (frameExec s op) g' := by
  cases op with
  | alloc =>
    obtain ⟨hk, ⟨-, -, -, h⟩ | ⟨j, -, -, -, -, -, h⟩⟩ := allocFrame_cases hi
    · exact ⟨hk, g, h⟩
    · exact ⟨hk, _, h⟩
  | free addr =>
    obtain ⟨hk, ⟨-, h⟩ | ⟨-, h⟩⟩ := freeFrame_cases hi addr
    · exact ⟨hk, _, h⟩
    · exact ⟨hk, g, h⟩

/-- **Run.** Any sequence of calls keeps the invariant. -/
theorem framesInv_run (hi : FramesInv s g) (ops : List FrameOp) :
    ∃ g', FramesInv (ops.foldl frameExec s) g' := by
  induction ops generalizing s g with
  | nil => exact ⟨g, hi⟩
  | cons op ops ih =>
    obtain ⟨-, g', h⟩ := framesInv_exec hi op
    exact ih h

/-- The counters count the bits, and the bitmap is accessed inside its bytes only. -/
structure FramesCounted (s : Memory) : Prop where
  used : s.usedPages.toNat = popcount s.totalPages.toNat (frameBit s)
  counts : s.usedPages.toNat + s.freePages.toNat = s.totalPages.toNat
  inBitmap : ∀ o ∈ s.touched, o.toNat < (s.totalPages.toNat + 7) / 8

theorem FramesInv.counted (hi : FramesInv s g) : FramesCounted s where
  used := by rw [hi.total, popcount_congr fun i h => hi.bit h, hi.used]
  counts := by rw [hi.total, hi.counts]
  inBitmap o ho := (hi.touched o ho).trans_eq (by rw [hi.total]; rfl)

/-- **Frame accounting**: after `memory_init` and any sequence of calls with any addresses,
the counters are the number of set and of clear bits. -/
theorem frame_accounting (m : Mem) (ops : List FrameOp) :
    FramesCounted (ops.foldl frameExec (memoryInit (Memory.boot m))) := by
  obtain ⟨g, hi⟩ := framesInv_run (framesInv_memoryInit (s := Memory.boot m) rfl rfl).1 ops
  exact hi.counted

end Zer0S
