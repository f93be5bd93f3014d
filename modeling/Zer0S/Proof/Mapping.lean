import Zer0S.Lib.Paging
import Zer0S.Proof.Isolation

/-!
# What is handed out is mapped

`setup_long_mode` writes half words, two to an entry of the page tables. `tables_dword` says what
each half word of the three tables is after it, and `tables_entry` puts them together: one entry in
the level 4 table, one in the level 3 table, and 32 entries for 2 MiB each in the level 2 table.

So the walk of the processor maps the first 64 MiB to themselves and nothing else
(`translate_tables`), and everything that the two allocators hand out lies there
(`handed_out_mapped`).
-/

namespace Zer0S

open Lib Tiling

variable {a b : MemoryState} {op : MemoryOp} {l : List Seg} {g : ℕ → Bool} {s : Memory} {m : Mem} {v x : Word}

/-- The size of the memory that the kernel uses. -/
def mappedEnd : ℕ := 64 * 1024 * 1024

/-- The address is mapped to itself, and writable. -/
def Mapped (m : Mem) (x : Word) : Prop := translateAddr (setupLongMode m) pml4Addr x = some ⟨x, true⟩

/-! ## The half words of the tables -/

/-- Half word `d` of the three tables. -/
def dwordAddr (d : ℕ) : Word := BitVec.ofNat 64 (0x1000 + 4 * d)

/-- Half word `d` of the tables after `setup_long_mode`. -/
def tableDword (d : ℕ) : BitVec 32 :=
  if d = 0 then 0x2003
  else if d = 1024 then 0x3003
  else if 2048 ≤ d ∧ d < 2112 ∧ d % 2 = 0 then 0x83 + BitVec.ofNat 32 ((d - 2048) / 2 * 0x200000)
  else 0

theorem sep_dword {d d' : ℕ} (hd : d < 3072) (hd' : d' < 3072) (h : d ≠ d') :
    Sep (dwordAddr d) 4 (dwordAddr d') 4 := by
  rcases lt_or_gt_of_ne h with h | h
  · exact sep_ofNat (by omega) (by omega) (by omega) (by omega)
  · exact (sep_ofNat (by omega) (by omega) (by omega) (by omega)).symm

/-- A half word after a write to a half word. -/
theorem read32_dword {d d' : ℕ} (hd : d < 3072) (hd' : d' < 3072) (v : BitVec 32) :
    (m.write32 (dwordAddr d') v).read32 (dwordAddr d) = if d = d' then v else m.read32 (dwordAddr d) := by
  split_ifs with h
  · rw [h, Mem.read32_write32]
  · exact Mem.read32_write32_sep (sep_dword hd' hd (Ne.symm h)) m v

/-- The clearing of the tables. -/
theorem clearTables_dword {d : ℕ} (hd : d < 3072) : (clearTables m).read32 (dwordAddr d) = 0 := by
  have h := forLoop_ind (f := fun i m => m.write32 (pml4Addr + BitVec.ofNat 64 (4 * i)) 0)
    (fun i (n : Mem) => ∀ d < i, n.read32 (dwordAddr d) = 0) 0 (0x3000 / 4) m (by simp) ?_
  · exact h d hd
  · intro i n _ hi hn d hdi
    have ha : pml4Addr + BitVec.ofNat 64 (4 * i) = dwordAddr i := (BitVec.ofNat_add ..).symm
    simp only [ha]
    rw [read32_dword (by omega) (by omega)]
    split_ifs with h
    · rfl
    · exact hn d (by omega)

/-- The loop that fills the level 2 table. -/
theorem setupPd_dword {d : ℕ} (hd : d < 3072) : (setupPd m).read32 (dwordAddr d) =
    if 2048 ≤ d ∧ d < 2112 ∧ d % 2 = 0 then 0x83 + BitVec.ofNat 32 ((d - 2048) / 2 * 0x200000)
    else m.read32 (dwordAddr d) := by
  have h := forLoop_ind (f := fun i m => m.write32 (pdAddr + BitVec.ofNat 64 (8 * i))
      (0x83 + BitVec.ofNat 32 (i * 0x200000)))
    (fun i (n : Mem) => ∀ d < 3072, n.read32 (dwordAddr d) =
      if 2048 ≤ d ∧ d < 2048 + 2 * i ∧ d % 2 = 0 then 0x83 + BitVec.ofNat 32 ((d - 2048) / 2 * 0x200000)
      else m.read32 (dwordAddr d)) 0 32 m (fun d _ => by rw [if_neg (by omega)]) ?_
  · exact h d hd
  · intro i n _ hi hn d hd
    have ha : pdAddr + BitVec.ofNat 64 (8 * i) = dwordAddr (2048 + 2 * i) := by
      rw [dwordAddr, show 0x1000 + 4 * (2048 + 2 * i) = 0x3000 + 8 * i by omega, BitVec.ofNat_add]
      rfl
    simp only [ha]
    -- round `i` writes the lower half of entry `i`
    rw [read32_dword hd (by omega), hn d hd]
    by_cases hdi : d = 2048 + 2 * i
    · rw [if_pos hdi, if_pos (by omega), show (d - 2048) / 2 = i by omega]
    · rw [if_neg hdi]
      congr 1
      rw [eq_iff_iff]
      omega

/-- **The half words of the tables.** -/
theorem tables_dword {d : ℕ} (hd : d < 3072) : (setupLongMode m).read32 (dwordAddr d) = tableDword d := by
  have h0 : pml4Addr = dwordAddr 0 := rfl
  have h1 : pdptAddr = dwordAddr 1024 := rfl
  simp only [setupLongMode, h0, h1]
  rw [setupPd_dword hd, read32_dword hd (by omega), read32_dword hd (by omega), clearTables_dword hd]
  unfold tableDword
  split_ifs <;> first | rfl | omega

/-! ## The entries -/

/-- Entry `j` of the three tables. -/
def tableWord (j : ℕ) : Word :=
  if j = 0 then 0x2003
  else if j = 512 then 0x3003
  else if 1024 ≤ j ∧ j < 1056 then 0x83 + BitVec.ofNat 64 ((j - 1024) * 0x200000)
  else 0

theorem toNat_tableWord {j : ℕ} (hj : j < 1536) :
    (tableWord j).toNat = (tableDword (2 * j)).toNat + 2 ^ 32 * (tableDword (2 * j + 1)).toNat := by
  -- the upper halves are never written after they are cleared
  have hodd : tableDword (2 * j + 1) = 0 := by
    unfold tableDword
    rw [if_neg (by omega), if_neg (by omega), if_neg (by omega)]
  rw [hodd]
  unfold tableWord tableDword
  by_cases h0 : j = 0
  · rw [if_pos h0, if_pos (by omega)]
    rfl
  by_cases h1 : j = 512
  · rw [if_neg h0, if_pos h1, if_neg (by omega), if_pos (by omega)]
    rfl
  rw [if_neg h0, if_neg h1, if_neg (show ¬ 2 * j = 0 by omega), if_neg (show ¬ 2 * j = 1024 by omega)]
  by_cases h2 : 1024 ≤ j ∧ j < 1056
  · rw [if_pos h2, if_pos (by omega), show (2 * j - 2048) / 2 = j - 1024 by omega, BitVec.toNat_add,
      BitVec.toNat_add, BitVec.toNat_ofNat, BitVec.toNat_ofNat]
    have h64 : (0x83 : Word).toNat = 0x83 := rfl
    have h32 : (0x83 : BitVec 32).toNat = 0x83 := rfl
    have hz : (0 : BitVec 32).toNat = 0 := rfl
    omega
  · rw [if_neg h2, if_neg (by omega)]
    rfl

/-- **The entries of the tables.** -/
theorem tables_entry {j : ℕ} (hj : j < 1536) :
    (setupLongMode m).read64 (BitVec.ofNat 64 (0x1000 + 8 * j)) = tableWord j := by
  have hlo : BitVec.ofNat 64 (0x1000 + 8 * j) = dwordAddr (2 * j) := by
    rw [dwordAddr, show 0x1000 + 4 * (2 * j) = 0x1000 + 8 * j by omega]
  have hhi : BitVec.ofNat 64 (0x1000 + 8 * j) + 4 = dwordAddr (2 * j + 1) := by
    rw [dwordAddr, show 0x1000 + 4 * (2 * j + 1) = 0x1000 + 8 * j + 4 by omega]
    exact (BitVec.ofNat_add (0x1000 + 8 * j) 4).symm
  apply BitVec.eq_of_toNat_eq
  rw [Mem.toNat_read64, hhi, hlo, tables_dword (by omega), tables_dword (by omega), toNat_tableWord hj]

/-- The entry that a walk finds in table `t`. -/
theorem walk_entry {n t : ℕ} (ht : t < 3) : tableEntry (setupLongMode m) v n (BitVec.ofNat 64 (0x1000 + 4096 * t)) =
    tableWord (512 * t + v.toNat / 2 ^ pageShift n % 512) := by
  have hlt := Nat.mod_lt (v.toNat / 2 ^ pageShift n) (show 0 < 512 by omega)
  rw [tableEntry, ← BitVec.ofNat_add, ← tables_entry (m := m) (by omega)]
  congr 2
  omega

/-- An entry of the level 2 table. -/
structure LargePage (i : ℕ) (e : Word) : Prop where
  present : present e = true
  writable : writable e = true
  valid : reserved 1 e = false
  large : mapsPage 1 e = true
  frame : frameOf 21 e = BitVec.ofNat 64 (i * 2 ^ 21)

theorem largePage {i : ℕ} (hi : i < 32) : LargePage i (tableWord (1024 + i)) := by
  have h : ∀ i < 32, present (tableWord (1024 + i)) = true ∧ writable (tableWord (1024 + i)) = true ∧
      reserved 1 (tableWord (1024 + i)) = false ∧ mapsPage 1 (tableWord (1024 + i)) = true ∧
      frameOf 21 (tableWord (1024 + i)) = BitVec.ofNat 64 (i * 2 ^ 21) := by decide +kernel
  obtain ⟨h1, h2, h3, h4, h5⟩ := h i hi
  exact ⟨h1, h2, h3, h4, h5⟩

/-! ## The walk -/

/-- The walk from the level 2 table. -/
theorem walk_pd {w : Bool} (hv : v.toNat < 2 ^ 30) :
    walk (setupLongMode m) v 2 0x3000 w = if v.toNat < mappedEnd then some ⟨v, w⟩ else none := by
  -- below 1 GiB the index is the number of the large page
  have hidx : v.toNat / 2 ^ pageShift 1 % 512 = v.toNat / 2 ^ 21 := by
    rw [pageShift, Nat.mod_eq_of_lt (by omega)]
  have he := walk_entry (m := m) (v := v) (n := 1) (t := 2) (by omega)
  rw [hidx] at he
  unfold mappedEnd
  split_ifs with hlt
  · have hp := largePage (i := v.toNat / 2 ^ 21) (by omega)
    rw [show (0x3000 : Word) = BitVec.ofNat 64 (0x1000 + 4096 * 2) from rfl,
      walk_page he hp.present hp.valid hp.large, pageShift, hp.frame, hp.writable, Bool.and_true,
      ← BitVec.ofNat_add, Nat.div_add_mod', BitVec.ofNat_toNat, BitVec.setWidth_eq]
  · apply walk_absent
    rw [show (0x3000 : Word) = BitVec.ofNat 64 (0x1000 + 4096 * 2) from rfl, he, tableWord, if_neg (by omega),
      if_neg (by omega), if_neg (by omega)]
    rfl

/-- The walk from the level 3 table, which has one entry. -/
theorem walk_pdpt (hv : v.toNat < 2 ^ 39) :
    walk (setupLongMode m) v 3 0x2000 true = if v.toNat < mappedEnd then some ⟨v, true⟩ else none := by
  have he := walk_entry (m := m) (v := v) (n := 2) (t := 1) (by omega)
  rw [show BitVec.ofNat 64 (0x1000 + 4096 * 1) = (0x2000 : Word) from rfl, show pageShift 2 = 30 from rfl,
    Nat.mod_eq_of_lt (by omega)] at he
  by_cases hi : v.toNat / 2 ^ 30 = 0
  · rw [hi] at he
    rw [walk_table he (by decide) (by decide) (by decide), show frameOf 12 (tableWord (512 * 1 + 0)) = 0x3000 by decide,
      show (true && writable (tableWord (512 * 1 + 0))) = true by decide, walk_pd (by omega)]
  · rw [if_neg (by unfold mappedEnd; omega)]
    apply walk_absent
    rw [he, tableWord, if_neg (by omega), if_neg (by omega), if_neg (by omega)]
    rfl

/-- The walk from the level 4 table, which has one entry. -/
theorem walk_pml4 (hc : canonical v = true) :
    walk (setupLongMode m) v 4 0x1000 true = if v.toNat < mappedEnd then some ⟨v, true⟩ else none := by
  -- a canonical address in the upper half has index 256 or more here
  have hcan := toNat_of_canonical hc
  have he := walk_entry (m := m) (v := v) (n := 3) (t := 0) (by omega)
  rw [show BitVec.ofNat 64 (0x1000 + 4096 * 0) = (0x1000 : Word) from rfl, show pageShift 3 = 39 from rfl] at he
  by_cases hi : v.toNat / 2 ^ 39 % 512 = 0
  · rw [hi] at he
    rw [walk_table he (by decide) (by decide) (by decide), show frameOf 12 (tableWord (512 * 0 + 0)) = 0x2000 by decide,
      show (true && writable (tableWord (512 * 0 + 0))) = true by decide, walk_pdpt (by omega)]
  · rw [if_neg (by unfold mappedEnd; omega)]
    apply walk_absent
    rw [he, tableWord, if_neg (by omega), if_neg (by omega), if_neg (by omega)]
    rfl

/-- **The translation of every address**: the first 64 MiB are mapped to themselves, and nothing
else is mapped. -/
theorem translate_tables :
    translateAddr (setupLongMode m) pml4Addr v = if v.toNat < mappedEnd then some ⟨v, true⟩ else none := by
  rw [translateAddr]
  by_cases hc : canonical v = true
  · rw [if_pos hc, show frameOf 12 pml4Addr = 0x1000 by decide, walk_pml4 hc]
  · -- not canonical, so not below 64 MiB either
    rw [if_neg hc, if_neg fun hlt => hc (canonical_of_lt (by unfold mappedEnd at hlt; omega))]

/-! ## What is handed out -/

/-- The invariant of both allocators when any address may be freed as a frame. -/
structure TakenInv (a : MemoryState) (l : List Seg) (g : ℕ → Bool) : Prop where
  heap : RunInv ⟨a.s, a.live⟩ l
  inv : FramesInv a.s g
  frames : ∀ f ∈ a.frames, ∃ j < pageCount, f = pageAddr j

/-- **Step.** -/
theorem takenInv_step (hi : TakenInv a l g) (hs : AnyFrameStep a op b) : ∃ l' g', TakenInv b l' g' := by
  cases hs with
  | heap hs =>
    obtain ⟨hk, l', hi'⟩ := runInv_step hi.heap hs
    exact ⟨l', g, hi', hi.inv.of_kept hk, hi.frames⟩
  | @frame op =>
    obtain ⟨hk, g', hi'⟩ := framesInv_exec hi.inv op
    -- the frame allocator writes to the bitmap only, which is below the heap
    refine ⟨l, g', ⟨hi.heap.heap.of_kept hk, hi.heap.live, hi.heap.nodup⟩, hi', ?_⟩
    cases op with
    | free addr => exact hi.frames
    | alloc =>
      simp only [everTaken]
      obtain ⟨-, ⟨-, hn, -⟩ | ⟨j, hj, -, -, hn, ha, -⟩⟩ := allocFrame_cases hi.inv
      · rw [if_pos hn]
        exact hi.frames
      · rw [if_neg hn, List.forall_mem_cons]
        exact ⟨⟨j, hj, ha⟩, hi.frames⟩

/-- A byte of a page below 64 MiB. -/
theorem toNat_pageByte {j i : ℕ} (hj : j < pageCount) (hi : i < 4096) :
    (pageAddr j + BitVec.ofNat 64 i).toNat < mappedEnd := by
  unfold pageCount at hj
  rw [BitVec.toNat_add, toNat_pageAddr hj, BitVec.toNat_ofNat, mappedEnd]
  omega

/-- A byte of a live payload. -/
theorem toNat_payload (hi : RunInv ⟨s, a.live⟩ l) {e : Alloc} (he : e ∈ a.live) (hx : InPayload s.mem e x) :
    x.toNat < mappedEnd := by
  obtain ⟨p, k, hb⟩ := hi.live e he
  have hbd := hi.heap.bounds hb.used
  have hp := hb.toNat_ptr hi.heap
  have hk := hb.size hi.heap
  rw [heapBase_eq, heapEnd_eq] at hbd
  rw [InPayload, hb.header_eq hi.heap, BitVec.lt_def, hk] at hx
  unfold mappedEnd
  bv_omega

/-- **What is handed out is mapped.** The tables that `setup_long_mode` builds map the first 64 MiB
to themselves, writable, and no other address. After `memory_init` and any run of callers of the
two allocators, all bytes of the frames that were ever taken and of the payloads behind the live
pointers are mapped. -/
theorem handed_out_mapped {tr : List (Transition MemoryState MemoryOp)}
    (hr : Run AnyFrameStep ⟨memoryInit (Memory.boot m), [], []⟩ tr a) (boot : Mem) :
    (∀ v, v.toNat < mappedEnd → Mapped boot v) ∧
    (∀ v, mappedEnd ≤ v.toNat → translateAddr (setupLongMode boot) pml4Addr v = none) ∧
    (∀ f ∈ a.frames, ∀ i < 4096, Mapped boot (f + BitVec.ofNat 64 i)) ∧
    ∀ e ∈ a.live, ∀ x, InPayload a.s.mem e x → Mapped boot x := by
  have hmap : ∀ v, v.toNat < mappedEnd → Mapped boot v := fun v hv => by
    rw [Mapped, translate_tables, if_pos hv]
  have hinit := framesInv_memoryInit (s := Memory.boot m) rfl rfl
  have hstart : TakenInv ⟨memoryInit (Memory.boot m), [], []⟩ freshHeap kernelPage :=
    ⟨runInv_start hinit.2.head, hinit.1, by simp⟩
  obtain ⟨⟨l, g, hi⟩, -⟩ := hr.invariant (I := fun a => ∃ l g, TakenInv a l g) ⟨_, _, hstart⟩
    fun _ _ _ ⟨_, _, hi⟩ hs => takenInv_step hi hs
  refine ⟨hmap, ?_, ?_, fun e he x hx => hmap x (toNat_payload hi.heap he hx)⟩
  · intro v hv
    rw [translate_tables, if_neg (by omega)]
  · intro f hf i hlt
    obtain ⟨j, hj, rfl⟩ := hi.frames f hf
    exact hmap _ (toNat_pageByte hj hlt)

/-- A run of one request to each allocator. -/
theorem handed_out_mapped_two : ∃ tr a, Run AnyFrameStep ⟨memoryInit (Memory.boot fun _ => 0), [], []⟩ tr a ∧
    tr.map Transition.label = [.heap (.kmalloc 100), .frame .alloc] ∧
    (∀ f ∈ a.frames, ∀ i < 4096, Mapped (fun _ => 0) (f + BitVec.ofNat 64 i)) ∧
    ∀ e ∈ a.live, ∀ x, InPayload a.s.mem e x → Mapped (fun _ => 0) x := by
  have hheap : HeapAt (memoryInit (Memory.boot fun _ => 0)) freshHeap :=
    (runInv_start (framesInv_memoryInit rfl rfl).2.head).heap
  obtain ⟨n, ⟨ptr, s'⟩, hk⟩ := kmalloc_returns hheap 100
  have hr := Run.cons (AnyFrameStep.heap (a := ⟨memoryInit (Memory.boot fun _ => 0), [], []⟩) (.kmalloc hk))
    (.cons (@AnyFrameStep.frame _ .alloc) (.nil _))
  exact ⟨_, _, hr, rfl, (handed_out_mapped hr fun _ => 0).2.2⟩

end Zer0S
