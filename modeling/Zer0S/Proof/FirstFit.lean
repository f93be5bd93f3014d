import Zer0S.Proof.HeapRelease

/-!
# What one request or one free does to the block list

`kmalloc` takes the free block with the lowest address that is large enough, and changes no
other block (`kmalloc_first_fit`). `kfree` changes no other block that is in use, and whatever
was granted before is granted after it (`kfree_capacity`).

Both are about the list of blocks in memory. Before the first request there is none, and then
they are about the one that the first request sets up (`heapSetup`).
-/

namespace Zer0S

open Lib Tiling

variable {h : HeapState} {l l' : List Seg} {s s' : Memory} {w ptr a : Word} {n r : ℕ}

/-- The blocks from `heap_head` on, in order. -/
def BlockList (s : Memory) (l : List Word) : Prop := Chain (nextBlock s.mem) (toPtr s.heapHead) l

/-- The block `a` is free and has at least `r` bytes. -/
structure FreeBlock (s : Memory) (r : ℕ) (a : Word) : Prop where
  block : IsBlock s a
  free : (heapBlock s.mem a).used = 0
  fits : r ≤ (heapBlock s.mem a).size.toNat

/-- The same blocks, with the same headers. -/
structure SameBlocks (s s' : Memory) : Prop where
  list : ∃ l, BlockList s l ∧ BlockList s' l
  headers : ∀ a, IsBlock s a → heapBlock s'.mem a = heapBlock s.mem a

/-- The blocks that `kmalloc` leaves behind the block `a`: none, when it hands out `a` as a whole,
or one free block of at least 32 bytes with what it did not hand out. -/
def RestOf (s s' : Memory) (a : Word) (rest : List Word) : Prop :=
  rest = [] ∧ (heapBlock s'.mem a).size = (heapBlock s.mem a).size ∨
    ∃ b, rest = [b] ∧ b.toNat = a.toNat + 24 + (heapBlock s'.mem a).size.toNat ∧ (heapBlock s'.mem b).used = 0 ∧
      32 ≤ (heapBlock s'.mem b).size.toNat ∧
      (heapBlock s'.mem a).size.toNat + 24 + (heapBlock s'.mem b).size.toNat = (heapBlock s.mem a).size.toNat

/-- The request for `r` bytes took the first block that fits, `a`. -/
structure TookFirst (s s' : Memory) (r : ℕ) (a : Word) : Prop where
  free : FreeBlock s r a
  lowest : ∀ b, FreeBlock s r b → a.toNat ≤ b.toNat
  used : (heapBlock s'.mem a).used = 1
  size : r ≤ (heapBlock s'.mem a).size.toNat ∧ (heapBlock s'.mem a).size.toNat < r + 56
  list : ∃ pre rest post, BlockList s (pre ++ a :: post) ∧ BlockList s' (pre ++ a :: (rest ++ post)) ∧
    RestOf s s' a rest
  others : ∀ b, IsBlock s b → b ≠ a → IsBlock s' b ∧ heapBlock s'.mem b = heapBlock s.mem b

/-- Some call of `kmalloc` for `w` bytes returns a block. -/
def Grants (s : Memory) (w : Word) : Prop := ∃ n ptr s', kmalloc n w s = some (ptr, s') ∧ ptr ≠ 0

/-! ## Memory and tiling -/

theorem blocks_append {c : ℕ} : blocks c (l ++ l') = blocks c l ++ blocks (c + Tiling.span 24 l) l' := by
  rw [blocks, place_append, List.map_append]
  rfl

theorem HeapInv.list (hi : HeapInv s l) : BlockList s (blocks heapBase l) := hi.chain

/-- One tiling, one list of blocks. -/
theorem HeapInv.same (hi : HeapInv s l) (hi' : HeapInv s' l) : SameBlocks s s' := by
  refine ⟨⟨_, hi.list, hi'.list⟩, ?_⟩
  intro a ha
  obtain ⟨y, hy, rfl⟩ := List.mem_map.1 (hi.isBlock_iff.1 ha)
  rw [(hi.block hy).1, (hi'.block hy).1]

/-- A block that is placed in both tilings keeps its header. -/
theorem HeapInv.kept (hi : HeapInv s l) (hi' : HeapInv s' l') {y : ℕ × Seg} (hy : y ∈ place 24 heapBase l)
    (hy' : y ∈ place 24 heapBase l') :
    IsBlock s' (BitVec.ofNat 64 y.1) ∧
      heapBlock s'.mem (BitVec.ofNat 64 y.1) = heapBlock s.mem (BitVec.ofNat 64 y.1) := by
  refine ⟨hi'.isBlock_iff.2 (List.mem_map_of_mem hy'), ?_⟩
  rw [(hi.block hy).1, (hi'.block hy').1]

/-- The free blocks, in memory and in the tiling. -/
theorem freeBlock_iff (hi : HeapInv s l) :
    FreeBlock s r a ↔ ∃ y ∈ place 24 heapBase l, a = BitVec.ofNat 64 y.1 ∧ y.2.used = false ∧ r ≤ y.2.size := by
  constructor
  · rintro ⟨hb, hf, hr⟩
    obtain ⟨y, hy, rfl⟩ := List.mem_map.1 (hi.isBlock_iff.1 hb)
    obtain ⟨h1, -, h3, -⟩ := hi.block hy
    rw [h1] at hf hr
    exact ⟨y, hy, rfl, header_used.1 hf, h3 ▸ hr⟩
  · rintro ⟨y, hy, rfl, hf, hr⟩
    obtain ⟨h1, -, h3, -⟩ := hi.block hy
    refine ⟨hi.isBlock_iff.2 (List.mem_map_of_mem hy), ?_, ?_⟩
    · rw [h1, header_used, hf]
    · rw [h1, h3]
      exact hr

/-- There is room in the tiling when some block in memory fits. -/
theorem HeapInv.room_iff (hi : HeapInv s l) : Room r l ↔ ∃ a, FreeBlock s r a := by
  constructor
  · rintro ⟨b, hb, hf, hr⟩
    rw [← map_snd_place 24 heapBase l] at hb
    obtain ⟨y, hy, rfl⟩ := List.mem_map.1 hb
    exact ⟨_, (freeBlock_iff hi).2 ⟨y, hy, rfl, hf, hr⟩⟩
  · rintro ⟨a, ha⟩
    obtain ⟨y, hy, -, hf, hr⟩ := (freeBlock_iff hi).1 ha
    refine ⟨y.2, ?_, hf, hr⟩
    rw [← map_snd_place 24 heapBase l]
    exact List.mem_map_of_mem hy

/-! ## Requests -/

/-- **When a request fails.** -/
theorem kmalloc_null_iff (hi : HeapAt s l) (hw : w ≠ 0) (hk : kmalloc n w s = some (ptr, s')) :
    ptr = 0 ↔ ¬ ∃ a, FreeBlock (heapSetup s) (roundUp w).toNat a := by
  rw [← hi.setup.room_iff, Tiling.room_iff 24 32 heapBase]
  rcases kmalloc_cases hi hk with ⟨h0, -⟩ | ⟨-, hnone, h0, -⟩ | ⟨-, p, l', hff, -, h0, -⟩
  · exact absurd h0 hw
  · simp [hnone, h0]
  · exact iff_of_false h0 fun h => h ⟨p, l', hff⟩

/-- **When a request is granted.** -/
theorem grants_iff (hi : HeapAt s l) : Grants s w ↔ w ≠ 0 ∧ ∃ a, FreeBlock (heapSetup s) (roundUp w).toNat a := by
  constructor
  · rintro ⟨n, ptr, s', hk, h0⟩
    have hw : w ≠ 0 := by
      rintro rfl
      rw [kmalloc, if_pos rfl] at hk
      simp only [Option.some.injEq, Prod.mk.injEq] at hk
      exact h0 hk.1.symm
    exact ⟨hw, not_not.1 ((kmalloc_null_iff hi hw hk).not.1 h0)⟩
  · rintro ⟨hw, ha⟩
    obtain ⟨n, ⟨ptr, s'⟩, hk⟩ := kmalloc_returns hi w
    exact ⟨n, ptr, s', hk, (kmalloc_null_iff hi hw hk).not.2 (not_not.2 ha)⟩

section Took

variable {pre post : List Seg} {b : Seg}

/-- The block that a request takes is placed behind those before it. -/
theorem head_placed : (heapBase + Tiling.span 24 pre, b) ∈ place 24 heapBase (pre ++ b :: post) := by
  rw [mem_place_append]
  exact Or.inr List.mem_cons_self

/-- What it hands out of the block stays there. -/
theorem taken_placed : (heapBase + Tiling.span 24 pre, (⟨taken 24 32 r b, true⟩ : Seg)) ∈
    place 24 heapBase (pre ++ split 24 32 r b ++ post) := by
  rw [List.append_assoc, mem_place_append, mem_place_append]
  refine Or.inr (Or.inl ?_)
  unfold Tiling.split taken
  split_ifs <;> exact List.mem_cons_self

/-- What it splits off is behind that. -/
theorem rest_placed (hs : r + 24 + 32 ≤ b.size) :
    (heapBase + Tiling.span 24 pre + (24 + r), (⟨b.size - r - 24, false⟩ : Seg)) ∈
      place 24 heapBase (pre ++ split 24 32 r b ++ post) := by
  rw [List.append_assoc, mem_place_append, mem_place_append, Tiling.split, if_pos hs]
  exact Or.inr (Or.inl (List.mem_cons_of_mem _ List.mem_cons_self))

/-- No free block before it fits. -/
theorem first_lowest (hi : HeapInv s (pre ++ b :: post)) (hpre : ∀ t ∈ pre, t.used = true ∨ t.size < r)
    (hc : FreeBlock s r a) : heapBase + Tiling.span 24 pre ≤ a.toNat := by
  obtain ⟨y, hy, rfl, hyf, hyr⟩ := (freeBlock_iff hi).1 hc
  rw [(hi.block hy).2.1]
  rw [mem_place_append, place_cons, List.mem_cons] at hy
  rcases hy with hy | rfl | hy
  · have hyp : y.2 ∈ pre := by
      rw [← map_snd_place 24 heapBase pre]
      exact List.mem_map_of_mem hy
    rcases hpre _ hyp with h | h
    · rw [h] at hyf
      cases hyf
    · omega
  · exact le_rfl
  · have := (place_bounds hy).1
    omega

theorem blocks_split (pre post : List Seg) (b : Seg) (r : ℕ) :
    ∃ rest, blocks heapBase (pre ++ split 24 32 r b ++ post) =
      blocks heapBase pre ++ BitVec.ofNat 64 (heapBase + Tiling.span 24 pre) ::
        (rest ++ blocks (heapBase + Tiling.span 24 pre + Tiling.span 24 (split 24 32 r b)) post) ∧
    (rest = [] ∧ ¬ r + 24 + 32 ≤ b.size ∨
      rest = [BitVec.ofNat 64 (heapBase + Tiling.span 24 pre + (24 + r))] ∧ r + 24 + 32 ≤ b.size) := by
  rw [List.append_assoc, blocks_append, blocks_append]
  by_cases hs : r + 24 + 32 ≤ b.size
  · refine ⟨[_], ?_, Or.inr ⟨rfl, hs⟩⟩
    rw [Tiling.split, if_pos hs]
    rfl
  · refine ⟨[], ?_, Or.inl ⟨rfl, hs⟩⟩
    rw [Tiling.split, if_neg hs]
    rfl

/-- The list of blocks before and after. -/
theorem list_taken (hi : HeapInv s (pre ++ b :: post)) (hi' : HeapInv s' (pre ++ split 24 32 r b ++ post))
    (hr : r ≤ b.size) : ∃ as rest bs, BlockList s (as ++ BitVec.ofNat 64 (heapBase + Tiling.span 24 pre) :: bs) ∧
      BlockList s' (as ++ BitVec.ofNat 64 (heapBase + Tiling.span 24 pre) :: (rest ++ bs)) ∧
      RestOf s s' (BitVec.ofNat 64 (heapBase + Tiling.span 24 pre)) rest := by
  set p := heapBase + Tiling.span 24 pre with hp
  obtain ⟨h1, h2, h3, -⟩ := hi.block head_placed
  obtain ⟨h1', -, h3', -⟩ := hi'.block taken_placed
  simp only [← hp] at h1 h2 h3 h1' h3'
  obtain ⟨rest, hl, hrest⟩ := blocks_split pre post b r
  rw [span_split hr] at hl
  refine ⟨blocks heapBase pre, rest, blocks (p + (24 + b.size)) post, ?_, hl ▸ hi'.list, ?_⟩
  · have := hi.list
    rwa [blocks_append] at this
  rw [RestOf, h1', h1, h3, h3', h2]
  rcases hrest with ⟨rfl, hs⟩ | ⟨rfl, hs⟩
  · refine Or.inl ⟨rfl, ?_⟩
    simp only [header, taken, if_neg hs]
  · obtain ⟨h1'', h2'', h3'', -⟩ := hi'.block (rest_placed hs)
    simp only [← hp] at h1'' h2'' h3''
    refine Or.inr ⟨_, rfl, ?_⟩
    rw [h1'', h2'', h3'', taken, if_pos hs]
    exact ⟨by omega, rfl, by omega, by omega⟩

/-- The other blocks stay placed. -/
theorem other_placed (hr : r ≤ b.size) {y : ℕ × Seg} (hy : y ∈ place 24 heapBase (pre ++ b :: post))
    (hne : y.1 ≠ heapBase + Tiling.span 24 pre) : y ∈ place 24 heapBase (pre ++ split 24 32 r b ++ post) := by
  rw [List.append_assoc, mem_place_append, mem_place_append, span_split hr]
  rw [mem_place_append, place_cons, List.mem_cons] at hy
  rcases hy with hy | rfl | hy
  · exact Or.inl hy
  · exact absurd rfl hne
  · exact Or.inr (Or.inr hy)

/-- **The block that a request takes**, in memory. -/
theorem tookFirst (hi : HeapInv s (pre ++ b :: post)) (hi' : HeapInv s' (pre ++ split 24 32 r b ++ post))
    (hf : b.used = false) (hr : r ≤ b.size) (hpre : ∀ t ∈ pre, t.used = true ∨ t.size < r) :
    TookFirst s s' r (BitVec.ofNat 64 (heapBase + Tiling.span 24 pre)) := by
  obtain ⟨-, h2, -⟩ := hi.block head_placed
  obtain ⟨h1', -, h3', -⟩ := hi'.block taken_placed
  simp only at h2 h1' h3'
  refine ⟨(freeBlock_iff hi).2 ⟨_, head_placed, rfl, hf, hr⟩, ?_, ?_, ?_, list_taken hi hi' hr,
    ?_⟩
  · intro c hc
    rw [h2]
    exact first_lowest hi hpre hc
  · rw [h1']
    rfl
  · rw [h1', h3']
    unfold taken
    split_ifs <;> omega
  · intro c hc hne
    obtain ⟨y, hy, rfl⟩ := List.mem_map.1 (hi.isBlock_iff.1 hc)
    exact hi.kept hi' hy (other_placed hr hy fun he => hne (by rw [he]))

end Took

/-- The size of a request, rounded up to a multiple of 8. -/
theorem toNat_roundUp_le (hw : w.toNat ≤ 2 ^ 64 - 8) : (roundUp w).toNat = (w.toNat + 7) / 8 * 8 := by
  rw [toNat_roundUp, Nat.mod_eq_of_lt (by omega)]

/-- **`kmalloc` is first fit**, in every state of a run and for every request of 1 to `2 ^ 64 - 8`
bytes, rounded up to a multiple of 8: it returns; NULL exactly when no free block is large enough,
and then no block changes; else the payload of the first free block that is. -/
theorem kmalloc_first_fit {tr : List (Transition HeapState HeapOp)} (hs : s.heapHead = 0)
    (hr : Run HeapStep ⟨s, []⟩ tr h) (h0 : 0 < w.toNat) (hw : w.toNat ≤ 2 ^ 64 - 8) :
    (∃ n x, kmalloc n w h.s = some x) ∧ ∀ n ptr s', kmalloc n w h.s = some (ptr, s') →
      (ptr = 0 ↔ ¬ ∃ a, FreeBlock (heapSetup h.s) ((w.toNat + 7) / 8 * 8) a) ∧
      (ptr = 0 → SameBlocks (heapSetup h.s) s') ∧
      (ptr ≠ 0 → ∃ a, ptr = a + sizeofHeapBlock ∧ TookFirst (heapSetup h.s) s' ((w.toNat + 7) / 8 * 8) a) := by
  obtain ⟨⟨l, hi⟩, -⟩ := runInv_run hs hr
  have hw0 : w ≠ 0 := by
    rintro rfl
    simp at h0
  refine ⟨kmalloc_returns hi.heap w, ?_⟩
  intro n ptr s' hk
  have hsetup := hi.heap.setup
  rw [← toNat_roundUp_le hw]
  refine ⟨kmalloc_null_iff hi.heap hw0 hk, ?_, ?_⟩
  · intro hp
    rcases kmalloc_cases hi.heap hk with ⟨h, -⟩ | ⟨-, -, -, hinv, -⟩ | ⟨-, _, _, -, -, h, -⟩
    · exact absurd h hw0
    · exact hsetup.same hinv
    · exact absurd hp h
  · intro hp
    rcases kmalloc_cases hi.heap hk with ⟨h, -⟩ | ⟨-, -, h, -⟩ | ⟨-, p, l', hff, rfl, -, hinv, -⟩
    · exact absurd h hw0
    · exact absurd h hp
    · obtain ⟨pre, b, post, rfl, hf, hle, rfl, rfl, hpre⟩ := firstFit_spec hff
      exact ⟨_, rfl, tookFirst hsetup hinv hf hle hpre⟩

/-- A request for 100 bytes takes the start of the second block, once the first one is in use. -/
theorem kmalloc_first_fit_second : ∃ tr h s', Run HeapStep ⟨Memory.boot fun _ => 0, []⟩ tr h ∧
    tr.map Transition.label = [.kmalloc 64] ∧ kmalloc 3 100 h.s = some (0x2000070, s') ∧
    TookFirst (heapSetup h.s) s' 104 0x2000058 := by
  obtain ⟨tr, h, hr, hl, hc⟩ := exists_run_of_replay (heapExec_step (n := 3))
    (P := fun _ h => decide ((kmalloc 3 100 h.s).map Prod.fst = some 0x2000070))
    (s := ⟨Memory.boot fun _ => 0, []⟩) (l := [.kmalloc 64]) (by decide +kernel)
  obtain ⟨⟨ptr, s'⟩, hk, rfl⟩ := Option.map_eq_some_iff.1 (of_decide_eq_true hc)
  obtain ⟨-, -, htook⟩ := (kmalloc_first_fit (w := 100) rfl hr (by decide) (by decide)).2 3 _ s' hk
  obtain ⟨a, ha, ht⟩ := htook (by decide)
  obtain rfl : a = 0x2000058 := by
    have := congrArg (· - sizeofHeapBlock) ha
    simp only [BitVec.add_sub_cancel] at this
    exact this.symm
  exact ⟨tr, h, s', hr, hl, hk, ht⟩

/-! ## Frees -/

/-- **Freeing loses nothing**, in every state of a run and for every live pointer: a request that
would have been granted before is granted after, and so is one for at most the payload of the
freed block; the other live blocks stay as they are. -/
theorem kfree_capacity {tr : List (Transition HeapState HeapOp)} (hs : s.heapHead = 0)
    (hr : Run HeapStep ⟨s, []⟩ tr h) {e : Alloc} (he : e ∈ h.live) :
    (∀ w, Grants h.s w → Grants (kfree e.ptr h.s) w) ∧
    (∀ w, w ≠ 0 → roundUp w ≤ (heapBlock h.s.mem (e.ptr - sizeofHeapBlock)).size → Grants (kfree e.ptr h.s) w) ∧
    ∀ e' ∈ h.live, e'.ptr ≠ e.ptr → IsBlock (kfree e.ptr h.s) (e'.ptr - sizeofHeapBlock) ∧
      heapBlock (kfree e.ptr h.s).mem (e'.ptr - sizeofHeapBlock) =
        heapBlock h.s.mem (e'.ptr - sizeofHeapBlock) := by
  obtain ⟨⟨l, hi⟩, -⟩ := runInv_run hs hr
  obtain ⟨p, k, hb⟩ := hi.live e he
  have hinv := hi.heap.inv_of_used hb.used
  have hfree := (heapInv_kfree hinv hb.used).1
  rw [← hb.ptr] at hfree
  have hat : HeapAt (kfree e.ptr h.s) (release 24 p heapBase l) := Or.inr hfree
  have hsize := hb.size hi.heap
  rw [← hb.header_eq hi.heap] at hsize
  obtain ⟨pre, post, hl, hp⟩ := exists_split_of_mem hb.used
  simp only at hl hp
  have hrel : release 24 p heapBase l = pre ++ merge 24 ⟨k, true⟩ post := by
    rw [hl, hp, release_spec (by omega)]
  refine ⟨?_, ?_, ?_⟩
  · intro w hw
    rw [grants_iff hi.heap, ← hi.heap.setup.room_iff] at hw
    rw [grants_iff hat, ← hat.setup.room_iff, hrel]
    exact ⟨hw.1, room_merge (hl ▸ hw.2) rfl⟩
  · intro w hw hle
    rw [grants_iff hat, ← hat.setup.room_iff, hrel]
    rw [BitVec.le_def, hsize] at hle
    exact ⟨hw, room_merge_self hle⟩
  · intro e' he' hne
    obtain ⟨q, j, hq⟩ := hi.live e' he'
    have hqp : q ≠ p := by
      rintro rfl
      exact hne (hq.ptr.trans hb.ptr.symm)
    have hu := (usedAt_release (by omega) hb.used).2 ⟨hq.used, hqp⟩
    rw [hq.addr]
    exact hinv.kept hfree (y := (q, ⟨j, true⟩)) hq.used hu

/-- The second of three blocks is freed: what it held is granted. -/
theorem kfree_capacity_middle : ∃ tr h, Run HeapStep ⟨Memory.boot fun _ => 0, []⟩ tr h ∧
    tr.map Transition.label = [.kmalloc 64, .kmalloc 4096, .kmalloc 64] ∧
    Grants (kfree 0x2000070 h.s) 4090 := by
  obtain ⟨tr, h, hr, hl, hc⟩ := exists_run_of_replay (heapExec_step (n := 4))
    (P := fun _ h => decide ((h.live.map Alloc.ptr).contains 0x2000070 ∧
      roundUp 4090 ≤ (heapBlock h.s.mem (0x2000070 - sizeofHeapBlock)).size))
    (s := ⟨Memory.boot fun _ => 0, []⟩) (l := [.kmalloc 64, .kmalloc 4096, .kmalloc 64]) (by decide +kernel)
  obtain ⟨hm, hle⟩ := of_decide_eq_true hc
  obtain ⟨e, he, hp⟩ := List.mem_map.1 (List.contains_iff_mem.1 hm)
  obtain ⟨-, hg, -⟩ := kfree_capacity rfl hr he
  rw [hp] at hg
  exact ⟨tr, h, hr, hl, hg 4090 (by decide) hle⟩

/-- A request for 0 bytes is never granted, also after a block was freed, though 0 rounded up is
at most the payload of that block. -/
theorem kmalloc_zero_fails : ∃ tr h, Run HeapStep ⟨Memory.boot fun _ => 0, []⟩ tr h ∧
    tr.map Transition.label = [.kmalloc 64] ∧ h.live.map Alloc.ptr = [0x2000018] ∧
    roundUp 0 ≤ (heapBlock h.s.mem (0x2000018 - sizeofHeapBlock)).size ∧ ¬ Grants (kfree 0x2000018 h.s) 0 := by
  obtain ⟨tr, h, hr, hl, hc⟩ := exists_run_of_replay (heapExec_step (n := 3))
    (P := fun _ h => decide (h.live.map Alloc.ptr = [0x2000018] ∧
      roundUp 0 ≤ (heapBlock h.s.mem (0x2000018 - sizeofHeapBlock)).size))
    (s := ⟨Memory.boot fun _ => 0, []⟩) (l := [.kmalloc 64]) (by decide +kernel)
  obtain ⟨h1, h2⟩ := of_decide_eq_true hc
  refine ⟨tr, h, hr, hl, h1, h2, ?_⟩
  rintro ⟨n, ptr, s', hk, h0⟩
  rw [kmalloc, if_pos rfl] at hk
  simp only [Option.some.injEq, Prod.mk.injEq] at hk
  exact h0 hk.1.symm

end Zer0S
