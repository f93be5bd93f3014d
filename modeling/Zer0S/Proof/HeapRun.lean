import Zer0S.Lib.Chain
import Zer0S.Proof.HeapState
import Zer0S.Spec.Callers

/-!
# The heap over whole runs of its callers

`RunInv h l`: the heap is the tiling `l` and every live pointer is behind the header of a
used block of `l`, which is the header it had when it was handed out.

* `runInv_step`, `runInv_run`: every step of a caller keeps it, for some `l`.
* `heap_tiled`: the block list that a run leaves, as read from memory.
-/

namespace Zer0S

open Lib Tiling

variable {h h' : HeapState} {op : HeapOp} {l : List Seg} {e : Alloc} {s t : Memory}

/-- The pointer `e` is behind the header at `p` of a used block with `k` bytes. -/
structure Backs (l : List Seg) (e : Alloc) (p k : ℕ) : Prop where
  used : UsedBlock l p k
  ptr : e.ptr = BitVec.ofNat 64 p + sizeofHeapBlock
  header : e.header = header heapEnd p ⟨k, true⟩

/-- The invariant of a run of callers. -/
structure RunInv (h : HeapState) (l : List Seg) : Prop where
  heap : HeapAt h.s l
  live : ∀ e ∈ h.live, ∃ p k, Backs l e p k
  nodup : (h.live.map Alloc.ptr).Nodup

theorem HeapAt.bounds (h : HeapAt s l) {p k : ℕ} (hu : UsedBlock l p k) :
    heapBase ≤ p ∧ p + (24 + k) ≤ heapEnd :=
  (h.inv_of_used hu).bounds hu

theorem Backs.addr {p k : ℕ} (hb : Backs l e p k) : e.ptr - sizeofHeapBlock = BitVec.ofNat 64 p := by
  rw [hb.ptr, ptr_sub]

/-- The header of a live block is in memory as it was handed out. -/
theorem Backs.header_eq {p k : ℕ} (hb : Backs l e p k) (hi : HeapAt s l) :
    heapBlock s.mem (e.ptr - sizeofHeapBlock) = e.header := by
  rw [hb.addr, hb.header, (hi.inv_of_used hb.used).header_eq hb.used]

theorem Backs.size {p k : ℕ} (hb : Backs l e p k) (hi : HeapAt s l) : e.header.size.toNat = k := by
  have := hi.bounds hb.used
  have hlt := heapEnd_lt
  rw [hb.header]
  exact toNat_ofNat (show k < 2 ^ 64 by omega)

theorem Backs.toNat_ptr {p k : ℕ} (hb : Backs l e p k) (hi : HeapAt s l) : e.ptr.toNat = p + 24 := by
  have := hi.bounds hb.used
  have hlt := heapEnd_lt
  rw [hb.ptr, Zer0S.toNat_ptr (by omega)]

theorem runInv_start (hs : s.heapHead = 0) : RunInv ⟨s, []⟩ freshHeap :=
  ⟨Or.inl ⟨hs, rfl⟩, by simp, by simp⟩

/-- **A request in a run**: nothing is handed out, or a new block of at least the
rounded size is. -/
theorem kmalloc_handOut (hi : RunInv h l) {n : ℕ} {w ptr : Word} {s' : Memory}
    (hk : kmalloc n w h.s = some (ptr, s')) :
    FramesKept h.s s' ∧ ∃ l', RunInv ⟨s', handOut w ptr s' h.live⟩ l' ∧
      (ptr = 0 ∨ ptr ≠ 0 ∧ (roundUp w).toNat ≤ (heapBlock s'.mem (ptr - sizeofHeapBlock)).size.toNat) := by
  rcases kmalloc_cases hi.heap hk with ⟨-, rfl, rfl⟩ | ⟨-, -, rfl, hinv, hf⟩ |
    ⟨-, p, l', hff, rfl, h0, hinv, hf⟩
  · exact ⟨.refl _, l, hi, Or.inl rfl⟩
  · exact ⟨hf, l, ⟨Or.inr hinv, hi.live, hi.nodup⟩, Or.inl rfl⟩
  · obtain ⟨k, hk, hnew, hiff⟩ := usedAt_firstFit (by omega) hff
    have hu : UsedBlock l' p k := (hiff p k).2 (Or.inr ⟨rfl, rfl⟩)
    have hb := hinv.bounds hu
    have hlt := heapEnd_lt
    have hhead := hinv.header_eq hu
    refine ⟨hf, l', ⟨Or.inr hinv, ?_, ?_⟩, Or.inr ⟨h0, ?_⟩⟩
    · rw [handOut, if_neg h0, List.forall_mem_cons]
      refine ⟨⟨p, k, hu, rfl, ?_⟩, ?_⟩
      · simp only [ptr_sub, hhead]
      · intro e he
        obtain ⟨q, j, hq⟩ := hi.live e he
        exact ⟨q, j, (hiff q j).2 (Or.inl hq.used), hq.ptr, hq.header⟩
    · -- no live pointer is behind the header of the block just taken
      rw [handOut, if_neg h0, List.map_cons, List.nodup_cons]
      refine ⟨?_, hi.nodup⟩
      intro hm
      obtain ⟨e, he, hp⟩ := List.mem_map.1 hm
      obtain ⟨q, j, hq⟩ := hi.live e he
      have hqb := hi.heap.bounds hq.used
      rw [hq.ptr] at hp
      obtain rfl := ptr_inj (by omega) (by omega) hp
      exact hnew j hq.used
    · rw [ptr_sub, hhead]
      simpa only [header, toNat_ofNat (show k < 2 ^ 64 by omega)] using hk

theorem kfree_live (hi : RunInv h l) {ptr : Word} (hp : ptr = 0 ∨ ptr ∈ h.live.map Alloc.ptr) :
    FramesKept h.s (kfree ptr h.s) ∧
      ∃ l', RunInv ⟨kfree ptr h.s, h.live.filter fun e => e.ptr ≠ ptr⟩ l' := by
  have hnd : ((h.live.filter fun e => e.ptr ≠ ptr).map Alloc.ptr).Nodup :=
    hi.nodup.sublist (List.filter_sublist.map _)
  by_cases h0 : ptr = 0
  · have hk : kfree ptr h.s = h.s := by rw [kfree, if_pos h0]
    rw [hk]
    exact ⟨.refl _, l, hi.heap, fun e he => hi.live e (List.mem_filter.1 he).1, hnd⟩
  · obtain ⟨e, he, rfl⟩ := List.mem_map.1 (hp.resolve_left h0)
    obtain ⟨p, k, hb⟩ := hi.live e he
    obtain ⟨hinv, hf⟩ := heapInv_kfree (hi.heap.inv_of_used hb.used) hb.used
    rw [← hb.ptr] at hinv hf
    refine ⟨hf, _, Or.inr hinv, ?_, hnd⟩
    intro e' he'
    obtain ⟨hm, hne⟩ := List.mem_filter.1 he'
    obtain ⟨q, j, hq⟩ := hi.live e' hm
    refine ⟨q, j, (usedAt_release (by omega) hb.used).2 ⟨hq.used, ?_⟩, hq.ptr, hq.header⟩
    rintro rfl
    simp [hq.ptr, hb.ptr] at hne

theorem write_payload (hi : RunInv h l) (he : e ∈ h.live) {a : Word} (ha : InPayload h.s.mem e a)
    (v : Byte) : FramesKept h.s { h.s with mem := h.s.mem.set a v } ∧
      RunInv ⟨{ h.s with mem := h.s.mem.set a v }, h.live⟩ l := by
  obtain ⟨p, k, hb⟩ := hi.live e he
  have hbd := hi.heap.bounds hb.used
  have hlt := heapEnd_lt
  have hpt := hb.toNat_ptr hi.heap
  -- the offset in the payload, without wrap-around
  rw [InPayload, hb.header_eq hi.heap, BitVec.lt_def, hb.size hi.heap] at ha
  have hsub : (a - e.ptr).toNat = (2 ^ 64 - e.ptr.toNat + a.toNat) % 2 ^ 64 := BitVec.toNat_sub ..
  have := a.isLt
  obtain ⟨hinv, hf⟩ := heapInv_write (hi.heap.inv_of_used hb.used) hb.used (a := a) (by omega) (by omega) v
  exact ⟨hf, Or.inr hinv, hi.live, hi.nodup⟩

/-- **Step.** Every step of a caller keeps the invariant and what is outside the heap. -/
theorem runInv_step (hi : RunInv h l) (hs : HeapStep h op h') :
    FramesKept h.s h'.s ∧ ∃ l', RunInv h' l' := by
  cases hs with
  | kmalloc hk =>
    obtain ⟨hf, l', hi', -⟩ := kmalloc_handOut hi hk
    exact ⟨hf, l', hi'⟩
  | kfree hp => exact kfree_live hi hp
  | write he ha => exact ⟨(write_payload hi he ha _).1, l, (write_payload hi he ha _).2⟩

/-- **Run.** The invariant holds in every state of a run that starts without a heap. -/
theorem runInv_run {tr : List (Transition HeapState HeapOp)} (hs : s.heapHead = 0)
    (hr : Run HeapStep ⟨s, []⟩ tr h) :
    (∃ l, RunInv h l) ∧ ∀ e ∈ tr, (∃ l, RunInv e.pre l) ∧ ∃ l, RunInv e.post l :=
  hr.invariant (I := fun h => ∃ l, RunInv h l) ⟨_, runInv_start hs⟩ fun _ _ _ ⟨_, hi⟩ hs =>
    (runInv_step hi hs).2

/-! ## The block list in memory -/

/-- A pointer of the code as a link: NULL is the end of a list. -/
def toPtr (w : Word) : Option Word := if w = 0 then none else some w

/-- The block after `a`. -/
def nextBlock (m : Mem) (a : Word) : Option Word := toPtr (heapBlock m a).next

/-- The addresses of the blocks of a tiling. -/
def blocks (a : ℕ) (l : List Seg) : List Word := (place 24 a l).map fun y => BitVec.ofNat 64 y.1

/-- What the heap in memory looks like: its blocks `l` follow one another from
`HEAP_START` to the end of the heap, without gaps. -/
structure HeapTiled (s : Memory) (l : List Word) : Prop where
  chain : Chain (nextBlock s.mem) (toPtr s.heapHead) l
  first : l.head? = some heapStart
  sorted : l.Pairwise fun a b => a.toNat < b.toNat
  next : ∀ a ∈ l, (heapBlock s.mem a).next ≠ 0 →
    (heapBlock s.mem a).next.toNat = a.toNat + 24 + (heapBlock s.mem a).size.toNat
  last : ∀ a ∈ l, (heapBlock s.mem a).next = 0 →
    a.toNat + 24 + (heapBlock s.mem a).size.toNat = heapStart.toNat + 24 + 8 * 1024 * 1024
  aligned : ∀ a ∈ l, 8 ∣ a.toNat ∧ 8 ∣ (heapBlock s.mem a).size.toNat
  sum : (l.map fun a => (heapBlock s.mem a).size.toNat + 24).sum = 8 * 1024 * 1024 + 24

theorem toPtr_ofNat {n : ℕ} (h0 : 0 < n) (h : n < 2 ^ 64) :
    toPtr (BitVec.ofNat 64 n) = some (BitVec.ofNat 64 n) :=
  if_neg (ofNat_ne_zero h0 h)

/-- The links of a tiling in memory are its blocks in order. -/
theorem chain_blocks {m : Mem} {e : ℕ} (he : e < 2 ^ 64) : ∀ {l : List Seg} {a : ℕ}, Tiles m e a l →
    a + span 24 l = e → 0 < a → Chain (nextBlock m) (toPtr (nextOf e a)) (blocks a l) := by
  intro l
  induction l with
  | nil =>
    intro a _ ha _
    have : nextOf e a = 0 := if_pos (by simpa using ha)
    rw [this]
    rfl
  | cons b l ih =>
    intro a hT ha h0
    obtain ⟨hb, hT⟩ := tiles_cons.1 hT
    rw [span_cons] at ha
    have hn : nextOf e a = BitVec.ofNat 64 a := if_neg (by omega)
    rw [hn, toPtr_ofNat h0 (by omega)]
    refine chain_cons.2 ⟨rfl, ?_⟩
    rw [nextBlock, hb]
    exact ih hT (by omega) (by omega)

theorem HeapInv.chain (h : HeapInv s l) :
    Chain (nextBlock s.mem) (toPtr s.heapHead) (blocks heapBase l) := by
  have hc := chain_blocks (by rw [heapEnd_eq]; omega) h.tiles h.end_eq (by rw [heapBase_eq]; omega)
  have hn : nextOf heapEnd heapBase = heapStart := by
    rw [heapStart_eq]; exact if_neg (by rw [heapEnd_eq, heapBase_eq]; omega)
  rwa [hn, ← h.head] at hc

/-- A block of the tiling, read from memory. -/
theorem HeapInv.block (h : HeapInv s l) {y : ℕ × Seg} (hy : y ∈ place 24 heapBase l) :
    heapBlock s.mem (BitVec.ofNat 64 y.1) = header heapEnd y.1 y.2 ∧
      (BitVec.ofNat 64 y.1).toNat = y.1 ∧ (header heapEnd y.1 y.2).size.toNat = y.2.size ∧
      y.1 + (24 + y.2.size) ≤ heapEnd := by
  have hb := place_bounds hy
  rw [h.end_eq] at hb
  have hlt := heapEnd_lt
  exact ⟨h.tiles y hy, toNat_ofNat (by omega), toNat_ofNat (by omega), hb.2⟩

theorem forall_blocks {a : ℕ} {P : Word → Prop} :
    (∀ b ∈ blocks a l, P b) ↔ ∀ y ∈ place 24 a l, P (BitVec.ofNat 64 y.1) :=
  List.forall_mem_map

theorem HeapInv.sum_blocks (h : HeapInv s l) :
    ((blocks heapBase l).map fun a => (heapBlock s.mem a).size.toNat + 24).sum = heapSpan := by
  have hsz : (blocks heapBase l).map (fun a => (heapBlock s.mem a).size.toNat + 24) =
      ((place 24 heapBase l).map Prod.snd).map fun b => 24 + b.size := by
    rw [blocks, List.map_map, List.map_map]
    refine List.map_congr_left ?_
    intro y hy
    obtain ⟨h1, -, h3, -⟩ := h.block hy
    simp only [Function.comp_apply, h1, h3, Nat.add_comm]
  rw [hsz, map_snd_place, ← h.span]
  rfl

/-- **The heap in memory is tiled** by its block list. -/
theorem HeapInv.tiled (h : HeapInv s l) : HeapTiled s (blocks heapBase l) where
  chain := h.chain
  first := by
    cases l with
    | nil => exact absurd rfl h.ne_nil
    | cons b l => rw [heapStart_eq]; rfl
  sorted := by
    refine List.pairwise_map.2 (place_pairwise.imp_of_mem fun hy hz hyz => ?_)
    rw [(h.block hy).2.1, (h.block hz).2.1]
    omega
  next := by
    refine forall_blocks.2 ?_
    intro y hy hn
    obtain ⟨h1, h2, h3, h4⟩ := h.block hy
    have hlt := heapEnd_lt
    rw [h1] at hn ⊢
    rw [h2, h3]
    have hne : y.1 + (24 + y.2.size) ≠ heapEnd := fun he => hn (if_pos he)
    simp only [header, nextOf, if_neg hne]
    rw [toNat_ofNat (by omega)]
    omega
  last := by
    refine forall_blocks.2 ?_
    intro y hy hn
    obtain ⟨h1, h2, h3, h4⟩ := h.block hy
    rw [h1] at hn ⊢
    rw [h2, h3, show heapStart.toNat = 33554432 from rfl]
    have hlt := heapEnd_lt
    by_cases he : y.1 + (24 + y.2.size) = heapEnd
    · rw [heapEnd_eq] at he; omega
    · exact absurd hn (by rw [header, nextOf, if_neg he]; exact ofNat_ne_zero (by omega) (by omega))
  aligned := by
    refine forall_blocks.2 ?_
    intro y hy
    obtain ⟨h1, h2, h3, -⟩ := h.block hy
    rw [h1, h2, h3]
    have hb : y.2 ∈ l := by
      rw [← map_snd_place 24 heapBase l]
      exact List.mem_map_of_mem hy
    exact ⟨dvd_place (by decide) (by rw [heapBase_eq]; decide) h.dvd y hy, h.dvd y.2 hb⟩
  sum := by rw [h.sum_blocks, heapSpan_eq]

/-! ## `heap_status` -/

/-- The loop of `heap_status` adds up all blocks. -/
theorem heapStatusLoop {m : Mem} {e : ℕ} (he : e < 2 ^ 64) : ∀ {l : List Seg} {a : ℕ}, Tiles m e a l →
    a + span 24 l = e → 0 < a → ∀ n v f, ∃ c, loop (heapStatusBody m) (l.length + 1) ⟨nextOf e a, n, v, f⟩ =
      some c ∧ c.blocks = n + BitVec.ofNat 32 l.length ∧
        c.total = v + BitVec.ofNat 64 (l.map Seg.size).sum := by
  intro l
  induction l with
  | nil =>
    intro a _ ha _ n v f
    have : nextOf e a = 0 := if_pos (by simpa using ha)
    rw [this]
    exact ⟨_, rfl, by simp, by simp⟩
  | cons b l ih =>
    intro a hT ha h0 n v f
    obtain ⟨hb, hT⟩ := tiles_cons.1 hT
    rw [span_cons] at ha
    have hn : nextOf e a = BitVec.ofNat 64 a := if_neg (by omega)
    have hbody : heapStatusBody m ⟨nextOf e a, n, v, f⟩ = .inl ⟨nextOf e (a + (24 + b.size)), n + 1,
        v + BitVec.ofNat 64 b.size,
        if b.used then f else f + BitVec.ofNat 64 b.size⟩ := by
      rw [hn, heapStatusBody, if_neg (ofNat_ne_zero h0 (by omega)), hb]
      cases hu : b.used <;> simp [header, hu]
    obtain ⟨c, h1, h2, h3⟩ := ih hT (by omega) (by omega) (n + 1) (v + BitVec.ofNat 64 b.size)
      (if b.used then f else f + BitVec.ofNat 64 b.size)
    refine ⟨c, by rw [List.length_cons, loop_next hbody, h1], ?_, ?_⟩
    · rw [h2, List.length_cons, BitVec.ofNat_add]
      ac_rfl
    · rw [h3, List.map_cons, List.sum_cons, BitVec.ofNat_add]
      ac_rfl

/-- **`heap_status` ends**, and its total and 24 bytes for each block make up the heap. -/
theorem HeapInv.heapStatus (h : HeapInv s l) : ∃ n c, heapStatusCount n s = some c ∧
    c.total.toNat + 24 * c.blocks.toNat = 8 * 1024 * 1024 + 24 := by
  have hlt : heapEnd < 2 ^ 64 := by rw [heapEnd_eq]; omega
  obtain ⟨c, h1, h2, h3⟩ := heapStatusLoop hlt h.tiles h.end_eq (by rw [heapBase_eq]; omega) 0 0 0
  have hn : nextOf heapEnd heapBase = s.heapHead := by
    rw [h.head, heapStart_eq]; exact if_neg (by rw [heapEnd_eq, heapBase_eq]; omega)
  rw [hn] at h1
  have hs := h.span
  rw [span_eq, heapSpan_eq] at hs
  refine ⟨_, c, h1, ?_⟩
  simp only [BitVec.ofNat_eq_ofNat, BitVec.zero_add] at h2 h3
  rw [h2, h3, toNat_ofNat (by omega), BitVec.toNat_ofNat, Nat.mod_eq_of_lt (by omega)]
  omega

/-! ## Runs -/

/-- Once a request was made, the heap is set up for good. -/
theorem heapHead_stable (hi : RunInv h l) (hs : HeapStep h op h') (h0 : h.s.heapHead ≠ 0) :
    h'.s.heapHead ≠ 0 := by
  have hinv := hi.heap.resolve_left fun hf => h0 hf.1
  cases hs with
  | kmalloc hk =>
    rcases kmalloc_cases hi.heap hk with ⟨-, -, rfl⟩ | ⟨-, -, -, h1, -⟩ | ⟨-, _, _, -, -, -, h1, -⟩
    · exact h0
    · exact h1.head_ne
    · exact h1.head_ne
  | kfree hp => rw [kfree]; split_ifs <;> exact h0
  | write => exact h0

theorem heapHead_of_request (hi : RunInv h l) {w : Word} (hw : w ≠ 0) (hs : HeapStep h (.kmalloc w) h') :
    h'.s.heapHead ≠ 0 := by
  cases hs with
  | kmalloc hk =>
    rcases kmalloc_cases hi.heap hk with ⟨h0, -, -⟩ | ⟨-, -, -, h1, -⟩ | ⟨-, _, _, -, -, -, h1, -⟩
    · exact absurd h0 hw
    · exact h1.head_ne
    · exact h1.head_ne

/-- A run from a zeroed memory: two requests, a free, and a request that is rounded up and finds that block. -/
theorem exists_reused : ∃ tr h, Run HeapStep ⟨Memory.boot fun _ => 0, []⟩ tr h ∧
    tr.map Transition.label = [.kmalloc 100, .kmalloc 200, .kfree 0x2000018, .kmalloc 61] ∧
    h.live.map (fun e => (e.ptr, e.size)) = [(0x2000018, 61), (0x2000098, 200)] := by
  obtain ⟨tr, h, hr, hl, hc⟩ := exists_run_of_replay (heapExec_step (n := 3))
    (P := fun _ h => decide (h.live.map (fun e => (e.ptr, e.size)) = [(0x2000018, 61), (0x2000098, 200)]))
    (s := ⟨Memory.boot fun _ => 0, []⟩) (l := [.kmalloc 100, .kmalloc 200, .kfree 0x2000018, .kmalloc 61])
    (by decide +kernel)
  exact ⟨tr, h, hr, hl, of_decide_eq_true hc⟩

/-- **The heap after any run with a request**: its blocks tile the heap window, a request
of any size returns, and so does `heap_status`, which counts all bytes but the headers. -/
theorem heap_tiled {tr : List (Transition HeapState HeapOp)} (hs : s.heapHead = 0)
    (hr : Run HeapStep ⟨s, []⟩ tr h) (hw : ∃ e ∈ tr, ∃ w, w ≠ 0 ∧ e.label = .kmalloc w) :
    (∃ l, HeapTiled h.s l) ∧ (∀ w, ∃ n r, kmalloc n w h.s = some r) ∧
      ∃ n c, heapStatusCount n h.s = some c ∧
        c.total.toNat + 24 * c.blocks.toNat = 8 * 1024 * 1024 + 24 := by
  obtain ⟨⟨l, hi⟩, htr⟩ := runInv_run hs hr
  have hset : h.s.heapHead ≠ 0 := by
    refine hr.stable (J := fun h => h.s.heapHead ≠ 0) ?_ ?_
    · intro e he h0
      obtain ⟨l, hl⟩ := (htr e he).1
      exact heapHead_stable hl (hr.step_of_mem e he) h0
    · obtain ⟨e, he, w, hw, hl⟩ := hw
      obtain ⟨l, hi⟩ := (htr e he).1
      have hst := hr.step_of_mem e he
      rw [hl] at hst
      exact ⟨e, he, heapHead_of_request hi hw hst⟩
  have hinv := hi.heap.resolve_left fun hf => hset hf.1
  exact ⟨⟨_, hinv.tiled⟩, kmalloc_returns hi.heap, hinv.heapStatus⟩

theorem heap_tiled_reused : ∃ tr h, Run HeapStep ⟨Memory.boot fun _ => 0, []⟩ tr h ∧
    tr.map Transition.label = [.kmalloc 100, .kmalloc 200, .kfree 0x2000018, .kmalloc 61] ∧
    h.live.map (fun e => (e.ptr, e.size)) = [(0x2000018, 61), (0x2000098, 200)] ∧
    (∃ l, HeapTiled h.s l) ∧ (∀ w, ∃ n r, kmalloc n w h.s = some r) ∧
      ∃ n c, heapStatusCount n h.s = some c ∧
        c.total.toNat + 24 * c.blocks.toNat = 8 * 1024 * 1024 + 24 := by
  obtain ⟨tr, h, hr, hl, hlive⟩ := exists_reused
  have hmem : HeapOp.kmalloc 100 ∈ tr.map Transition.label := hl ▸ List.mem_cons_self
  obtain ⟨e, he, hlabel⟩ := List.mem_map.1 hmem
  exact ⟨tr, h, hr, hl, hlive, heap_tiled rfl hr ⟨e, he, 100, by decide, hlabel⟩⟩

/-- The total that `heap_status` prints, in KB, is not constant: it leaves the headers
out. One block of 8 MiB counts 8192 KB, and after a split 8191 KB are counted. -/
theorem heap_status_total_changes : ∃ tr h, Run HeapStep ⟨Memory.boot fun _ => 0, []⟩ tr h ∧
    tr.map Transition.label = [.kmalloc 0x800000, .kfree 0x2000018, .kmalloc 8] ∧
    tr.map (fun e => (heapStatusCount 3 e.post.s).map fun c => c.total / 1024) =
      [some 0x2000, some 0x2000, some 0x1FFF] := by
  obtain ⟨tr, h, hr, hl, hc⟩ := exists_run_of_replay (heapExec_step (n := 3))
    (P := fun tr _ => decide (tr.map (fun e => (heapStatusCount 3 e.post.s).map fun c => c.total / 1024) =
      [some 0x2000, some 0x2000, some 0x1FFF]))
    (s := ⟨Memory.boot fun _ => 0, []⟩) (l := [.kmalloc 0x800000, .kfree 0x2000018, .kmalloc 8])
    (by decide +kernel)
  exact ⟨tr, h, hr, hl, of_decide_eq_true hc⟩

end Zer0S
