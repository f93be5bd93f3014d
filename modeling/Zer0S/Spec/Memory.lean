import Mathlib.Tactic
import Zer0S.Lib.Bitmap
import Zer0S.Lib.Loop
import Zer0S.Lib.Mem
import Zer0S.Spec.Terminal

/-!
# Frame allocator and heap (`memory.c`)

The static variables of `memory.c` are fields; the frame bitmap and the heap blocks
live in the byte memory, at the addresses the code uses. Arithmetic is on 64-bit
words, as in the code. The heap loops follow pointers read from memory and take a
number of rounds (`none`: not enough rounds).

`touched` is a ghost field: the byte offsets at which `frame_bitmap` was accessed.
-/

namespace Zer0S

open Lib

/-- `PAGE_SIZE` -/
def pageSize : Word := 4096

/-- `BITMAP_ADDR` -/
def bitmapAddr : Word := 0xC00000

/-- `HEAP_START` -/
def heapStart : Word := 0x2000000

/-- `HEAP_MIN_BLOCK` -/
def heapMinBlock : Word := 32

/-- `sizeof(heap_block_t)` -/
def sizeofHeapBlock : Word := 24

/-- The static variables of `memory.c`, the memory and the text printed so far. -/
structure Memory where
  mem : Mem
  frameBitmap : Word
  totalPages : Word
  usedPages : Word
  freePages : Word
  heapHead : Word
  touched : List Word
  console : List Print

/-- The state before anything ran: static variables are zero, memory holds anything. -/
def Memory.boot (m : Mem) : Memory := ⟨m, 0, 0, 0, 0, 0, [], []⟩

def Memory.print (s : Memory) (p : List Print) : Memory := { s with console := s.console ++ p }

section print

variable (s : Memory) (p : List Print)

@[simp] theorem print_mem : (s.print p).mem = s.mem := rfl
@[simp] theorem print_frameBitmap : (s.print p).frameBitmap = s.frameBitmap := rfl
@[simp] theorem print_totalPages : (s.print p).totalPages = s.totalPages := rfl
@[simp] theorem print_usedPages : (s.print p).usedPages = s.usedPages := rfl
@[simp] theorem print_freePages : (s.print p).freePages = s.freePages := rfl
@[simp] theorem print_heapHead : (s.print p).heapHead = s.heapHead := rfl
@[simp] theorem print_touched : (s.print p).touched = s.touched := rfl

end print

/-! ## Frames -/

/-- `bitmap_set_bit` -/
def bitmapSetBit (bitmap bit : Word) (s : Memory) : Memory :=
  let a := bitmap + bit / 8
  { s with mem := s.mem.set a (byteSet (s.mem a) (bit % 8).toNat), touched := bit / 8 :: s.touched }

/-- `bitmap_clear_bit` -/
def bitmapClearBit (bitmap bit : Word) (s : Memory) : Memory :=
  let a := bitmap + bit / 8
  { s with mem := s.mem.set a (byteClear (s.mem a) (bit % 8).toNat), touched := bit / 8 :: s.touched }

/-- `bitmap_test_bit` -/
def bitmapTestBit (bitmap bit : Word) (s : Memory) : Bool × Memory :=
  (byteTest (s.mem (bitmap + bit / 8)) (bit % 8).toNat, { s with touched := bit / 8 :: s.touched })

/-- The loop of `find_free_frame`, with `n` rounds to go. -/
def findFreeFrameFrom : ℕ → Word → Memory → Word × Memory
  | 0, _, s => (-1, s)
  | n + 1, i, s =>
    let (used, s) := bitmapTestBit s.frameBitmap i s
    if !used then (i, s) else findFreeFrameFrom n (i + 1) s

/-- `find_free_frame` -/
def findFreeFrame (s : Memory) : Word × Memory := findFreeFrameFrom s.totalPages.toNat 0 s

/-- The loop of `memory_init` that clears the bitmap. -/
def clearBitmap (bitmapSize : Word) (s : Memory) : Memory :=
  forLoop (fun i s =>
    { s with
      mem := s.mem.set (s.frameBitmap + BitVec.ofNat 64 i) 0
      touched := BitVec.ofNat 64 i :: s.touched }) 0 bitmapSize.toNat s

/-- The loop of `memory_init` that marks the pages of the kernel as used: it runs while
`i < kernel_end_page && i < total_pages`. -/
def markKernelPages (kernelStartPage kernelEndPage : Word) (s : Memory) : Memory :=
  forLoop (fun i s =>
    let s := bitmapSetBit s.frameBitmap (BitVec.ofNat 64 i) s
    { s with usedPages := s.usedPages + 1 })
    kernelStartPage.toNat (min kernelEndPage.toNat s.totalPages.toNat - kernelStartPage.toNat) s

/-- `memory_init`; it does not use its arguments. -/
def memoryInit (s : Memory) : Memory :=
  let s := s.print [.text "\n[Memory] Initializing frame allocator...\n"]
  let memoryEnd : Word := 64 * 1024 * 1024
  let s := { s with totalPages := memoryEnd / pageSize }
  let s := s.print [.text "[Memory] Total memory: 64 MB\n", .text "[Memory] Page size: ", .hex pageSize,
    .text "\n", .text "[Memory] Total pages: ", .hex s.totalPages, .text "\n"]
  let bitmapSize := (s.totalPages + 7) / 8
  let s := s.print [.text "[Memory] Bitmap size: ", .hex bitmapSize, .text " bytes\n"]
  let s := { s with frameBitmap := bitmapAddr }
  let s := s.print [.text "[Memory] Bitmap address: ", .hex s.frameBitmap, .text "\n",
    .text "[Memory] Clearing bitmap...\n"]
  let s := clearBitmap bitmapSize s
  let s := s.print [.text "[Memory] Bitmap cleared\n"]
  let kernelStartPage : Word := 1 * 1024 * 1024 / pageSize
  -- the kernel ends with the bitmap
  let kernelEndPage := (bitmapAddr + bitmapSize + pageSize - 1) / pageSize
  let s := s.print [.text "[Memory] Kernel pages: ", .hex kernelStartPage, .text " to ",
    .hex kernelEndPage, .text "\n"]
  let s := markKernelPages kernelStartPage kernelEndPage s
  let s := { s with freePages := s.totalPages - s.usedPages }
  s.print [.text "[Memory] Free pages: ", .hex s.freePages, .text "\n",
    .text "[Memory] Used pages: ", .hex s.usedPages, .text "\n",
    .text "[Memory] Frame allocator ready!\n"]

/-- `alloc_frame` -/
def allocFrame (s : Memory) : Word × Memory :=
  if s.frameBitmap = 0 then (0, s) else
  let (frame, s) := findFreeFrame s
  if frame = -1 then (0, s.print [.text "[ERROR] Out of memory!\n"]) else
  let s := bitmapSetBit s.frameBitmap frame s
  (frame * pageSize, { s with usedPages := s.usedPages + 1, freePages := s.freePages - 1 })

/-- `free_frame` -/
def freeFrame (addr : Word) (s : Memory) : Memory :=
  if s.frameBitmap = 0 ∨ addr = 0 then s else
  let frame := addr / pageSize
  if s.totalPages ≤ frame then s else
  let (used, s) := bitmapTestBit s.frameBitmap frame s
  if used then
    let s := bitmapClearBit s.frameBitmap frame s
    { s with usedPages := s.usedPages - 1, freePages := s.freePages + 1 }
  else s

/-- `get_free_memory` -/
def getFreeMemory (s : Memory) : Word := s.freePages * pageSize

/-- `memory_status` -/
def memoryStatus (s : Memory) : Memory :=
  s.print [.text "\n=== Memory Status ===\n", .text "Total: 64 MB\n", .text "Free: ",
    .hex (getFreeMemory s / 1024 / 1024), .text " MB\n", .text "Used: ",
    .hex (s.usedPages * pageSize / 1024 / 1024), .text " MB\n", .text "Pages total: ", .hex s.totalPages,
    .text "\n", .text "Pages used: ", .hex s.usedPages, .text "\n", .text "Pages free: ", .hex s.freePages,
    .text "\n", .text "====================\n"]

/-! ## Heap -/

/-- The fields of a `heap_block_t`. -/
structure HeapBlock where
  size : Word
  used : BitVec 32
  next : Word
deriving DecidableEq, Repr

/-- The block header at `a`: `size` at offset 0, `used` at 8, `next` at 16. -/
def heapBlock (m : Mem) (a : Word) : HeapBlock := ⟨m.read64 a, m.read32 (a + 8), m.read64 (a + 16)⟩

/-- `block->size = v` -/
def setSize (a v : Word) (m : Mem) : Mem := m.write64 a v

/-- `block->used = v` -/
def setUsed (a : Word) (v : BitVec 32) (m : Mem) : Mem := m.write32 (a + 8) v

/-- `block->next = v` -/
def setNext (a v : Word) (m : Mem) : Mem := m.write64 (a + 16) v

/-- The first request sets up one free block of 8 MiB. -/
def heapSetup (s : Memory) : Memory :=
  if s.heapHead = 0 then
    let m := setSize heapStart (8 * 1024 * 1024) s.mem
    let m := setUsed heapStart 0 m
    let m := setNext heapStart 0 m
    { s with heapHead := heapStart, mem := m }
  else s

/-- One round of the search loop of `kmalloc`; it ends with the block found, if any. -/
def kmallocBody (m : Mem) (size current : Word) : Word ⊕ Option Word :=
  if current = 0 then .inr none
  else if (heapBlock m current).used = 0 ∧ size ≤ (heapBlock m current).size then .inr (some current)
  else .inl (heapBlock m current).next

/-- What `kmalloc` does to the block it found: cut off the rest when that leaves a block
of at least `HEAP_MIN_BLOCK` bytes, and mark the block as used. -/
def takeBlock (size current : Word) (m : Mem) : Mem :=
  let m :=
    if size + sizeofHeapBlock + heapMinBlock ≤ (heapBlock m current).size then
      -- the rest is a free block behind the payload
      let newBlock := current + sizeofHeapBlock + size
      let m := setSize newBlock ((heapBlock m current).size - size - sizeofHeapBlock) m
      let m := setUsed newBlock 0 m
      let m := setNext newBlock (heapBlock m current).next m
      let m := setSize current size m
      setNext current newBlock m
    else m
  setUsed current 1 m

/-- `(size + 7) & ~7`; the `int` constant `~7` is sign-extended to 64 bits. -/
def roundUp (size : Word) : Word := (size + 7) &&& ~~~7

/-- `kmalloc` -/
def kmalloc (rounds : ℕ) (size : Word) (s : Memory) : Option (Word × Memory) :=
  if size = 0 then some (0, s) else
  let size := roundUp size
  let s := heapSetup s
  match loop (kmallocBody s.mem size) rounds s.heapHead with
  | none => none
  | some none => some (0, s.print [.text "[ERROR] kmalloc: Out of heap memory!\n"])
  | some (some current) => some (current + sizeofHeapBlock, { s with mem := takeBlock size current s.mem })

/-- What `kfree` does to the memory: mark the block as free and, when the next block is
free too, merge it into this one. -/
def freeBlock (block : Word) (m : Mem) : Mem :=
  let m := setUsed block 0 m
  let next := (heapBlock m block).next
  if next ≠ 0 ∧ (heapBlock m next).used = 0 then
    -- the block before this one is not looked at
    let m := setSize block ((heapBlock m block).size + (sizeofHeapBlock + (heapBlock m next).size)) m
    setNext block (heapBlock m (heapBlock m block).next).next m
  else m

/-- `kfree` -/
def kfree (ptr : Word) (s : Memory) : Memory :=
  if ptr = 0 then s else { s with mem := freeBlock (ptr - sizeofHeapBlock) s.mem }

/-- The loop of `kcalloc`; it ends at `num * size`, which is computed in 64 bits. -/
def zeroBytes (ptr n : Word) (m : Mem) : Mem :=
  forLoop (fun i m => m.set (ptr + BitVec.ofNat 64 i) 0) 0 n.toNat m

/-- `kcalloc` -/
def kcalloc (rounds : ℕ) (num size : Word) (s : Memory) : Option (Word × Memory) :=
  (kmalloc rounds (num * size) s).map fun r =>
    if r.1 ≠ 0 then (r.1, { r.2 with mem := zeroBytes r.1 (num * size) r.2.mem }) else r

/-- What `heap_status` counts: blocks, bytes in blocks, bytes in free blocks. -/
structure HeapCount where
  current : Word
  blocks : BitVec 32
  total : Word
  freeMem : Word

/-- One round of the loop of `heap_status`. -/
def heapStatusBody (m : Mem) (c : HeapCount) : HeapCount ⊕ HeapCount :=
  if c.current = 0 then .inr c else
  let b := heapBlock m c.current
  .inl ⟨b.next, c.blocks + 1, c.total + b.size, if b.used = 0 then c.freeMem + b.size else c.freeMem⟩

/-- The counts `heap_status` ends its loop with. -/
def heapStatusCount (rounds : ℕ) (s : Memory) : Option HeapCount :=
  loop (heapStatusBody s.mem) rounds ⟨s.heapHead, 0, 0, 0⟩

/-- `heap_status` -/
def heapStatus (rounds : ℕ) (s : Memory) : Option Memory :=
  (heapStatusCount rounds s).map fun c =>
    s.print [.text "\n=== Heap Status ===\n", .text "Blocks: ", .hex (c.blocks.signExtend 64),
      .text "\nTotal: ", .hex (c.total / 1024), .text " KB\nFree: ", .hex (c.freeMem / 1024),
      .text " KB\n", .text "==================\n"]

end Zer0S
