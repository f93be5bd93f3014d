import Zer0S.Lib.Trace
import Zer0S.Spec.Memory

/-!
# What the callers of `memory.c` do

Labelled transition systems: callers of the heap, callers of the heap that free what they got
last, callers of the frame allocator, and callers of heap and frame allocator at once. A caller
may pass any size to `kmalloc`, frees what it was given and not freed yet, and writes inside the
payloads it owns. The lists of what is handed out are ghost state; the code keeps no such lists.
-/

namespace Zer0S

open Lib

/-! ## Heap -/

/-- A pointer `kmalloc` returned, with the number of bytes asked for and the header the
block had then. -/
structure Alloc where
  ptr : Word
  size : Word
  header : HeapBlock
deriving DecidableEq, Repr

/-- The memory and the pointers returned and not freed since. -/
structure HeapState where
  s : Memory
  live : List Alloc

inductive HeapOp
  | kmalloc (size : Word)
  | kfree (ptr : Word)
  | write (addr : Word) (v : Byte)
deriving DecidableEq, Repr

/-- What callers hold after `kmalloc` returned `ptr`. -/
def handOut (size ptr : Word) (s : Memory) (live : List Alloc) : List Alloc :=
  if ptr = 0 then live else ⟨ptr, size, heapBlock s.mem (ptr - sizeofHeapBlock)⟩ :: live

/-- The address is in the payload of the block `e` points to. -/
def InPayload (m : Mem) (e : Alloc) (addr : Word) : Prop :=
  addr - e.ptr < (heapBlock m (e.ptr - sizeofHeapBlock)).size

instance (m : Mem) (e : Alloc) (addr : Word) : Decidable (InPayload m e addr) :=
  inferInstanceAs (Decidable (_ < _))

/-- One step of a caller of the heap. -/
inductive HeapStep : HeapState → HeapOp → HeapState → Prop
  | kmalloc {h : HeapState} {rounds : ℕ} {size ptr : Word} {s' : Memory} :
      kmalloc rounds size h.s = some (ptr, s') →
      HeapStep h (.kmalloc size) ⟨s', handOut size ptr s' h.live⟩
  | kfree {h : HeapState} {ptr : Word} : ptr = 0 ∨ ptr ∈ h.live.map Alloc.ptr →
      HeapStep h (.kfree ptr) ⟨kfree ptr h.s, h.live.filter fun e => e.ptr ≠ ptr⟩
  | write {h : HeapState} {e : Alloc} {addr : Word} {v : Byte} : e ∈ h.live →
      InPayload h.s.mem e addr →
      HeapStep h (.write addr v) ⟨{ h.s with mem := h.s.mem.set addr v }, h.live⟩

/-- The step as a function, with a bound on the rounds of `kmalloc`. -/
def heapExec (rounds : ℕ) (h : HeapState) : HeapOp → Option HeapState
  | .kmalloc size => (kmalloc rounds size h.s).map fun r => ⟨r.2, handOut size r.1 r.2 h.live⟩
  | .kfree ptr =>
    if ptr = 0 ∨ ptr ∈ h.live.map Alloc.ptr then
      some ⟨kfree ptr h.s, h.live.filter fun e => e.ptr ≠ ptr⟩
    else none
  | .write addr v =>
    if ∃ e ∈ h.live, InPayload h.s.mem e addr then
      some ⟨{ h.s with mem := h.s.mem.set addr v }, h.live⟩
    else none

theorem heapExec_step {n : ℕ} (h : HeapState) (op : HeapOp) (h' : HeapState)
    (he : heapExec n h op = some h') : HeapStep h op h' := by
  cases op with
  | kmalloc size =>
    obtain ⟨⟨ptr, s'⟩, hk, rfl⟩ := Option.map_eq_some_iff.1 he
    exact .kmalloc hk
  | kfree ptr =>
    simp only [heapExec] at he
    split_ifs at he with hp
    cases he
    exact .kfree hp
  | write addr v =>
    simp only [heapExec] at he
    split_ifs at he with hp
    cases he
    obtain ⟨e, hm, hi⟩ := hp
    exact .write hm hi

/-! ## Nested use of the heap -/

/-- The memory and the pointers that `kmalloc` returned, NULL too, the latest first. -/
structure NestState where
  s : Memory
  held : List Word

inductive NestOp
  | kmalloc (size : Word)
  | kfree
deriving DecidableEq, Repr

/-- A call of a caller that frees what it got last; NULL is freed for a request that failed. -/
def nestExec (rounds : ℕ) (a : NestState) : NestOp → Option NestState
  | .kmalloc size => (kmalloc rounds size a.s).map fun r => ⟨r.2, r.1 :: a.held⟩
  | .kfree =>
    match a.held with
    | [] => none
    | ptr :: held => some ⟨kfree ptr a.s, held⟩

/-- A call that returns. -/
def NestStep (a : NestState) (op : NestOp) (b : NestState) : Prop := ∃ rounds, nestExec rounds a op = some b

theorem nestExec_step {n : ℕ} (a : NestState) (op : NestOp) (b : NestState)
    (h : nestExec n a op = some b) : NestStep a op b := ⟨n, h⟩

/-! ## Frames -/

inductive FrameOp
  | alloc
  | free (addr : Word)
deriving DecidableEq, Repr

/-- A call of `alloc_frame` or `free_frame`, with any address. -/
def frameExec (s : Memory) : FrameOp → Memory
  | .alloc => (allocFrame s).2
  | .free addr => freeFrame addr s

/-- The memory and the addresses of the frames taken and not freed since. -/
structure FrameState where
  s : Memory
  live : List Word

/-- One step of a caller that frees only what it was given. `alloc_frame` returns 0 when
there is no free frame, and then it takes none. -/
inductive FrameStep : FrameState → FrameOp → FrameState → Prop
  | alloc {f : FrameState} : FrameStep f .alloc
      ⟨(allocFrame f.s).2, if (findFreeFrame f.s).1 = -1 then f.live else (allocFrame f.s).1 :: f.live⟩
  | free {f : FrameState} {addr : Word} : addr = 0 ∨ addr ∈ f.live →
      FrameStep f (.free addr) ⟨freeFrame addr f.s, f.live.filter (· ≠ addr)⟩

/-! ## Both -/

/-- The memory and what is handed out by both allocators. -/
structure MemoryState where
  s : Memory
  live : List Alloc
  frames : List Word

inductive MemoryOp
  | heap (op : HeapOp)
  | frame (op : FrameOp)
deriving DecidableEq, Repr

/-- One step of a caller of either allocator, on the same memory. -/
inductive MemoryStep : MemoryState → MemoryOp → MemoryState → Prop
  | heap {a : MemoryState} {op : HeapOp} {h' : HeapState} : HeapStep ⟨a.s, a.live⟩ op h' →
      MemoryStep a (.heap op) ⟨h'.s, h'.live, a.frames⟩
  | frame {a : MemoryState} {op : FrameOp} {f' : FrameState} : FrameStep ⟨a.s, a.frames⟩ op f' →
      MemoryStep a (.frame op) ⟨f'.s, a.live, f'.live⟩

/-- The frames that were ever taken, after a call of the frame allocator. -/
def everTaken (s : Memory) (frames : List Word) : FrameOp → List Word
  | .alloc => if (findFreeFrame s).1 = -1 then frames else (allocFrame s).1 :: frames
  | .free _ => frames

/-- One step of a caller of either allocator that frees any address as a frame. Here `frames` are
those that were ever taken. -/
inductive AnyFrameStep : MemoryState → MemoryOp → MemoryState → Prop
  | heap {a : MemoryState} {op : HeapOp} {h' : HeapState} : HeapStep ⟨a.s, a.live⟩ op h' →
      AnyFrameStep a (.heap op) ⟨h'.s, h'.live, a.frames⟩
  | frame {a : MemoryState} {op : FrameOp} :
      AnyFrameStep a (.frame op) ⟨frameExec a.s op, a.live, everTaken a.s a.frames op⟩

end Zer0S
