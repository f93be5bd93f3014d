import Zer0S.Spec.Callers
import Zer0S.Spec.Process

/-!
# What the callers of `kmalloc` and of `process.c` do together

The kernel stacks come from the heap that other callers use too. The list of live allocations
is ghost state, as in `Callers`, here with the process an allocation is the stack of, if any.
-/

namespace Zer0S

open Lib

/-- An allocation that was not freed, and the process it is the stack of. -/
structure Block where
  alloc : Alloc
  owner : Option Slot
deriving DecidableEq, Repr

/-- The state of `process.c` and `memory.c`, and the live allocations. -/
structure StackState where
  k : Kernel
  live : List Block

inductive StackOp
  | kmalloc (size : Word)
  | kfree (ptr : Word)
  | write (addr : Word) (v : Byte)
  | create (name : List Byte) (entry priority : Word) (flags : BitVec 32)
  | destroy (proc : Option Slot)
deriving DecidableEq, Repr

/-- What is live after `owner` got `ptr`. -/
def giveTo (owner : Option Slot) (size ptr : Word) (s : Memory) (live : List Block) : List Block :=
  if ptr = 0 then live else ⟨⟨ptr, size, heapBlock s.mem (ptr - sizeofHeapBlock)⟩, owner⟩ :: live

/-- What is live after `kfree` of `ptr`. -/
def giveBack (ptr : Word) (live : List Block) : List Block := live.filter fun x => x.alloc.ptr ≠ ptr

/-- What is live after `process_create` returned `proc`. -/
def giveStack (proc : Option Slot) (k : Kernel) (live : List Block) : List Block :=
  match proc with
  | none => live
  | some p => giveTo (some p) procStackSize (k.processes p).kernelStack k.memory live

/-- What is live after `process_destroy` of `proc`. -/
def giveBackStack (proc : Option Slot) (k : Kernel) (live : List Block) : List Block :=
  match proc with
  | none => live
  | some p => giveBack (k.processes p).kernelStack live

/-- One step: a caller frees what it got from `kmalloc` itself, and writes inside the payloads of
live blocks; any process is destroyed, any number of times. -/
inductive StackStep (c : Copy) : StackState → StackOp → StackState → Prop
  | kmalloc {a : StackState} {rounds : ℕ} {size ptr : Word} {s' : Memory} :
      kmalloc rounds size a.k.memory = some (ptr, s') →
      StackStep c a (.kmalloc size) ⟨{ a.k with memory := s' }, giveTo none size ptr s' a.live⟩
  | kfree {a : StackState} {ptr : Word} :
      ptr = 0 ∨ (∃ x ∈ a.live, x.owner = none ∧ x.alloc.ptr = ptr) →
      StackStep c a (.kfree ptr) ⟨{ a.k with memory := kfree ptr a.k.memory }, giveBack ptr a.live⟩
  | write {a : StackState} {x : Block} {addr : Word} {v : Byte} : x ∈ a.live →
      InPayload a.k.memory.mem x.alloc addr →
      StackStep c a (.write addr v)
        ⟨{ a.k with memory := { a.k.memory with mem := a.k.memory.mem.set addr v } }, a.live⟩
  | create {a : StackState} {rounds : ℕ} {name : List Byte} {entry priority : Word} {flags : BitVec 32}
      {proc : Option Slot} {k' : Kernel} :
      processCreate rounds name entry priority flags a.k = some (proc, k') →
      StackStep c a (.create name entry priority flags) ⟨k', giveStack proc k' a.live⟩
  | destroy {a : StackState} {proc : Option Slot} :
      StackStep c a (.destroy proc) ⟨processDestroy c proc a.k, giveBackStack proc a.k a.live⟩

/-- The step as a function, with a bound on the rounds of `kmalloc`. -/
def stackExec (c : Copy) (rounds : ℕ) (a : StackState) : StackOp → Option StackState
  | .kmalloc size => (kmalloc rounds size a.k.memory).map fun r =>
      ⟨{ a.k with memory := r.2 }, giveTo none size r.1 r.2 a.live⟩
  | .kfree ptr =>
    if ptr = 0 ∨ ∃ x ∈ a.live, x.owner = none ∧ x.alloc.ptr = ptr then
      some ⟨{ a.k with memory := kfree ptr a.k.memory }, giveBack ptr a.live⟩
    else none
  | .write addr v =>
    if ∃ x ∈ a.live, InPayload a.k.memory.mem x.alloc addr then
      some ⟨{ a.k with memory := { a.k.memory with mem := a.k.memory.mem.set addr v } }, a.live⟩
    else none
  | .create name entry priority flags => (processCreate rounds name entry priority flags a.k).map fun r =>
      ⟨r.2, giveStack r.1 r.2 a.live⟩
  | .destroy proc => some ⟨processDestroy c proc a.k, giveBackStack proc a.k a.live⟩

theorem stackExec_step {c : Copy} {n : ℕ} (a : StackState) (op : StackOp) (b : StackState)
    (h : stackExec c n a op = some b) : StackStep c a op b := by
  cases op with
  | kmalloc size =>
    obtain ⟨⟨ptr, s'⟩, hk, rfl⟩ := Option.map_eq_some_iff.1 h
    exact .kmalloc hk
  | kfree ptr =>
    simp only [stackExec] at h
    split_ifs at h with hp
    cases h
    exact .kfree hp
  | write addr v =>
    simp only [stackExec] at h
    split_ifs at h with hp
    cases h
    obtain ⟨x, hm, hi⟩ := hp
    exact .write hm hi
  | create name entry priority flags =>
    obtain ⟨⟨proc, k'⟩, hk, rfl⟩ := Option.map_eq_some_iff.1 h
    exact .create hk
  | destroy proc =>
    cases h
    exact .destroy

end Zer0S
