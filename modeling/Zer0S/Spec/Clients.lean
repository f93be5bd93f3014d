import Zer0S.Lib.Trace
import Zer0S.Spec.Process

/-!
# What the callers of `process.c` do

The table is a static variable of `process.c`. A caller has a pointer to a process only from
`process_create`, `process_get_by_pid` or `process_get_current`, and may pass NULL or any
pointer it ever got, also that of a dead process or of a slot that is reused. The list of these
pointers is ghost state.
-/

namespace Zer0S

open Lib

/-- The process that is passed to a call. -/
def ProcessOp.arg : ProcessOp → Option Slot
  | .destroy proc | .wakeup proc => proc
  | _ => none

def ProcessOp.creates : ProcessOp → Bool
  | .create _ _ _ _ => true
  | _ => false

/-- The state of `process.c` and the pointers that were returned. -/
structure Client where
  k : Kernel
  handles : List Slot

inductive ClientOp
  | call (op : ProcessOp)
  | getByPid (pid : Word)
  | getCurrent
deriving DecidableEq, Repr

def ClientOp.creates : ClientOp → Bool
  | .call op => op.creates
  | _ => false

/-- One step of a caller. -/
inductive ClientStep (c : Copy) : Client → ClientOp → Client → Prop
  | create {a : Client} {rounds : ℕ} {name : List Byte} {entry priority : Word} {flags : BitVec 32}
      {proc : Option Slot} {k' : Kernel} :
      processCreate rounds name entry priority flags a.k = some (proc, k') →
      ClientStep c a (.call (.create name entry priority flags)) ⟨k', proc.toList ++ a.handles⟩
  | call {a : Client} {op : ProcessOp} {k' : Kernel} : op.creates = false →
      (∀ p, op.arg = some p → p ∈ a.handles) → ProcessStep c a.k op k' →
      ClientStep c a (.call op) ⟨k', a.handles⟩
  | getByPid {a : Client} {pid : Word} :
      ClientStep c a (.getByPid pid) ⟨a.k, (processGetByPid pid a.k).toList ++ a.handles⟩
  | getCurrent {a : Client} :
      ClientStep c a .getCurrent ⟨a.k, a.k.currentProcess.toList ++ a.handles⟩

/-- The step as a function, with a bound on the rounds of a call. -/
def clientExec (c : Copy) (rounds : ℕ) (a : Client) : ClientOp → Option Client
  | .call (.create name entry priority flags) =>
    (processCreate rounds name entry priority flags a.k).map fun r => ⟨r.2, r.1.toList ++ a.handles⟩
  | .call op =>
    if ∀ p, op.arg = some p → p ∈ a.handles then
      (processExec c rounds a.k op).map fun k' => ⟨k', a.handles⟩
    else none
  | .getByPid pid => some ⟨a.k, (processGetByPid pid a.k).toList ++ a.handles⟩
  | .getCurrent => some ⟨a.k, a.k.currentProcess.toList ++ a.handles⟩

theorem clientExec_step {c : Copy} {n : ℕ} (a : Client) (op : ClientOp) (b : Client)
    (h : clientExec c n a op = some b) : ClientStep c a op b := by
  have call : ∀ op : ProcessOp, op.creates = false →
      (if ∀ p, op.arg = some p → p ∈ a.handles then
        (processExec c n a.k op).map fun k' => (⟨k', a.handles⟩ : Client) else none) = some b →
      ClientStep c a (.call op) b := by
    intro op hop h
    split_ifs at h with harg
    obtain ⟨k', hk, rfl⟩ := Option.map_eq_some_iff.1 h
    exact .call hop harg ⟨n, hk⟩
  cases op with
  | call op =>
    cases op with
    | create name entry priority flags =>
      obtain ⟨⟨r, k'⟩, hk, rfl⟩ := Option.map_eq_some_iff.1 h
      exact .create hk
    | destroy proc => exact call _ rfl h
    | exit code => exact call _ rfl h
    | yield => exact call _ rfl h
    | sleep ticks => exact call _ rfl h
    | wakeup proc => exact call _ rfl h
  | getByPid pid =>
    cases h
    exact .getByPid
  | getCurrent =>
    cases h
    exact .getCurrent

/-- How many times `process_create` was called. -/
def creations (tr : List (Transition Client ClientOp)) : ℕ := tr.countP fun e => e.label.creates

/-- The transition is a call of `process_create` that takes the slot `p`. -/
def Creates (e : Transition Client ClientOp) (p : Slot) : Prop :=
  e.label.creates = true ∧ findFreeProcess e.pre.k = some p

end Zer0S
