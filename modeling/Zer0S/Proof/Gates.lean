import Zer0S.Lib.Last
import Zer0S.Proof.Interrupts
import Zer0S.Spec.Gates

/-!
# The gates in memory

`idt_set_gate` cuts the address of a handler into three fields of a packed structure. Read by the layout of
a gate, the bytes of the table are the table of `Spec/Interrupts`.

* `readGate_setGate`: what was written is read back; `setGate_outside`: nothing else changes.
* `tableAt_setGate`, `tableAt_foldl`: calls on the bytes are calls on the table.
* `gates_faithful`: every vector after any sequence of calls, and after `idt_init`.
-/

namespace Zer0S

open Lib

variable {idt : Word} {m : Mem} {c : GateCall} {calls : List GateCall} {u v : BitVec 8}

/-- The table in memory. -/
def tableAt (idt : Word) (m : Mem) : Idt := fun v => readGate m (gateAddr idt v)

/-- The last call for a vector. -/
def lastGate (calls : List GateCall) (v : BitVec 8) : Option GateCall := lastWith (fun c => c.num = v) calls

/-! ## One entry -/

theorem ofNat_mod_setWidth {w k : ℕ} (x : BitVec k) : BitVec.ofNat w (x.toNat % 2 ^ w) = x.setWidth w := by
  apply BitVec.eq_of_toNat_eq
  rw [BitVec.toNat_ofNat, BitVec.toNat_setWidth, Nat.mod_mod]

/-- **An entry is read back.** -/
theorem readGate_setGate (idt : Word) (m : Mem) (c : GateCall) :
    readGate (setGate idt m c) (gateAddr idt c.num) = gate c.base c.selector c.flags := by
  have h16 : ∀ x : Word, BitVec.ofNat 16 (x.toNat % 256 ^ 2) = x.setWidth 16 := ofNat_mod_setWidth
  have h32 : ∀ x : Word, BitVec.ofNat 32 (x.toNat % 256 ^ 4) = x.setWidth 32 := ofNat_mod_setWidth
  have hsel : BitVec.ofNat 16 (c.selector.toNat % 256 ^ 2) = c.selector :=
    (ofNat_mod_setWidth c.selector).trans (BitVec.setWidth_eq _)
  have hflags : BitVec.ofNat 8 (c.flags.toNat % 256 ^ 1) = c.flags :=
    (ofNat_mod_setWidth c.flags).trans (BitVec.setWidth_eq _)
  unfold readGate setGate gate
  simp (disch := omega) only [get_put_other, get_put_same]
  rw [h16, h16, h32, hsel, hflags]
  rfl

/-- **Outside the entry** nothing changes. -/
theorem setGate_outside {x : Word} (hx : 16 ≤ (x - gateAddr idt c.num).toNat) : setGate idt m c x = m x := by
  unfold setGate
  rw [put_outside (by norm_num) hx, put_outside (by norm_num) hx, put_outside (by norm_num) hx,
    put_outside (by norm_num) hx, put_outside (by norm_num) hx, put_outside (by norm_num) hx,
    put_outside (by norm_num) hx]

/-- The bytes of another entry are outside. -/
theorem gateAddr_apart (h : u ≠ v) {i : ℕ} (hi : i < 16) :
    16 ≤ (gateAddr idt v + BitVec.ofNat 64 i - gateAddr idt u).toNat := by
  have hne : u.toNat ≠ v.toNat := fun he => h (BitVec.eq_of_toNat_eq he)
  have hu := u.isLt
  have hv := v.isLt
  have hu64 : (u.setWidth 64).toNat = u.toNat := BitVec.toNat_setWidth_of_le (by norm_num)
  have hv64 : (v.setWidth 64).toNat = v.toNat := BitVec.toNat_setWidth_of_le (by norm_num)
  unfold gateAddr
  generalize u.setWidth 64 = x at hu64
  generalize v.setWidth 64 = y at hv64
  bv_omega

theorem setGate_other (h : c.num ≠ v) (m : Mem) {i : ℕ} (hi : i < 16) :
    setGate idt m c (gateAddr idt v + BitVec.ofNat 64 i) = m (gateAddr idt v + BitVec.ofNat 64 i) :=
  setGate_outside (gateAddr_apart h hi)

/-- An entry depends on its 16 bytes. -/
theorem readGate_congr {m' : Mem} {a : Word}
    (h : ∀ i < 16, m (a + BitVec.ofNat 64 i) = m' (a + BitVec.ofNat 64 i)) : readGate m a = readGate m' a := by
  unfold readGate
  rw [get_congr (by norm_num) h, get_congr (by norm_num) h, get_congr (by norm_num) h, get_congr (by norm_num) h,
    get_congr (by norm_num) h, get_congr (by norm_num) h, get_congr (by norm_num) h]

/-! ## The table -/

/-- **A call on the bytes** is the call on the table. -/
theorem tableAt_setGate (idt : Word) (m : Mem) (c : GateCall) :
    tableAt idt (setGate idt m c) = idtSetGate c.num c.base c.selector c.flags (tableAt idt m) := by
  funext v
  unfold idtSetGate tableAt
  by_cases hv : v = c.num
  · rw [hv, Function.update_self]
    exact readGate_setGate idt m c
  · rw [Function.update_of_ne hv]
    exact readGate_congr fun i hi => setGate_other (Ne.symm hv) m hi

theorem tableAt_foldl (idt : Word) : ∀ (calls : List GateCall) (m : Mem), tableAt idt (calls.foldl (setGate idt) m) =
    calls.foldl (fun t c => idtSetGate c.num c.base c.selector c.flags t) (tableAt idt m) := by
  intro calls
  induction calls with
  | nil => intro m; rfl
  | cons c calls ih =>
    intro m
    rw [List.foldl_cons, List.foldl_cons, ih, tableAt_setGate]

/-- `idt_init` is the sequence of its calls. -/
theorem idtInit_calls (addr : Stub → Word) (t : Idt) : idtInit addr t =
    (idtInitCalls addr).foldl (fun t c => idtSetGate c.num c.base c.selector c.flags t) t := by
  unfold idtInit idtInitCalls
  rw [forLoop_eq_foldl, List.foldl_append, List.foldl_append, List.foldl_append, List.foldl_map, List.foldl_map,
    List.foldl_map]
  rfl

/-- The gates of `idt_init`, with that of the system call. -/
theorem idtInit_all (addr : Stub → Word) (t : Idt) (v : BitVec 8) :
    idtInit addr t v = gate (addr (vectorStub v)) 0x08 (if v = 0x80 then 0xEE else 0x8E) := by
  by_cases hv : v = 0x80
  · have hstub : vectorStub 0x80 = .syscallHandler := by decide
    rw [if_pos hv, hv, hstub]
    unfold idtInit
    rw [idtSetGate, Function.update_self]
  · rw [if_neg hv]
    exact idtInit_gate hv

/-- **Gates.** After any sequence of calls, the entry of a vector reads back as the base, selector and flags
of the last call for it, with an IST and a reserved field of 0; the bytes of a vector without a call are
unchanged. After the calls of `idt_init`, each vector has the gate for its stub. -/
theorem gates_faithful (idt : Word) (m : Mem) (calls : List GateCall) :
    (∀ v c, lastGate calls v = some c →
      (readGate (calls.foldl (setGate idt) m) (gateAddr idt v)).base = c.base ∧
      (readGate (calls.foldl (setGate idt) m) (gateAddr idt v)).selector = c.selector ∧
      (readGate (calls.foldl (setGate idt) m) (gateAddr idt v)).flags = c.flags ∧
      (readGate (calls.foldl (setGate idt) m) (gateAddr idt v)).ist = 0 ∧
      (readGate (calls.foldl (setGate idt) m) (gateAddr idt v)).reserved = 0) ∧
    (∀ v, (∀ c ∈ calls, c.num ≠ v) → ∀ i < 16, calls.foldl (setGate idt) m (gateAddr idt v + BitVec.ofNat 64 i) =
      m (gateAddr idt v + BitVec.ofNat 64 i)) ∧
    ∀ addr v, readGate ((idtInitCalls addr).foldl (setGate idt) m) (gateAddr idt v) =
      gate (addr (vectorStub v)) 0x08 (if v = 0x80 then 0xEE else 0x8E) := by
  refine ⟨?_, ?_, ?_⟩
  · intro v c hc
    have hobs : ∀ m : Mem, True → ∀ c ∈ calls, readGate (setGate idt m c) (gateAddr idt v) =
        if decide (c.num = v) = true then gate c.base c.selector c.flags else readGate m (gateAddr idt v) := by
      intro m _ c _
      by_cases hcv : c.num = v
      · rw [if_pos (decide_eq_true hcv), ← hcv]
        exact readGate_setGate idt m c
      · rw [if_neg (by simpa using hcv)]
        exact readGate_congr fun i hi => setGate_other hcv m hi
    have hlast := (foldl_lastWith _ (setGate idt) (fun m => readGate m (gateAddr idt v)) _ (fun _ => True) hobs
      (fun _ _ _ _ => trivial) (s := m) trivial).2
    have hlast : readGate (calls.foldl (setGate idt) m) (gateAddr idt v) = gate c.base c.selector c.flags := by
      apply hlast.trans
      rw [show lastWith (fun c : GateCall => decide (c.num = v)) calls = some c from hc]
      rfl
    rw [hlast]
    exact ⟨gate_base .., rfl, rfl, rfl, rfl⟩
  · intro v hv i hi
    exact foldl_unchanged (setGate idt) (fun m => m (gateAddr idt v + BitVec.ofNat 64 i))
      (fun m c hc => setGate_other (hv c hc) m hi) m
  · intro addr v
    have htable := congrFun (tableAt_foldl idt (idtInitCalls addr) m) v
    rw [← idtInit_calls, idtInit_all] at htable
    exact htable

end Zer0S
