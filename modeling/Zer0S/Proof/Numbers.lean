import Zer0S.Proof.Handlers
import Zer0S.Proof.Hex

/-!
# Numbers in commands

`hex` and `kmalloc` read a decimal number, one digit at a time, in 64 bits. Nothing tells when the number
no longer fits.

* `readNumber_eq`: what is read is the number modulo `2 ^ 64`.
* `numbers_used`: `hex` prints the number exactly when it is below `2 ^ 64`. `kmalloc` requests it exactly
  when it is, and it also asks for a size when the number is a multiple of `2 ^ 64`.
-/

namespace Zer0S

open Lib

variable {args t : List Byte} {a : Byte} {c : Console} {v : Word} {n : ℕ}

/-- A decimal digit. -/
def IsDecimal (c : Byte) : Prop := 0x30 ≤ c.toNat ∧ c.toNat ≤ 0x39

/-- The number that a string of decimal digits denotes. -/
def readDecimal (t : List Byte) : ℕ := horner 10 0 (t.map digitValue)

/-- What `print_hex` prints for `v` is a numeral of `n`. -/
def Denotes (v : Word) (n : ℕ) : Prop := ∃ ds, printHex v = ascii "0x" ++ ds ∧ readHex ds = n

/-- `hex` prints a numeral of `n`, or no number at all. -/
def HexHonest (args : List Byte) (n : ℕ) (c : Console) : Prop :=
  ∃ p, cmdHex args c = c.print p ∧
    ((∃ v, p = [.text "\nHex: ", .hex v, .text "\n"] ∧ Denotes v n) ∨ ∀ v, .hex v ∉ p)

/-- What `kmalloc` does after it read `size`, if it goes on. -/
def allocated (rounds : ℕ) (size : Word) (c : Console) : Option Console :=
  (kmalloc rounds size c.kernel.memory).map fun (ptr, memory) =>
    { c with kernel := { c.kernel with memory := memory } }.print
      [.text "\nAllocated ", .hex size, .text " bytes at ", .hex ptr, .text "\n"]

/-- `kmalloc` requests `n` bytes, or says how it is used. -/
def KmallocHonest (rounds : ℕ) (args : List Byte) (n : ℕ) (c : Console) : Prop :=
  (∃ size : Word, size.toNat = n ∧ cmdKmalloc rounds args c = allocated rounds size c) ∨
    cmdKmalloc rounds args c = some (c.print [.text "\nUsage: kmalloc <size>\n"])

/-! ## Reading -/

theorem isDecimal_iff : ∀ a : Byte, IsDecimal a ↔ BitVec.sle 0x30 a ∧ BitVec.sle a 0x39 := by
  unfold IsDecimal
  decide +kernel

theorem digit_eq : ∀ a : Byte, IsDecimal a → a.signExtend 64 - 0x30 = BitVec.ofNat 64 (digitValue a) := by
  unfold IsDecimal
  decide +kernel

theorem readNumber_cString : ∀ (args : List Byte) (num : Word), readNumber num (cString args) = readNumber num args := by
  intro args
  induction args with
  | nil => intro num; rfl
  | cons a args ih =>
    intro num
    rw [cString_cons]
    by_cases ha : a = 0
    · -- the NUL is no digit
      subst ha
      rfl
    · rw [if_neg ha, readNumber, readNumber, ih]

/-- **What is read**: the number of the digits, behind what was read before, in 64 bits. -/
theorem readNumber_eq : ∀ (t : List Byte) (num : Word), (∀ a ∈ t, IsDecimal a) →
    readNumber num t = BitVec.ofNat 64 (horner 10 num.toNat (t.map digitValue)) := by
  intro t
  induction t with
  | nil =>
    intro num _
    rw [readNumber, List.map_nil, horner_nil, BitVec.ofNat_toNat, BitVec.setWidth_eq]
  | cons a t ih =>
    intro num ht
    have ha := ht a List.mem_cons_self
    have ht := fun b hb => ht b (List.mem_cons_of_mem _ hb)
    have hnum : (num * 10 + (a.signExtend 64 - 0x30)).toNat % 2 ^ 64 = (num.toNat * 10 + digitValue a) % 2 ^ 64 := by
      rw [digit_eq a ha, BitVec.toNat_add, BitVec.toNat_mul, BitVec.toNat_ofNat, Nat.mod_mod, Nat.add_mod_mod]
      exact Nat.mod_add_mod ..
    rw [readNumber, if_pos ((isDecimal_iff a).1 ha), ih _ ht, List.map_cons, horner_cons]
    apply BitVec.eq_of_toNat_eq
    rw [BitVec.toNat_ofNat, BitVec.toNat_ofNat]
    exact horner_mod 10 (2 ^ 64) _ _ _ hnum

theorem readNumber_args (hargs : cString args = t) (ht : ∀ a ∈ t, IsDecimal a) :
    readNumber 0 args = BitVec.ofNat 64 (readDecimal t) := by
  rw [← readNumber_cString, hargs]
  exact readNumber_eq t 0 ht

/-! ## Printing -/

theorem denotes_iff : Denotes v n ↔ v.toNat = n := by
  obtain ⟨ds, hds, -, -, -, -, -, hread⟩ := printHex_digits v
  constructor
  · rintro ⟨ds', hds', rfl⟩
    rw [hds] at hds'
    rw [← hread, List.append_cancel_left hds']
  · intro h
    exact ⟨ds, hds, hread.trans h⟩

/-- **`hex`** is right exactly when the number fits into 64 bits. -/
theorem hexHonest_iff (hargs : cString args = t) (ht : ∀ a ∈ t, IsDecimal a) :
    HexHonest args (readDecimal t) c ↔ readDecimal t < 2 ^ 64 := by
  constructor
  · rintro ⟨p, hp, ⟨v, -, hv⟩ | hnone⟩
    · rw [← denotes_iff.1 hv]
      exact v.isLt
    · -- it always prints a number
      have hmem : Print.hex (readNumber 0 args) ∈ p := by
        rw [← Console.print_inj hp]
        simp
      exact absurd hmem (hnone _)
  · intro hlt
    refine ⟨_, rfl, Or.inl ⟨readNumber 0 args, rfl, ?_⟩⟩
    rw [denotes_iff, readNumber_args hargs ht, BitVec.toNat_ofNat, Nat.mod_eq_of_lt hlt]

/-! ## `kmalloc` -/

/-- A request only adds to what is printed. -/
theorem kmalloc_console {s s' : Memory} {rounds : ℕ} {size ptr : Word} (h : kmalloc rounds size s = some (ptr, s')) :
    ∃ p, s'.console = s.console ++ p := by
  have hsetup : (heapSetup s).console = s.console := by
    unfold heapSetup
    split_ifs <;> rfl
  unfold kmalloc at h
  split_ifs at h
  · obtain ⟨-, rfl⟩ := Prod.mk.inj (Option.some.inj h)
    exact ⟨[], (List.append_nil _).symm⟩
  · dsimp only at h
    split at h
    · cases h
    · obtain ⟨-, rfl⟩ := Prod.mk.inj (Option.some.inj h)
      exact ⟨_, congrArg (· ++ _) hsetup⟩
    · obtain ⟨-, rfl⟩ := Prod.mk.inj (Option.some.inj h)
      exact ⟨[], hsetup.trans (List.append_nil _).symm⟩

theorem cmdKmalloc_eq (rounds : ℕ) (args : List Byte) (c : Console) :
    cmdKmalloc rounds args c = if readNumber 0 args = 0 then some (c.print [.text "\nUsage: kmalloc <size>\n"])
      else allocated rounds (readNumber 0 args) c := by
  unfold cmdKmalloc
  by_cases h0 : readNumber 0 args = 0
  · have hpos : ¬ 0 < readNumber 0 args := by bv_omega
    rw [if_pos h0]
    exact if_neg hpos
  · have hpos : 0 < readNumber 0 args := by bv_omega
    rw [if_neg h0]
    exact if_pos hpos

/-- What a request prints is not how `kmalloc` is used. -/
theorem allocated_ne_usage (rounds : ℕ) (size : Word) (c : Console) :
    allocated rounds size c ≠ some (c.print [.text "\nUsage: kmalloc <size>\n"]) := by
  intro h
  obtain ⟨⟨ptr, s'⟩, hk, hprint⟩ := Option.map_eq_some_iff.1 h
  obtain ⟨p, hp⟩ := kmalloc_console hk
  have hlen : s'.console.length + 5 = c.kernel.memory.console.length + 1 := by
    have := congrArg (fun c : Console => c.kernel.memory.console.length) hprint
    simpa [Console.print, Kernel.print, Memory.print] using this
  rw [hp, List.length_append] at hlen
  omega

/-- **`kmalloc`** is right exactly when the number fits into 64 bits, or is taken for 0. -/
theorem kmallocHonest_iff {rounds : ℕ} (hargs : cString args = t) (ht : ∀ a ∈ t, IsDecimal a) :
    KmallocHonest rounds args (readDecimal t) c ↔ readDecimal t < 2 ^ 64 ∨ 2 ^ 64 ∣ readDecimal t := by
  have hread := readNumber_args hargs ht
  have hzero : readNumber 0 args = 0 ↔ 2 ^ 64 ∣ readDecimal t := by
    rw [hread, Nat.dvd_iff_mod_eq_zero, ← BitVec.toNat_inj, BitVec.toNat_ofNat]
    exact Iff.rfl
  unfold KmallocHonest
  rw [cmdKmalloc_eq]
  by_cases h0 : readNumber 0 args = 0
  · rw [if_pos h0]
    exact ⟨fun _ => Or.inr (hzero.1 h0), fun _ => Or.inr rfl⟩
  · rw [if_neg h0]
    constructor
    · rintro (⟨size, hsize, -⟩ | husage)
      · left
        rw [← hsize]
        exact size.isLt
      · exact absurd husage (allocated_ne_usage _ _ _)
    · rintro (hlt | hdvd)
      · left
        refine ⟨readNumber 0 args, ?_, rfl⟩
        rw [hread, BitVec.toNat_ofNat, Nat.mod_eq_of_lt hlt]
      · exact absurd (hzero.2 hdvd) h0

/-- **Numbers.** For every string of digits in `args`, `hex` prints a numeral of the number exactly when it
is below `2 ^ 64`, and `kmalloc` requests the number, or says how it is used, exactly when it is below
`2 ^ 64` or a multiple of it. -/
theorem numbers_used (rounds : ℕ) (c : Console) (hargs : cString args = t) (ht : ∀ a ∈ t, IsDecimal a) :
    (HexHonest args (readDecimal t) c ↔ readDecimal t < 2 ^ 64) ∧
      (KmallocHonest rounds args (readDecimal t) c ↔ readDecimal t < 2 ^ 64 ∨ 2 ^ 64 ∣ readDecimal t) :=
  ⟨hexHonest_iff hargs ht, kmallocHonest_iff hargs ht⟩

/-- The largest number that fits. -/
theorem numbers_used_max : HexHonest (ascii "18446744073709551615") 18446744073709551615
    ⟨Kernel.boot (Memory.boot fun _ => 0), false⟩ := by
  have hread : readDecimal (ascii "18446744073709551615") = 18446744073709551615 := by decide +kernel
  have hargs : cString (ascii "18446744073709551615") = ascii "18446744073709551615" := by decide +kernel
  have ht : ∀ a ∈ ascii "18446744073709551615", IsDecimal a := by
    unfold IsDecimal
    decide +kernel
  have h := (numbers_used 0 ⟨Kernel.boot (Memory.boot fun _ => 0), false⟩ hargs ht).1
  rw [hread] at h
  exact h.2 (by norm_num)

/-- `hex 18446744073709551617` prints `0x1`, and `kmalloc 18446744073709551617` requests one byte. -/
theorem number_wraps : cString (ascii "18446744073709551617") = ascii "18446744073709551617" ∧
    (∀ a ∈ ascii "18446744073709551617", IsDecimal a) ∧
    readDecimal (ascii "18446744073709551617") = 18446744073709551617 ∧
    (∀ c, cmdHex (ascii "18446744073709551617") c = c.print [.text "\nHex: ", .hex 1, .text "\n"] ∧
      ¬ HexHonest (ascii "18446744073709551617") 18446744073709551617 c) ∧
    ∀ rounds c, cmdKmalloc rounds (ascii "18446744073709551617") c = allocated rounds 1 c ∧
      ¬ KmallocHonest rounds (ascii "18446744073709551617") 18446744073709551617 c := by
  have hargs : cString (ascii "18446744073709551617") = ascii "18446744073709551617" := by decide +kernel
  have ht : ∀ a ∈ ascii "18446744073709551617", IsDecimal a := by
    unfold IsDecimal
    decide +kernel
  have hvalue : readDecimal (ascii "18446744073709551617") = 18446744073709551617 := by decide +kernel
  have hread : readNumber 0 (ascii "18446744073709551617") = 1 := by decide +kernel
  refine ⟨hargs, ht, hvalue, fun c => ⟨?_, ?_⟩, fun rounds c => ⟨?_, ?_⟩⟩
  · unfold cmdHex
    rw [hread]
  · intro h
    rw [← hvalue, hexHonest_iff hargs ht, hvalue] at h
    norm_num at h
  · rw [cmdKmalloc_eq, hread]
    rfl
  · intro h
    rw [← hvalue, kmallocHonest_iff hargs ht, hvalue] at h
    norm_num at h

end Zer0S
