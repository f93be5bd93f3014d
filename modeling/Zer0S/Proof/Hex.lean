import Zer0S.Lib.Numeral
import Zer0S.Spec.Terminal

/-!
# Numbers on the screen

`print_hex` goes through the sixteen digits of its argument from the left and skips those before the first
that is not `0`, but not the last. So what it has printed in front of a digit is the numeral of the digits
so far, which is empty for 0.

* `printHex_eq`: the characters are `0x` and the numeral of the value.
* `printHex_faithful`: their form, what they read as, and that they tell all values apart.
-/

namespace Zer0S

open Lib

variable {value : Word} {d n j : ℕ}

/-- The value of a digit. -/
def digitValue (c : Byte) : ℕ := if c.toNat < 0x41 then c.toNat - 0x30 else c.toNat - 0x41 + 10

/-- An upper-case hexadecimal digit. -/
def IsHexDigit (c : Byte) : Prop := (0x30 ≤ c.toNat ∧ c.toNat ≤ 0x39) ∨ (0x41 ≤ c.toNat ∧ c.toNat ≤ 0x46)

/-- The number that a string of hexadecimal digits denotes. -/
def readHex (s : List Byte) : ℕ := horner 16 0 (s.map digitValue)

/-- The digit of `print_hex` for a number below 16. -/
def hexChar (d : ℕ) : Byte := hexChars.getD d 0

/-- What `print_hex` prints of a number that it has not finished. -/
def hexText (n : ℕ) : List Byte := (numeral 16 n).map hexChar

/-! ## Digits -/

theorem digitValue_hexChar : ∀ d < 16, digitValue (hexChar d) = d := by decide +kernel

theorem isHexDigit_hexChar : ∀ d < 16, IsHexDigit (hexChar d) := by
  unfold IsHexDigit
  decide +kernel

theorem hexChar_eq_zero (hd : d < 16) : hexChar d = 0x30 ↔ d = 0 := by
  constructor
  · intro h
    rw [← digitValue_hexChar d hd, h]
    rfl
  · intro h
    rw [h]
    decide +kernel

/-- The digit that the shift by `j` brings to the end. -/
theorem toNat_nibble (value : Word) (j : ℕ) : ((value >>> j) &&& 0xF).toNat = value.toNat / 2 ^ j % 16 := by
  rw [BitVec.toNat_and, BitVec.toNat_ushiftRight, Nat.shiftRight_eq_div_pow]
  exact Nat.and_two_pow_sub_one_eq_mod _ 4

theorem hexText_zero : hexText 0 = [] := by
  unfold hexText
  rw [numeral_zero, List.map_nil]

theorem hexText_snoc (hd : d < 16) (h : n * 16 + d ≠ 0) : hexText (n * 16 + d) = hexText n ++ [hexChar d] := by
  unfold hexText
  rw [numeral_snoc (by norm_num) hd h, List.map_append, List.map_singleton]

/-! ## The loop -/

/-- The digits of the value in front of the last `j` bits have been printed. -/
structure HexInv (value : Word) (j : ℕ) (o : HexOutput) : Prop where
  chars : o.chars = ascii "0x" ++ hexText (value.toNat / 2 ^ j)
  started : o.started = true ↔ value.toNat / 2 ^ j ≠ 0

/-- The number in front of the next digit, and the digit. -/
theorem div_digit (n j : ℕ) : n / 2 ^ j = n / 2 ^ (j + 4) * 16 + n / 2 ^ j % 16 := by
  rw [pow_add, ← Nat.div_div_eq_div_mul]
  omega

theorem hexRound_inv {o : HexOutput} (h : HexInv value (j + 4) o) (hj : j ≠ 0) : HexInv value j (hexRound value j o) := by
  have hdigit : hexChars.getD ((value >>> j) &&& 0xF).toNat 0 = hexChar (value.toNat / 2 ^ j % 16) := by
    rw [toNat_nibble]
    rfl
  have hd : value.toNat / 2 ^ j % 16 < 16 := Nat.mod_lt _ (by norm_num)
  have hsplit := div_digit value.toNat j
  unfold hexRound
  rw [hdigit]
  dsimp only
  by_cases hz : value.toNat / 2 ^ j = 0
  · -- only zeros so far
    have hfront : value.toNat / 2 ^ (j + 4) = 0 := by omega
    have hzero : hexChar (value.toNat / 2 ^ j % 16) = 0x30 := (hexChar_eq_zero hd).2 (by omega)
    have hskip : ¬ (hexChar (value.toNat / 2 ^ j % 16) ≠ 0x30 ∨ o.started = true ∨ j = 0) := by
      rintro (h' | h' | h')
      · exact h' hzero
      · exact h.started.1 h' hfront
      · exact hj h'
    rw [if_neg hskip]
    constructor
    · rw [h.chars, hfront, hz]
    · rw [h.started, hfront, hz]
  · have hprint : hexChar (value.toNat / 2 ^ j % 16) ≠ 0x30 ∨ o.started = true ∨ j = 0 := by
      by_cases hfront : value.toNat / 2 ^ (j + 4) = 0
      · left
        intro h'
        have := (hexChar_eq_zero hd).1 h'
        omega
      · right
        left
        exact h.started.2 hfront
    rw [if_pos hprint]
    constructor
    · rw [h.chars, List.append_assoc, ← hexText_snoc hd (by omega), ← hsplit]
    · exact ⟨fun _ => hz, fun _ => rfl⟩

/-- **What is printed**: the numeral of the value, or the digit `0`. -/
theorem printHex_eq (value : Word) :
    printHex value = ascii "0x" ++ if value = 0 then [0x30] else hexText value.toNat := by
  have hlt : value.toNat < 2 ^ 64 := value.isLt
  -- the rounds before the last
  have hrounds : HexInv value (64 - 4 * (0 + 15))
      (forLoop (fun i => hexRound value (60 - 4 * i)) 0 15 ⟨ascii "0x", false⟩) := by
    refine forLoop_ind (fun i o => HexInv value (64 - 4 * i) o) 0 15 _ ?_ ?_
    · have htop : value.toNat / 2 ^ (64 - 4 * 0) = 0 := Nat.div_eq_of_lt (by simpa using hlt)
      constructor
      · rw [htop, hexText_zero, List.append_nil]
      · rw [htop]
        simp
    · intro i o _ hi h
      rw [show 64 - 4 * (i + 1) = 60 - 4 * i by omega]
      rw [show 64 - 4 * i = 60 - 4 * i + 4 by omega] at h
      exact hexRound_inv h (by omega)
  have hsplit := div_digit value.toNat 0
  rw [pow_zero, Nat.div_one, Nat.zero_add] at hsplit
  have hd : value.toNat % 16 < 16 := Nat.mod_lt _ (by norm_num)
  have hdigit : hexChars.getD ((value >>> 0) &&& 0xF).toNat 0 = hexChar (value.toNat % 16) := by
    rw [toNat_nibble, pow_zero, Nat.div_one]
    rfl
  unfold printHex
  rw [forLoop_snoc]
  -- the last digit is printed in any case
  have hlast : ∀ o : HexOutput,
      (hexRound value (60 - 4 * (0 + 15)) o).chars = o.chars ++ [hexChar (value.toNat % 16)] := by
    intro o
    unfold hexRound
    rw [← hdigit]
    exact congrArg HexOutput.chars (if_pos (Or.inr (Or.inr rfl)))
  rw [hlast, hrounds.chars, List.append_assoc]
  congr 1
  by_cases h0 : value = 0
  · rw [if_pos h0, h0]
    decide +kernel
  · have hne : value.toNat ≠ 0 := fun h => h0 (BitVec.eq_of_toNat_eq h)
    rw [if_neg h0]
    conv_rhs => rw [hsplit]
    exact (hexText_snoc hd (by omega)).symm

/-! ## The numeral -/

theorem readHex_hexText (n : ℕ) : readHex (hexText n) = n := by
  have hdigits : ((numeral 16 n).map hexChar).map digitValue = numeral 16 n := by
    rw [List.map_map]
    conv_rhs => rw [← List.map_id (numeral 16 n)]
    apply List.map_congr_left
    intro d hd
    exact digitValue_hexChar d (lt_of_mem_numeral (by norm_num) hd)
  unfold readHex hexText
  rw [hdigits, horner_numeral]

theorem hexText_head (h : n ≠ 0) : (hexText n).head? ≠ some 0x30 := by
  unfold hexText
  rw [List.head?_map]
  intro hz
  obtain ⟨d, hd, hzero⟩ := Option.map_eq_some_iff.1 hz
  have hlt : d < 16 := lt_of_mem_numeral (by norm_num) (List.mem_of_mem_head? hd)
  rw [(hexChar_eq_zero hlt).1 hzero] at hd
  exact numeral_head h hd

/-- The digits of a value. -/
theorem printHex_digits (value : Word) : ∃ ds, printHex value = ascii "0x" ++ ds ∧ 1 ≤ ds.length ∧ ds.length ≤ 16 ∧
    (∀ c ∈ ds, IsHexDigit c) ∧ (value ≠ 0 → ds.head? ≠ some 0x30) ∧ (value = 0 → ds = [0x30]) ∧
    readHex ds = value.toNat := by
  refine ⟨_, printHex_eq value, ?_⟩
  by_cases h0 : value = 0
  · rw [if_pos h0]
    refine ⟨le_rfl, by simp, ?_, fun h => absurd h0 h, fun _ => rfl, ?_⟩
    · intro c hc
      rw [List.mem_singleton.1 hc]
      exact isHexDigit_hexChar 0 (by norm_num)
    · rw [h0]
      decide
  · have hne : value.toNat ≠ 0 := fun h => h0 (BitVec.eq_of_toNat_eq h)
    have hlen : (hexText value.toNat).length = (numeral 16 value.toNat).length := List.length_map _
    rw [if_neg h0, hlen]
    refine ⟨?_, ?_, ?_, fun _ => hexText_head hne, fun h => absurd h h0, readHex_hexText _⟩
    · exact List.length_pos_iff.2 (numeral_ne_nil hne)
    · exact length_numeral_le (by norm_num) value.isLt
    · intro c hc
      obtain ⟨d, hd, rfl⟩ := List.mem_map.1 hc
      exact isHexDigit_hexChar d (lt_of_mem_numeral (by norm_num) hd)

/-- **`print_hex` is faithful.** It prints `0x` and 1 to 16 upper-case digits, without a leading zero
except for the digit 0 of the value 0, which read back give the value. So all values print differently. -/
theorem printHex_faithful :
    (∀ value : Word, ∃ ds, printHex value = ascii "0x" ++ ds ∧ 1 ≤ ds.length ∧ ds.length ≤ 16 ∧
      (∀ c ∈ ds, IsHexDigit c) ∧ (value ≠ 0 → ds.head? ≠ some 0x30) ∧ (value = 0 → ds = [0x30]) ∧
      readHex ds = value.toNat) ∧
    ∀ v w : Word, printHex v = printHex w → v = w := by
  refine ⟨printHex_digits, ?_⟩
  intro v w h
  obtain ⟨dv, hv, -, -, -, -, -, hreadv⟩ := printHex_digits v
  obtain ⟨dw, hw, -, -, -, -, -, hreadw⟩ := printHex_digits w
  have hds : dv = dw := by
    rw [hv, hw] at h
    exact List.append_cancel_left h
  apply BitVec.eq_of_toNat_eq
  rw [← hreadv, ← hreadw, hds]

/-- Zeros inside and behind stay. -/
example : printHex 0x10A00 = ascii "0x10A00" := by decide +kernel

end Zer0S
