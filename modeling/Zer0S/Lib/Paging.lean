import Zer0S.Lib.X86

/-!
# Address translation of x86-64

The four levels of page tables of 64-bit mode, as the processor walks them for an access at
privilege level 0. A table has 512 entries of 8 bytes, and each level takes nine bits of the
address. Physical addresses have 52 bits, and EFER.NXE is clear.

`none` is a fault: an address that is not canonical, an entry that is not present, or a reserved
bit that is set.

* `walk_absent`, `walk_table`, `walk_page`: what one entry does to a walk.
-/

namespace Lib

/-- Where an address leads to, and whether the entries on the way allow writing. -/
structure Translation where
  phys : Word
  writable : Bool
deriving DecidableEq, Repr

/-- An entry with `n` levels below it stands for `2 ^ pageShift n` bytes. -/
def pageShift (n : ℕ) : ℕ := 12 + 9 * n

/-- The entry for the address `v` in a table with `n` levels below it. -/
def tableEntry (m : Mem) (v : Word) (n : ℕ) (table : Word) : Word :=
  m.read64 (table + BitVec.ofNat 64 (8 * (v.toNat / 2 ^ pageShift n % 512)))

/-- The P bit. -/
def present (e : Word) : Bool := e.getLsbD 0

/-- The R/W bit. -/
def writable (e : Word) : Bool := e.getLsbD 1

/-- The entry maps a page: always at the last level, and above it when the PS bit is set. -/
def mapsPage (n : ℕ) (e : Word) : Bool := n == 0 || e.getLsbD 7

/-- A reserved bit is set: bit 63, the PS bit in the level 4 table, or a bit between the PAT bit and
the address of a large page. -/
def reserved (n : ℕ) (e : Word) : Bool :=
  e.getLsbD 63 || decide (3 ≤ n) && e.getLsbD 7 ||
    mapsPage n e && decide (e.toNat % 2 ^ pageShift n / 2 ^ 13 ≠ 0)

/-- The address in an entry, aligned to `2 ^ k` bytes. -/
def frameOf (k : ℕ) (e : Word) : Word := BitVec.ofNat 64 (e.toNat % 2 ^ 52 / 2 ^ k * 2 ^ k)

/-- The walk from a table with `n` tables to go, `w` so far. -/
def walk (m : Mem) (v : Word) : ℕ → Word → Bool → Option Translation
  | 0, _, _ => none
  | n + 1, table, w =>
    let e := tableEntry m v n table
    if !present e || reserved n e then none
    else if mapsPage n e then
      some ⟨frameOf (pageShift n) e + BitVec.ofNat 64 (v.toNat % 2 ^ pageShift n), w && writable e⟩
    else walk m v n (frameOf 12 e) (w && writable e)

/-- The translation of an address, for the value of `cr3`. -/
def translateAddr (m : Mem) (cr3 v : Word) : Option Translation :=
  if canonical v then walk m v 4 (frameOf 12 cr3) true else none

variable {m : Mem} {v table e : Word} {n : ℕ} {w : Bool}

theorem walk_absent (h : present (tableEntry m v n table) = false) : walk m v (n + 1) table w = none := by
  simp [walk, h]

theorem walk_table (he : tableEntry m v n table = e) (hp : present e = true) (hr : reserved n e = false)
    (hm : mapsPage n e = false) : walk m v (n + 1) table w = walk m v n (frameOf 12 e) (w && writable e) := by
  simp [walk, he, hp, hr, hm]

theorem walk_page (he : tableEntry m v n table = e) (hp : present e = true) (hr : reserved n e = false)
    (hm : mapsPage n e = true) : walk m v (n + 1) table w =
      some ⟨frameOf (pageShift n) e + BitVec.ofNat 64 (v.toNat % 2 ^ pageShift n), w && writable e⟩ := by
  simp [walk, he, hp, hr, hm]

/-- A canonical address is in the lower or in the upper half. -/
theorem toNat_of_canonical (h : canonical v = true) : v.toNat < 2 ^ 47 ∨ 2 ^ 64 - 2 ^ 47 ≤ v.toNat := by
  have hv := v.isLt
  have ht : (v.extractLsb' 47 17).toNat = v.toNat / 2 ^ 47 % 2 ^ 17 := by
    rw [BitVec.extractLsb'_toNat, Nat.shiftRight_eq_div_pow]
  rw [canonical, Bool.or_eq_true, beq_iff_eq, beq_iff_eq] at h
  rcases h with h | h
  · rw [h] at ht
    have h0 : (0 : BitVec 17).toNat = 0 := rfl
    omega
  · rw [h, BitVec.toNat_allOnes] at ht
    omega

theorem canonical_of_lt (h : v.toNat < 2 ^ 47) : canonical v = true := by
  rw [canonical, Bool.or_eq_true, beq_iff_eq]
  refine Or.inl (BitVec.eq_of_toNat_eq ?_)
  rw [BitVec.extractLsb'_toNat, Nat.shiftRight_eq_div_pow, Nat.div_eq_of_lt h]
  rfl

end Lib
