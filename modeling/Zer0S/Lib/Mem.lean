import Mathlib.Tactic

/-!
# Byte memory with 64-bit addresses

A memory maps every 64-bit address to a byte. Multi-byte values are little endian,
and addresses wrap around at `2 ^ 64`, also in the middle of a value.

* `read64_write64`, `read32_write32`: what was written is read back.
* `write64_outside`: a write changes the bytes of its own range only.
* `Sep a n b k`: the `n` bytes from `a` and the `k` bytes from `b` have no byte in
  common (`sep_ofNat` gets it from the order of the addresses as numbers).
-/

namespace Lib

abbrev Byte := BitVec 8
abbrev Word := BitVec 64

/-- A memory. -/
abbrev Mem := Word → Byte

/-- Overwrite one byte. -/
def Mem.set (m : Mem) (a : Word) (v : Byte) : Mem := fun b => if b = a then v else m b

/-- The little-endian value of the `n` bytes from `a`. -/
def Mem.load (m : Mem) (a : Word) : ℕ → ℕ
  | 0 => 0
  | n + 1 => (m a).toNat + 256 * m.load (a + 1) n

/-- Write the low `n` bytes of `v` from `a` up. -/
def Mem.store (m : Mem) (a : Word) : ℕ → ℕ → Mem
  | 0, _ => m
  | n + 1, v => (m.set a (BitVec.ofNat 8 v)).store (a + 1) n (v / 256)

def Mem.read64 (m : Mem) (a : Word) : Word := BitVec.ofNat 64 (m.load a 8)
def Mem.write64 (m : Mem) (a v : Word) : Mem := m.store a 8 v.toNat
def Mem.read32 (m : Mem) (a : Word) : BitVec 32 := BitVec.ofNat 32 (m.load a 4)
def Mem.write32 (m : Mem) (a : Word) (v : BitVec 32) : Mem := m.store a 4 v.toNat

/-- The `n` bytes from `a` and the `k` bytes from `b` have no byte in common. -/
def Sep (a : Word) (n : ℕ) (b : Word) (k : ℕ) : Prop := n ≤ (b - a).toNat ∧ k ≤ (a - b).toNat

theorem Sep.symm {a b : Word} {n k : ℕ} (h : Sep a n b k) : Sep b k a n := ⟨h.2, h.1⟩

variable {m m' : Mem} {a b : Word} {n k : ℕ}

theorem Mem.set_ne (h : b ≠ a) (v : Byte) : m.set a v b = m b := by simp [Mem.set, h]

@[simp] theorem Mem.set_self (m : Mem) (a : Word) (v : Byte) : m.set a v a = v := by simp [Mem.set]

/-- A byte of the second of two separate ranges is outside the first. -/
theorem Sep.outside (h : Sep a n b k) (hk : k ≤ 2 ^ 64) {i : ℕ} (hi : i < k) :
    n ≤ (b + BitVec.ofNat 64 i - a).toNat := by
  obtain ⟨h1, h2⟩ := h
  bv_omega

/-- Ranges in the order of their addresses, without wrap-around. -/
theorem sep_ofNat {x y n k : ℕ} (h : x + n ≤ y) (hy : y + k ≤ 2 ^ 64) (hn : 0 < n) (hk : 0 < k) :
    Sep (BitVec.ofNat 64 x) n (BitVec.ofNat 64 y) k := by
  have hx : x % 2 ^ 64 = x := Nat.mod_eq_of_lt (by omega)
  have hy : y % 2 ^ 64 = y := Nat.mod_eq_of_lt (by omega)
  constructor
  · rw [BitVec.toNat_sub, BitVec.toNat_ofNat, BitVec.toNat_ofNat, hx, hy]; omega
  · rw [BitVec.toNat_sub, BitVec.toNat_ofNat, BitVec.toNat_ofNat, hx, hy]; omega

/-! ## Loads and stores -/

theorem Mem.load_congr : ∀ (n : ℕ) (a : Word),
    (∀ i < n, m (a + BitVec.ofNat 64 i) = m' (a + BitVec.ofNat 64 i)) → m.load a n = m'.load a n := by
  intro n
  induction n with
  | zero => intro a _; rfl
  | succ n ih =>
    intro a h
    have h0 : m a = m' a := by simpa using h 0 (by omega)
    have hs : m.load (a + 1) n = m'.load (a + 1) n := by
      apply ih
      intro i hi
      have := h (i + 1) (by omega)
      rwa [show a + BitVec.ofNat 64 (i + 1) = a + 1 + BitVec.ofNat 64 i by bv_omega] at this
    simp only [Mem.load, h0, hs]

/-- **Frame of a store**: bytes outside `[a, a + n)` keep their value. -/
theorem Mem.store_outside : ∀ (n : ℕ) (m : Mem) (a : Word) (v : ℕ), n ≤ (b - a).toNat →
    m.store a n v b = m b := by
  intro n
  induction n with
  | zero => intro m a v _; rfl
  | succ n ih =>
    intro m a v h
    have h1 : n ≤ (b - (a + 1)).toNat := by bv_omega
    have h2 : b ≠ a := by rintro rfl; simp at h
    rw [Mem.store, ih _ _ _ h1, Mem.set_ne h2]

/-- **A store is read back**, up to the bytes it wrote. -/
theorem Mem.load_store : ∀ (n : ℕ) (m : Mem) (a : Word) (v : ℕ), n < 2 ^ 64 →
    (m.store a n v).load a n = v % 256 ^ n := by
  intro n
  induction n with
  | zero => intro m a v _; simp [Mem.load, Nat.mod_one]
  | succ n ih =>
    intro m a v h
    have h1 : n ≤ (a - (a + 1)).toNat := by bv_omega
    rw [Mem.store, Mem.load, Mem.store_outside _ _ _ _ h1, ih _ _ _ (by omega), Mem.set_self,
      BitVec.toNat_ofNat, pow_succ' 256 n, Nat.mod_mul]

theorem Mem.load_store_sep (h : Sep a n b k) (hk : k ≤ 2 ^ 64) (m : Mem) (v : ℕ) :
    (m.store a n v).load b k = m.load b k :=
  Mem.load_congr _ _ fun _ hi => Mem.store_outside _ _ _ _ (h.outside hk hi)

theorem Mem.load_lt (m : Mem) (n : ℕ) (a : Word) : m.load a n < 256 ^ n := by
  induction n generalizing a with
  | zero => simp [Mem.load]
  | succ n ih =>
    have h := ih (a + 1)
    have hb := (m a).isLt
    rw [Mem.load, pow_succ']
    omega

/-- A value in two parts, the low one first. -/
theorem Mem.load_add (m : Mem) (n k : ℕ) (a : Word) :
    m.load a (n + k) = m.load a n + 256 ^ n * m.load (a + BitVec.ofNat 64 n) k := by
  induction n generalizing a with
  | zero => simp [Mem.load]
  | succ n ih =>
    have ha : a + 1 + BitVec.ofNat 64 n = a + BitVec.ofNat 64 (n + 1) := by bv_omega
    rw [show n + 1 + k = n + k + 1 by omega, Mem.load, Mem.load, ih, ha, pow_succ']
    ring

/-! ## Words and half words -/

/-- A word is its two half words. -/
theorem Mem.toNat_read64 (m : Mem) (a : Word) :
    (m.read64 a).toNat = (m.read32 a).toNat + 2 ^ 32 * (m.read32 (a + 4)).toNat := by
  have h8 := m.load_lt 8 a
  have h4 := m.load_lt 4 a
  have h4' := m.load_lt 4 (a + 4)
  have hadd := m.load_add 4 4 a
  rw [show a + BitVec.ofNat 64 4 = a + 4 from rfl] at hadd
  rw [Mem.read64, Mem.read32, Mem.read32, BitVec.toNat_ofNat, BitVec.toNat_ofNat, BitVec.toNat_ofNat,
    Nat.mod_eq_of_lt (by omega), Nat.mod_eq_of_lt (by omega), Nat.mod_eq_of_lt (by omega), hadd]
  norm_num

@[simp] theorem Mem.read64_write64 (m : Mem) (a v : Word) : (m.write64 a v).read64 a = v := by
  have hv : v.toNat < 256 ^ 8 := by have := v.isLt; omega
  rw [Mem.read64, Mem.write64, Mem.load_store _ _ _ _ (by omega), Nat.mod_eq_of_lt hv, BitVec.ofNat_toNat,
    BitVec.setWidth_eq]

@[simp] theorem Mem.read32_write32 (m : Mem) (a : Word) (v : BitVec 32) :
    (m.write32 a v).read32 a = v := by
  have hv : v.toNat < 256 ^ 4 := by have := v.isLt; omega
  rw [Mem.read32, Mem.write32, Mem.load_store _ _ _ _ (by omega), Nat.mod_eq_of_lt hv, BitVec.ofNat_toNat,
    BitVec.setWidth_eq]

theorem Mem.write64_outside (h : 8 ≤ (b - a).toNat) (m : Mem) (v : Word) : m.write64 a v b = m b :=
  Mem.store_outside _ _ _ _ h

theorem Mem.write32_outside (h : 4 ≤ (b - a).toNat) (m : Mem) (v : BitVec 32) :
    m.write32 a v b = m b :=
  Mem.store_outside _ _ _ _ h

theorem Mem.read64_congr (h : ∀ i < 8, m (a + BitVec.ofNat 64 i) = m' (a + BitVec.ofNat 64 i)) :
    m.read64 a = m'.read64 a := by
  rw [Mem.read64, Mem.read64, Mem.load_congr _ _ h]

theorem Mem.read32_congr (h : ∀ i < 4, m (a + BitVec.ofNat 64 i) = m' (a + BitVec.ofNat 64 i)) :
    m.read32 a = m'.read32 a := by
  rw [Mem.read32, Mem.read32, Mem.load_congr _ _ h]

theorem Mem.read64_write32_sep (h : Sep a 4 b 8) (m : Mem) (v : BitVec 32) :
    (m.write32 a v).read64 b = m.read64 b := by
  rw [Mem.read64, Mem.read64, Mem.write32, Mem.load_store_sep h (by norm_num)]

theorem Mem.read32_write32_sep (h : Sep a 4 b 4) (m : Mem) (v : BitVec 32) :
    (m.write32 a v).read32 b = m.read32 b := by
  rw [Mem.read32, Mem.read32, Mem.write32, Mem.load_store_sep h (by norm_num)]

theorem Mem.read32_write64_sep (h : Sep a 8 b 4) (m : Mem) (v : Word) :
    (m.write64 a v).read32 b = m.read32 b := by
  rw [Mem.read32, Mem.read32, Mem.write64, Mem.load_store_sep h (by norm_num)]

theorem Mem.read64_write64_sep (h : Sep a 8 b 8) (m : Mem) (v : Word) :
    (m.write64 a v).read64 b = m.read64 b := by
  rw [Mem.read64, Mem.read64, Mem.write64, Mem.load_store_sep h (by norm_num)]

/-! ## Stores to a region -/

/-- Only bytes of the region are different. -/
def MemKept (region : Set Word) (m m' : Mem) : Prop := ∀ x ∉ region, m' x = m x

theorem MemKept.refl (region : Set Word) (m : Mem) : MemKept region m m := fun _ _ => rfl

theorem MemKept.trans {region : Set Word} {m m' m'' : Mem} (h : MemKept region m m')
    (h' : MemKept region m' m'') : MemKept region m m'' := fun x hx => (h' x hx).trans (h x hx)

end Lib
