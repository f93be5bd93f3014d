import Zer0S.Lib.Mem

/-!
# Records in memory

A record is a range of bytes from an address, and a field of it some bytes at an offset, in little-endian
order and without padding.

* `get_put_same`: a field is read back.
* `get_put_other`: a field that has no byte in common with the one that was written keeps its value.
* `put_outside`: the memory outside the record keeps its value.
-/

namespace Lib

variable {m m' : Mem} {a x : Word} {o n o' k size : ℕ}

/-- Write a field of `n` bytes at offset `o`. -/
def Mem.put (m : Mem) (a : Word) (o n v : ℕ) : Mem := m.store (a + BitVec.ofNat 64 o) n v

/-- The field of `n` bytes at offset `o`. -/
def Mem.get (m : Mem) (a : Word) (o n : ℕ) : ℕ := m.load (a + BitVec.ofNat 64 o) n

theorem get_put_same (hn : n < 2 ^ 64) (m : Mem) (a : Word) (o v : ℕ) : (m.put a o n v).get a o n = v % 256 ^ n :=
  Mem.load_store n m _ v hn

theorem get_put_other (h : o + n ≤ o' ∨ o' + k ≤ o) (hn : 0 < n) (hk : 0 < k) (ho : o + n ≤ 2 ^ 63)
    (ho' : o' + k ≤ 2 ^ 63) (m : Mem) (a : Word) (v : ℕ) : (m.put a o n v).get a o' k = m.get a o' k := by
  have hsep : Sep (a + BitVec.ofNat 64 o) n (a + BitVec.ofNat 64 o') k := by
    constructor
    · bv_omega
    · bv_omega
  exact Mem.load_store_sep hsep (by omega) m v

theorem put_outside (hsize : o + n ≤ size) (hx : size ≤ (x - a).toNat) (m : Mem) (v : ℕ) : m.put a o n v x = m x := by
  have hfield : n ≤ (x - (a + BitVec.ofNat 64 o)).toNat := by bv_omega
  exact Mem.store_outside n m _ v hfield

/-- A field depends on the bytes of the record only. -/
theorem get_congr (hsize : o + n ≤ size) (h : ∀ i < size, m (a + BitVec.ofNat 64 i) = m' (a + BitVec.ofNat 64 i)) :
    m.get a o n = m'.get a o n := by
  apply Mem.load_congr
  intro i hi
  rw [BitVec.add_assoc, ← BitVec.ofNat_add]
  exact h (o + i) (by omega)

end Lib
