import Zer0S.Lib.Loop
import Zer0S.Lib.Mem

/-!
# Copying bytes one at a time

`copyUp` copies from the lowest address up, `copyDown` from the highest down. When the ranges overlap, one
of them reads bytes that it has already overwritten.

* `Copied m m' dest src n`: `m'` is `m` with the `n` bytes from `src` also at `dest`; there is one such `m'`.
* `copyUp_copied`, `copyDown_copied`: a direction that writes no byte before it reads it.
* `copyUp_periodic`: up by fewer bytes than are copied repeats them.
* `Written m m' dest n f`: `m'` is `m` with the bytes `f 0`, `f 1`, ... written from `dest` on, one after the other.
-/

namespace Lib

variable {m m' m'' : Mem} {dest src : Word} {n : ℕ}

/-- `n` bytes, from the pointers up. -/
def copyUp : ℕ → Word → Word → Mem → Mem
  | 0, _, _, m => m
  | n + 1, d, s, m => copyUp n (d + 1) (s + 1) (m.set d (m s))

/-- `n` bytes, from below the pointers down. -/
def copyDown : ℕ → Word → Word → Mem → Mem
  | 0, _, _, m => m
  | n + 1, d, s, m => copyDown n (d - 1) (s - 1) (m.set (d - 1) (m (s - 1)))

/-- The `n` bytes from `src` are also at `dest`, and nothing else has changed. -/
structure Copied (m m' : Mem) (dest src : Word) (n : ℕ) : Prop where
  bytes : ∀ i < n, m' (dest + BitVec.ofNat 64 i) = m (src + BitVec.ofNat 64 i)
  frame : ∀ a, (∀ i < n, a ≠ dest + BitVec.ofNat 64 i) → m' a = m a

/-- There is one result. -/
theorem Copied.unique (h : Copied m m' dest src n) (h' : Copied m m'' dest src n) : m' = m'' := by
  funext a
  by_cases ha : ∃ i < n, a = dest + BitVec.ofNat 64 i
  · obtain ⟨i, hi, rfl⟩ := ha
    rw [h.bytes i hi, h'.bytes i hi]
  · have hout : ∀ i < n, a ≠ dest + BitVec.ofNat 64 i := fun i hi he => ha ⟨i, hi, he⟩
    rw [h.frame a hout, h'.frame a hout]

theorem offset_succ (a : Word) (i : ℕ) : a + 1 + BitVec.ofNat 64 i = a + BitVec.ofNat 64 (i + 1) := by
  rw [BitVec.add_assoc, Nat.add_comm i 1, BitVec.ofNat_add]
  rfl

theorem offset_next (a : Word) (i : ℕ) : a + BitVec.ofNat 64 i + 1 = a + BitVec.ofNat 64 (i + 1) := by
  rw [BitVec.add_assoc, BitVec.ofNat_add]
  rfl

theorem offset_inj {a : Word} {i j : ℕ} (hi : i < 2 ^ 64) (hj : j < 2 ^ 64)
    (h : a + BitVec.ofNat 64 i = a + BitVec.ofNat 64 j) : i = j := by
  have := congrArg BitVec.toNat (BitVec.add_right_inj a |>.1 h)
  rwa [BitVec.toNat_ofNat, BitVec.toNat_ofNat, Nat.mod_eq_of_lt hi, Nat.mod_eq_of_lt hj] at this

/-- **Up** is right when no byte is written before it is read. -/
theorem copyUp_copied : ∀ (n : ℕ) (dest src : Word) (m : Mem), n < 2 ^ 64 →
    (∀ i j, i < j → j < n → dest + BitVec.ofNat 64 i ≠ src + BitVec.ofNat 64 j) →
    Copied m (copyUp n dest src m) dest src n := by
  intro n
  induction n with
  | zero => intro dest src m _ _; exact ⟨fun i hi => absurd hi (Nat.not_lt_zero i), fun a _ => rfl⟩
  | succ n ih =>
    intro dest src m hn hsafe
    have hrest := ih (dest + 1) (src + 1) (m.set dest (m src)) (by omega) fun i j hij hj => by
      rw [offset_succ, offset_succ]
      exact hsafe (i + 1) (j + 1) (by omega) (by omega)
    -- the first byte is not written again
    have hfirst : ∀ i < n, dest ≠ dest + 1 + BitVec.ofNat 64 i := by
      intro i hi he
      rw [offset_succ] at he
      have hzero : 0 = i + 1 := offset_inj (a := dest) (by norm_num) (by omega) (by simpa using he)
      omega
    constructor
    · intro i hi
      cases i with
      | zero =>
        have := hrest.frame dest hfirst
        simpa [copyUp] using this
      | succ i =>
        have hread : src + BitVec.ofNat 64 (i + 1) ≠ dest := by
          have := hsafe 0 (i + 1) (by omega) hi
          rw [show dest + BitVec.ofNat 64 0 = dest by simp] at this
          exact this.symm
        have := hrest.bytes i (by omega)
        rw [offset_succ, offset_succ, Mem.set_ne hread] at this
        exact this
    · intro a ha
      have hframe := hrest.frame a fun i hi => by
        rw [offset_succ]
        exact ha (i + 1) (by omega)
      have hne : a ≠ dest := by simpa using ha 0 (by omega)
      rw [Mem.set_ne hne] at hframe
      exact hframe

theorem copyUp_outside {a : Word} : ∀ (n : ℕ) (dest src : Word) (m : Mem),
    (∀ i < n, a ≠ dest + BitVec.ofNat 64 i) → copyUp n dest src m a = m a := by
  intro n
  induction n with
  | zero => intro dest src m _; rfl
  | succ n ih =>
    intro dest src m ha
    have hrest := ih (dest + 1) (src + 1) (m.set dest (m src)) fun i hi => by
      rw [offset_succ]
      exact ha (i + 1) (by omega)
    have hne : a ≠ dest := by simpa using ha 0 (by omega)
    exact hrest.trans (Mem.set_ne hne _)

/-- **Up by `k`** bytes, fewer than are copied: the first `k` bytes are repeated. -/
theorem copyUp_periodic {k : ℕ} (hk : 0 < k) : ∀ (n : ℕ) (src : Word) (m : Mem), n + k ≤ 2 ^ 64 →
    ∀ i < n + k, copyUp n (src + BitVec.ofNat 64 k) src m (src + BitVec.ofNat 64 i) =
      m (src + BitVec.ofNat 64 (i % k)) := by
  intro n
  induction n with
  | zero =>
    intro src m _ i hi
    rw [copyUp, Nat.mod_eq_of_lt (by omega)]
  | succ n ih =>
    intro src m hn i hi
    rw [copyUp, offset_next, ← offset_succ src k]
    cases i with
    | zero =>
      -- the first byte is not written
      have hout : ∀ j < n, src + BitVec.ofNat 64 0 ≠ src + 1 + BitVec.ofNat 64 k + BitVec.ofNat 64 j := by
        intro j hj
        bv_omega
      rw [copyUp_outside _ _ _ _ hout, Nat.zero_mod]
      exact Mem.set_ne (by bv_omega) _
    | succ i =>
      have hrest := ih (src + 1) (m.set (src + BitVec.ofNat 64 k) (m src)) (by omega) i (by omega)
      rw [offset_succ src i, offset_succ src (i % k)] at hrest
      rw [hrest]
      have hlt : i % k < k := Nat.mod_lt i hk
      by_cases hlast : i % k + 1 = k
      · have hzero : (i + 1) % k = 0 := by
          rw [← Nat.mod_add_mod, hlast, Nat.mod_self]
        rw [hlast, Mem.set_self, hzero]
        exact congrArg m (BitVec.add_zero src).symm
      · have hnext : (i + 1) % k = i % k + 1 := by
          rw [← Nat.mod_add_mod, Nat.mod_eq_of_lt (by omega)]
        have hne : src + BitVec.ofNat 64 (i % k + 1) ≠ src + BitVec.ofNat 64 k := fun he =>
          hlast (offset_inj (by omega) (by omega) he)
        rw [hnext, Mem.set_ne hne]

/-- **Down** is right when no byte is written before it is read. -/
theorem copyDown_copied : ∀ (n : ℕ) (m : Mem), n < 2 ^ 64 →
    (∀ i j, i < j → j < n → dest + BitVec.ofNat 64 j ≠ src + BitVec.ofNat 64 i) →
    Copied m (copyDown n (dest + BitVec.ofNat 64 n) (src + BitVec.ofNat 64 n) m) dest src n := by
  intro n
  induction n with
  | zero => intro m _ _; exact ⟨fun i hi => absurd hi (Nat.not_lt_zero i), fun a _ => rfl⟩
  | succ n ih =>
    intro m hn hsafe
    have hback : ∀ a : Word, a + BitVec.ofNat 64 (n + 1) - 1 = a + BitVec.ofNat 64 n := by
      intro a
      rw [← offset_succ]
      bv_omega
    have hrest := ih (m.set (dest + BitVec.ofNat 64 n) (m (src + BitVec.ofNat 64 n))) (by omega)
      fun i j hij hj => hsafe i j hij (by omega)
    rw [copyDown, hback, hback]
    constructor
    · intro i hi
      by_cases hlast : i = n
      · -- the last byte was written first, and is not written again
        subst hlast
        rw [hrest.frame _ fun j hj he => by
          have := offset_inj (by omega) (by omega) he
          omega]
        exact Mem.set_self ..
      · have hread := (hsafe i n (by omega) (by omega)).symm
        rw [hrest.bytes i (by omega), Mem.set_ne hread]
    · intro a ha
      rw [hrest.frame a fun i hi => ha i (by omega), Mem.set_ne (ha n (by omega))]

/-! ## Bytes written one after the other -/

/-- The bytes `f 0` to `f (n - 1)` are at `dest`, and nothing else has changed. -/
structure Written (m m' : Mem) (dest : Word) (n : ℕ) (f : ℕ → Byte) : Prop where
  bytes : ∀ i < n, m' (dest + BitVec.ofNat 64 i) = f i
  frame : ∀ a, (∀ i < n, a ≠ dest + BitVec.ofNat 64 i) → m' a = m a

variable {f : ℕ → Byte} {k : ℕ}

theorem Written.start (m : Mem) (dest : Word) (f : ℕ → Byte) : Written m m dest 0 f :=
  ⟨fun _ hi => absurd hi (Nat.not_lt_zero _), fun _ _ => rfl⟩

/-- The next byte. -/
theorem Written.snoc (h : Written m m' dest n f) (hn : n < 2 ^ 64) :
    Written m (m'.set (dest + BitVec.ofNat 64 n) (f n)) dest (n + 1) f := by
  constructor
  · intro i hi
    by_cases hin : i = n
    · rw [hin, Mem.set_self]
    · have hne : dest + BitVec.ofNat 64 i ≠ dest + BitVec.ofNat 64 n := fun he =>
        hin (offset_inj (by omega) hn he)
      rw [Mem.set_ne hne, h.bytes i (by omega)]
  · intro a ha
    rw [Mem.set_ne (ha n (by omega)), h.frame a fun i hi => ha i (by omega)]

theorem Written.unique (h : Written m m' dest n f) (h' : Written m m'' dest n f) : m' = m'' := by
  funext a
  by_cases ha : ∃ i < n, a = dest + BitVec.ofNat 64 i
  · obtain ⟨i, hi, rfl⟩ := ha
    rw [h.bytes i hi, h'.bytes i hi]
  · have hout : ∀ i < n, a ≠ dest + BitVec.ofNat 64 i := fun i hi he => ha ⟨i, hi, he⟩
    rw [h.frame a hout, h'.frame a hout]

/-- A counted loop that writes. -/
theorem Written.forLoop (h : Written m m' dest n f) (hk : n + k ≤ 2 ^ 64) :
    Written m (Lib.forLoop (fun i m => m.set (dest + BitVec.ofNat 64 i) (f i)) n k m') dest (n + k) f :=
  forLoop_ind (fun i m' => Written m m' dest i f) n k m' h fun i _ _ hi hw => hw.snoc (by omega)

end Lib
