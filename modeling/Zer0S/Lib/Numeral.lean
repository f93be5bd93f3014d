import Mathlib.Data.Nat.Digits.Lemmas

/-!
# Numerals, most significant digit first

* `horner b n ds` reads the digits `ds` in base `b`, behind a number `n`.
* `numeral b n` writes `n` in base `b` without leading zeros; 0 has no digits.
* `horner_numeral`: what was written is read back.
* `numeral_snoc`: one more digit.
* `horner_mod`: reading modulo a number.
-/

namespace Lib

variable {b n d m : ℕ} {ds : List ℕ}

/-- The value of a numeral, read from the left. -/
def horner (b n : ℕ) (ds : List ℕ) : ℕ := ds.foldl (fun n d => n * b + d) n

/-- The digits of a number. -/
def numeral (b n : ℕ) : List ℕ := (Nat.digits b n).reverse

@[simp] theorem horner_nil : horner b n [] = n := rfl

@[simp] theorem horner_cons : horner b n (d :: ds) = horner b (n * b + d) ds := rfl

theorem horner_snoc : horner b n (ds ++ [d]) = horner b n ds * b + d := by
  unfold horner
  rw [List.foldl_append]
  rfl

/-- **Round trip.** -/
theorem horner_numeral (b n : ℕ) : horner b 0 (numeral b n) = n := by
  have hread : ∀ ds : List ℕ, horner b 0 ds.reverse = Nat.ofDigits b ds := by
    intro ds
    induction ds with
    | nil => rfl
    | cons d ds ih =>
      rw [List.reverse_cons, horner_snoc, ih, Nat.ofDigits_cons]
      ring
  rw [numeral, hread, Nat.ofDigits_digits]

theorem numeral_zero (b : ℕ) : numeral b 0 = [] := by
  rw [numeral, Nat.digits_zero, List.reverse_nil]

/-- **One more digit** behind a numeral. -/
theorem numeral_snoc (hb : 1 < b) (hd : d < b) (h : n * b + d ≠ 0) : numeral b (n * b + d) = numeral b n ++ [d] := by
  have hne : d ≠ 0 ∨ n ≠ 0 := by
    by_contra hz
    rw [not_or, not_not, not_not] at hz
    rw [hz.1, hz.2, Nat.zero_mul] at h
    exact h rfl
  have hdigits := Nat.digits_add b hb d n hd hne
  rw [numeral, numeral, show n * b + d = d + b * n by ring, hdigits, List.reverse_cons]

theorem lt_of_mem_numeral (hb : 1 < b) (h : d ∈ numeral b n) : d < b :=
  Nat.digits_lt_base hb (List.mem_reverse.1 h)

theorem numeral_ne_nil (h : n ≠ 0) : numeral b n ≠ [] := by
  unfold numeral
  rw [ne_eq, List.reverse_eq_nil_iff]
  exact Nat.digits_ne_nil_iff_ne_zero.2 h

/-- There is no leading zero. -/
theorem numeral_head (h : n ≠ 0) : (numeral b n).head? ≠ some 0 := by
  unfold numeral
  rw [List.head?_reverse, List.getLast?_eq_some_getLast (Nat.digits_ne_nil_iff_ne_zero.2 h)]
  intro hz
  exact Nat.getLast_digit_ne_zero b h (Option.some.inj hz)

theorem length_numeral_le (hb : 1 < b) (h : n < b ^ m) : (numeral b n).length ≤ m := by
  unfold numeral
  rw [List.length_reverse]
  exact (Nat.digits_length_le_iff hb n).2 h

/-- **Reading modulo `m`** depends on the number before modulo `m` only. -/
theorem horner_mod (b m : ℕ) : ∀ (ds : List ℕ) (n n' : ℕ), n % m = n' % m → horner b n ds % m = horner b n' ds % m := by
  intro ds
  induction ds with
  | nil => intro n n' h; exact h
  | cons d ds ih =>
    intro n n' h
    apply ih
    rw [Nat.add_mod, Nat.mul_mod, h, ← Nat.mul_mod, ← Nat.add_mod]

end Lib
