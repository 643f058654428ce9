import Mathlib.Data.Nat.Digits.Lemmas

/-!
# Numerals

The digits of a number with the most significant one first, taken off from that end: the quotient
by a power of the base is a digit, and the remainder has the others. With as many digits as the
number has they are its digits in the other order.

## Main definitions

- `Numeral.digitsFrom` — a given number of digits
- `Numeral.horner` — the number that digits stand for

## Main results

- `Numeral.horner_digitsFrom` — reading the digits back
- `Numeral.digitsFrom_eq` — the digits of a number
-/

namespace Numeral

variable {b d n x : ℕ}

/-- `d` digits of `n`, the most significant one first. -/
def digitsFrom (b : ℕ) : ℕ → ℕ → List ℕ
  | 0, _ => []
  | d + 1, n => n / b ^ d :: digitsFrom b d (n % b ^ d)

/-- Horner's rule. -/
def horner (b : ℕ) (ds : List ℕ) : ℕ := ds.foldl (fun n x => n * b + x) 0

/-- Digits are less than the base. -/
theorem lt_of_mem_digitsFrom (hb : 0 < b) (hn : n < b ^ d) (hx : x ∈ digitsFrom b d n) : x < b := by
  induction d generalizing n with
  | zero => exact absurd hx List.not_mem_nil
  | succ d ih =>
    obtain rfl | hx := List.mem_cons.mp hx
    · rw [Nat.pow_succ] at hn
      exact Nat.div_lt_of_lt_mul hn
    · exact ih (Nat.mod_lt _ (Nat.pow_pos hb)) hx

/-- Digits read behind a number. -/
theorem foldl_digitsFrom (hb : 0 < b) (hn : n < b ^ d) (m : ℕ) :
    (digitsFrom b d n).foldl (fun n x => n * b + x) m = m * b ^ d + n := by
  induction d generalizing n m with
  | zero =>
    obtain rfl : n = 0 := Nat.lt_one_iff.mp hn
    rw [digitsFrom, List.foldl_nil, Nat.pow_zero, Nat.mul_one, Nat.add_zero]
  | succ d ih =>
    rw [digitsFrom, List.foldl_cons, ih (Nat.mod_lt _ (Nat.pow_pos hb))]
    calc (m * b + n / b ^ d) * b ^ d + n % b ^ d
        = m * b * b ^ d + (b ^ d * (n / b ^ d) + n % b ^ d) := by ring
      _ = m * b ^ (d + 1) + n := by rw [Nat.div_add_mod, Nat.pow_succ]; ring

/-- Reading the digits back gives the number. -/
theorem horner_digitsFrom (hb : 0 < b) (hn : n < b ^ d) : horner b (digitsFrom b d n) = n := by
  rw [horner, foldl_digitsFrom hb hn, Nat.zero_mul, Nat.zero_add]

theorem horner_eq_ofDigits (b : ℕ) (ds : List ℕ) : horner b ds = Nat.ofDigits b ds.reverse := by
  rw [Nat.ofDigits_eq_foldr, List.foldr_reverse, horner]
  refine congrFun (congrFun (congrArg List.foldl (funext₂ fun n x => ?_)) 0) ds
  rw [Nat.add_comm, Nat.mul_comm]
  rfl

/-- The power that takes off the first digit is not above the number. -/
theorem pow_le_of_length (hb : 1 < b) (h : (Nat.digits b n).length = d + 1) : b ^ d ≤ n :=
  (Nat.lt_digits_length_iff hb n).mp (by omega)

/-- As many digits as the number has are its digits. -/
theorem digitsFrom_eq (hb : 1 < b) (n : ℕ) :
    digitsFrom b (Nat.digits b n).length n = (Nat.digits b n).reverse := by
  have hpos : 0 < b := by omega
  have hn : n < b ^ (Nat.digits b n).length := Nat.lt_base_pow_length_digits hb
  have hback : Nat.ofDigits b (digitsFrom b (Nat.digits b n).length n).reverse = n := by
    rw [← horner_eq_ofDigits, horner_digitsFrom hpos hn]
  have hlt : ∀ x ∈ (digitsFrom b (Nat.digits b n).length n).reverse, x < b := fun x hx =>
    lt_of_mem_digitsFrom hpos hn (List.mem_reverse.mp hx)
  have hlast : ∀ h : (digitsFrom b (Nat.digits b n).length n).reverse ≠ [],
      (digitsFrom b (Nat.digits b n).length n).reverse.getLast h ≠ 0 := by
    cases hlen : (Nat.digits b n).length with
    | zero => exact fun h => absurd rfl h
    | succ d =>
      intro h
      rw [List.getLast_reverse]
      exact (Nat.div_pos (pow_le_of_length hb hlen) (Nat.pow_pos hpos)).ne'
  rw [← List.reverse_eq_iff, ← Nat.digits_ofDigits b hb _ hlt hlast, hback]

end Numeral
