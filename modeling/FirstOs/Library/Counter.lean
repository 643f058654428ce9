import Mathlib.Algebra.Order.Floor.Div

/-!
# A counter that wraps

The loop `for (x = a; x < e; x += d)` on words of `N` values, `d` a divisor of `N`. The values of
`x` keep their remainder by `d`, so there is a last one before the wrap, `N - d + a % d`. The loop
ends exactly when `e` is not behind it, and then within the turns the distance asks for.

## Main results

- `Counter.reaches_iff` — when the counter reaches the bound
- `Counter.reaches_within` — in how many turns, for a region of a given length
-/

namespace Counter

variable {N d a e k len x : ℕ}

theorem step_mod (hd : d ∣ N) : (a + d * k) % N % d = a % d := by
  rw [Nat.mod_mod_of_dvd _ hd, Nat.add_mul_mod_self_left]

/-- No value is behind the last one with its remainder. -/
theorem le_last (hd : d ∣ N) (hx : x < N) : x ≤ N - d + x % d := by
  obtain ⟨m, rfl⟩ := hd
  have hq : x / d < m := Nat.div_lt_of_lt_mul hx
  have hmul : d * (x / d) + d ≤ d * m := by
    rw [← Nat.mul_succ]
    exact Nat.mul_le_mul_left d hq
  have hdiv : d * (x / d) + x % d = x := Nat.div_add_mod x d
  omega

/-- Before the last value there is room for one more step. -/
theorem add_le_last (hd : d ∣ N) (hx : x < N - d + x % d) : x + d ≤ N - d + x % d := by
  obtain ⟨m, rfl⟩ := hd
  have hdiv : d * (x / d) + x % d = x := Nat.div_add_mod x d
  have hlt : d * (x / d) < d * (m - 1) := by
    rw [Nat.mul_sub_one]
    omega
  have hmul : d * (x / d) + d ≤ d * (m - 1) := by
    rw [← Nat.mul_succ]
    exact Nat.mul_le_mul_left d (Nat.lt_of_mul_lt_mul_left hlt)
  rw [Nat.mul_sub_one] at hmul
  omega

/-- Up to the bound the counter does not wrap, when the bound is not behind the last value. -/
theorem reaches (hd : d ∣ N) (hpos : 0 < d) (ha : a < N) (he : e ≤ N - d + a % d) :
    a + d * ((e - a) ⌈/⌉ d) < N ∧ e ≤ a + d * ((e - a) ⌈/⌉ d) := by
  have hle : e - a ≤ d * ((e - a) ⌈/⌉ d) := le_smul_ceilDiv hpos
  refine ⟨?_, by omega⟩
  cases hk : (e - a) ⌈/⌉ d with
  | zero =>
    rw [Nat.mul_zero]
    exact ha
  | succ k =>
    -- the turn before was still in front of the bound
    have hbefore : d * k < e - a := by
      by_contra hge
      have hceil : (e - a) ⌈/⌉ d ≤ k := (ceilDiv_le_iff_le_smul hpos).mpr (Nat.le_of_not_lt hge)
      omega
    have hmod : (a + d * k) % d = a % d := Nat.add_mul_mod_self_left a d k
    have hlast : a + d * k + d ≤ N - d + (a + d * k) % d := add_le_last hd (by rw [hmod]; omega)
    have hrest : (a + d * k) % d < d := Nat.mod_lt _ hpos
    have hN : d ≤ N := Nat.le_of_dvd (by omega) hd
    rw [Nat.mul_succ]
    omega

theorem reaches_iff (hd : d ∣ N) (hpos : 0 < d) (ha : a < N) :
    (∃ k, e ≤ (a + d * k) % N) ↔ e ≤ N - d + a % d := by
  constructor
  · rintro ⟨k, hk⟩
    have hlast : (a + d * k) % N ≤ N - d + (a + d * k) % N % d :=
      le_last hd (Nat.mod_lt _ (by omega))
    rw [step_mod hd] at hlast
    omega
  · intro he
    obtain ⟨hlt, hle⟩ := reaches hd hpos ha he
    exact ⟨(e - a) ⌈/⌉ d, by rwa [Nat.mod_eq_of_lt hlt]⟩

/-- A region of `len` bytes from `a` on takes no more turns than it has pages, the last one
    perhaps in part. -/
theorem reaches_within (hd : d ∣ N) (hpos : 0 < d) (ha : a < N)
    (he : (a + len) % N ≤ N - d + a % d) :
    ∃ k ≤ len ⌈/⌉ d, (a + len) % N ≤ (a + d * k) % N := by
  obtain ⟨hlt, hle⟩ := reaches hd hpos ha he
  refine ⟨((a + len) % N - a) ⌈/⌉ d, ?_, by rwa [Nat.mod_eq_of_lt hlt]⟩
  refine (gc_smul_ceilDiv hpos).monotone_l ?_
  have hmod : (a + len) % N ≤ a + len := Nat.mod_le _ _
  omega

end Counter
