import Mathlib.Data.List.Induction
import Mathlib.Data.Int.ModEq

/-!
# Rings

A ring has `w` slots. Symbols are put into one slot after the other, and the slot after the
last is the first. The slots hold the last `w` symbols put into them.

## Main results

- `Ring.fill_concat` — one more symbol
- `Ring.fill_get` — the slots after any number of symbols
-/

namespace Ring

variable {α : Type*} {w t : ℤ} {f : ℤ → α} {l : List α} {a : α}

/-- The slots after the symbols of a list have been put into them, from slot `t` on. -/
def fill (w : ℤ) (f : ℤ → α) (t : ℤ) : List α → ℤ → α
  | [] => f
  | a :: l => fill w (Function.update f t a) ((t + 1) % w) l

theorem fill_concat (h0 : 0 ≤ t) (hlt : t < w) :
    fill w f t (l ++ [a]) = Function.update (fill w f t l) ((t + l.length) % w) a := by
  induction l generalizing f t with
  | nil =>
    rw [List.length_nil, Int.natCast_zero, Int.add_zero, Int.emod_eq_of_lt h0 hlt]
    rfl
  | cons b l ih =>
    have hw : 0 < w := by omega
    rw [List.cons_append, fill, fill, ih (Int.emod_nonneg _ (by omega)) (Int.emod_lt_of_pos _ hw),
      Int.emod_add_emod, List.length_cons, Int.natCast_succ]
    congr 2
    omega

/-- Two of the last symbols are in different slots. -/
theorem emod_ne {i j : ℤ} (hij : i < j) (hw : j < i + w) : (t + i) % w ≠ (t + j) % w := by
  intro heq
  have hdvd : w ∣ (t + j) - (t + i) := Int.ModEq.dvd heq
  have hle := Int.le_of_dvd (by omega) hdvd
  omega

/-- The last `w` symbols are in their slots. -/
theorem fill_get (h0 : 0 ≤ t) (hlt : t < w) {j : ℕ} (hj : j < l.length)
    (hlast : (l.length : ℤ) ≤ j + w) : fill w f t l ((t + j) % w) = l[j] := by
  induction l using List.reverseRecOn with
  | nil => exact absurd hj (Nat.not_lt_zero _)
  | append_singleton l a ih =>
    rw [List.length_append, List.length_singleton] at hj hlast
    rw [fill_concat h0 hlt]
    obtain hin | rfl := Nat.lt_succ_iff_lt_or_eq.mp hj
    · rw [Function.update_of_ne (emod_ne (by omega) (by omega)), ih hin (by omega),
        List.getElem_append_left hin]
    · rw [Function.update_self, List.getElem_concat_length]
      rfl

end Ring
