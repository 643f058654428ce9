import Mathlib.Order.Basic

/-!
# Linear search

The loop `for (j = i; j < n; ++j) if (p(j)) return j;` with the number of positions left as the
measure. It returns the first position that satisfies the test, if there is one.

## Main results

- `Search.first_eq_some_iff`, `Search.first_eq_none_iff` — what is found, and when nothing is
- `Search.filter_range'_of_some` — searching on behind what is found lists all there is
-/

namespace Search

/-- The first of the `k` positions from `i` on that satisfies `p`. -/
def first (p : ℕ → Bool) : ℕ → ℕ → Option ℕ
  | _, 0 => none
  | i, k + 1 => if p i then some i else first p (i + 1) k

variable {p q : ℕ → Bool} {i j k : ℕ}

theorem first_eq_none_iff : first p i k = none ↔ ∀ l, i ≤ l → l < i + k → p l = false := by
  induction k generalizing i with
  | zero => exact ⟨fun _ l hl hl' => by omega, fun _ => rfl⟩
  | succ k ih =>
    rw [first]
    cases hp : p i with
    | true =>
      refine iff_of_false (by simp) fun h => ?_
      rw [h i (Nat.le_refl i) (by omega)] at hp
      exact Bool.false_ne_true hp
    | false =>
      rw [if_neg Bool.false_ne_true, ih]
      constructor
      · intro h l hl hl'
        obtain rfl | hne := eq_or_ne l i
        · exact hp
        · exact h l (by omega) (by omega)
      · exact fun h l hl hl' => h l (by omega) (by omega)

theorem first_eq_some_iff : first p i k = some j ↔
    i ≤ j ∧ j < i + k ∧ p j = true ∧ ∀ l, i ≤ l → l < j → p l = false := by
  induction k generalizing i with
  | zero => exact ⟨fun h => absurd h (by simp [first]), fun h => by omega⟩
  | succ k ih =>
    rw [first]
    cases hp : p i with
    | true =>
      rw [if_pos rfl, Option.some_inj]
      constructor
      · rintro rfl
        exact ⟨Nat.le_refl i, by omega, hp, fun l hl hl' => by omega⟩
      · rintro ⟨hij, -, -, hfirst⟩
        by_contra hne
        rw [hfirst i (Nat.le_refl i) (by omega)] at hp
        exact Bool.false_ne_true hp
    | false =>
      rw [if_neg Bool.false_ne_true, ih]
      constructor
      · rintro ⟨hij, hjk, hpj, hfirst⟩
        refine ⟨by omega, by omega, hpj, fun l hl hl' => ?_⟩
        obtain rfl | hne := eq_or_ne l i
        · exact hp
        · exact hfirst l (by omega) hl'
      · rintro ⟨hij, hjk, hpj, hfirst⟩
        have hne : i ≠ j := by
          rintro rfl
          rw [hp] at hpj
          exact Bool.false_ne_true hpj
        exact ⟨by omega, by omega, hpj, fun l hl hl' => hfirst l (by omega) hl'⟩

/-- What satisfies the test from `i` on begins with what is found. -/
theorem filter_range'_of_some (h : first p i k = some j) :
    (List.range' i k).filter p = j :: (List.range' (j + 1) (i + k - (j + 1))).filter p := by
  induction k generalizing i with
  | zero => exact absurd h (by simp [first])
  | succ k ih =>
    rw [List.range'_succ]
    rw [first] at h
    cases hp : p i with
    | true =>
      rw [hp, if_pos rfl] at h
      obtain rfl := Option.some.inj h
      rw [List.filter_cons_of_pos hp, Nat.add_sub_add_left, Nat.add_sub_cancel]
    | false =>
      rw [hp, if_neg Bool.false_ne_true] at h
      rw [List.filter_cons_of_neg (by rw [hp]; exact Bool.false_ne_true), ih h, Nat.add_right_comm,
        Nat.add_assoc i k 1]

theorem filter_range'_of_none (h : first p i k = none) : (List.range' i k).filter p = [] := by
  refine List.filter_eq_nil_iff.mpr fun l hl => ?_
  rw [List.mem_range'_1] at hl
  rw [first_eq_none_iff.mp h l hl.1 hl.2]
  exact Bool.false_ne_true

end Search
