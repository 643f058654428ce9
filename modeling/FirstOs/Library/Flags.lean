import Mathlib.Data.BitVec

/-!
# The flags of the x86

`cmp` sets the flags as a subtraction does, `test` as a conjunction; a conditional jump reads
them. A jump after `cmp` compares the operands, as unsigned numbers or as signed ones.

## Main results

- `Flags.cmp_below`, `Flags.cmp_greater` — what `jb` and `jg` ask after `cmp`
- `Flags.cmp_greater_nat` — the signed comparison of small numbers
-/

/-- The carry, zero, sign and overflow flags. -/
structure Flags where
  carry : Bool
  zero : Bool
  sign : Bool
  overflow : Bool

namespace Flags

/-- `cmp a, b`. -/
def cmp (a b : BitVec 32) : Flags where
  carry := a.ult b
  zero := a - b == 0
  sign := (a - b).msb
  overflow := a.ssubOverflow b

/-- `test a, b`. -/
def test (a b : BitVec 32) : Flags where
  carry := false
  zero := a &&& b == 0
  sign := (a &&& b).msb
  overflow := false

/-- `stc`. -/
def stc (f : Flags) : Flags := { f with carry := true }

/-- `jb` is taken. -/
def below (f : Flags) : Bool := f.carry

/-- `jg` is taken, `jle` is not. -/
def greater (f : Flags) : Bool := !f.zero && f.sign == f.overflow

variable (a b : BitVec 32) (f : Flags)

@[simp] theorem carry_stc : f.stc.carry = true := rfl

/-- `stc` is behind the jumps that compare signed numbers. -/
@[simp] theorem greater_stc : f.stc.greater = f.greater := rfl

@[simp] theorem sign_test_self : (test a a).sign = a.msb := by
  rw [test, BitVec.and_self]

theorem cmp_below : (cmp a b).below = true ↔ a.toNat < b.toNat := by
  rw [below, cmp, BitVec.ult_eq_decide, decide_eq_true_iff]

/-- The sign of the difference is that of the exact one unless it overflows. -/
theorem sign_eq_overflow :
    ((cmp a b).sign == (cmp a b).overflow) = true ↔ b.toInt ≤ a.toInt := by
  have ha : -2 ^ 31 ≤ a.toInt ∧ a.toInt < 2 ^ 31 := ⟨BitVec.le_toInt a, BitVec.toInt_lt⟩
  have hb : -2 ^ 31 ≤ b.toInt ∧ b.toInt < 2 ^ 31 := ⟨BitVec.le_toInt b, BitVec.toInt_lt⟩
  have hsign : (a - b).msb = true ↔ 2 ^ 31 ≤ (a.toInt - b.toInt) % 2 ^ 32 := by
    rw [BitVec.msb_eq_toInt, decide_eq_true_iff, BitVec.toInt_sub, Int.bmod_def]
    omega
  have hover : a.ssubOverflow b = true ↔
      2 ^ 31 ≤ a.toInt - b.toInt ∨ a.toInt - b.toInt < -2 ^ 31 := by
    rw [BitVec.ssubOverflow, Bool.or_eq_true, decide_eq_true_iff, decide_eq_true_iff]
  rw [beq_iff_eq, Bool.eq_iff_iff, cmp, hsign, hover]
  omega

theorem cmp_zero : (cmp a b).zero = true ↔ a.toInt = b.toInt := by
  rw [cmp, beq_iff_eq, BitVec.toInt_inj]
  constructor
  · intro h
    rw [← BitVec.sub_add_cancel a b, h]
    exact BitVec.zero_add b
  · rintro rfl
    exact BitVec.sub_self a

theorem cmp_greater : (cmp a b).greater = true ↔ b.toInt < a.toInt := by
  rw [greater, Bool.and_eq_true, sign_eq_overflow, Bool.not_eq_true', Bool.eq_false_iff, ne_eq,
    cmp_zero]
  omega

/-- The comparison of signed numbers is that of unsigned ones where none is negative. -/
theorem cmp_greater_nat (ha : a.toNat < 2 ^ 31) (hb : b.toNat < 2 ^ 31) :
    (cmp a b).greater = true ↔ b.toNat < a.toNat := by
  rw [cmp_greater, BitVec.toInt_eq_toNat_of_lt (by omega), BitVec.toInt_eq_toNat_of_lt (by omega)]
  omega

end Flags
