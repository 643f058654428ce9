import Mathlib.Logic.Function.Basic
import Mathlib.Tactic.IntervalCases
import Mathlib.Tactic.SplitIfs

/-!
# Byte-addressed memory with little-endian words

A memory is a function from addresses to bytes. A 32-bit word lives in four
consecutive bytes, least significant first.

## Main definitions

- `u32` — the value a 32-bit register keeps of a number
- `ByteMemory.byteOf`, `ByteMemory.wordOf` — the bytes of a word and the word of four bytes
- `ByteMemory.read32`, `ByteMemory.write32` — word access
-/

/-- What 32-bit unsigned arithmetic keeps of a number. -/
@[reducible] def u32 (x : ℕ) : ℕ := x % 0x100000000

/-- A memory: one byte for each address. -/
abbrev ByteMemory := ℕ → BitVec 8

namespace ByteMemory

/-- Byte `k` of a word, least significant first. -/
def byteOf (w : BitVec 32) (k : ℕ) : BitVec 8 := w.extractLsb' (8 * k) 8

/-- The word with the given four bytes, least significant first. -/
def wordOf (b : ℕ → BitVec 8) : BitVec 32 := b 3 ++ b 2 ++ b 1 ++ b 0

/-- The word stored at `a`. -/
def read32 (m : ByteMemory) (a : ℕ) : BitVec 32 := wordOf fun k => m (a + k)

/-- Store a word at `a`. -/
def write32 (m : ByteMemory) (a : ℕ) (w : BitVec 32) : ByteMemory := fun x =>
  if a ≤ x ∧ x < a + 4 then byteOf w (x - a) else m x

theorem getLsbD_wordOf (b : ℕ → BitVec 8) {i : ℕ} (hi : i < 32) :
    (wordOf b).getLsbD i = (b (i / 8)).getLsbD (i % 8) := by
  simp only [wordOf]
  simp only [BitVec.getLsbD_append]
  interval_cases i <;> simp

theorem wordOf_byteOf (w : BitVec 32) : wordOf (byteOf w) = w := by
  apply BitVec.eq_of_getLsbD_eq
  intro i hi
  rw [getLsbD_wordOf _ hi, byteOf, BitVec.getLsbD_extractLsb']
  have hm : i % 8 < 8 := Nat.mod_lt _ (by omega)
  simp [hm, Nat.div_add_mod]

/-- Two words with the same four bytes are equal. -/
theorem wordOf_congr {b c : ℕ → BitVec 8} (h : ∀ k < 4, b k = c k) : wordOf b = wordOf c := by
  simp [wordOf, h 0, h 1, h 2, h 3]

theorem read32_congr {m m' : ByteMemory} {a a' : ℕ} (h : ∀ k < 4, m (a + k) = m' (a' + k)) :
    read32 m a = read32 m' a' :=
  wordOf_congr h

@[simp] theorem read32_write32 (m : ByteMemory) (a : ℕ) (w : BitVec 32) :
    read32 (write32 m a w) a = w := by
  refine Eq.trans (wordOf_congr fun k hk => ?_) (wordOf_byteOf w)
  simp [write32, hk]

/-- A store elsewhere leaves a word alone. -/
theorem read32_write32_of_disjoint (m : ByteMemory) {a b : ℕ} (w : BitVec 32)
    (h : a + 4 ≤ b ∨ b + 4 ≤ a) : read32 (write32 m a w) b = read32 m b := by
  refine read32_congr fun k hk => ?_
  rw [write32, if_neg (by omega)]

/-- A store leaves every byte outside its four alone. -/
theorem write32_of_not_mem (m : ByteMemory) {a x : ℕ} (w : BitVec 32)
    (h : x < a ∨ a + 4 ≤ x) : write32 m a w x = m x := by
  rw [write32, if_neg (by omega)]

end ByteMemory
