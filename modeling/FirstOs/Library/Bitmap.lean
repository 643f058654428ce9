import Mathlib.Data.Finset.Card
import Mathlib.Data.Finset.Range
import Mathlib.Data.Finset.Image
import Mathlib.Algebra.BigOperators.Group.Finset.Basic
import Mathlib.Algebra.BigOperators.Intervals
import Mathlib.Tactic.Ring
import Mathlib.Tactic.IntervalCases

/-!
# Bitmaps stored in bytes

A set of naturals kept as an array of bytes, bit `p % 8` of byte `p / 8` telling
whether `p` belongs to it. The lemmas say what setting and clearing one bit does
to every bit, that a bitmap is determined by its bits, and how whole bytes relate
to the eight bits they hold.

## Main definitions

- `Bitmap.bit` — membership of one index
- `Bitmap.set`, `Bitmap.clear` — the two one-bit updates
- `Bitmap.zeros` — the indices below a bound whose bit is clear
- `Bitmap.Adds` — one bitmap is another with a family of clear bits set
-/

/-- An array of bytes read as one bit for each natural number. -/
abbrev Bitmap := ℕ → BitVec 8

namespace Bitmap

/-- Bit `p % 8` of byte `p / 8`. -/
def bit (m : Bitmap) (p : ℕ) : Bool := (m (p / 8)).getLsbD (p % 8)

/-- Set the bit of `p` by or-ing its mask into its byte. -/
def set (m : Bitmap) (p : ℕ) : Bitmap :=
  Function.update m (p / 8) (m (p / 8) ||| (1#8 <<< (p % 8)))

/-- Clear the bit of `p` by and-ing the complement of its mask into its byte. -/
def clear (m : Bitmap) (p : ℕ) : Bitmap :=
  Function.update m (p / 8) (m (p / 8) &&& ~~~(1#8 <<< (p % 8)))

/-- The mask of bit `k` of a byte has exactly that bit. -/
theorem getLsbD_mask {k i : ℕ} (hi : i < 8) :
    (1#8 <<< k).getLsbD i = decide (i = k) := by
  rw [BitVec.getLsbD_shiftLeft]
  by_cases h : i < k
  · simp [h, Nat.ne_of_lt h]
  · by_cases h2 : i = k
    · subst h2; simp [hi]
    · have : i - k ≠ 0 := by omega
      simp [hi, h, h2, BitVec.getLsbD_one, this]

/-- The mask test of a C `if` is the bit itself. -/
theorem and_mask_ne_zero (b : BitVec 8) {k : ℕ} (hk : k < 8) :
    decide (b &&& (1#8 <<< k) ≠ 0#8) = b.getLsbD k := by
  cases hb : b.getLsbD k with
  | true =>
    rw [decide_eq_true_iff]
    intro h
    have := congrArg (fun x => BitVec.getLsbD x k) h
    simp [BitVec.getLsbD_and, getLsbD_mask hk, hb] at this
  | false =>
    rw [decide_eq_false_iff_not, not_not]
    apply BitVec.eq_of_getLsbD_eq
    intro i hi
    rw [BitVec.getLsbD_and, getLsbD_mask hi]
    by_cases h : i = k
    · subst h; simp [hb]
    · simp [h]

@[simp] theorem bit_set (m : Bitmap) (p q : ℕ) :
    (m.set p).bit q = (m.bit q || decide (q = p)) := by
  simp only [bit, set]
  by_cases h : q / 8 = p / 8
  · rw [h, Function.update_self, BitVec.getLsbD_or, getLsbD_mask (Nat.mod_lt _ (by omega))]
    have : q % 8 = p % 8 ↔ q = p := by omega
    simp [this]
  · have : q ≠ p := by rintro rfl; exact h rfl
    rw [Function.update_of_ne h]
    simp [this]

@[simp] theorem bit_clear (m : Bitmap) (p q : ℕ) :
    (m.clear p).bit q = (m.bit q && !decide (q = p)) := by
  simp only [bit, clear]
  have hq : q % 8 < 8 := Nat.mod_lt _ (by omega)
  by_cases h : q / 8 = p / 8
  · rw [h, Function.update_self, BitVec.getLsbD_and, BitVec.getLsbD_not, getLsbD_mask hq]
    have : q % 8 = p % 8 ↔ q = p := by omega
    simp [this, hq]
  · have : q ≠ p := by rintro rfl; exact h rfl
    rw [Function.update_of_ne h]
    simp [this]

/-- A bitmap is determined by its bits. -/
theorem ext_bit {m m' : Bitmap} (h : ∀ p, m.bit p = m'.bit p) : m = m' := by
  funext b
  apply BitVec.eq_of_getLsbD_eq
  intro i hi
  have := h (8 * b + i)
  have hd : (8 * b + i) / 8 = b := by omega
  have hm : (8 * b + i) % 8 = i := by omega
  simpa [bit, hd, hm] using this

/-- A byte of ones holds only set bits. -/
theorem bit_of_byte_eq_allOnes {m : Bitmap} {p : ℕ} (h : m (p / 8) = 255#8) :
    m.bit p = true := by
  have hp : p % 8 < 8 := Nat.mod_lt _ (by omega)
  simp only [bit]
  rw [h]
  interval_cases p % 8 <;> rfl

/-- A zero byte holds only clear bits. -/
theorem bit_of_byte_eq_zero {m : Bitmap} {p : ℕ} (h : m (p / 8) = 0#8) :
    m.bit p = false := by
  simp [bit, h]

/-- The indices below `n` whose bit is clear. -/
def zeros (m : Bitmap) (n : ℕ) : Finset ℕ := {p ∈ Finset.range n | m.bit p = false}

@[simp] theorem mem_zeros {m : Bitmap} {n p : ℕ} :
    p ∈ m.zeros n ↔ p < n ∧ m.bit p = false := by
  simp [zeros]

theorem zeros_set (m : Bitmap) (p n : ℕ) : (m.set p).zeros n = (m.zeros n).erase p := by
  ext q
  rw [mem_zeros, Finset.mem_erase, mem_zeros, bit_set, Bool.or_eq_false_iff,
    decide_eq_false_iff_not]
  tauto

theorem zeros_clear {m : Bitmap} {p n : ℕ} (hp : p < n) :
    (m.clear p).zeros n = insert p (m.zeros n) := by
  ext q
  rw [mem_zeros, Finset.mem_insert, mem_zeros, bit_clear, Bool.and_eq_false_iff,
    Bool.not_eq_false', decide_eq_true_iff]
  constructor
  · rintro ⟨hq, hb | rfl⟩
    · exact .inr ⟨hq, hb⟩
    · exact .inl rfl
  · rintro (rfl | ⟨hq, hb⟩)
    · exact ⟨hp, .inr rfl⟩
    · exact ⟨hq, .inl hb⟩

/-- The clear bits below `8 * (n + 1)` are those below `8 * n` and those of byte `n`. -/
theorem card_zeros_succ_byte (m : Bitmap) (n : ℕ) :
    (m.zeros (8 * (n + 1))).card =
      (m.zeros (8 * n)).card + ({j ∈ Finset.range 8 | m.bit (8 * n + j) = false}).card := by
  have hunion : m.zeros (8 * (n + 1)) =
      m.zeros (8 * n) ∪ ({j ∈ Finset.range 8 | m.bit (8 * n + j) = false}).image (8 * n + ·) := by
    ext p
    simp only [mem_zeros, Finset.mem_union, Finset.mem_image, Finset.mem_filter, Finset.mem_range]
    constructor
    · rintro ⟨hp, hb⟩
      by_cases h : p < 8 * n
      · exact Or.inl ⟨h, hb⟩
      · refine Or.inr ⟨p - 8 * n, ⟨by omega, ?_⟩, by omega⟩
        rwa [show 8 * n + (p - 8 * n) = p by omega]
    · rintro (⟨hp, hb⟩ | ⟨j, ⟨hj, hb⟩, rfl⟩)
      · exact ⟨by omega, hb⟩
      · exact ⟨by omega, hb⟩
  rw [hunion, Finset.card_union_of_disjoint, Finset.card_image_of_injective]
  · intro a b h
    simpa using h
  · rw [Finset.disjoint_left]
    intro p hp hq
    simp only [mem_zeros] at hp
    obtain ⟨j, -, rfl⟩ := Finset.mem_image.mp hq
    omega

/-! ### Setting several clear bits -/

/-- `m'` is `m` with the distinct clear bits `f i`, `i ∈ P`, set. -/
structure Adds {ι : Type*} (m m' : Bitmap) (f : ι → ℕ) (P : Finset ι) : Prop where
  clear : ∀ i ∈ P, m.bit (f i) = false
  inj : ∀ i ∈ P, ∀ j ∈ P, f i = f j → i = j
  bits : ∀ p, m'.bit p = true ↔ m.bit p = true ∨ ∃ i ∈ P, f i = p

namespace Adds

variable {ι : Type*} {m m' : Bitmap} {f g : ι → ℕ} {P : Finset ι}

theorem refl (m : Bitmap) (f : ι → ℕ) : Adds m m f ∅ := by
  constructor <;> simp

theorem congr (h : Adds m m' f P) (hfg : ∀ i ∈ P, f i = g i) : Adds m m' g P := by
  constructor
  · intro i hi
    rw [← hfg i hi]
    exact h.clear i hi
  · intro i hi j hj heq
    rw [← hfg i hi, ← hfg j hj] at heq
    exact h.inj i hi j hj heq
  · intro p
    rw [h.bits p]
    refine or_congr_right ⟨?_, ?_⟩
    · rintro ⟨i, hi, rfl⟩
      exact ⟨i, hi, (hfg i hi).symm⟩
    · rintro ⟨i, hi, rfl⟩
      exact ⟨i, hi, hfg i hi⟩

/-- A bit clear after the additions was clear before and is none of the added ones. -/
theorem of_clear (h : Adds m m' f P) {p : ℕ} (hp : m'.bit p = false) :
    m.bit p = false ∧ ∀ i ∈ P, f i ≠ p := by
  have hno : ¬ (m.bit p = true ∨ ∃ i ∈ P, f i = p) := by
    rw [← h.bits p, hp]
    decide
  push Not at hno
  exact ⟨by simpa using hno.1, hno.2⟩

/-- Setting one more clear bit. -/
theorem insert [DecidableEq ι] (h : Adds m m' f P) {v : ι} (hp : m'.bit (f v) = false) :
    Adds m (m'.set (f v)) f (insert v P) := by
  obtain ⟨hclear, hne⟩ := h.of_clear hp
  constructor
  · intro i hi
    obtain rfl | hi := Finset.mem_insert.mp hi
    · exact hclear
    · exact h.clear i hi
  · intro i hi j hj heq
    obtain hiv | hi := Finset.mem_insert.mp hi <;> obtain hjv | hj := Finset.mem_insert.mp hj
    · rw [hiv, hjv]
    · exact absurd (hiv ▸ heq).symm (hne j hj)
    · exact absurd (hjv ▸ heq) (hne i hi)
    · exact h.inj i hi j hj heq
  · intro p
    rw [bit_set, Bool.or_eq_true, decide_eq_true_iff, h.bits p, Finset.exists_mem_insert,
      eq_comm (a := p), or_assoc]
    exact or_congr_right or_comm

/-- Clearing an added bit. -/
theorem erase [DecidableEq ι] (h : Adds m m' f P) {v : ι} (hv : v ∈ P) :
    Adds m (m'.clear (f v)) f (P.erase v) := by
  constructor
  · exact fun i hi => h.clear i (Finset.mem_of_mem_erase hi)
  · exact fun i hi j hj heq =>
      h.inj i (Finset.mem_of_mem_erase hi) j (Finset.mem_of_mem_erase hj) heq
  · intro p
    rw [bit_clear, Bool.and_eq_true, h.bits p]
    simp only [Bool.not_eq_true', decide_eq_false_iff_not]
    constructor
    · rintro ⟨hp | ⟨i, hi, rfl⟩, hpv⟩
      · exact Or.inl hp
      · have hiv : i ≠ v := fun heq => hpv (by rw [heq])
        exact Or.inr ⟨i, Finset.mem_erase.mpr ⟨hiv, hi⟩, rfl⟩
    · rintro (hp | ⟨i, hi, rfl⟩)
      · refine ⟨Or.inl hp, fun heq => ?_⟩
        rw [heq, h.clear v hv] at hp
        exact absurd hp (by decide)
      · obtain ⟨hiv, hiP⟩ := Finset.mem_erase.mp hi
        exact ⟨Or.inr ⟨i, hiP, rfl⟩, fun heq => hiv (h.inj i hiP v hv heq)⟩

theorem eq_of_empty (h : Adds m m' f ∅) : m' = m := by
  refine ext_bit fun p => ?_
  have hp := h.bits p
  rw [Bool.eq_iff_iff]
  simpa using hp

/-- Every added bit is one clear bit less. -/
theorem card_zeros (h : Adds m m' f P) {n : ℕ} (hn : ∀ i ∈ P, f i < n) :
    (m'.zeros n).card + P.card = (m.zeros n).card := by
  have hinj : Set.InjOn f P := fun i hi j hj heq => h.inj i hi j hj heq
  rw [← Finset.card_image_of_injOn hinj, ← Finset.card_union_of_disjoint]
  · congr 1
    ext p
    simp only [Finset.mem_union, mem_zeros, Finset.mem_image]
    constructor
    · rintro (⟨hlt, hp⟩ | ⟨i, hi, rfl⟩)
      · exact ⟨hlt, (h.of_clear hp).1⟩
      · exact ⟨hn i hi, h.clear i hi⟩
    · rintro ⟨hlt, hp⟩
      by_cases hl : ∃ i ∈ P, f i = p
      · exact Or.inr hl
      · refine Or.inl ⟨hlt, ?_⟩
        have hiff := h.bits p
        rw [hp] at hiff
        simpa [hl] using hiff
  · rw [Finset.disjoint_left]
    intro p hp hpi
    obtain ⟨i, hi, rfl⟩ := Finset.mem_image.mp hpi
    exact (h.of_clear (mem_zeros.mp hp).2).2 i hi rfl

end Adds

end Bitmap
