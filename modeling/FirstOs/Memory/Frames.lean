import FirstOs.Library.Bitmap
import FirstOs.Library.ByteMemory
import FirstOs.Library.Search
import Mathlib.Order.Bounds.Defs

/-!
# The physical frame bitmap

`pmem_used` of `memory/memory.c` holds one bit for each of the 2^20 physical frames,
set when the frame is in use. This module models the functions that only touch
the bitmap: the three single-frame accessors, the byte accessor
`check_page_cluster`, the search `find_free_phys_page` and the counter `free_pages`.

## Main results

- `findFreePhysPage_spec` — what the search returns is a free frame from `0x800` up
- `findFreePhysPage_eq_zero_iff` — it returns 0 exactly when there is none
- `findFreePhysPage_eq_plain` — skipping full bytes does not change the result
- `freePages_eq_card` — the counter counts the free frames
-/

namespace FirstOs

/-- The page of a wrapped page address is the page number modulo 2^20. -/
theorem page_of_u32 (k : ℕ) : u32 (k * 0x1000) / 0x1000 = k % 0x100000 := by
  simp only [u32]
  omega

/-- The page of a page address whose number was already wrapped. -/
theorem page_of_u32_frame (k : ℕ) : u32 (u32 k * 0x1000) / 0x1000 = k % 0x100000 := by
  simp only [u32]
  omega

/-- `check_phys_page`. -/
def checkPhysPage (pmemUsed : Bitmap) (addr : ℕ) : Bool :=
  let page := addr / 0x1000
  decide (pmemUsed (page / 8) &&& (1#8 <<< (page % 8)) ≠ 0#8)

/-- `claim_phys_page`. -/
def claimPhysPage (pmemUsed : Bitmap) (addr : ℕ) : Bitmap :=
  let page := addr / 0x1000
  Function.update pmemUsed (page / 8) (pmemUsed (page / 8) ||| (1#8 <<< (page % 8)))

/-- `release_phys_page`. -/
def releasePhysPage (pmemUsed : Bitmap) (addr : ℕ) : Bitmap :=
  let page := addr / 0x1000
  Function.update pmemUsed (page / 8) (pmemUsed (page / 8) &&& ~~~(1#8 <<< (page % 8)))

/-- `check_page_cluster`: the byte that holds the bit of the frame at `addr`. -/
def checkPageCluster (pmemUsed : Bitmap) (addr : ℕ) : BitVec 8 :=
  let page := addr / 0x1000
  pmemUsed (page / 8)

/-- The loop of `find_free_phys_page` from frame `k` on. A full byte advances `k`
    by 7 in the body and by 1 in the loop header. -/
def findFreePhysPageFrom (pmemUsed : Bitmap) (k : ℕ) : ℕ :=
  if k < 1048576 then
    if checkPageCluster pmemUsed (k * 0x1000) = 255#8 then
      findFreePhysPageFrom pmemUsed (k + 7 + 1)
    else if !checkPhysPage pmemUsed (k * 0x1000) then
      k * 0x1000
    else
      findFreePhysPageFrom pmemUsed (k + 1)
  else 0
termination_by 1048576 - k

/-- `find_free_phys_page`: the address of a free frame, or 0. -/
def findFreePhysPage (pmemUsed : Bitmap) : ℕ := findFreePhysPageFrom pmemUsed 0x800

/-- The inner loop of `free_pages` over the bits of byte `i`. -/
def freePagesInByte (pmemUsed : Bitmap) (i : ℕ) : ℕ :=
  ((List.range 8).filter fun j => !checkPhysPage pmemUsed (i * 8 * 0x1000 + j * 0x1000)).length

/-- The loop of `free_pages` over the bytes from `i` on. -/
def freePagesFrom (pmemUsed : Bitmap) (i retval : ℕ) : ℕ :=
  if i < 0x20000 then
    if pmemUsed i = 0#8 then
      freePagesFrom pmemUsed (i + 1) (retval + 8)
    else if pmemUsed i ≠ 255#8 then
      freePagesFrom pmemUsed (i + 1) (retval + freePagesInByte pmemUsed i)
    else
      freePagesFrom pmemUsed (i + 1) retval
  else retval
termination_by 0x20000 - i

/-- `free_pages`: the number of free frames. -/
def freePages (pmemUsed : Bitmap) : ℕ := freePagesFrom pmemUsed 0 0

section Frame

variable (pmemUsed : Bitmap)

theorem checkPhysPage_eq_bit (addr : ℕ) :
    checkPhysPage pmemUsed addr = pmemUsed.bit (addr / 0x1000) :=
  Bitmap.and_mask_ne_zero _ (Nat.mod_lt _ (by omega))

theorem claimPhysPage_eq_set (addr : ℕ) :
    claimPhysPage pmemUsed addr = pmemUsed.set (addr / 0x1000) := rfl

theorem releasePhysPage_eq_clear (addr : ℕ) :
    releasePhysPage pmemUsed addr = pmemUsed.clear (addr / 0x1000) := rfl

@[simp] theorem checkPhysPage_frame (k : ℕ) :
    checkPhysPage pmemUsed (k * 0x1000) = pmemUsed.bit k := by
  rw [checkPhysPage_eq_bit, Nat.mul_div_cancel k (by omega)]

@[simp] theorem claimPhysPage_frame (k : ℕ) :
    claimPhysPage pmemUsed (k * 0x1000) = pmemUsed.set k := by
  rw [claimPhysPage_eq_set, Nat.mul_div_cancel k (by omega)]

@[simp] theorem releasePhysPage_frame (k : ℕ) :
    releasePhysPage pmemUsed (k * 0x1000) = pmemUsed.clear k := by
  rw [releasePhysPage_eq_clear, Nat.mul_div_cancel k (by omega)]

theorem checkPageCluster_frame (k : ℕ) :
    checkPageCluster pmemUsed (k * 0x1000) = pmemUsed (k / 8) := by
  simp only [checkPageCluster]
  rw [Nat.mul_div_cancel k (by omega)]

end Frame

-- ════════════════════════════════════════════════════════════════════════
-- The search for a free frame
-- ════════════════════════════════════════════════════════════════════════

/-- The search from `k` returns 0 or the address of the first free frame from `k` on.
    It is entered at a multiple of 8, or inside a byte that is not full: only
    then does the skip over a full byte not miss the start of the next one. -/
theorem findFreePhysPageFrom_spec (pmemUsed : Bitmap) (k : ℕ)
    (hk : k % 8 = 0 ∨ pmemUsed (k / 8) ≠ 255#8) (hk0 : 0 < k) :
    (findFreePhysPageFrom pmemUsed k = 0 ∧ ∀ f, k ≤ f → f < 0x100000 → pmemUsed.bit f = true) ∨
    ∃ f, k ≤ f ∧ f < 0x100000 ∧ pmemUsed.bit f = false ∧
      (∀ g, k ≤ g → g < f → pmemUsed.bit g = true) ∧
      findFreePhysPageFrom pmemUsed k = f * 0x1000 := by
  fun_induction findFreePhysPageFrom pmemUsed k with
  | case1 k hlt hfull ih =>
    rw [checkPageCluster_frame] at hfull
    have hk8 : k % 8 = 0 := by tauto
    have hbyte : ∀ g, k ≤ g → g < k + 8 → pmemUsed.bit g = true := by
      intro g hg hg'
      have hdiv : g / 8 = k / 8 := by omega
      exact Bitmap.bit_of_byte_eq_allOnes (hdiv ▸ hfull)
    rcases ih (Or.inl (by omega)) (by omega) with ⟨hz, hall⟩ | ⟨f, hf, hf', hb, hmin, he⟩
    · refine Or.inl ⟨hz, fun f hf hf' => ?_⟩
      by_cases h : f < k + 8
      · exact hbyte f hf h
      · exact hall f (by omega) hf'
    · refine Or.inr ⟨f, by omega, hf', hb, fun g hg hgf => ?_, he⟩
      by_cases h : g < k + 8
      · exact hbyte g hg h
      · exact hmin g (by omega) hgf
  | case2 k hlt hfull hfree =>
    rw [checkPhysPage_frame] at hfree
    exact Or.inr ⟨k, le_refl k, hlt, by simpa using hfree, by omega, rfl⟩
  | case3 k hlt hfull hused ih =>
    rw [checkPageCluster_frame] at hfull
    have hbit : pmemUsed.bit k = true := by simpa using hused
    have hnext : (k + 1) % 8 = 0 ∨ pmemUsed ((k + 1) / 8) ≠ 255#8 := by
      by_cases h : (k + 1) % 8 = 0
      · exact Or.inl h
      · have hdiv : (k + 1) / 8 = k / 8 := by omega
        exact Or.inr (hdiv ▸ hfull)
    rcases ih hnext (by omega) with ⟨hz, hall⟩ | ⟨f, hf, hf', hb, hmin, he⟩
    · refine Or.inl ⟨hz, fun f hf hf' => ?_⟩
      by_cases h : f = k
      · exact h ▸ hbit
      · exact hall f (by omega) hf'
    · refine Or.inr ⟨f, by omega, hf', hb, fun g hg hgf => ?_, he⟩
      by_cases h : g = k
      · exact h ▸ hbit
      · exact hmin g (by omega) hgf
  | case4 k hge => exact Or.inl ⟨rfl, fun f hf hf' => absurd hf' (by omega)⟩

/-- `find_free_phys_page` returns 0 when no frame from `0x800` up is free, and the
    address of the first free one otherwise. -/
theorem findFreePhysPage_cases (pmemUsed : Bitmap) :
    (findFreePhysPage pmemUsed = 0 ∧
      ∀ f, 0x800 ≤ f → f < 0x100000 → pmemUsed.bit f = true) ∨
    ∃ f, 0x800 ≤ f ∧ f < 0x100000 ∧ pmemUsed.bit f = false ∧
      (∀ g, 0x800 ≤ g → g < f → pmemUsed.bit g = true) ∧
      findFreePhysPage pmemUsed = f * 0x1000 :=
  findFreePhysPageFrom_spec pmemUsed 0x800 (Or.inl (by omega)) (by omega)

/-- A non-zero result is the address of a free frame from `0x800` up. -/
theorem findFreePhysPage_spec {pmemUsed : Bitmap} (h : findFreePhysPage pmemUsed ≠ 0) :
    ∃ f, 0x800 ≤ f ∧ f < 0x100000 ∧ pmemUsed.bit f = false ∧
      findFreePhysPage pmemUsed = f * 0x1000 := by
  rcases findFreePhysPage_cases pmemUsed with ⟨hz, -⟩ | ⟨f, hf, hf', hb, -, he⟩
  · exact absurd hz h
  · exact ⟨f, hf, hf', hb, he⟩

theorem findFreePhysPage_eq_zero_iff (pmemUsed : Bitmap) :
    findFreePhysPage pmemUsed = 0 ↔
      ∀ f, 0x800 ≤ f → f < 0x100000 → pmemUsed.bit f = true := by
  rcases findFreePhysPage_cases pmemUsed with ⟨hz, hall⟩ | ⟨f, hf, hf', hb, -, he⟩
  · exact ⟨fun _ => hall, fun _ => hz⟩
  · constructor
    · intro hz
      omega
    · intro hall
      rw [hall f hf hf'] at hb
      exact absurd hb (by decide)

-- ════════════════════════════════════════════════════════════════════════
-- The search without the skip
-- ════════════════════════════════════════════════════════════════════════

/-- The search that tests one frame after the other. -/
def plainFindFreePhysPage (pmemUsed : Bitmap) : ℕ :=
  match Search.first (fun k => !checkPhysPage pmemUsed (k * 0x1000)) 0x800 (0x100000 - 0x800) with
  | some k => k * 0x1000
  | none => 0

/-- The frames the search is for. -/
def searchedFrames (pmemUsed : Bitmap) : Set ℕ :=
  {k | 0x800 ≤ k ∧ k < 0x100000 ∧ pmemUsed.bit k = false}

/-- The two searches agree: a full byte is only met at its first frame. -/
theorem findFreePhysPage_eq_plain (pmemUsed : Bitmap) :
    findFreePhysPage pmemUsed = plainFindFreePhysPage pmemUsed := by
  rw [plainFindFreePhysPage]
  obtain ⟨hz, hall⟩ | ⟨f, hf, hf', hb, hmin, he⟩ := findFreePhysPage_cases pmemUsed
  · rw [Search.first_eq_none_iff.mpr fun l hl hl' => ?_]
    · exact hz
    · rw [checkPhysPage_frame, hall l hl (by omega), Bool.not_true]
  · rw [Search.first_eq_some_iff.mpr
      (show _ ∧ _ ∧ _ ∧ _ from ⟨hf, by omega, ?_, fun l hl hl' => ?_⟩)]
    · exact he
    · rw [checkPhysPage_frame, hb, Bool.not_false]
    · rw [checkPhysPage_frame, hmin l hl hl', Bool.not_true]

/-- The search returns the frame `k` exactly when `k` is the least free one. -/
theorem findFreePhysPage_eq_frame_iff (pmemUsed : Bitmap) (k : ℕ) :
    findFreePhysPage pmemUsed = k * 0x1000 ∧ k ≠ 0 ↔ IsLeast (searchedFrames pmemUsed) k := by
  constructor
  · rintro ⟨h, hk⟩
    obtain ⟨hz, -⟩ | ⟨f, hf, hf', hb, hmin, he⟩ := findFreePhysPage_cases pmemUsed
    · omega
    · obtain rfl : f = k := by omega
      refine ⟨⟨hf, hf', hb⟩, fun g hg => ?_⟩
      obtain ⟨hg0, -, hgb⟩ := hg
      by_contra hlt
      rw [hmin g hg0 (by omega)] at hgb
      exact Bool.false_ne_true hgb.symm
  · rintro ⟨⟨hk, hk', hb⟩, hleast⟩
    obtain ⟨-, hall⟩ | ⟨f, hf, hf', hfb, hmin, he⟩ := findFreePhysPage_cases pmemUsed
    · rw [hall k hk hk'] at hb
      exact absurd hb (by decide)
    · have hfk : k ≤ f := hleast ⟨hf, hf', hfb⟩
      have hkf : ¬ k < f := fun hlt => by
        rw [hmin k hk hlt] at hb
        exact absurd hb (by decide)
      obtain rfl : f = k := by omega
      exact ⟨he, by omega⟩

/-- `find_free_phys_page` is the search for the least free frame: its address when there is one,
    0 exactly when there is none, and what testing one frame after the other gives. -/
theorem findFreePhysPage_isLeast (pmemUsed : Bitmap) :
    (∀ k, IsLeast (searchedFrames pmemUsed) k → findFreePhysPage pmemUsed = k * 0x1000) ∧
      (findFreePhysPage pmemUsed = 0 ↔ searchedFrames pmemUsed = ∅) ∧
      (findFreePhysPage pmemUsed ≠ 0 → ∃ k, IsLeast (searchedFrames pmemUsed) k) ∧
      findFreePhysPage pmemUsed = plainFindFreePhysPage pmemUsed := by
  refine ⟨fun k hk => ((findFreePhysPage_eq_frame_iff pmemUsed k).mpr hk).1, ?_, fun h => ?_,
    findFreePhysPage_eq_plain pmemUsed⟩
  · rw [findFreePhysPage_eq_zero_iff, Set.eq_empty_iff_forall_notMem]
    constructor
    · rintro h k ⟨hk, hk', hb⟩
      rw [h k hk hk'] at hb
      exact absurd hb (by decide)
    · intro h k hk hk'
      by_contra hb
      exact h k ⟨hk, hk', by simpa using hb⟩
  · obtain ⟨k, -, -, -, he⟩ := findFreePhysPage_spec h
    exact ⟨k, (findFreePhysPage_eq_frame_iff pmemUsed k).mp ⟨he, by omega⟩⟩

-- ════════════════════════════════════════════════════════════════════════
-- The counter
-- ════════════════════════════════════════════════════════════════════════

theorem freePagesInByte_eq_card (pmemUsed : Bitmap) (i : ℕ) :
    freePagesInByte pmemUsed i =
      ({j ∈ Finset.range 8 | pmemUsed.bit (8 * i + j) = false}).card := by
  simp only [freePagesInByte]
  have hbit : ∀ j, (!checkPhysPage pmemUsed (i * 8 * 0x1000 + j * 0x1000)) =
      decide (pmemUsed.bit (8 * i + j) = false) := by
    intro j
    rw [checkPhysPage_eq_bit]
    have : (i * 8 * 0x1000 + j * 0x1000) / 0x1000 = 8 * i + j := by omega
    rw [this]
    cases pmemUsed.bit (8 * i + j) <;> rfl
  simp only [hbit]
  rfl

theorem freePagesFrom_eq (pmemUsed : Bitmap) (i retval : ℕ) (hi : i ≤ 0x20000)
    (hr : retval = (pmemUsed.zeros (8 * i)).card) :
    freePagesFrom pmemUsed i retval = (pmemUsed.zeros 0x100000).card := by
  fun_induction freePagesFrom pmemUsed i retval with
  | case1 i retval hlt hzero ih =>
    refine ih (by omega) ?_
    have hall : {j ∈ Finset.range 8 | pmemUsed.bit (8 * i + j) = false} = Finset.range 8 := by
      refine Finset.filter_true_of_mem fun j hj => ?_
      have hdiv : (8 * i + j) / 8 = i := by have := Finset.mem_range.mp hj; omega
      exact Bitmap.bit_of_byte_eq_zero (by rw [hdiv]; exact hzero)
    rw [Bitmap.card_zeros_succ_byte, hall, hr, Finset.card_range]
  | case2 i retval hlt hzero hfull ih =>
    refine ih (by omega) ?_
    rw [Bitmap.card_zeros_succ_byte, hr, freePagesInByte_eq_card]
  | case3 i retval hlt hzero hfull ih =>
    refine ih (by omega) ?_
    have hfull : pmemUsed i = 255#8 := by simpa using hfull
    have hnone : {j ∈ Finset.range 8 | pmemUsed.bit (8 * i + j) = false} = ∅ := by
      refine Finset.filter_false_of_mem fun j hj => ?_
      have hdiv : (8 * i + j) / 8 = i := by have := Finset.mem_range.mp hj; omega
      rw [Bitmap.bit_of_byte_eq_allOnes (by rw [hdiv]; exact hfull)]
      decide
    rw [Bitmap.card_zeros_succ_byte, hnone, hr, Finset.card_empty, Nat.add_zero]
  | case4 i retval hge =>
    have hi' : i = 0x20000 := by omega
    rw [hr, hi']

/-- `free_pages` counts the frames whose bit is clear. -/
theorem freePages_eq_card (pmemUsed : Bitmap) :
    freePages pmemUsed = (pmemUsed.zeros 0x100000).card :=
  freePagesFrom_eq pmemUsed 0 0 (by omega) (by simp [Bitmap.zeros])

end FirstOs
