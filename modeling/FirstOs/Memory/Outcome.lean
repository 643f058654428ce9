import FirstOs.Memory.Bounds
import FirstOs.Memory.Exclusive

/-!
# When the allocators succeed

Both allocators take the first window of absent pages. `alloc_page` then needs as many free
frames as pages, `alloc_sequential` a run of free frames that starts above 16 MiB.

## Main results

- `allocPageMap_fst_eq` — the mapping loop succeeds exactly when there are enough free frames
- `allocPage_eq_of_window`, `window_of_allocPage` — when `alloc_page` returns a block
- `allocSequential_eq_of_window`, `window_of_allocSequential` — when `alloc_sequential` does
-/

namespace FirstOs

open AddressSpace

-- ════════════════════════════════════════════════════════════════════════
-- The free frames
-- ════════════════════════════════════════════════════════════════════════

/-- The free frames from `0x800` on. -/
def freeFrames (m : Bitmap) : Finset ℕ := {f ∈ Finset.Ico 0x800 0x100000 | m.bit f = false}

theorem mem_freeFrames {m : Bitmap} {f : ℕ} :
    f ∈ freeFrames m ↔ (0x800 ≤ f ∧ f < 0x100000) ∧ m.bit f = false := by
  simp [freeFrames]

theorem card_freeFrames_le (m : Bitmap) : (freeFrames m).card ≤ 0xFF800 :=
  (Finset.card_filter_le _ _).trans (Nat.card_Ico _ _).le

/-- `find_free_phys_page` fails when there are none. -/
theorem findFreePhysPage_eq_zero_iff_card {m : Bitmap} :
    findFreePhysPage m = 0 ↔ (freeFrames m).card = 0 := by
  rw [findFreePhysPage_eq_zero_iff, Finset.card_eq_zero, Finset.eq_empty_iff_forall_notMem]
  simp only [mem_freeFrames, not_and, Bool.not_eq_false, and_imp]

/-- Claiming the frame found leaves one less. -/
theorem card_freeFrames_claim {m : Bitmap} (h : findFreePhysPage m ≠ 0) :
    (freeFrames (claimPhysPage m (findFreePhysPage m))).card + 1 = (freeFrames m).card := by
  obtain ⟨f, hf, hf', hfree, he⟩ := findFreePhysPage_spec h
  have hmem : f ∈ freeFrames m := mem_freeFrames.mpr ⟨⟨hf, hf'⟩, hfree⟩
  have herase : freeFrames (m.set f) = (freeFrames m).erase f := by
    ext g
    rw [Finset.mem_erase, mem_freeFrames, mem_freeFrames, Bitmap.bit_set]
    by_cases hg : g = f <;> simp [hg]
  rw [he, claimPhysPage_frame, herase]
  exact Finset.card_erase_add_one hmem

-- ════════════════════════════════════════════════════════════════════════
-- The window
-- ════════════════════════════════════════════════════════════════════════

/-- The first window of `n` absent pages starts at page `w`. -/
structure FirstWindow (s : Flat) (n w : ℕ) : Prop where
  lower : 0xC0000 ≤ w
  upper : w < 0x100000
  absent : ∀ k < n, (s.tables (u32 (w + k))).present = false
  first : ∀ v, 0xC0000 ≤ v → v < w → ∃ k < n, (s.tables (u32 (v + k))).present = true

section Window

variable {s : Flat} {n w : ℕ}

theorem FirstWindow.unique (h : FirstWindow s n w) {v : ℕ} (hv : FirstWindow s n v) : w = v := by
  obtain hlt | heq | hlt := Nat.lt_trichotomy w v
  · obtain ⟨k, hk, hpresent⟩ := hv.first w h.lower hlt
    rw [h.absent k hk] at hpresent
    exact absurd hpresent Bool.false_ne_true
  · exact heq
  · obtain ⟨k, hk, hpresent⟩ := h.first v hv.lower hlt
    rw [hv.absent k hk] at hpresent
    exact absurd hpresent Bool.false_ne_true

/-- The first window by the test of the code. -/
theorem firstWindow_of_windowAt (hpos : 0 < n) (hn : n < 0xFFFFFFFF) (hw : 0xC0000 ≤ w)
    (hw' : w < 0x100000) (hat : windowAt s n w = true)
    (hfirst : ∀ v, 0xC0000 ≤ v → v < w → windowAt s n v = false) : FirstWindow s n w := by
  refine ⟨hw, hw', absent_of_windowAt hat hw', fun v hv hvw => ?_⟩
  by_contra hnone
  push Not at hnone
  have hat' : windowAt s n v = true :=
    (windowAt_iff hpos hn (by omega)).mpr fun k hk => Bool.eq_false_iff.mpr (hnone k hk)
  rw [hfirst v hv hvw] at hat'
  exact Bool.false_ne_true hat'

theorem FirstWindow.windowAt (h : FirstWindow s n w) (hpos : 0 < n) (hn : n < 0xFFFFFFFF) :
    windowAt s n w = true :=
  (windowAt_iff hpos hn h.upper).mpr h.absent

theorem firstWindow_one (h : (s.tables 0xC0000).present = false) :
    FirstWindow s 1 0xC0000 := by
  refine ⟨le_refl _, by decide, fun k hk => ?_, fun v hv hv' => by omega⟩
  obtain rfl : k = 0 := by omega
  exact h

-- ════════════════════════════════════════════════════════════════════════
-- The outcomes
-- ════════════════════════════════════════════════════════════════════════

/-- The mapping loop of `alloc_page` succeeds when there are enough free frames. -/
theorem allocPageMap_fst_eq (s : Flat) (i n step : ℕ) : (allocPageMap s i n step).1 =
    if n - step ≤ (freeFrames s.pmemUsed).card then i * 0x1000 else 0 := by
  fun_induction allocPageMap s i n step with
  | case1 s step hlt paddr hz =>
    have hcard := findFreePhysPage_eq_zero_iff_card.mp hz
    rw [Flat.pmemUsed_eq] at hcard
    rw [hcard, if_neg (by omega)]
  | case2 s step hlt paddr hne ih =>
    have hcard := card_freeFrames_claim hne
    rw [Flat.pmemUsed_eq] at hcard
    rw [ih, Flat.mapAddr_pmemUsed]
    refine if_congr ?_ rfl rfl
    change n - (step + 1) ≤ (freeFrames (claimPhysPage s.pmemUsed
      (findFreePhysPage s.pmemUsed))).card ↔ _
    omega
  | case3 s step hge => rw [if_pos (by omega)]

theorem allocPage_eq_of_window (h : FirstWindow s n w) (hpos : 0 < n)
    (hcard : n ≤ (freeFrames s.pmemUsed).card) :
    allocPage s n = (w * 0x1000, (allocPageMap s w n 0).2) := by
  have hle := card_freeFrames_le s.pmemUsed
  obtain ⟨-, hnone⟩ | ⟨v, hv, hv', hat, hfirst, he⟩ := allocPage_cases s hpos.ne'
  · have hat := h.windowAt hpos (by omega)
    rw [hnone w h.lower h.upper] at hat
    exact absurd hat Bool.false_ne_true
  · obtain rfl := h.unique (firstWindow_of_windowAt hpos (by omega) hv hv' hat hfirst)
    rw [he]
    refine Prod.ext ?_ rfl
    rw [allocPageMap_fst_eq, if_pos (by omega)]

theorem window_of_allocPage (h : (allocPage s n).1 ≠ 0) :
    ∃ w, FirstWindow s n w ∧ 0 < n ∧ n ≤ (freeFrames s.pmemUsed).card := by
  have hpos : n ≠ 0 := by
    rintro rfl
    exact h (by rw [allocPage, if_pos rfl])
  obtain ⟨he, -⟩ | ⟨w, hw, hw', hat, hfirst, he⟩ := allocPage_cases s hpos
  · exact absurd (by rw [he]) h
  · have hle := card_freeFrames_le s.pmemUsed
    have hcard : n ≤ (freeFrames s.pmemUsed).card := by
      by_contra hlt
      rw [he, allocPageMap_fst_eq, if_neg (by omega)] at h
      exact h rfl
    exact ⟨w, firstWindow_of_windowAt (by omega) (by omega) hw hw' hat hfirst, by omega, hcard⟩

/-- `alloc_page` maps a free first page to the least free frame. -/
theorem allocPage_one (habsent : (s.tables 0xC0000).present = false) {f : ℕ}
    (hf : IsLeast (searchedFrames s.pmemUsed) f) :
    allocPage s 1 = (0xC0000000, mapAddr s 0xC0000000 (f * 0x1000)) := by
  obtain ⟨hfind, hne⟩ := (findFreePhysPage_eq_frame_iff _ f).mpr hf
  have hcard : 0 < (freeFrames s.pmemUsed).card := by
    rw [Nat.pos_iff_ne_zero, Ne, ← findFreePhysPage_eq_zero_iff_card]
    omega
  rw [allocPage_eq_of_window (firstWindow_one habsent) (by decide) hcard, allocPageMap,
    if_pos (by decide), Flat.pmemUsed_eq, hfind]
  dsimp only
  rw [if_neg (by omega), allocPageMap, if_neg (by decide)]

/-- A run of `n` free frames starts above 16 MiB. -/
def FreeRun (m : Bitmap) (n : ℕ) : Prop :=
  ∃ f, 0x1000 ≤ f ∧ f < 0x100000 ∧ ∀ k < n, m.bit ((f + k) % 0x100000) = false

theorem allocSequential_eq_of_window (h : FirstWindow s n w) (hpos : 0 < n) (hn : n < 0xFFFFFFFF)
    (hrun : FreeRun s.pmemUsed n) : ∃ j, 0x1000 ≤ j ∧ j < 0x100000 ∧
      (∀ k < n, s.pmemUsed.bit ((j + k) % 0x100000) = false) ∧
      allocSequential s n = (w * 0x1000, sequentialMap s w j n 0) := by
  obtain ⟨-, hnone | hnone⟩ | ⟨v, j, hv, hv', hat, hfirst, hj, hj', hfree, -, he⟩ :=
    allocSequential_cases s hpos.ne'
  · obtain ⟨f, hf, hf', hfree⟩ := hrun
    have hat := (sequentialAt_iff hpos hn hf').mpr hfree
    rw [← Flat.pmemUsed_eq, hnone f hf hf'] at hat
    exact absurd hat Bool.false_ne_true
  · have hat := h.windowAt hpos hn
    rw [hnone w h.lower h.upper] at hat
    exact absurd hat Bool.false_ne_true
  · obtain rfl := h.unique (firstWindow_of_windowAt hpos hn hv hv' hat hfirst)
    exact ⟨j, hj, hj', free_of_sequentialAt hfree hj', he⟩

theorem window_of_allocSequential (hn : n < 0x100000000) (h : (allocSequential s n).1 ≠ 0) :
    ∃ w, FirstWindow s n w ∧ 0 < n ∧ n < 0xFFFFFFFF ∧ FreeRun s.pmemUsed n := by
  have hpos : n ≠ 0 := by
    rintro rfl
    exact h (by rw [allocSequential, if_pos rfl])
  obtain ⟨he, -⟩ | ⟨w, j, hw, hw', hat, hfirst, hj, hj', hfree, -, -⟩ := allocSequential_cases s hpos
  · exact absurd (by rw [he]) h
  · have hmax : n ≠ 0xFFFFFFFF := by
      rintro rfl
      rw [windowAt_max] at hat
      exact Bool.false_ne_true hat
    exact ⟨w, firstWindow_of_windowAt (by omega) (by omega) hw hw' hat hfirst, by omega, by omega,
      j, hj, hj', free_of_sequentialAt hfree hj'⟩

end Window

-- ════════════════════════════════════════════════════════════════════════
-- Behind the table
-- ════════════════════════════════════════════════════════════════════════

/-- The state with other memory behind the table. -/
def Flat.behind (s : Flat) (b : ℕ → PageTableEntry) : Flat :=
  s.withTables fun i => if i < 0x100000 then s.tables i else b i

theorem Flat.behind_tables (s : Flat) (b : ℕ → PageTableEntry) {i : ℕ} (hi : i < 0x100000) :
    (s.behind b).tables i = s.tables i := if_pos hi

@[simp] theorem Flat.behind_pmemUsed (s : Flat) (b : ℕ → PageTableEntry) :
    (s.behind b).pmemUsed = s.pmemUsed := rfl

theorem lt_of_mem_rangePages {start n i : ℕ} (h : i ∈ rangePages start n) : i < 0x100000 := by
  obtain ⟨t, -, rfl⟩ := h
  exact Nat.mod_lt _ (by decide)

-- ════════════════════════════════════════════════════════════════════════
-- No free frame and one
-- ════════════════════════════════════════════════════════════════════════

theorem freeFrames_empty : (freeFrames Flat.empty.pmemUsed).card = 0 :=
  findFreePhysPage_eq_zero_iff_card.mp ((findFreePhysPage_eq_zero_iff _).mpr fun _ _ _ =>
    Bitmap.bit_of_byte_eq_allOnes rfl)

theorem allocPage_fresh_one : allocPage Flat.fresh 1 =
    (0xC0000000, mapAddr Flat.fresh 0xC0000000 0x800000) :=
  allocPage_one (f := 0x800) rfl
    ⟨⟨by decide, by decide, Bitmap.bit_of_byte_eq_zero rfl⟩, fun _ hf => hf.1⟩

/-- A state with an empty table in which only frame `0x800` is free. -/
def Flat.oneFree : Flat := { Flat.empty with pmemUsed := Bitmap.clear (fun _ => 255) 0x800 }

theorem oneFree_bit (f : ℕ) : Flat.oneFree.pmemUsed.bit f = !decide (f = 0x800) := by
  change (Bitmap.clear _ 0x800).bit f = _
  rw [Bitmap.bit_clear, Bitmap.bit_of_byte_eq_allOnes rfl, Bool.true_and]

theorem freeFrames_oneFree : freeFrames Flat.oneFree.pmemUsed = {0x800} := by
  ext f
  rw [mem_freeFrames, oneFree_bit, Finset.mem_singleton, Bool.not_eq_false', decide_eq_true_iff]
  omega

end FirstOs
