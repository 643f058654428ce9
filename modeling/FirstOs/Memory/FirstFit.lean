import FirstOs.Memory.Outcome
import Mathlib.Data.Finset.Sort

/-!
# First fit

A window that lies in the table is found before one that runs over its end, so that both
allocators take the lowest window of the table when there is one. `alloc_page` maps it to the
lowest free frames in order; when it runs out of them it keeps what it has mapped.
`alloc_sequential` maps it to the lowest run of free frames.

## Main results

- `allocPage_firstFit`, `allocSequential_firstFit` — what is found, mapped and left
- `allocPage_traceless_iff` — when a failed `alloc_page` leaves no trace
-/

namespace FirstOs

open AddressSpace

/-- The `n` pages from page `i` on are in the table and absent. -/
structure AbsentRun (s : Flat) (n i : ℕ) : Prop where
  lower : 0xC0000 ≤ i
  upper : i + n ≤ 0x100000
  absent : ∀ k < n, (s.tables (i + k)).present = false

/-- The `n` frames from frame `j` on are above 16 MiB and free. -/
structure RunOfFree (m : Bitmap) (n j : ℕ) : Prop where
  lower : 0x1000 ≤ j
  upper : j + n ≤ 0x100000
  free : ∀ k < n, m.bit (j + k) = false

/-- The free frames from `0x800` on in increasing order. -/
def freeFrameList (m : Bitmap) : List ℕ := (freeFrames m).sort

/-- An entry that maps a frame. -/
def PageTableEntry.mapsTo (e : PageTableEntry) (f : ℕ) : PageTableEntry :=
  { e with present := true, readwrite := true, address := BitVec.ofNat 20 f }

theorem mappedEntry_eq_mapsTo (e : PageTableEntry) (f : ℕ) :
    mappedEntry e (f * 0x1000) = e.mapsTo f := by
  rw [mappedEntry, Nat.mul_div_cancel f (by decide), PageTableEntry.mapsTo]

section Window

variable {s : Flat} {n v : ℕ}

/-- The lowest window of the table is the first one the allocators find. -/
theorem firstWindow_of_isLeast (hpos : 0 < n) (h : IsLeast {i | AbsentRun s n i} v) :
    FirstWindow s n v := by
  have hrun : AbsentRun s n v := h.1
  have hupper := hrun.upper
  refine ⟨hrun.lower, by omega, fun k hk => ?_, fun i hi hiv => ?_⟩
  · rw [u32, Nat.mod_eq_of_lt (by omega)]
    exact hrun.absent k hk
  · by_contra hnone
    push Not at hnone
    refine absurd (h.2 ⟨hi, by omega, fun k hk => ?_⟩) (by omega)
    have habsent := Bool.eq_false_iff.mpr (hnone k hk)
    rwa [u32, Nat.mod_eq_of_lt (by omega)] at habsent

end Window

section Free

variable {m : Bitmap} {f : ℕ}

/-- The frame found is the head of the list, and claiming it leaves the tail. -/
theorem freeFrameList_claim (h : findFreePhysPage m ≠ 0) : ∃ f < 0x100000,
    findFreePhysPage m = f * 0x1000 ∧ freeFrameList m = f :: freeFrameList (m.set f) := by
  obtain ⟨hz, -⟩ | ⟨f, hf, hf', hfree, hlow, he⟩ := findFreePhysPage_cases m
  · exact absurd hz h
  have hinsert : freeFrames m = insert f (freeFrames (m.set f)) := by
    ext g
    rw [Finset.mem_insert, mem_freeFrames, mem_freeFrames, Bitmap.bit_set]
    by_cases hg : g = f
    · subst hg
      simp [hf, hf', hfree]
    · simp [hg]
  have hnot : f ∉ freeFrames (m.set f) := by
    rw [mem_freeFrames, Bitmap.bit_set]
    simp
  refine ⟨f, hf', he, ?_⟩
  rw [freeFrameList, hinsert]
  refine Finset.sort_insert _ (fun g hg => ?_) hnot
  rw [mem_freeFrames, Bitmap.bit_set, Bool.or_eq_false_iff] at hg
  by_contra hlt
  rw [hlow g hg.1.1 (by omega)] at hg
  exact absurd hg.2.1 (by decide)

theorem freeFrameList_of_isLeast (h : IsLeast (searchedFrames m) f) :
    freeFrameList m = f :: freeFrameList (m.set f) := by
  obtain ⟨hfind, hne⟩ := (findFreePhysPage_eq_frame_iff m f).mpr h
  obtain ⟨g, -, hg, hlist⟩ := freeFrameList_claim (m := m) (by omega)
  obtain rfl : g = f := by omega
  exact hlist

end Free

section Page

variable {s : Flat} {n v k : ℕ}

/-- The mapping loop gives the pages from `k` on the free frames in order, as far as these go. The
    pages wrap at the end of the table. -/
theorem allocPageMap_wraps : ∀ m, m = min (n - k) (freeFrames s.pmemUsed).card →
    (∀ t < m, (allocPageMap s v n k).2.tables ((v + k + t) % 0x100000) =
        (s.tables ((v + k + t) % 0x100000)).mapsTo ((freeFrameList s.pmemUsed).getD t 0)) ∧
      (∀ i, (∀ t < m, i ≠ (v + k + t) % 0x100000) →
        (allocPageMap s v n k).2.tables i = s.tables i) ∧
      ∀ f, (allocPageMap s v n k).2.pmemUsed.bit f =
        (s.pmemUsed.bit f || decide (f ∈ (freeFrameList s.pmemUsed).take m)) := by
  fun_induction allocPageMap s v n k with
  | case1 s k hlt paddr hz =>
    intro m hm
    have hnone := findFreePhysPage_eq_zero_iff_card.mp hz
    rw [Flat.pmemUsed_eq] at hnone
    obtain rfl : m = 0 := by omega
    exact ⟨fun t ht => by omega, fun _ _ => rfl, fun f => by simp⟩
  | case2 s k hlt paddr hne ih =>
    intro m hm
    obtain ⟨f, hf, he, hlist⟩ := freeFrameList_claim (m := s.pmemUsed) hne
    have hbound := card_freeFrames_le s.pmemUsed
    have hleft := card_freeFrames_claim hne
    rw [Flat.pmemUsed_eq] at hleft
    have hpage : u32 ((v + k) * 0x1000) / 0x1000 = (v + k) % 0x100000 := page_of_u32 _
    have htables : ∀ i, i ≠ (v + k) % 0x100000 →
        (mapAddr s (u32 ((v + k) * 0x1000)) paddr).tables i = s.tables i := by
      intro i hi
      rw [Flat.mapAddr_tables, hpage, Function.update_of_ne hi]
    have hused : (mapAddr s (u32 ((v + k) * 0x1000)) paddr).pmemUsed = s.pmemUsed.set f := by
      change claimPhysPage s.pmemUsed (findFreePhysPage s.pmemUsed) = _
      rw [he, claimPhysPage_frame]
    obtain ⟨hin, hout, hbits⟩ := ih (m - 1) (by
      rw [Flat.mapAddr_pmemUsed]
      change _ = min _ (freeFrames (claimPhysPage s.pmemUsed (findFreePhysPage s.pmemUsed))).card
      omega)
    rw [hused] at hin hbits
    refine ⟨fun t ht => ?_, fun i hi => ?_, fun g => ?_⟩
    · cases t with
      | zero =>
        rw [hout _ (fun t ht => by omega), Flat.mapAddr_tables, Nat.add_zero, hpage,
          Function.update_self, hlist]
        change mappedEntry _ (findFreePhysPage s.pmemUsed) = _
        rw [he, mappedEntry_eq_mapsTo]
        rfl
      | succ t =>
        have hin := hin t (by omega)
        rw [htables _ (by omega), show v + (k + 1) + t = v + k + (t + 1) by omega] at hin
        rw [hin, hlist, List.getD_cons_succ]
    · rw [hout i (fun t ht => ?_), htables i (hi 0 (by omega))]
      have hne := hi (t + 1) (by omega)
      rwa [show v + k + (t + 1) = v + (k + 1) + t by omega] at hne
    · rw [hbits, Bitmap.bit_set, hlist, show m = m - 1 + 1 by omega, List.take_succ_cons,
        Nat.add_sub_cancel, Bool.or_assoc]
      simp
  | case3 s k hge =>
    intro m hm
    obtain rfl : m = 0 := by omega
    exact ⟨fun t ht => by omega, fun _ _ => rfl, fun f => by simp⟩

/-- It gives all pages of a window a frame when there are enough. -/
theorem allocPageMap_maps (hv : v + n ≤ 0x100000) (hk : k ≤ n)
    (hcard : n - k ≤ (freeFrames s.pmemUsed).card) :
    (∀ t < n - k, (allocPageMap s v n k).2.tables (v + k + t) =
        (s.tables (v + k + t)).mapsTo ((freeFrameList s.pmemUsed).getD t 0)) ∧
      (∀ i, i < v + k ∨ v + n ≤ i → (allocPageMap s v n k).2.tables i = s.tables i) ∧
      ∀ f, (allocPageMap s v n k).2.pmemUsed.bit f =
        (s.pmemUsed.bit f || decide (f ∈ (freeFrameList s.pmemUsed).take (n - k))) := by
  obtain ⟨hin, hout, hbits⟩ := allocPageMap_wraps (v := v) (n - k) (min_eq_left hcard).symm
  have hpage : ∀ t < n - k, (v + k + t) % 0x100000 = v + k + t := fun t ht =>
    Nat.mod_eq_of_lt (by omega)
  refine ⟨fun t ht => ?_, fun i hi => hout i fun t ht heq => ?_, hbits⟩
  · rw [← hpage t ht]
    exact hin t ht
  · rw [hpage t ht] at heq
    omega

/-- `alloc_page` maps the lowest window to the lowest free frames, in order. -/
theorem allocPage_firstFit (hpos : 0 < n) (hv : IsLeast {i | AbsentRun s n i} v) :
    (n ≤ (freeFrames s.pmemUsed).card → (allocPage s n).1 = v * 0x1000 ∧
      (∀ t < n, (allocPage s n).2.tables (v + t) =
        (s.tables (v + t)).mapsTo ((freeFrameList s.pmemUsed).getD t 0)) ∧
      (∀ i, i < v ∨ v + n ≤ i → (allocPage s n).2.tables i = s.tables i) ∧
      ∀ f, (allocPage s n).2.pmemUsed.bit f =
        (s.pmemUsed.bit f || decide (f ∈ (freeFrameList s.pmemUsed).take n))) ∧
    ((freeFrames s.pmemUsed).card < n → (allocPage s n).1 = 0) := by
  have hrun : AbsentRun s n v := hv.1
  constructor
  · intro hcard
    obtain ⟨hin, hout, hbits⟩ := allocPageMap_maps hrun.upper (Nat.zero_le n) hcard
    rw [allocPage_eq_of_window (firstWindow_of_isLeast hpos hv) hpos hcard]
    exact ⟨rfl, hin, hout, hbits⟩
  · intro hlt
    by_contra hne
    obtain ⟨w, -, -, hcard⟩ := window_of_allocPage hne
    omega

end Page

/-- The lowest window of two pages is behind the mapped ones. -/
theorem isLeast_scattered : IsLeast {i | AbsentRun Flat.scattered 2 i} 0xC0004 := by
  refine ⟨⟨by decide, by decide, fun k hk => ?_⟩, fun i hi => ?_⟩
  · rw [scattered_present, decide_eq_false (by omega)]
  · obtain ⟨hlower, -, habsent⟩ := hi
    have h0 := habsent 0 (by decide)
    have h1 := habsent 1 (by decide)
    simp only [scattered_present, decide_eq_false_iff_not] at h0 h1
    omega

theorem freeFrameList_scattered : freeFrameList Flat.scattered.pmemUsed =
    0x802 :: 0x803 :: freeFrameList ((Flat.scattered.pmemUsed.set 0x802).set 0x803) := by
  have hfirst : IsLeast (searchedFrames Flat.scattered.pmemUsed) 0x802 := by
    refine ⟨⟨by decide, by decide, scattered_bit 0x802⟩, fun f hf => ?_⟩
    obtain ⟨hf, -, hfree⟩ := hf
    simp only [scattered_bit, decide_eq_false_iff_not] at hfree
    omega
  have hsecond : IsLeast (searchedFrames (Flat.scattered.pmemUsed.set 0x802)) 0x803 := by
    refine ⟨⟨by decide, by decide, ?_⟩, fun f hf => ?_⟩
    · simp only [Bitmap.bit_set, scattered_bit]
      decide
    · obtain ⟨hf, -, hfree⟩ := hf
      simp only [Bitmap.bit_set, scattered_bit, ← Bool.decide_or, decide_eq_false_iff_not] at hfree
      omega
  rw [freeFrameList_of_isLeast hfirst, freeFrameList_of_isLeast hsecond]

theorem two_le_freeFrames_scattered : 2 ≤ (freeFrames Flat.scattered.pmemUsed).card := by
  have hlength : (freeFrameList Flat.scattered.pmemUsed).length = _ := Finset.length_sort _
  rw [freeFrameList_scattered] at hlength
  rw [← hlength, List.length_cons, List.length_cons]
  omega

/-- The two pages come behind the mapped ones and get the frames behind the used ones. -/
theorem allocPage_firstFit_scattered : (allocPage Flat.scattered 2).1 = 0xC0004000 ∧
    ((allocPage Flat.scattered 2).2.tables 0xC0004).frame = 0x802 ∧
    ((allocPage Flat.scattered 2).2.tables 0xC0005).frame = 0x803 ∧
    (allocPage Flat.scattered 2).2.tables 0xC0003 = Flat.scattered.tables 0xC0003 := by
  obtain ⟨haddr, hmaps, hout, -⟩ :=
    (allocPage_firstFit (by decide) isLeast_scattered).1 two_le_freeFrames_scattered
  rw [freeFrameList_scattered] at hmaps
  refine ⟨haddr, ?_, ?_, hout _ (by decide)⟩
  · rw [hmaps 0 (by decide)]
    rfl
  · rw [hmaps 1 (by decide)]
    rfl

section Fail

variable {s : Flat} {n v k : ℕ}

/-- A mapping loop that gives up has taken every free frame. -/
theorem freeFrames_allocPageMap (hk : k ≤ n) (hlt : (freeFrames s.pmemUsed).card < n - k) :
    (freeFrames (allocPageMap s v n k).2.pmemUsed).card = 0 := by
  fun_induction allocPageMap s v n k with
  | case1 s k hkn paddr hz => exact findFreePhysPage_eq_zero_iff_card.mp hz
  | case2 s k hkn paddr hne ih =>
    have hleft := card_freeFrames_claim hne
    rw [Flat.pmemUsed_eq] at hleft
    refine ih hkn ?_
    rw [Flat.mapAddr_pmemUsed]
    change (freeFrames (claimPhysPage s.pmemUsed (findFreePhysPage s.pmemUsed))).card < _
    omega
  | case3 s k hge => omega

theorem allocPageMap_of_full (hfull : (freeFrames s.pmemUsed).card = 0) (hlt : k < n) :
    allocPageMap s v n k = (0, s) := by
  rw [allocPageMap, if_pos hlt, Flat.pmemUsed_eq, if_pos (findFreePhysPage_eq_zero_iff_card.mpr hfull)]

/-- A window for which there are too few free frames. -/
theorem allocPage_short (h : FirstWindow s n v) (hmax : n < 0xFFFFFFFF)
    (hlt : (freeFrames s.pmemUsed).card < n) : (allocPage s n).1 = 0 ∧
      (freeFrames (allocPage s n).2.pmemUsed).card = 0 := by
  have hgone := freeFrames_allocPageMap (v := v) (Nat.zero_le n) hlt
  obtain ⟨-, hnone⟩ | ⟨w, hw, hw', hat, hfirst, he⟩ := allocPage_cases s (show n ≠ 0 by omega)
  · have hat := h.windowAt (by omega) hmax
    rw [hnone v h.lower h.upper] at hat
    exact absurd hat Bool.false_ne_true
  · obtain rfl := h.unique (firstWindow_of_windowAt (by omega) hmax hw hw' hat hfirst)
    rw [he, allocPageMap_fst_eq, if_neg (by omega)]
    exact ⟨rfl, hgone⟩

/-- A failed `alloc_page` leaves no trace, unless it has found a window and some free frames,
    but not enough of them. -/
theorem allocPage_traceless_iff (s : Flat) (n : BitVec 32) :
    ((allocPage s n.toNat).1 = 0 → (allocPage s n.toNat).2.tables = s.tables ∧
      (allocPage s n.toNat).2.pmemUsed = s.pmemUsed) ↔
    ¬ (n.toNat ≠ 0xFFFFFFFF ∧ (∃ w, FirstWindow s n.toNat w) ∧
      0 < (freeFrames s.pmemUsed).card ∧ (freeFrames s.pmemUsed).card < n.toNat) := by
  have hn := n.isLt
  generalize n.toNat = n at hn ⊢
  constructor
  · rintro h ⟨hmax, ⟨w, hw⟩, hsome, hlt⟩
    obtain ⟨hz, hgone⟩ := allocPage_short hw (by omega) hlt
    rw [(h hz).2] at hgone
    omega
  · intro h hz
    by_cases hpos : n = 0
    · rw [allocPage, if_pos hpos]
      exact ⟨rfl, rfl⟩
    obtain ⟨he, -⟩ | ⟨w, hw, hw', hat, hfirst, he⟩ := allocPage_cases s hpos
    · rw [he]
      exact ⟨rfl, rfl⟩
    · have hmax : n ≠ 0xFFFFFFFF := by
        rintro rfl
        rw [windowAt_max] at hat
        exact Bool.false_ne_true hat
      have hwindow := firstWindow_of_windowAt (by omega) (by omega) hw hw' hat hfirst
      -- the loop gives up, so it does so on the first page
      have hlt : (freeFrames s.pmemUsed).card < n := by
        by_contra hge
        rw [he, allocPageMap_fst_eq, if_pos (by omega)] at hz
        omega
      have hfull : (freeFrames s.pmemUsed).card = 0 := by
        by_contra hsome
        exact h ⟨hmax, ⟨w, hwindow⟩, by omega, hlt⟩
      rw [he, allocPageMap_of_full hfull (by omega)]
      exact ⟨rfl, rfl⟩

/-- Two pages, and one free frame. -/
theorem not_allocPage_traceless : ¬ ∀ (s : Flat) (n : BitVec 32), (allocPage s n.toNat).1 = 0 →
    (allocPage s n.toNat).2.tables = s.tables ∧
      (allocPage s n.toNat).2.pmemUsed = s.pmemUsed := by
  intro hall
  have hwindow : FirstWindow Flat.oneFree 2 0xC0000 :=
    ⟨le_refl _, by decide, fun _ _ => rfl, fun v hv hv' => by omega⟩
  have hlt : (freeFrames Flat.oneFree.pmemUsed).card < 2 := by
    rw [freeFrames_oneFree, Finset.card_singleton]
    decide
  obtain ⟨hz, hgone⟩ := allocPage_short hwindow (by decide) hlt
  have hsame : (allocPage Flat.oneFree 2).2.pmemUsed = Flat.oneFree.pmemUsed :=
    (hall Flat.oneFree 2 hz).2
  rw [hsame, freeFrames_oneFree, Finset.card_singleton] at hgone
  exact absurd hgone (by decide)

end Fail

section Sequential

variable {s : Flat} {n v j k : ℕ}

/-- With frame 0 in use, the physical test accepts the runs that end below 4 GiB only. -/
theorem sequentialAt_iff_runOfFree (hzero : s.pmemUsed.bit 0 = true) (hpos : 0 < n)
    (hmax : n < 0xFFFFFFFF) (hj : 0x1000 ≤ j) (hj' : j < 0x100000) :
    sequentialAt s.pmemUsed n j = true ↔ RunOfFree s.pmemUsed n j := by
  rw [sequentialAt_iff hpos hmax hj']
  constructor
  · intro hfree
    have hlt := frame_lt_of_free_run hzero hfree hj'
    have hupper := hlt (n - 1) (by omega)
    refine ⟨hj, by omega, fun k hk => ?_⟩
    rw [← hfree k hk, Nat.mod_eq_of_lt (hlt k hk)]
  · intro hrun k hk
    have hupper := hrun.upper
    rw [Nat.mod_eq_of_lt (by omega)]
    exact hrun.free k hk

theorem sequentialMap_bit (hj : j + n ≤ 0x100000) (f : ℕ) :
    (sequentialMap s v j n k).pmemUsed.bit f =
      (s.pmemUsed.bit f || decide (j + k ≤ f ∧ f < j + n)) := by
  fun_induction sequentialMap s v j n k with
  | case1 s k hlt ih =>
    rw [ih, Flat.mapAddr_pmemUsed, sequentialMap_frame, Nat.mod_eq_of_lt (by omega),
      claimPhysPage_frame, Bitmap.bit_set, Bool.or_assoc, ← Bool.decide_or]
    congr 2
    apply propext
    omega
  | case2 s k hge =>
    rw [decide_eq_false (by omega), Bool.or_false]

/-- The mapping loop gives the window the frames from `j` on, in order. -/
theorem sequentialMap_maps (hn : n ≤ 0x100000) (hv : v + n ≤ 0x100000) (hj : j + n ≤ 0x100000)
    {t : ℕ} (ht : t < n) : (sequentialMap s v j n 0).tables (v + t) =
      (s.tables (v + t)).mapsTo (j + t) := by
  have hmapped := sequentialMap_inside (s := s) (i := v) (j := j) hn ht (Nat.zero_le t)
  rwa [Nat.mod_eq_of_lt (by omega), Nat.mod_eq_of_lt (by omega),
    mappedEntry_eq_mapsTo] at hmapped

/-- The translation of a window mapped in order. -/
theorem getPhysAddr_of_maps {s' : Flat} (hj : j + n ≤ 0x100000)
    (hmaps : ∀ t < n, s'.tables (v + t) = (s.tables (v + t)).mapsTo (j + t)) {d : ℕ}
    (hd : d < n * 0x1000) : getPhysAddr s' (v * 0x1000 + d) = j * 0x1000 + d := by
  rw [getPhysAddr, Flat.entry_eq, show (v * 0x1000 + d) / 0x1000 = v + d / 0x1000 by omega,
    hmaps _ (by omega), PageTableEntry.mapsTo]
  dsimp only
  rw [BitVec.toNat_ofNat, Nat.mod_eq_of_lt (by omega)]
  omega

/-- `alloc_sequential` maps the lowest window to the lowest run of free frames, and does nothing
    when there is none. -/
theorem allocSequential_firstFit (hzero : s.pmemUsed.bit 0 = true) (hpos : 0 < n)
    (hv : IsLeast {i | AbsentRun s n i} v) :
    (∀ j, IsLeast {j | RunOfFree s.pmemUsed n j} j →
      (allocSequential s n).1 = v * 0x1000 ∧
      (∀ d < n * 0x1000, getPhysAddr (allocSequential s n).2 ((allocSequential s n).1 + d) =
        j * 0x1000 + d) ∧
      (∀ t < n, (allocSequential s n).2.tables (v + t) = (s.tables (v + t)).mapsTo (j + t)) ∧
      (∀ i, i < v ∨ v + n ≤ i → (allocSequential s n).2.tables i = s.tables i) ∧
      ∀ f, (allocSequential s n).2.pmemUsed.bit f =
        (s.pmemUsed.bit f || decide (j ≤ f ∧ f < j + n))) ∧
    ((∀ j, ¬ RunOfFree s.pmemUsed n j) → allocSequential s n = (0, s)) := by
  have hrun : AbsentRun s n v := hv.1
  have hlower := hrun.lower
  have hupper := hrun.upper
  have hwindow := firstWindow_of_isLeast hpos hv
  obtain ⟨he, hnone⟩ | ⟨w, f, hw, hw', hat, hfirst, hf, hf', hfree, hlow, he⟩ :=
    allocSequential_cases s (show n ≠ 0 by omega)
  · refine ⟨fun j hj => ?_, fun _ => he⟩
    have hfree : RunOfFree s.pmemUsed n j := hj.1
    have hj1 := hfree.lower
    have hj2 := hfree.upper
    obtain hnone | hnone := hnone
    · have hat := (sequentialAt_iff_runOfFree hzero hpos (by omega) hj1 (by omega)).mpr hfree
      rw [← Flat.pmemUsed_eq, hnone j hj1 (by omega)] at hat
      exact absurd hat Bool.false_ne_true
    · have hat := hwindow.windowAt hpos (by omega)
      rw [hnone v hlower (by omega)] at hat
      exact absurd hat Bool.false_ne_true
  · rw [Flat.pmemUsed_eq] at hfree hlow
    have hrunf := (sequentialAt_iff_runOfFree hzero hpos (by omega) hf hf').mp hfree
    refine ⟨fun j hj => ?_, fun hnone => absurd hrunf (hnone f)⟩
    have hfreej : RunOfFree s.pmemUsed n j := hj.1
    have hj1 := hfreej.lower
    have hj2 := hfreej.upper
    obtain rfl := hwindow.unique (firstWindow_of_windowAt hpos (by omega) hw hw' hat hfirst)
    -- the frame found is the lowest one a run starts at
    have hle : j ≤ f := hj.2 hrunf
    obtain rfl : j = f := by
      by_contra hne
      have hat := (sequentialAt_iff_runOfFree hzero hpos (by omega) hj1 (by omega)).mpr hfreej
      rw [hlow j hj1 (by omega)] at hat
      exact Bool.false_ne_true hat
    rw [he]
    dsimp only
    have hmaps := fun t (ht : t < n) =>
      sequentialMap_maps (s := s) (show n ≤ 0x100000 by omega) hupper hj2 ht
    refine ⟨rfl, fun d hd => getPhysAddr_of_maps hj2 hmaps hd, hmaps, fun i hi => ?_, fun f => ?_⟩
    · refine sequentialMap_outside fun l _ hl => ?_
      omega
    · exact sequentialMap_bit hj2 f

/-- Frame `0x1001` is in the way of the two frames. -/
theorem allocSequential_firstFit_scattered : (allocSequential Flat.scattered 2).1 = 0xC0004000 ∧
    ∀ d < 0x2000, getPhysAddr (allocSequential Flat.scattered 2).2
      ((allocSequential Flat.scattered 2).1 + d) = 0x1002000 + d := by
  have hj : IsLeast {j | RunOfFree Flat.scattered.pmemUsed 2 j} 0x1002 := by
    refine ⟨⟨by decide, by decide, fun k hk => ?_⟩, fun j hj => ?_⟩
    · rw [scattered_bit, decide_eq_false (by omega)]
    · obtain ⟨hlower, -, hfree⟩ := hj
      have h0 := hfree 0 (by decide)
      have h1 := hfree 1 (by decide)
      simp only [scattered_bit, decide_eq_false_iff_not] at h0 h1
      omega
  obtain ⟨haddr, hphys, -⟩ := (allocSequential_firstFit exclusive_scattered.zeroUsed (by decide)
    isLeast_scattered).1 _ hj
  exact ⟨haddr, hphys⟩

end Sequential

end FirstOs
