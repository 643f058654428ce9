import FirstOs.Memory.FirstFit
import FirstOs.Memory.Reserve
import FirstOs.Memory.Window
import Mathlib.Data.List.GetD

/-!
# Changing the size of a block

`realloc_page` shrinks a block by unmapping its end, enlarges it in place when the pages behind it
are absent, and otherwise moves it. Neither of the allocations it makes on the way is checked: a
block enlarged in place may lack its last pages, and a block that cannot be moved is copied to
address 0 and given back.

Page numbers wrap at 2^20 here, as the addresses do.

## Main definitions

- `HeldBlock` — a block of present pages
- `ReallocKeeps` — the data is kept, or the block is
- `ReallocRoom` — there is room for the new size
- `FreshBlock` — a block of new pages

## Main results

- `memcpy_block` — copying a block to other frames
- `freshBlock_allocPageMap` — the pages a block is moved to have frames of their own
- `present_reallocGrow_iff` — when growing in place maps all pages
- `reallocKeeps_iff` — when `realloc_page` keeps the data or the block
-/

namespace FirstOs

open AddressSpace

-- ════════════════════════════════════════════════════════════════════════
-- Blocks
-- ════════════════════════════════════════════════════════════════════════

/-- A block of `old` present pages at `p`. -/
structure HeldBlock (s : Flat) (p old : ℕ) : Prop where
  aligned : p % 0x1000 = 0
  lt : p < 0x100000000
  pages_le : old ≤ 0x100000
  present : ∀ k < old, (s.tables (rangePage p k)).present = true

section Pages

variable {s t : Flat} {p old k x : ℕ}

theorem rangePage_lt (p k : ℕ) : rangePage p k < 0x100000 := Nat.mod_lt _ (by decide)

/-- The pages behind the first ones. -/
theorem rangePage_add (p o k : ℕ) : rangePage (p + o * 0x1000) k = rangePage p (o + k) := by
  simp only [rangePage]
  omega

theorem rangePage_page (w k : ℕ) : rangePage (w * 0x1000) k = (w + k) % 0x100000 := by
  rw [rangePage, Nat.mul_div_cancel _ (by decide)]

theorem page_of_byte (hp : p % 0x1000 = 0) (x : ℕ) :
    u32 (p + x) / 0x1000 = rangePage p (x / 0x1000) := by
  simp only [u32, rangePage]
  omega

theorem offset_of_byte (hp : p % 0x1000 = 0) (x : ℕ) : u32 (p + x) % 0x1000 = x % 0x1000 := by
  simp only [u32]
  omega

/-- A byte of a page that is mapped to the same frame, with the same contents. -/
theorem Flat.load_congr {a : ℕ} (hs : (s.tables (a / 0x1000)).present = true)
    (ht : (t.tables (a / 0x1000)).present = true)
    (hframe : (t.tables (a / 0x1000)).frame = (s.tables (a / 0x1000)).frame)
    (hphys : ∀ o < 0x1000, t.phys ((s.tables (a / 0x1000)).frame * 0x1000 + o) =
      s.phys ((s.tables (a / 0x1000)).frame * 0x1000 + o)) : t.load a = s.load a := by
  have hsa : s.translate a = some ((s.tables (a / 0x1000)).frame * 0x1000 + a % 0x1000) := if_pos hs
  have hta : t.translate a = some ((s.tables (a / 0x1000)).frame * 0x1000 + a % 0x1000) := by
    rw [← hframe]
    exact if_pos ht
  rw [Flat.load, Flat.load, hsa, hta]
  exact hphys _ (Nat.mod_lt _ (by decide))

end Pages

section Free

variable {s : Flat} {start n i j t : ℕ}

theorem freePageFrom_phys : (freePageFrom s start n i).phys = s.phys := by
  fun_induction freePageFrom s start n i with
  | case1 s i hlt ih => exact ih
  | case2 s i hge => rfl

/-- `free_page` leaves the pages outside the range. -/
theorem freePageFrom_outside (hj : ∀ t, i ≤ t → t < n → j ≠ rangePage start t) :
    (freePageFrom s start n i).tables j = s.tables j := by
  fun_induction freePageFrom s start n i with
  | case1 s i hlt ih =>
    rw [ih fun t ht => hj t (by omega), Flat.unmapVaddr_tables, page_of_range,
      Function.update_of_ne (hj i le_rfl hlt)]
  | case2 s i hge => rfl

theorem freePageFrom_absent_of_absent (hj : (s.tables j).present = false) :
    ((freePageFrom s start n i).tables j).present = false := by
  fun_induction freePageFrom s start n i with
  | case1 s i hlt ih =>
    refine ih ?_
    rw [Flat.unmapVaddr_tables, Function.update_apply]
    split_ifs
    · rfl
    · exact hj
  | case2 s i hge => exact hj

/-- It unmaps the pages of the range. -/
theorem freePageFrom_inside (ht : i ≤ t) (htn : t < n) :
    ((freePageFrom s start n i).tables (rangePage start t)).present = false := by
  fun_induction freePageFrom s start n i with
  | case1 s i hlt ih =>
    obtain rfl | hlt' := Nat.eq_or_lt_of_le ht
    · refine freePageFrom_absent_of_absent ?_
      rw [Flat.unmapVaddr_tables, page_of_range, Function.update_self]
      rfl
    · exact ih hlt'
  | case2 s i hge => omega

end Free

section Map

variable {s : Flat} {v n k : ℕ}

theorem allocPageMap_phys : (allocPageMap s v n k).2.phys = s.phys := by
  fun_induction allocPageMap s v n k with
  | case1 s k hlt paddr hz => rfl
  | case2 s k hlt paddr hne ih => exact ih
  | case3 s k hge => rfl

end Map

/-- The absent ones among the pages of a range from the `i`-th on. -/
def absentPages (s : Flat) (start n i : ℕ) : Finset ℕ :=
  {j ∈ (Finset.Ico i n).image (rangePage start) | (s.tables j).present = false}

section Grow

variable {s : Flat} {start n i j : ℕ}

theorem mem_absentPages : j ∈ absentPages s start n i ↔
    (∃ t, (i ≤ t ∧ t < n) ∧ rangePage start t = j) ∧ (s.tables j).present = false := by
  simp [absentPages]

theorem mapPageTo_of_full {v : ℕ} (hz : findFreePhysPage s.pmemUsed = 0) :
    (mapPageTo s v).2 = s := by
  rw [mapPageTo]
  dsimp only
  rw [Flat.pmemUsed_eq, if_pos hz]
  split_ifs <;> rfl

theorem mapPageTo_phys (v : ℕ) : (mapPageTo s v).2.phys = s.phys := by
  rw [mapPageTo]
  dsimp only
  split_ifs <;> rfl

theorem reallocGrow_phys : (reallocGrow s start n i).phys = s.phys := by
  fun_induction reallocGrow s start n i with
  | case1 s i hlt ih => exact ih.trans (mapPageTo_phys _)
  | case2 s i hge => rfl

/-- Growing in place keeps what is mapped. -/
theorem reallocGrow_of_present (hj : (s.tables j).present = true) :
    (reallocGrow s start n i).tables j = s.tables j := by
  fun_induction reallocGrow s start n i with
  | case1 s i hlt ih =>
    have hpage := page_of_range start i
    have hkeep : (mapPageTo s (u32 (start + i * 0x1000))).2.tables j = s.tables j := by
      cases hp : (s.tables (rangePage start i)).present with
      | true => rw [mapPageTo_of_present (hpage ▸ hp)]
      | false =>
        by_cases hz : findFreePhysPage s.pmemUsed = 0
        · rw [mapPageTo_of_full hz]
        · have hne : j ≠ rangePage start i := by
            rintro rfl
            rw [hj] at hp
            cases hp
          rw [mapPageTo_of_absent (hpage ▸ hp) hz, Flat.mapAddr_tables, hpage,
            Function.update_of_ne hne]
    exact (ih (hkeep ▸ hj)).trans hkeep
  | case2 s i hge => rfl

theorem reallocGrow_of_full (hz : findFreePhysPage s.pmemUsed = 0) :
    reallocGrow s start n i = s := by
  fun_induction reallocGrow s start n i with
  | case1 s i hlt ih =>
    rw [mapPageTo_of_full hz] at ih ⊢
    exact ih hz
  | case2 s i hge => rfl

/-- The pages that are absent when the page before them has been mapped. -/
theorem absentPages_mapAddr (hlt : i < n) (paddr : ℕ) :
    absentPages (mapAddr s (u32 (start + i * 0x1000)) paddr) start n (i + 1) =
      (absentPages s start n i).erase (rangePage start i) := by
  ext j
  rw [Finset.mem_erase, mem_absentPages, mem_absentPages, Flat.mapAddr_tables, page_of_range,
    Function.update_apply]
  constructor
  · rintro ⟨⟨t, ht, rfl⟩, habsent⟩
    split_ifs at habsent with heq
    · cases habsent
    · exact ⟨heq, ⟨t, ⟨by omega, ht.2⟩, rfl⟩, habsent⟩
  · rintro ⟨hne, ⟨t, ht, rfl⟩, habsent⟩
    rw [if_neg hne]
    have hit : t ≠ i := by
      rintro rfl
      exact hne rfl
    exact ⟨⟨t, ⟨by omega, ht.2⟩, rfl⟩, habsent⟩

/-- A present page is not among the absent ones. -/
theorem absentPages_of_present (hp : (s.tables (rangePage start i)).present = true) :
    absentPages s start n i = absentPages s start n (i + 1) := by
  ext j
  rw [mem_absentPages, mem_absentPages]
  refine and_congr_left fun habsent => ⟨?_, ?_⟩
  · rintro ⟨t, ht, rfl⟩
    have hit : t ≠ i := by
      rintro rfl
      rw [hp] at habsent
      cases habsent
    exact ⟨t, ⟨by omega, ht.2⟩, rfl⟩
  · rintro ⟨t, ht, rfl⟩
    exact ⟨t, ⟨by omega, ht.2⟩, rfl⟩

theorem absentPages_of_le (hge : n ≤ i) : absentPages s start n i = ∅ := by
  rw [absentPages, Finset.Ico_eq_empty (by omega), Finset.image_empty, Finset.filter_empty]

/-- When page `i` is mapped, only the later pages are in question. -/
theorem present_reallocGrow_succ (hi : (s.tables (rangePage start i)).present = true) :
    (∀ t, i ≤ t → t < n → ((reallocGrow s start n (i + 1)).tables
        (rangePage start t)).present = true) ↔
      ∀ t, i + 1 ≤ t → t < n → ((reallocGrow s start n (i + 1)).tables
        (rangePage start t)).present = true := by
  refine ⟨fun h t ht => h t (by omega), fun h t ht htn => ?_⟩
  obtain rfl | hlt := Nat.eq_or_lt_of_le ht
  · rw [reallocGrow_of_present hi, hi]
  · exact h t hlt htn

/-- **Growing in place.** All pages are mapped exactly when there are frames for the absent ones. -/
theorem present_reallocGrow_iff :
    (∀ t, i ≤ t → t < n → ((reallocGrow s start n i).tables (rangePage start t)).present = true) ↔
      (absentPages s start n i).card ≤ (freeFrames s.pmemUsed).card := by
  fun_induction reallocGrow s start n i with
  | case1 s i hlt ih =>
    have hpage := page_of_range start i
    cases hp : (s.tables (rangePage start i)).present with
    | true =>
      rw [mapPageTo_of_present (hpage ▸ hp)] at ih ⊢
      rw [absentPages_of_present hp, ← ih, present_reallocGrow_succ hp]
    | false =>
      have hmem : rangePage start i ∈ absentPages s start n i :=
        mem_absentPages.mpr ⟨⟨i, ⟨le_rfl, hlt⟩, rfl⟩, hp⟩
      have hpos := Finset.card_pos.mpr ⟨_, hmem⟩
      by_cases hz : findFreePhysPage s.pmemUsed = 0
      · have hcard := findFreePhysPage_eq_zero_iff_card.mp hz
        rw [mapPageTo_of_full hz, reallocGrow_of_full hz]
        refine iff_of_false (fun h => ?_) (by omega)
        have hi := h i le_rfl hlt
        rw [hp] at hi
        cases hi
      · have hclaim := card_freeFrames_claim hz
        rw [mapPageTo_of_absent (hpage ▸ hp) hz] at ih ⊢
        rw [absentPages_mapAddr hlt, Finset.card_erase_of_mem hmem, Flat.mapAddr_pmemUsed] at ih
        have hnow : ((mapAddr s (u32 (start + i * 0x1000)) (findFreePhysPage s.pmemUsed)).tables
            (rangePage start i)).present = true := by
          rw [Flat.mapAddr_tables, hpage, Function.update_self]
          rfl
        have hcards : (absentPages s start n i).card - 1 ≤
            (freeFrames (claimPhysPage s.pmemUsed (findFreePhysPage s.pmemUsed))).card ↔
            (absentPages s start n i).card ≤ (freeFrames s.pmemUsed).card := by omega
        rw [← hcards, ← ih, present_reallocGrow_succ hnow]
  | case2 s i hge =>
    rw [absentPages_of_le (by omega), Finset.card_empty]
    exact iff_of_true (fun t ht htn => by omega) (Nat.zero_le _)

end Grow

section Copy

/-- What lies outside a window is kept with it. -/
theorem ByteWindow.outside {σ : Type} [AddressSpace σ] {mem : σ → ByteMemory} {J : σ → Prop}
    {dst n : ℕ} {addr : ℕ → ℕ} (h : ByteWindow mem J dst n addr) (m : ByteMemory) :
    ByteWindow mem (fun t => J t ∧ ∀ a, (∀ x < n, addr x ≠ a) → mem t a = m a) dst n addr := by
  refine ⟨fun t ht => h.load_eq t ht.1, fun t ht => h.store_eq t ht.1, fun t ht x hx b => ?_⟩
  refine ⟨h.keeps t ht.1 x hx b, fun a ha => ?_⟩
  rw [h.store_eq t ht.1 x hx, Function.update_of_ne (ha x hx).symm]
  exact ht.2 a ha

variable {s : Flat} {dst src n : ℕ}

/-- The address of byte `x` of the block at `p`. -/
def blockAddr (s : Flat) (p x : ℕ) : ℕ :=
  (s.tables (rangePage p (x / 0x1000))).frame * 0x1000 + x % 0x1000

/-- A block of present pages is a window onto its frames. -/
theorem blockWindow (hp : dst % 0x1000 = 0)
    (hpresent : ∀ k < n, (s.tables (rangePage dst k)).present = true) :
    ByteWindow Flat.phys (Flat.HasTables s.tables s.pmemUsed) dst (n * 0x1000)
      (blockAddr s dst) := by
  obtain ⟨i, rfl⟩ : ∃ i, dst = i * 0x1000 := ⟨dst / 0x1000, by omega⟩
  have hwin := Flat.byteWindow s.tables s.pmemUsed (i := i) (n := n * 0x1000)
    (fun k => (s.tables ((i + k) % 0x100000)).frame)
    (fun k hk => by rw [← rangePage_page, hpresent k (by omega)]) fun k _ => rfl
  have haddr : blockAddr s (i * 0x1000) = fun x =>
      (s.tables ((i + x / 0x1000) % 0x100000)).frame * 0x1000 + x % 0x1000 := by
    funext x
    rw [blockAddr, rangePage_page]
  rw [haddr]
  exact hwin

/-- **Copying a block.** Its pages are copied to pages with frames of their own. -/
theorem memcpy_block (hd : dst % 0x1000 = 0) (hs : src % 0x1000 = 0)
    (hdst : ∀ k < n, (s.tables (rangePage dst k)).present = true)
    (hsrc : ∀ k < n, (s.tables (rangePage src k)).present = true)
    (hinj : ∀ k < n, ∀ l < n, (s.tables (rangePage dst k)).frame =
      (s.tables (rangePage dst l)).frame → k = l)
    (hdis : ∀ k < n, ∀ l < n, (s.tables (rangePage dst k)).frame ≠
      (s.tables (rangePage src l)).frame) :
    (∀ x < n * 0x1000, (memcpy s dst src (n * 0x1000)).phys (blockAddr s dst x) =
      s.phys (blockAddr s src x)) ∧
    ∀ a, (∀ k < n, (s.tables (rangePage dst k)).frame ≠ a / 0x1000) →
      (memcpy s dst src (n * 0x1000)).phys a = s.phys a := by
  have hwin := blockWindow hd hdst
  have hread := blockWindow hs hsrc
  have haddr : ∀ p x, blockAddr s p x / 0x1000 = (s.tables (rangePage p (x / 0x1000))).frame := by
    intro p x
    simp only [blockAddr]
    omega
  constructor
  · refine memcpyFrom_inside (J := fun t => Flat.HasTables s.tables s.pmemUsed t ∧
      ∀ a, (∀ x < n * 0x1000, blockAddr s dst x ≠ a) → t.phys a = s.phys a) _
      (hwin.outside s.phys) (fun x hx y hy heq => ?_) ⟨⟨rfl, rfl⟩, fun _ _ => rfl⟩ le_rfl
      (c := fun x => s.phys (blockAddr s src x)) (fun t ht x hx => ?_) fun x hx => by omega
    · have hframe := congrArg (· / 0x1000) heq
      simp only [haddr] at hframe
      have hpage := hinj _ (by omega) _ (by omega) hframe
      simp only [blockAddr] at heq
      omega
    · rw [hread.load_eq t ht.1 x hx]
      refine ht.2 _ fun y hy heq => hdis (y / 0x1000) (by omega) (x / 0x1000) (by omega) ?_
      rw [← haddr, ← haddr, heq]
  · intro a ha
    refine memcpyFrom_outside _ hwin ⟨rfl, rfl⟩ le_rfl fun x hx heq => ?_
    refine ha (x / 0x1000) (by omega) ?_
    rw [← haddr, heq]

end Copy

-- ════════════════════════════════════════════════════════════════════════
-- Keeping the data or the block
-- ════════════════════════════════════════════════════════════════════════

/-- The pointer returned has the new pages, and on them the data of the block at `p`. -/
structure DataKept (s : Flat) (p old new : ℕ) (r : ℕ × Flat) : Prop where
  ne_zero : r.1 ≠ 0
  present : ∀ k < new, (r.2.tables (rangePage r.1 k)).present = true
  data : ∀ x < min old new * 0x1000, r.2.load (u32 (r.1 + x)) = s.load (u32 (p + x))

/-- `NULL` is returned, and the block at `p` is mapped to the same frames, with its data. -/
structure BlockKept (s : Flat) (p old : ℕ) (r : ℕ × Flat) : Prop where
  zero : r.1 = 0
  mapped : ∀ k < old, (r.2.tables (rangePage p k)).present = true ∧
    (r.2.tables (rangePage p k)).frame = (s.tables (rangePage p k)).frame
  data : ∀ x < old * 0x1000, r.2.load (u32 (p + x)) = s.load (u32 (p + x))

/-- The present pages outside the block at `p` have the same entries and the same contents. -/
def OthersKept (s : Flat) (p old : ℕ) (t : Flat) : Prop :=
  ∀ i < 0x100000, (s.tables i).present = true → (∀ k < old, i ≠ rangePage p k) →
    t.tables i = s.tables i ∧ ∀ o < 0x1000, t.load (i * 0x1000 + o) = s.load (i * 0x1000 + o)

/-- `realloc_page` keeps the data or the block, and all other blocks. -/
def ReallocKeeps (s : Flat) (p old new : ℕ) : Prop :=
  (DataKept s p old new (reallocPage s p old new) ∨ BlockKept s p old (reallocPage s p old new)) ∧
    OthersKept s p old (reallocPage s p old new).2

/-- The search of `alloc_page` ends at page `w`. -/
structure StopsAt (s : Flat) (n w : ℕ) : Prop where
  lower : 0xC0000 ≤ w
  upper : w < 0x100000
  window : windowAt s n w = true
  first : ∀ v, 0xC0000 ≤ v → v < w → windowAt s n v = false

/-- There is room for `new` pages. A block may become smaller if its address is not 0. Where the
    pages behind it are absent, there is a frame for each of them; where one is present, the search
    finds a window with a frame for each page. The pages it maps are absent. -/
def ReallocRoom (s : Flat) (p old new : ℕ) : Prop :=
  if new ≤ old then new = old ∨ p ≠ 0
  else if reallocFails s (p / 0x1000 + old) (new - old) 0 = true then
    (∀ w, StopsAt s new w → ∀ k < new, k < (freeFrames s.pmemUsed).card →
      (s.tables ((w + k) % 0x100000)).present = false) ∧
    (old = 0 ∨ new ≤ (freeFrames s.pmemUsed).card ∧ ∃ w, StopsAt s new w)
  else p = 0 ∨
    (absentPages s (p + old * 0x1000) (new - old) 0).card ≤ (freeFrames s.pmemUsed).card

section Keep

variable {s t : Flat} {p old new w : ℕ}

theorem FirstWindow.stopsAt {n : ℕ} (h : FirstWindow s n w) (hpos : 0 < n) (hn : n < 0xFFFFFFFF) :
    StopsAt s n w := by
  refine ⟨h.lower, h.upper, h.windowAt hpos hn, fun v hv hvw => ?_⟩
  obtain ⟨k, hk, hpresent⟩ := h.first v hv hvw
  by_contra hat
  have hupper := h.upper
  have habsent := absent_of_windowAt (Bool.eq_true_of_not_eq_false hat) (by omega) k hk
  rw [Flat.entry_eq, hpresent] at habsent
  exact Bool.false_ne_true habsent.symm

theorem StopsAt.unique (hw : StopsAt s new w) {v : ℕ} (hv : StopsAt s new v) : w = v := by
  obtain hlt | heq | hlt := Nat.lt_trichotomy w v
  · have hnone := hv.first w hw.lower hlt
    rw [hw.window] at hnone
    cases hnone
  · exact heq
  · have hnone := hw.first v hv.lower hlt
    rw [hv.window] at hnone
    cases hnone

/-- A byte of a present page. -/
theorem load_of_present (hp : p % 0x1000 = 0) {x : ℕ}
    (hpresent : (s.tables (rangePage p (x / 0x1000))).present = true) :
    s.load (u32 (p + x)) = s.phys (blockAddr s p x) := by
  have htr : s.translate (u32 (p + x)) = some (blockAddr s p x) := by
    rw [Flat.translate, page_of_byte hp, offset_of_byte hp]
    exact if_pos hpresent
  rw [Flat.load, htr]

theorem HeldBlock.load_eq (hb : HeldBlock s p old) {x : ℕ} (hx : x < old * 0x1000) :
    s.load (u32 (p + x)) = s.phys (blockAddr s p x) :=
  load_of_present hb.aligned (hb.present _ (by omega))

/-- A byte of a page of the block that is mapped to the same frame. -/
theorem HeldBlock.load_kept (hb : HeldBlock s p old) {x : ℕ} (hx : x < old * 0x1000)
    (ht : (t.tables (rangePage p (x / 0x1000))).present = true)
    (hframe : (t.tables (rangePage p (x / 0x1000))).frame =
      (s.tables (rangePage p (x / 0x1000))).frame)
    (hphys : t.phys = s.phys) : t.load (u32 (p + x)) = s.load (u32 (p + x)) := by
  have hs := hb.present (x / 0x1000) (by omega)
  rw [← page_of_byte hb.aligned] at hs ht hframe
  exact Flat.load_congr hs ht hframe fun o _ => by rw [hphys]

/-- The other pages are kept when their entries and the bytes of their frames are. -/
theorem othersKept_of (htables : ∀ i < 0x100000, (s.tables i).present = true →
      (∀ k < old, i ≠ rangePage p k) → t.tables i = s.tables i)
    (hphys : ∀ i < 0x100000, (s.tables i).present = true → ∀ o < 0x1000,
      t.phys ((s.tables i).frame * 0x1000 + o) = s.phys ((s.tables i).frame * 0x1000 + o)) :
    OthersKept s p old t := by
  intro i hi hp hout
  have hpage : ∀ o < 0x1000, (i * 0x1000 + o) / 0x1000 = i := fun o ho => by omega
  have hkept := htables i hi hp hout
  refine ⟨hkept, fun o ho => Flat.load_congr ?_ ?_ ?_ ?_⟩
  · rw [hpage o ho, hp]
  · rw [hpage o ho, hkept, hp]
  · rw [hpage o ho, hkept]
  · rw [hpage o ho]
    exact hphys i hi hp

/-- A block that stays where it is, and of which the first pages are kept. -/
theorem reallocKeeps_in_place (hb : HeldBlock s p old)
    (heq : reallocPage s p old new = (p, t)) (hphys : t.phys = s.phys)
    (hfirst : ∀ k < old, k < new → t.tables (rangePage p k) = s.tables (rangePage p k))
    (hothers : ∀ i < 0x100000, (s.tables i).present = true → (∀ k < old, i ≠ rangePage p k) →
      t.tables i = s.tables i) :
    ReallocKeeps s p old new ↔
      p ≠ 0 ∧ (∀ k < new, (t.tables (rangePage p k)).present = true) ∨
        p = 0 ∧ ∀ k < old, (t.tables (rangePage p k)).present = true ∧
          (t.tables (rangePage p k)).frame = (s.tables (rangePage p k)).frame := by
  have hrest : OthersKept s p old t := othersKept_of hothers fun _ _ _ _ _ => by rw [hphys]
  rw [ReallocKeeps, heq, and_iff_left hrest]
  refine or_congr ⟨fun h => ⟨h.ne_zero, h.present⟩, fun h => ⟨h.1, h.2, fun x hx => ?_⟩⟩
    ⟨fun h => ⟨h.zero, h.mapped⟩, fun h => ⟨h.1, h.2, fun x hx => ?_⟩⟩
  · have hx' : x < old * 0x1000 :=
      hx.trans_le (Nat.mul_le_mul_right 0x1000 (min_le_left old new))
    have hkept := hfirst (x / 0x1000) (by omega) (by omega)
    have hp := hb.present (x / 0x1000) (by omega)
    refine hb.load_kept hx' ?_ ?_ hphys
    · rw [hkept, hp]
    · rw [hkept]
  · obtain ⟨hp, hframe⟩ := h.2 (x / 0x1000) (by omega)
    exact hb.load_kept hx hp hframe hphys

/-! ### The three ways -/

/-- A block becomes smaller. -/
theorem reallocKeeps_shrink_iff (hb : HeldBlock s p old) (hlt : new < old) :
    ReallocKeeps s p old new ↔ p ≠ 0 := by
  have hle := hb.pages_le
  have heq : reallocPage s p old new =
      (p, freePageFrom s (p + new * 0x1000) (old - new) 0) := by
    rw [reallocPage]
    dsimp only
    rw [if_neg hlt.ne', if_neg (by omega)]
  have hout : ∀ j, (∀ k, new ≤ k → k < old → j ≠ rangePage p k) →
      (freePageFrom s (p + new * 0x1000) (old - new) 0).tables j = s.tables j := by
    intro j hj
    refine freePageFrom_outside fun t _ ht => ?_
    rw [rangePage_add]
    exact hj _ (by omega) (by omega)
  have hfirst : ∀ k < old, k < new →
      (freePageFrom s (p + new * 0x1000) (old - new) 0).tables (rangePage p k) =
        s.tables (rangePage p k) := fun k hk hkn =>
    hout _ fun l hl hlo => rangePage_ne hle hk hlo (by omega)
  rw [reallocKeeps_in_place hb heq freePageFrom_phys hfirst fun i _ _ hi =>
    hout i fun k _ hk => hi k hk]
  constructor
  · rintro (⟨hne, -⟩ | ⟨-, hall⟩)
    · exact hne
    · have hgone : ((freePageFrom s (p + new * 0x1000) (old - new) 0).tables
          (rangePage (p + new * 0x1000) 0)).present = false :=
        freePageFrom_inside (Nat.zero_le 0) (by omega)
      rw [rangePage_add, Nat.add_zero, (hall new hlt).1] at hgone
      cases hgone
  · intro hne
    refine Or.inl ⟨hne, fun k hk => ?_⟩
    rw [hfirst k (by omega) hk]
    exact hb.present k (by omega)

/-- A block grows in place. -/
theorem reallocKeeps_grow_iff (hb : HeldBlock s p old) (hlt : old < new)
    (hfits : reallocFails s (p / 0x1000 + old) (new - old) 0 = false) :
    ReallocKeeps s p old new ↔ p = 0 ∨
      (absentPages s (p + old * 0x1000) (new - old) 0).card ≤ (freeFrames s.pmemUsed).card := by
  have heq : reallocPage s p old new =
      (p, reallocGrow s (p + old * 0x1000) (new - old) 0) := by
    rw [reallocPage]
    dsimp only
    rw [if_neg hlt.ne, if_pos hlt, hfits, if_neg Bool.false_ne_true]
  rw [reallocKeeps_in_place hb heq reallocGrow_phys
    (fun k hk _ => reallocGrow_of_present (hb.present k hk))
    fun i _ hp _ => reallocGrow_of_present hp, ← present_reallocGrow_iff]
  by_cases hp : p = 0
  · refine iff_of_true (Or.inr ⟨hp, fun k hk => ?_⟩) (Or.inl hp)
    rw [reallocGrow_of_present (hb.present k hk)]
    exact ⟨hb.present k hk, rfl⟩
  · constructor
    · rintro (⟨-, hall⟩ | ⟨h0, -⟩)
      · refine Or.inr fun t _ ht => ?_
        rw [rangePage_add]
        exact hall _ (by omega)
      · exact absurd h0 hp
    · rintro (h0 | hall)
      · exact absurd h0 hp
      · refine Or.inl ⟨hp, fun k hk => ?_⟩
        obtain hk' | hk' := Nat.lt_or_ge k old
        · rw [reallocGrow_of_present (hb.present k hk')]
          exact hb.present k hk'
        · have hpresent := hall (k - old) (Nat.zero_le _) (by omega)
          rwa [rangePage_add, show old + (k - old) = k by omega] at hpresent

/-! ### Moving -/

theorem length_freeFrameList (m : Bitmap) : (freeFrameList m).length = (freeFrames m).card :=
  Finset.length_sort _

/-- The frames the mapping loop takes are free, and none is taken twice. -/
theorem freeFrameList_mem {m : Bitmap} {k : ℕ} (hk : k < (freeFrames m).card) :
    (freeFrameList m).getD k 0 ∈ freeFrames m := by
  rw [← length_freeFrameList] at hk
  rw [List.getD_eq_getElem _ _ hk]
  exact (Finset.mem_sort _).mp (List.getElem_mem hk)

theorem freeFrameList_inj {m : Bitmap} {k l : ℕ} (hk : k < (freeFrames m).card)
    (hl : l < (freeFrames m).card)
    (heq : (freeFrameList m).getD k 0 = (freeFrameList m).getD l 0) : k = l := by
  rw [← length_freeFrameList] at hk hl
  rw [List.getD_eq_getElem _ _ hk, List.getD_eq_getElem _ _ hl] at heq
  have hnodup : (freeFrameList m).Nodup := Finset.sort_nodup _ _
  exact hnodup.getElem_inj_iff.mp heq

theorem mapsTo_frame (e : PageTableEntry) {f : ℕ} (hf : f < 0x100000) : (e.mapsTo f).frame = f := by
  rw [← mappedEntry_eq_mapsTo, mappedEntry_frame e hf]

/-- A frame that is taken is not the frame of a present page. -/
theorem FrameExclusive.frame_ne (hex : FrameExclusive s) {i f : ℕ} (hi : i < 0x100000)
    (hp : (s.tables i).present = true) (hf : f ∈ freeFrames s.pmemUsed) :
    f ≠ (s.tables i).frame := by
  rintro rfl
  have hused := hex.used i hi hp
  rw [(mem_freeFrames.mp hf).2] at hused
  cases hused

theorem reallocPage_move (hlt : old < new)
    (hfails : reallocFails s (p / 0x1000 + old) (new - old) 0 = true) :
    reallocPage s p old new = ((allocPage s new).1,
      freePage (memcpy (allocPage s new).2 (allocPage s new).1 p (u32 (old * 0x1000))) p old) := by
  rw [reallocPage]
  dsimp only
  rw [if_neg hlt.ne, if_pos hlt, hfails, if_pos rfl]

section Moved

variable {s₁ : Flat} {ret z j k : ℕ}

/-- Copying and giving back the old pages leaves the other entries. -/
theorem moved_outside (hj : ∀ k < old, j ≠ rangePage p k) :
    (freePage (memcpy s₁ ret p z) p old).tables j = s₁.tables j := by
  rw [freePage, freePageFrom_outside fun t _ ht => hj t ht, (memcpy_same ..).1]

theorem moved_inside (hk : k < old) :
    ((freePage (memcpy s₁ ret p z) p old).tables (rangePage p k)).present = false :=
  freePageFrom_inside (Nat.zero_le k) hk

theorem moved_phys : (freePage (memcpy s₁ ret p z) p old).phys = (memcpy s₁ ret p z).phys :=
  freePageFrom_phys

end Moved

/-- The search of `alloc_page` ends nowhere, or the mapping loop runs where it ends. -/
theorem allocPage_stops (s : Flat) (hnew : new ≠ 0) :
    (allocPage s new = (0, s) ∧ ∀ w, ¬ StopsAt s new w) ∨
      ∃ w, StopsAt s new w ∧ allocPage s new = allocPageMap s w new 0 := by
  obtain ⟨he, hnone⟩ | ⟨w, hw, hw', hat, hfirst, he⟩ := allocPage_cases s hnew
  · refine Or.inl ⟨he, fun w h => ?_⟩
    have hat := hnone w h.lower h.upper
    rw [h.window] at hat
    cases hat
  · exact Or.inr ⟨w, ⟨hw, hw', hat, hfirst⟩, he⟩

/-- A page that was present and has been mapped again has another frame. -/
theorem mapped_again_ne (hex : FrameExclusive s) {k : ℕ} (hk : k < new)
    (hcard : k < (freeFrames s.pmemUsed).card)
    (hp : (s.tables ((w + k) % 0x100000)).present = true) :
    (allocPageMap s w new 0).2.tables ((w + k) % 0x100000) ≠ s.tables ((w + k) % 0x100000) := by
  intro heq
  have hmaps := (allocPageMap_wraps (v := w) (n := new) (k := 0) (s := s) _ rfl).1 k (by omega)
  have hmem := freeFrameList_mem hcard
  rw [Nat.add_zero, heq] at hmaps
  have hframe := congrArg PageTableEntry.frame hmaps
  rw [mapsTo_frame _ (mem_freeFrames.mp hmem).1.2] at hframe
  exact hex.frame_ne (Nat.mod_lt _ (by decide)) hp hmem hframe.symm

/-! ### A block of new pages -/

/-- `t` has `n` pages at `q` that are absent in `s`. Their frames are not those of other pages. -/
structure FreshBlock (s t : Flat) (q n : ℕ) : Prop where
  phys : t.phys = s.phys
  kept : ∀ i, (s.tables i).present = true → t.tables i = s.tables i
  absent : ∀ k < n, (s.tables (rangePage q k)).present = false
  present : ∀ k < n, (t.tables (rangePage q k)).present = true
  frame_inj : ∀ k < n, ∀ l < n,
    (t.tables (rangePage q k)).frame = (t.tables (rangePage q l)).frame → k = l
  frame_ne : ∀ k < n, ∀ i < 0x100000, (s.tables i).present = true →
    (t.tables (rangePage q k)).frame ≠ (s.tables i).frame

/-- The mapping loop makes such a block where all pages are absent. -/
theorem freshBlock_allocPageMap (hex : FrameExclusive s)
    (hcard : new ≤ (freeFrames s.pmemUsed).card)
    (habsent : ∀ k < new, (s.tables ((w + k) % 0x100000)).present = false) :
    FreshBlock s (allocPageMap s w new 0).2 (w * 0x1000) new := by
  obtain ⟨hin, hout, -⟩ := allocPageMap_wraps (v := w) (n := new) (k := 0) (s := s) new
    (by rw [Nat.sub_zero, min_eq_left hcard])
  rw [Nat.add_zero] at hin hout
  have hfree : ∀ k < new, (freeFrameList s.pmemUsed).getD k 0 ∈ freeFrames s.pmemUsed :=
    fun k hk => freeFrameList_mem (hk.trans_le hcard)
  have hframe : ∀ k < new, ((allocPageMap s w new 0).2.tables (rangePage (w * 0x1000) k)).frame =
      (freeFrameList s.pmemUsed).getD k 0 := by
    intro k hk
    rw [rangePage_page, hin k hk, mapsTo_frame _ (mem_freeFrames.mp (hfree k hk)).1.2]
  refine ⟨allocPageMap_phys, fun i hp => hout i fun k hk heq => ?_, fun k hk => ?_, fun k hk => ?_,
    fun k hk l hl heq => ?_, fun k hk i hi hp => ?_⟩
  · rw [heq, habsent k hk] at hp
    cases hp
  · rw [rangePage_page, habsent k hk]
  · rw [rangePage_page, hin k hk]
    rfl
  · rw [hframe k hk, hframe l hl] at heq
    exact freeFrameList_inj (by omega) (by omega) heq
  · rw [hframe k hk]
    exact hex.frame_ne hi hp (hfree k hk)

section Fresh

variable {q : ℕ}

/-- The new pages are not in a block of present pages. -/
theorem FreshBlock.ne_rangePage (hf : FreshBlock s t q new) (hb : HeldBlock s p old) {k : ℕ}
    (hk : k < new) : ∀ l < old, rangePage q k ≠ rangePage p l := by
  intro l hl heq
  have hp := hb.present l hl
  rw [← heq, hf.absent k hk] at hp
  cases hp

theorem HeldBlock.blockAddr_eq (hb : HeldBlock s p old) (hf : FreshBlock s t q new) {x : ℕ}
    (hx : x < old * 0x1000) : blockAddr t p x = blockAddr s p x := by
  rw [blockAddr, hf.kept _ (hb.present _ (by omega)), blockAddr]

/-- Copying the block to the new pages copies its data, and the other pages keep theirs. -/
theorem FreshBlock.copied (hf : FreshBlock s t q new) (hb : HeldBlock s p old)
    (hq : q % 0x1000 = 0) (hle : old ≤ new) :
    (∀ x < old * 0x1000, (memcpy t q p (old * 0x1000)).phys (blockAddr t q x) =
        s.load (u32 (p + x))) ∧
      ∀ i < 0x100000, (s.tables i).present = true → ∀ o < 0x1000,
        (memcpy t q p (old * 0x1000)).phys ((s.tables i).frame * 0x1000 + o) =
          s.phys ((s.tables i).frame * 0x1000 + o) := by
  obtain ⟨hdata, hother⟩ := memcpy_block (s := t) (n := old) hq hb.aligned
    (fun k hk => hf.present k (by omega))
    (fun k hk => by rw [hf.kept _ (hb.present k hk), hb.present k hk])
    (fun k hk l hl heq => hf.frame_inj k (by omega) l (by omega) heq)
    fun k hk l hl => by
      rw [hf.kept _ (hb.present l hl)]
      exact hf.frame_ne k (by omega) _ (rangePage_lt p l) (hb.present l hl)
  refine ⟨fun x hx => ?_, fun i hi hp o ho => ?_⟩
  · rw [hdata x hx, hf.phys, hb.blockAddr_eq hf hx, hb.load_eq hx]
  · rw [hother _ fun k hk heq => ?_, hf.phys]
    rw [show ((s.tables i).frame * 0x1000 + o) / 0x1000 = (s.tables i).frame by omega] at heq
    exact hf.frame_ne k (by omega) i hi hp heq

end Fresh

/-- The block is moved to absent pages with frames of their own. -/
theorem reallocKeeps_moved (hex : FrameExclusive s) (hb : HeldBlock s p old) (hlt : old < new)
    (hfails : reallocFails s (p / 0x1000 + old) (new - old) 0 = true) (hw : StopsAt s new w)
    (he : allocPage s new = allocPageMap s w new 0) (hcard : new ≤ (freeFrames s.pmemUsed).card)
    (habsent : ∀ k < new, (s.tables ((w + k) % 0x100000)).present = false) :
    ReallocKeeps s p old new := by
  have hbound := card_freeFrames_le s.pmemUsed
  have hlower := hw.lower
  have hret : (allocPage s new).1 = w * 0x1000 := by
    rw [he, allocPageMap_fst_eq, if_pos (by omega)]
  have hsize : u32 (old * 0x1000) = old * 0x1000 := Nat.mod_eq_of_lt (by omega)
  have hf : FreshBlock s (allocPage s new).2 (w * 0x1000) new := by
    rw [he]
    exact freshBlock_allocPageMap hex hcard habsent
  have hq : w * 0x1000 % 0x1000 = 0 := Nat.mul_mod_left w 0x1000
  obtain ⟨hdata, hother⟩ := hf.copied hb hq hlt.le
  rw [ReallocKeeps, reallocPage_move hlt hfails, hret, hsize]
  generalize (allocPage s new).2 = t at hf hdata hother ⊢
  -- giving the old pages back leaves the new ones
  have hentry : ∀ k < new, (freePage (memcpy t (w * 0x1000) p (old * 0x1000)) p old).tables
      (rangePage (w * 0x1000) k) = t.tables (rangePage (w * 0x1000) k) :=
    fun k hk => moved_outside (hf.ne_rangePage hb hk)
  refine ⟨Or.inl ⟨?_, fun k hk => ?_, fun x hx => ?_⟩, othersKept_of (fun i hi hp hni => ?_)
    fun i hi hp o ho => ?_⟩
  · exact (Nat.mul_pos (by omega) (by decide)).ne'
  · dsimp only
    rw [hentry k hk]
    exact hf.present k hk
  · have hx' : x < old * 0x1000 :=
      hx.trans_le (Nat.mul_le_mul_right 0x1000 (min_le_left old new))
    have hpage : x / 0x1000 < new := by omega
    dsimp only
    rw [← hdata x hx', load_of_present hq (by rw [hentry _ hpage, hf.present _ hpage]), moved_phys,
      blockAddr, hentry _ hpage, blockAddr]
  · dsimp only
    rw [moved_outside hni, hf.kept i hp]
  · dsimp only
    rw [moved_phys, hother i hi hp o ho]

/-! ### Moving a block -/

/-- A block that has a page has lost it. -/
theorem not_blockKept_moved {r z : ℕ} (hpos : 0 < old) :
    ¬ BlockKept s p old (r, freePage (memcpy t r p z) p old) := by
  intro h
  have hp := (h.mapped 0 hpos).1
  dsimp only at hp
  rw [moved_inside hpos] at hp
  cases hp

/-- A block of no page is not copied, and nothing is given back. -/
theorem reallocPage_move_zero (hlt : 0 < new)
    (hfails : reallocFails s (p / 0x1000 + 0) (new - 0) 0 = true) :
    reallocPage s p 0 new = allocPage s new := by
  rw [reallocPage_move hlt hfails, Nat.zero_mul, memcpy, memcpyFrom, if_neg (by decide), freePage,
    freePageFrom, if_neg (by decide)]

/-- Where nothing is lost, the pages that are mapped were absent. -/
theorem ReallocKeeps.absent (hkeeps : ReallocKeeps s p old new) (hex : FrameExclusive s)
    (hlt : old < new) (hfails : reallocFails s (p / 0x1000 + old) (new - old) 0 = true)
    (hw : StopsAt s new w) {k : ℕ} (hk : k < new) (hcard : k < (freeFrames s.pmemUsed).card) :
    (s.tables ((w + k) % 0x100000)).present = false := by
  obtain ⟨hkept, hothers⟩ := hkeeps
  rw [reallocPage_move hlt hfails] at hkept hothers
  obtain ⟨-, hnone⟩ | ⟨v, hv, he⟩ := allocPage_stops s (show new ≠ 0 by omega)
  · exact absurd hw (hnone w)
  obtain rfl := hw.unique hv
  by_contra hpresent
  rw [Bool.not_eq_false] at hpresent
  by_cases hin : ∃ l < old, (w + k) % 0x100000 = rangePage p l
  · obtain ⟨l, hl, heq⟩ := hin
    obtain hdata | hblock := hkept
    · have hne := hdata.ne_zero
      have hret : (allocPage s new).1 = w * 0x1000 := by
        rw [he, allocPageMap_fst_eq]
        refine if_pos ?_
        by_contra hmany
        dsimp only at hne
        rw [he, allocPageMap_fst_eq, if_neg hmany] at hne
        exact hne rfl
      have hp := hdata.present k hk
      dsimp only at hp
      rw [hret, rangePage_page, heq, moved_inside hl] at hp
      cases hp
    · exact not_blockKept_moved (by omega) hblock
  · have hnot : ∀ l < old, (w + k) % 0x100000 ≠ rangePage p l := fun l hl heq =>
      hin ⟨l, hl, heq⟩
    have hsame := (hothers _ (Nat.mod_lt _ (by decide)) hpresent hnot).1
    dsimp only at hsame
    rw [moved_outside hnot, he] at hsame
    exact mapped_again_ne hex hk hcard hpresent hsame

/-- A block that has a page needs a window and a frame for each page. -/
theorem ReallocKeeps.room (hkeeps : ReallocKeeps s p old new) (hpos : 0 < old) (hlt : old < new)
    (hfails : reallocFails s (p / 0x1000 + old) (new - old) 0 = true) :
    new ≤ (freeFrames s.pmemUsed).card ∧ ∃ w, StopsAt s new w := by
  have hkept := hkeeps.1
  rw [reallocPage_move hlt hfails] at hkept
  have hdata := hkept.resolve_right (not_blockKept_moved hpos)
  obtain ⟨he, -⟩ | ⟨w, hw, he⟩ := allocPage_stops s (show new ≠ 0 by omega)
  · exact absurd (congrArg Prod.fst he) hdata.ne_zero
  · refine ⟨?_, w, hw⟩
    by_contra hmany
    refine hdata.ne_zero ?_
    dsimp only
    rw [he, allocPageMap_fst_eq, if_neg (by omega)]

/-- A block of no page loses nothing when `alloc_page` fails. -/
theorem reallocKeeps_zero_of_fails (hpos : 0 < new)
    (hfails : reallocFails s (p / 0x1000 + 0) (new - 0) 0 = true)
    (habsent : ∀ w, StopsAt s new w → ∀ k < new, k < (freeFrames s.pmemUsed).card →
      (s.tables ((w + k) % 0x100000)).present = false)
    (hroom : ¬ (new ≤ (freeFrames s.pmemUsed).card ∧ ∃ w, StopsAt s new w)) :
    ReallocKeeps s p 0 new := by
  rw [ReallocKeeps, reallocPage_move_zero hpos hfails]
  obtain ⟨he, -⟩ | ⟨w, hw, he⟩ := allocPage_stops s (show new ≠ 0 by omega)
  · rw [he]
    exact ⟨Or.inr ⟨rfl, fun k hk => by omega, fun x hx => by omega⟩,
      othersKept_of (fun _ _ _ _ => rfl) fun _ _ _ _ _ => rfl⟩
  · have hcard : ¬ new ≤ (freeFrames s.pmemUsed).card := fun hcard => hroom ⟨hcard, w, hw⟩
    obtain ⟨-, hout, -⟩ := allocPageMap_wraps (v := w) (n := new) (k := 0) (s := s) _ rfl
    rw [he]
    refine ⟨Or.inr ⟨?_, fun k hk => by omega, fun x hx => by omega⟩,
      othersKept_of (fun i hi hp _ => hout i fun t ht heq => ?_) fun _ _ _ _ _ => ?_⟩
    · rw [allocPageMap_fst_eq, if_neg (by omega)]
    · rw [heq, Nat.add_zero, habsent w hw t (by omega) (by omega)] at hp
      cases hp
    · rw [allocPageMap_phys]

/-- A block is moved. -/
theorem reallocKeeps_move_iff (hex : FrameExclusive s) (hb : HeldBlock s p old) (hlt : old < new)
    (hfails : reallocFails s (p / 0x1000 + old) (new - old) 0 = true) :
    ReallocKeeps s p old new ↔
      (∀ w, StopsAt s new w → ∀ k < new, k < (freeFrames s.pmemUsed).card →
        (s.tables ((w + k) % 0x100000)).present = false) ∧
      (old = 0 ∨ new ≤ (freeFrames s.pmemUsed).card ∧ ∃ w, StopsAt s new w) := by
  constructor
  · intro h
    exact ⟨fun w hw k hk hcard => h.absent hex hlt hfails hw hk hcard,
      (Nat.eq_zero_or_pos old).imp id fun hpos => h.room hpos hlt hfails⟩
  · rintro ⟨habsent, hroom⟩
    by_cases hmove : new ≤ (freeFrames s.pmemUsed).card ∧ ∃ w, StopsAt s new w
    · obtain ⟨hcard, w, hw⟩ := hmove
      obtain ⟨-, hnone⟩ | ⟨v, hv, he⟩ := allocPage_stops s (show new ≠ 0 by omega)
      · exact absurd hw (hnone w)
      obtain rfl := hw.unique hv
      exact reallocKeeps_moved hex hb hlt hfails hw he hcard fun k hk =>
        habsent w hw k hk (hk.trans_le hcard)
    · obtain rfl := hroom.resolve_right hmove
      exact reallocKeeps_zero_of_fails hlt hfails habsent hmove

/-- **When `realloc_page` keeps the data or the block.** -/
theorem reallocKeeps_iff {s : Flat} {p old : ℕ} (hex : FrameExclusive s) (hb : HeldBlock s p old)
    (new : BitVec 32) : ReallocKeeps s p old new.toNat ↔ ReallocRoom s p old new.toNat := by
  generalize new.toNat = new
  rw [ReallocRoom]
  split_ifs with hle hfails
  · obtain rfl | hlt := Nat.eq_or_lt_of_le hle
    · have heq : reallocPage s p new new = (p, s) := by rw [reallocPage, if_pos rfl]
      rw [reallocKeeps_in_place hb heq rfl (fun _ _ _ => rfl) fun _ _ _ _ => rfl]
      refine iff_of_true ?_ (Or.inl rfl)
      by_cases hp : p = 0
      · exact Or.inr ⟨hp, fun k hk => ⟨hb.present k hk, rfl⟩⟩
      · exact Or.inl ⟨hp, hb.present⟩
    · rw [reallocKeeps_shrink_iff hb hlt]
      exact ⟨Or.inr, fun h => h.resolve_left hlt.ne⟩
  · exact reallocKeeps_move_iff hex hb (by omega) hfails
  · exact reallocKeeps_grow_iff hb (by omega) (Bool.eq_false_iff.mpr hfails)

end Keep

-- ════════════════════════════════════════════════════════════════════════
-- Blocks that grow
-- ════════════════════════════════════════════════════════════════════════

theorem heldBlock_scattered {p : ℕ} (hp : p = 0xC0000000 ∨ p = 0xC0001000) :
    HeldBlock Flat.scattered p 1 := by
  refine ⟨by omega, by omega, by decide, fun k hk => ?_⟩
  rw [scattered_present, rangePage, decide_eq_true_iff]
  omega

/-- The second block grows in place, the first one moves. -/
theorem reallocKeeps_iff_scattered :
    (ReallocKeeps Flat.scattered 0xC0001000 1 2 ∧
      (reallocPage Flat.scattered 0xC0001000 1 2).1 = 0xC0001000) ∧
    ReallocKeeps Flat.scattered 0xC0000000 1 2 ∧
      (reallocPage Flat.scattered 0xC0000000 1 2).1 = 0xC0004000 := by
  have hex := exclusive_scattered.toFrameExclusive
  have hcard := two_le_freeFrames_scattered
  have hwindow := firstWindow_of_isLeast (by decide) isLeast_scattered
  have hstops := hwindow.stopsAt (by decide) (by decide)
  -- the page behind the second block is absent, the one behind the first is not
  have hfits : reallocFails Flat.scattered 0xC0002 1 0 = false := by
    rw [Bool.eq_false_iff, Ne, reallocFails_iff]
    rintro ⟨k, -, hk, hpresent⟩
    obtain rfl : k = 0 := Nat.lt_one_iff.mp hk
    exact absurd ((scattered_present 0xC0002).symm.trans hpresent) (by decide)
  have hfails : reallocFails Flat.scattered 0xC0001 1 0 = true :=
    reallocFails_iff.mpr ⟨0, le_refl _, by decide, scattered_present 0xC0001⟩
  have hgrow : ReallocRoom Flat.scattered 0xC0001000 1 2 := by
    rw [ReallocRoom, if_neg (by decide), hfits, if_neg (by decide)]
    have hle : (absentPages Flat.scattered (0xC0001000 + 1 * 0x1000) (2 - 1) 0).card ≤ 1 :=
      (Finset.card_filter_le _ _).trans Finset.card_image_le
    exact Or.inr (hle.trans (by omega))
  have hmove : ReallocRoom Flat.scattered 0xC0000000 1 2 := by
    rw [ReallocRoom, if_neg (by decide), hfails, if_pos rfl]
    refine ⟨fun w hw k hk _ => ?_, Or.inr ⟨hcard, _, hstops⟩⟩
    rw [hw.unique hstops, scattered_present, decide_eq_false]
    omega
  refine ⟨⟨(reallocKeeps_iff hex (heldBlock_scattered (Or.inr rfl)) 2).mpr hgrow, ?_⟩,
    (reallocKeeps_iff hex (heldBlock_scattered (Or.inl rfl)) 2).mpr hmove, ?_⟩
  · rw [reallocPage, if_neg (by decide), if_pos (by decide), hfits, if_neg (by decide)]
  · rw [reallocPage, if_neg (by decide), if_pos (by decide), hfails, if_pos rfl]
    change (allocPage Flat.scattered 2).1 = _
    rw [allocPage_eq_of_window hwindow (by decide) hcard]

-- ════════════════════════════════════════════════════════════════════════
-- A block of one page
-- ════════════════════════════════════════════════════════════════════════

/-- A state in which the page at 3 GiB is mapped to frame `0x800`, and no frame is free. -/
def Flat.onePage : Flat :=
  Flat.empty.withTables (Function.update Flat.empty.tables 0xC0000
    ((PageTableEntry.decode 0).mapsTo 0x800))

theorem onePage_tables_of_ne {i : ℕ} (h : i ≠ 0xC0000) :
    Flat.onePage.tables i = PageTableEntry.decode 0 := by
  rw [Flat.onePage, Flat.withTables_tables, Function.update_of_ne h]
  rfl

theorem onePage_present {i : ℕ} (h : (Flat.onePage.tables i).present = true) : i = 0xC0000 := by
  by_contra hne
  rw [onePage_tables_of_ne hne] at h
  cases h

theorem frameExclusive_onePage : FrameExclusive Flat.onePage :=
  ⟨fun _ _ _ => Bitmap.bit_of_byte_eq_allOnes rfl, fun _ _ _ _ hi hj _ =>
    (onePage_present hi).trans (onePage_present hj).symm⟩

theorem heldBlock_onePage : HeldBlock Flat.onePage 0xC0000000 1 := by
  refine ⟨by decide, by decide, by decide, fun k hk => ?_⟩
  obtain rfl : k = 0 := by omega
  rfl

/-- A second page cannot be mapped, and the address of the block is returned. -/
theorem not_reallocKeeps : ¬ ∀ (s : Flat) (p old : ℕ) (new : BitVec 32), FrameExclusive s →
    HeldBlock s p old → 0 < new.toNat → ReallocKeeps s p old new.toNat := by
  intro hall
  have hkeeps := hall Flat.onePage 0xC0000000 1 2 frameExclusive_onePage heldBlock_onePage
    (by decide)
  have habsent : (Flat.onePage.tables 0xC0001).present = false := by
    rw [onePage_tables_of_ne (by decide)]
    rfl
  have hfits : reallocFails Flat.onePage 0xC0001 1 0 = false := by
    have hentry : (entry Flat.onePage (u32 (0xC0001 + 0))).present = false := habsent
    rw [reallocFails, if_pos Nat.one_pos, hentry, if_neg Bool.false_ne_true, reallocFails,
      if_neg (by decide)]
  obtain h0 | hcard := (reallocKeeps_grow_iff heldBlock_onePage (by decide) hfits).mp hkeeps
  · exact absurd h0 (by decide)
  · have hmem : 0xC0001 ∈ absentPages Flat.onePage (0xC0000000 + 1 * 0x1000) (2 - 1) 0 :=
      mem_absentPages.mpr ⟨⟨0, by decide, rfl⟩, habsent⟩
    have hfree : (freeFrames Flat.onePage.pmemUsed).card = 0 := freeFrames_empty
    have hpos := Finset.card_pos.mpr ⟨_, hmem⟩
    have hle : (absentPages Flat.onePage (0xC0000000 + 1 * 0x1000) (2 - 1) 0).card ≤
        (freeFrames Flat.onePage.pmemUsed).card := hcard
    omega

end FirstOs
