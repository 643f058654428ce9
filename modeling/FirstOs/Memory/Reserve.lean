import FirstOs.Memory.Undo
import Mathlib.Order.CompletePartialOrder

/-!
# The reserved 8 MiB

The frames below `0x800` are in use for ever. No allocator takes them; they can only come back
by unmapping an entry that names one of them, and an absent entry names frame 0. So the blocks
handed out have to be mapped throughout, and no two of them may share a page.

A block gets a hole when `realloc_page` lets it grow in place and `map_page_to` finds no frame,
which is not checked. A window or a growing block that runs over the top of the address space
goes on at address 0, where the pages are not tested.

## Main definitions

- `Reserve` — the low frames are in use, and a set of pages is mapped beside them
- `AllocCall.Safe` — no block gets a hole, or a page of another block

## Main results

- `reserve_allocPage`, `reserve_allocSequential`, `reserve_reallocGrow`, `reserve_freePage`
- `lowUsed_of_safe` — runs of safe calls leave the low frames in use
-/

namespace FirstOs

open AddressSpace

/-- The frames of the low 8 MiB are in use. -/
def LowUsed (s : Flat) : Prop := ∀ f < 0x800, s.pmemUsed.bit f = true

/-- The page is present, and its frame is behind the low 8 MiB. -/
def HeldAt (s : Flat) (i : ℕ) : Prop := (s.tables i).present = true ∧ 0x800 ≤ (s.tables i).frame

/-- The low frames are in use, and the pages of `Q` hold others. -/
structure Reserve (s : Flat) (Q : Set ℕ) : Prop where
  low : LowUsed s
  held : ∀ i ∈ Q, HeldAt s i

-- ════════════════════════════════════════════════════════════════════════
-- The pages of a range
-- ════════════════════════════════════════════════════════════════════════

theorem rangePages_zero (start : ℕ) : rangePages start 0 = ∅ :=
  Set.eq_empty_of_forall_notMem fun _ ⟨_, ht, _⟩ => absurd ht (Nat.not_lt_zero _)

theorem rangePages_succ (start n : ℕ) :
    rangePages start (n + 1) = insert ((start / 0x1000 + n) % 0x100000) (rangePages start n) := by
  ext i
  constructor
  · rintro ⟨t, ht, rfl⟩
    obtain rfl | hlt := Nat.eq_or_lt_of_le (Nat.le_of_lt_succ ht)
    · exact .inl rfl
    · exact .inr ⟨t, hlt, rfl⟩
  · rintro (rfl | ⟨t, ht, rfl⟩)
    · exact ⟨n, Nat.lt_succ_self n, rfl⟩
    · exact ⟨t, Nat.lt_succ_of_lt ht, rfl⟩

theorem rangePages_window_succ (i n : ℕ) : rangePages (i * 0x1000) (n + 1) =
    insert ((i + n) % 0x100000) (rangePages (i * 0x1000) n) := by
  rw [rangePages_succ, Nat.mul_div_cancel i (by decide)]

/-- A longer range is the shorter one and the range behind it. -/
theorem rangePages_add (start n k : ℕ) :
    rangePages start (n + k) = rangePages start n ∪ rangePages (start + n * 0x1000) k := by
  induction k with
  | zero => rw [rangePages_zero, Set.union_empty, Nat.add_zero]
  | succ k ih =>
    rw [← Nat.add_assoc, rangePages_succ, rangePages_succ, Set.union_insert, ih,
      Nat.add_mul_div_right _ _ (by decide), Nat.add_assoc]

/-- The two parts of a range of at most 2^20 pages have no page in common. -/
theorem disjoint_rangePages_add {start n k : ℕ} (h : n + k ≤ 0x100000) :
    Disjoint (rangePages start n) (rangePages (start + n * 0x1000) k) := by
  rw [Set.disjoint_left]
  rintro i ⟨t, ht, rfl⟩ ⟨u, hu, heq⟩
  rw [Nat.add_mul_div_right _ _ (by decide)] at heq
  omega

section Map

variable {s : Flat} {P Q : Set ℕ} {i j k n v : ℕ}

theorem Reserve.mono (h : Reserve s Q) (hPQ : P ⊆ Q) : Reserve s P :=
  ⟨h.low, fun i hi => h.held i (hPQ hi)⟩

theorem Reserve.congr {t : Flat} (h : Reserve s Q) (hQ : ∀ i ∈ Q, t.tables i = s.tables i)
    (hused : t.pmemUsed = s.pmemUsed) : Reserve t Q := by
  refine ⟨fun f hf => ?_, fun i hi => ?_⟩
  · rw [hused]
    exact h.low f hf
  · rw [HeldAt, hQ i hi]
    exact h.held i hi

/-- Mapping a page to a frame behind the low 8 MiB. -/
theorem Reserve.mapAddr (h : Reserve s Q) (v : ℕ) {f : ℕ} (hf : 0x800 ≤ f) (hf' : f < 0x100000) :
    Reserve (FirstOs.mapAddr s v (f * 0x1000)) (insert (v / 0x1000) Q) := by
  refine ⟨fun g hg => ?_, fun i hi => ?_⟩
  · rw [Flat.mapAddr_pmemUsed, claimPhysPage_frame, Bitmap.bit_set, h.low g hg, Bool.true_or]
  · rw [HeldAt, Flat.mapAddr_tables]
    by_cases hiv : i = v / 0x1000
    · rw [hiv, Function.update_self, mappedEntry_frame _ hf']
      exact ⟨rfl, hf⟩
    · rw [Function.update_of_ne hiv]
      exact h.held i (hi.resolve_left hiv)

theorem Reserve.mapAddr_findFree (h : Reserve s Q) (v : ℕ)
    (hne : findFreePhysPage s.pmemUsed ≠ 0) :
    Reserve (FirstOs.mapAddr s v (findFreePhysPage s.pmemUsed)) (insert (v / 0x1000) Q) := by
  obtain ⟨f, hf, hf', -, he⟩ := findFreePhysPage_spec hne
  rw [he]
  exact h.mapAddr v hf hf'

/-- The mapping loop of `alloc_page`, with the first `k` pages of the window mapped. -/
theorem reserve_allocPageMap (h : Reserve s (Q ∪ rangePages (i * 0x1000) k)) (hk : k ≤ n) :
    Reserve (allocPageMap s i n k).2 Q ∧ ((allocPageMap s i n k).1 ≠ 0 →
      Reserve (allocPageMap s i n k).2 (Q ∪ rangePages (i * 0x1000) n)) := by
  fun_induction allocPageMap s i n k with
  | case1 s k hlt paddr hz => exact ⟨h.mono Set.subset_union_left, fun hne => absurd rfl hne⟩
  | case2 s k hlt paddr hne ih =>
    refine ih ?_ hlt
    have hmap := h.mapAddr_findFree (u32 ((i + k) * 0x1000)) hne
    rwa [page_of_u32, ← Set.union_insert, ← rangePages_window_succ] at hmap
  | case3 s k hge =>
    obtain rfl : k = n := by omega
    exact ⟨h.mono Set.subset_union_left, fun _ => h⟩

/-- The mapping loop of `alloc_sequential`. -/
theorem reserve_sequentialMap (h : Reserve s (Q ∪ rangePages (i * 0x1000) k)) (hk : k ≤ n)
    (hj : 0x1000 ≤ j) (hlt : ∀ k < n, j + k < 0x100000) :
    Reserve (sequentialMap s i j n k) (Q ∪ rangePages (i * 0x1000) n) := by
  fun_induction sequentialMap s i j n k with
  | case1 s k hlt' ih =>
    have hframe : u32 ((j + k) * 0x1000) = (j + k) * 0x1000 := by
      have := hlt k hlt'
      rw [u32, Nat.mod_eq_of_lt (by omega)]
    have hmap := h.mapAddr (u32 ((i + k) * 0x1000)) (f := j + k) (by omega) (hlt k hlt')
    rw [hframe] at ih ⊢
    refine ih ?_ hlt'
    rwa [page_of_u32, ← Set.union_insert, ← rangePages_window_succ] at hmap
  | case2 s k hge =>
    obtain rfl : k = n := by omega
    exact h

/-- `alloc_page` maps the pages of the block it returns, and leaves the others held. -/
theorem reserve_allocPage (h : Reserve s Q) (n : ℕ) : Reserve (allocPage s n).2 Q ∧
    ((allocPage s n).1 ≠ 0 →
      Reserve (allocPage s n).2 (Q ∪ rangePages (allocPage s n).1 n)) := by
  rw [allocPage_eq_window]
  cases allocPageWindow s n with
  | none => exact ⟨h, fun hne => absurd rfl hne⟩
  | some w =>
    have hstart : Reserve s (Q ∪ rangePages (w * 0x1000) 0) := by
      rwa [rangePages_zero, Set.union_empty]
    have hmap := reserve_allocPageMap hstart (Nat.zero_le n)
    refine ⟨hmap.1, fun hne => ?_⟩
    rw [Option.elim_some] at hne ⊢
    rw [allocPageMap_fst s w 0 hne]
    exact hmap.2 hne

/-- `alloc_sequential` does, too. -/
theorem reserve_allocSequential (h : Reserve s Q) (n : ℕ) : Reserve (allocSequential s n).2 Q ∧
    ((allocSequential s n).1 ≠ 0 →
      Reserve (allocSequential s n).2 (Q ∪ rangePages (allocSequential s n).1 n)) := by
  by_cases hn : n = 0
  · rw [allocSequential, if_pos hn]
    exact ⟨h, fun hne => absurd rfl hne⟩
  obtain ⟨he, -⟩ | ⟨w, j, -, -, -, -, hj, hj', hat, -, he⟩ := allocSequential_cases s hn
  · rw [he]
    exact ⟨h, fun hne => absurd rfl hne⟩
  · have hstart : Reserve s (Q ∪ rangePages (w * 0x1000) 0) := by
      rwa [rangePages_zero, Set.union_empty]
    have hlt := frame_lt_of_free_run (h.low 0 (by decide)) (free_of_sequentialAt hat hj') hj'
    have hmap := reserve_sequentialMap hstart (Nat.zero_le n) hj hlt
    rw [he]
    exact ⟨hmap.mono Set.subset_union_left, fun _ => hmap⟩

theorem reserve_mapPageTo (h : Reserve s Q) (v : ℕ) : Reserve (mapPageTo s v).2 Q := by
  rw [mapPageTo]
  dsimp only
  split_ifs with hp hz
  · exact h
  · exact h
  · exact (h.mapAddr_findFree v hz).mono (Set.subset_insert _ _)

end Map

-- ════════════════════════════════════════════════════════════════════════
-- Growing in place and freeing
-- ════════════════════════════════════════════════════════════════════════

/-- Page `t` of a range. -/
def rangePage (start t : ℕ) : ℕ := (start / 0x1000 + t) % 0x100000

/-- The pages of a range from the `i`-th on that are absent, by their place in the range. -/
def absentFrom (s : Flat) (start amtPages i : ℕ) : Finset ℕ :=
  {t ∈ Finset.Ico i amtPages | (s.tables (rangePage start t)).present = false}

section Grow

variable {s : Flat} {P Q : Set ℕ} {start amtPages n i v : ℕ}

theorem mem_absentFrom {t : ℕ} : t ∈ absentFrom s start amtPages i ↔
    (i ≤ t ∧ t < amtPages) ∧ (s.tables (rangePage start t)).present = false := by
  simp [absentFrom]

theorem page_of_range (start t : ℕ) : u32 (start + t * 0x1000) / 0x1000 = rangePage start t := by
  simp only [u32, rangePage]
  omega

theorem rangePage_ne (h : amtPages ≤ 0x100000) {t u : ℕ} (ht : t < amtPages) (hu : u < amtPages)
    (hne : t ≠ u) : rangePage start t ≠ rangePage start u := by
  simp only [rangePage]
  omega

theorem mapPageTo_of_present (h : (s.tables (v / 0x1000)).present = true) :
    (mapPageTo s v).2 = s := by
  rw [mapPageTo, Flat.entry_eq, h, if_pos rfl]

theorem mapPageTo_of_absent (h : (s.tables (v / 0x1000)).present = false)
    (hne : findFreePhysPage s.pmemUsed ≠ 0) :
    (mapPageTo s v).2 = mapAddr s v (findFreePhysPage s.pmemUsed) := by
  rw [mapPageTo, Flat.entry_eq, h, if_neg Bool.false_ne_true]
  dsimp only
  rw [Flat.pmemUsed_eq, if_neg hne]

/-- Mapping a page of a range leaves the entries of the others. -/
theorem mapAddr_rangePage (hle : amtPages ≤ 0x100000) (hi : i < amtPages) (paddr : ℕ) {t : ℕ}
    (ht : t < amtPages) (hne : t ≠ i) :
    (mapAddr s (u32 (start + i * 0x1000)) paddr).tables (rangePage start t) =
      s.tables (rangePage start t) := by
  rw [Flat.mapAddr_tables, page_of_range, Function.update_of_ne (rangePage_ne hle ht hi hne)]

/-- The absent pages behind one that has been mapped. -/
theorem absentFrom_mapAddr (hle : amtPages ≤ 0x100000) (hi : i < amtPages) (paddr : ℕ) :
    absentFrom (mapAddr s (u32 (start + i * 0x1000)) paddr) start amtPages (i + 1) =
      (absentFrom s start amtPages i).erase i := by
  ext t
  rw [Finset.mem_erase, mem_absentFrom, mem_absentFrom]
  constructor
  · rintro ⟨⟨ht, ht'⟩, hp⟩
    rw [mapAddr_rangePage hle hi paddr ht' (by omega)] at hp
    exact ⟨by omega, ⟨by omega, ht'⟩, hp⟩
  · rintro ⟨hne', ⟨ht, ht'⟩, hp⟩
    rw [← mapAddr_rangePage hle hi paddr ht' (by omega)] at hp
    exact ⟨⟨by omega, ht'⟩, hp⟩

/-- The growing loop of `realloc_page` maps the absent pages of the new range, if there are
    enough free frames. -/
theorem reserve_reallocGrow (h : Reserve s (Q ∪ rangePages start i)) (hi : i ≤ amtPages)
    (hle : amtPages ≤ 0x100000)
    (hpages : ∀ t, i ≤ t → t < amtPages → (s.tables (rangePage start t)).present = true →
      HeldAt s (rangePage start t))
    (hcard : (absentFrom s start amtPages i).card ≤ (freeFrames s.pmemUsed).card) :
    Reserve (reallocGrow s start amtPages i) (Q ∪ rangePages start amtPages) := by
  fun_induction reallocGrow s start amtPages i with
  | case1 s i hlt ih =>
    have hpage := page_of_range start i
    cases hpresent : (s.tables (rangePage start i)).present with
    | true =>
      rw [mapPageTo_of_present (hpage ▸ hpresent)] at ih ⊢
      refine ih ⟨h.low, fun j hj => ?_⟩ hlt (fun t ht => hpages t (by omega)) ?_
      · rw [rangePages_succ, Set.union_insert] at hj
        obtain rfl | hj := hj
        · exact hpages i (le_refl i) hlt hpresent
        · exact h.held j hj
      · refine (Finset.card_le_card fun t ht => ?_).trans hcard
        rw [mem_absentFrom] at ht ⊢
        exact ⟨⟨by omega, ht.1.2⟩, ht.2⟩
    | false =>
      -- the page is one of the absent ones, so there is a frame for it
      have hmem : i ∈ absentFrom s start amtPages i :=
        mem_absentFrom.mpr ⟨⟨le_refl i, hlt⟩, hpresent⟩
      have hpos := Finset.card_pos.mpr ⟨i, hmem⟩
      have hne : findFreePhysPage s.pmemUsed ≠ 0 := by
        rw [Ne, findFreePhysPage_eq_zero_iff_card]
        omega
      have hmap := h.mapAddr_findFree (u32 (start + i * 0x1000)) hne
      rw [hpage, ← Set.union_insert, rangePage, ← rangePages_succ] at hmap
      rw [mapPageTo_of_absent (hpage ▸ hpresent) hne] at ih ⊢
      refine ih hmap hlt (fun t ht ht' hp => ?_) ?_
      · rw [HeldAt, mapAddr_rangePage hle hlt _ ht' (by omega)] at *
        exact hpages t (by omega) ht' hp
      · have hclaim := card_freeFrames_claim hne
        rw [absentFrom_mapAddr hle hlt, Finset.card_erase_of_mem hmem, Flat.mapAddr_pmemUsed]
        omega
  | case2 s i hge =>
    obtain rfl : i = amtPages := by omega
    exact h

/-- `free_page` of held pages gives back no low frame, and leaves the other pages. -/
theorem reserve_freePageFrom (h : Reserve s Q) (hn : n ≤ 0x100000)
    (hheld : ∀ t, i ≤ t → t < n → HeldAt s (rangePage start t))
    (hother : ∀ t, i ≤ t → t < n → rangePage start t ∉ Q) :
    Reserve (freePageFrom s start n i) Q := by
  fun_induction freePageFrom s start n i with
  | case1 s i hlt ih =>
    have hpage := page_of_range start i
    have htables : ∀ j, j ≠ rangePage start i →
        (unmapVaddr s (u32 (start + i * 0x1000))).tables j = s.tables j := by
      intro j hj
      rw [Flat.unmapVaddr_tables, hpage, Function.update_of_ne hj]
    refine ih ⟨fun f hf => ?_, fun j hj => ?_⟩ (fun t ht ht' => ?_)
      fun t ht => hother t (by omega)
    · obtain ⟨-, hframe⟩ := hheld i (le_refl i) hlt
      have hne : f ≠ (s.tables (rangePage start i)).frame := by omega
      rw [Flat.unmapVaddr_pmemUsed, hpage, Bitmap.bit_clear, h.low f hf]
      simp [hne]
    · rw [HeldAt, htables j fun heq => hother i (le_refl i) hlt (heq ▸ hj)]
      exact h.held j hj
    · rw [HeldAt, htables _ (rangePage_ne hn ht' hlt (by omega))]
      exact hheld t (by omega) ht'
  | case2 s i hge => exact h

/-- The pages `P` of a range of at most 2^20 pages are given back. -/
theorem reserve_freePage (h : Reserve s (Q ∪ rangePages start n)) (hn : n ≤ 0x100000)
    (hdis : Disjoint Q (rangePages start n)) : Reserve (freePage s start n) Q :=
  reserve_freePageFrom (h.mono Set.subset_union_left) hn
    (fun t _ ht => h.held _ (.inr ⟨t, ht, rfl⟩))
    fun t _ ht hmem => Set.disjoint_left.mp hdis hmem ⟨t, ht, rfl⟩

end Grow

-- ════════════════════════════════════════════════════════════════════════
-- The live blocks
-- ════════════════════════════════════════════════════════════════════════

/-- The pages of a block, by address. -/
def Block.range (b : Block) : Set ℕ := rangePages b.addr b.pages

/-- The pages of all blocks, by address. -/
def livePages (bs : List Block) : Set ℕ := {i | ∃ b ∈ bs, i ∈ b.range}

/-- The live blocks are held, and no two of them share a page. -/
structure Reserved (s : Flat) (bs : List Block) : Prop extends Reserve s (livePages bs) where
  count : ∀ b ∈ bs, b.pages ≤ 0x100000
  disjoint : bs.Pairwise fun b c => Disjoint b.range c.range

/-- The blocks after a call that returned `addr` for `pages` pages. -/
def returned (bs : List Block) (addr pages : ℕ) : List Block :=
  if addr = 0 then bs else ⟨addr, pages⟩ :: bs

section Live

variable {s : Flat} {b : Block} {bs cs : List Block} {a n : ℕ} {r : ℕ × Flat}

theorem livePages_cons : livePages (b :: bs) = livePages bs ∪ b.range := by
  ext i
  constructor
  · rintro ⟨c, hc, hi⟩
    obtain rfl | hc := List.mem_cons.mp hc
    · exact .inr hi
    · exact .inl ⟨c, hc, hi⟩
  · rintro (⟨c, hc, hi⟩ | hi)
    · exact ⟨c, List.mem_cons_of_mem _ hc, hi⟩
    · exact ⟨b, List.mem_cons_self, hi⟩

theorem disjoint_livePages {P : Set ℕ} :
    Disjoint (livePages bs) P ↔ ∀ b ∈ bs, Disjoint b.range P := by
  simp only [Set.disjoint_left]
  constructor
  · exact fun h b hb i hi => h ⟨b, hb, hi⟩
  · rintro h i ⟨b, hb, hi⟩
    exact h b hb hi

theorem livePages_perm (hp : bs.Perm cs) : livePages bs = livePages cs :=
  Set.ext fun _ => exists_congr fun _ => and_congr_left' hp.mem_iff

theorem Reserved.perm (h : Reserved s bs) (hp : bs.Perm cs) : Reserved s cs :=
  ⟨livePages_perm hp ▸ h.toReserve, fun b hb => h.count b (hp.mem_iff.mpr hb),
    (hp.pairwise_iff fun h => h.symm).mp h.disjoint⟩

theorem Reserved.cons (h : Reserve s (livePages bs ∪ b.range))
    (hcount : ∀ c ∈ bs, c.pages ≤ 0x100000)
    (hpair : bs.Pairwise fun b c => Disjoint b.range c.range)
    (hb : b.pages ≤ 0x100000) (hdis : Disjoint (livePages bs) b.range) :
    Reserved s (b :: bs) := by
  refine ⟨livePages_cons ▸ h, fun c hc => ?_, List.pairwise_cons.mpr ⟨fun c hc => ?_, hpair⟩⟩
  · obtain rfl | hc := List.mem_cons.mp hc
    · exact hb
    · exact hcount c hc
  · exact (disjoint_livePages.mp hdis c hc).symm

/-- The blocks without the first one. -/
theorem Reserved.tail (h : Reserved s (b :: bs)) : b.pages ≤ 0x100000 ∧
    (∀ c ∈ bs, c.pages ≤ 0x100000) ∧ (bs.Pairwise fun b c => Disjoint b.range c.range) ∧
      Disjoint (livePages bs) b.range ∧ Reserve s (livePages bs ∪ b.range) := by
  obtain ⟨hb, hpair⟩ := List.pairwise_cons.mp h.disjoint
  exact ⟨h.count b List.mem_cons_self, fun c hc => h.count c (List.mem_cons_of_mem _ hc), hpair,
    disjoint_livePages.mpr fun c hc => (hb c hc).symm, livePages_cons ▸ h.toReserve⟩

theorem Reserved.returned_of_cons (h : Reserved s (⟨a, n⟩ :: bs)) :
    Reserved s (FirstOs.returned bs a n) := by
  obtain ⟨-, hcount, hpair, -, hres⟩ := h.tail
  simp only [FirstOs.returned]
  split_ifs
  · exact ⟨hres.mono Set.subset_union_left, hcount, hpair⟩
  · exact h

theorem returned_cons_perm (b : Block) (bs : List Block) (a n : ℕ) :
    (FirstOs.returned (b :: bs) a n).Perm (b :: FirstOs.returned bs a n) := by
  simp only [FirstOs.returned]
  split_ifs
  · exact .refl _
  · exact .swap _ _ _

/-- A call that keeps the pages held and returns a block apart from them. -/
theorem Reserved.returned (h : Reserved s bs) (hr : Reserve r.2 (livePages bs))
    (hr' : r.1 ≠ 0 → Reserve r.2 (livePages bs ∪ rangePages r.1 n))
    (hn : r.1 ≠ 0 → n ≤ 0x100000)
    (hdis : r.1 ≠ 0 → Disjoint (livePages bs) (rangePages r.1 n)) :
    Reserved r.2 (FirstOs.returned bs r.1 n) := by
  simp only [FirstOs.returned]
  split_ifs with hz
  · exact ⟨hr, h.count, h.disjoint⟩
  · exact Reserved.cons (b := ⟨r.1, n⟩) (hr' hz) h.count h.disjoint (hn hz) (hdis hz)

end Live

-- ════════════════════════════════════════════════════════════════════════
-- Runs
-- ════════════════════════════════════════════════════════════════════════

/-- The first window for `n` pages has no page of a live block. -/
def WindowApart (s : Flat) (bs : List Block) (n : ℕ) : Prop :=
  ∀ w, FirstWindow s n w → Disjoint (livePages bs) (rangePages (w * 0x1000) n)

/-- The pages behind a block up to its new end can be added to it: those that are present hold no
    low frame and are in no live block, and there are free frames for the others. -/
structure Growable (s : Flat) (bs : List Block) (start amtPages : ℕ) : Prop where
  present : ∀ t < amtPages, (s.tables (rangePage start t)).present = true →
    HeldAt s (rangePage start t) ∧ rangePage start t ∉ livePages bs
  frames : (absentFrom s start amtPages 0).card ≤ (freeFrames s.pmemUsed).card

namespace AllocCall

/-- A block that is given back or changed is a live one, with its number of pages. -/
def Owned : AllocCall → List Block → Prop
  | freePage v n, bs => ⟨v.toNat, n.toNat⟩ ∈ bs
  | reallocPage p old _, bs => ⟨p.toNat, old.toNat⟩ ∈ bs
  | _, _ => True

instance (c : AllocCall) (bs : List Block) : Decidable (c.Owned bs) := by
  cases c <;> unfold Owned <;> infer_instance

/-- The live blocks after a call. -/
def live : AllocCall → Flat → List Block → List Block
  | allocPage n, s, bs => returned bs (FirstOs.allocPage s n.toNat).1 n.toNat
  | allocSequential n, s, bs => returned bs (FirstOs.allocSequential s n.toNat).1 n.toNat
  | mapPageTo _, _, bs => bs
  | freePage v n, _, bs => bs.erase ⟨v.toNat, n.toNat⟩
  | reallocPage p old new, s, bs => returned (bs.erase ⟨p.toNat, old.toNat⟩)
      (FirstOs.reallocPage s p.toNat old.toNat new.toNat).1 new.toNat

/-- No block gets a hole, a low frame, or a page of another block. -/
def Safe : AllocCall → Flat → List Block → Prop
  | allocPage n, s, bs => n.toNat ≤ (freeFrames s.pmemUsed).card → WindowApart s bs n.toNat
  | allocSequential n, s, bs => FreeRun s.pmemUsed n.toNat → WindowApart s bs n.toNat
  | reallocPage p old new, s, bs => old.toNat < new.toNat →
      ((∃ k < new.toNat - old.toNat,
          (s.tables (u32 (p.toNat / 0x1000 + old.toNat + k))).present = true) →
        new.toNat ≤ (freeFrames s.pmemUsed).card → WindowApart s bs new.toNat) ∧
      ((∀ k < new.toNat - old.toNat,
          (s.tables (u32 (p.toNat / 0x1000 + old.toNat + k))).present = false) →
        new.toNat ≤ 0x100000 ∧
          Growable s bs (p.toNat + old.toNat * 0x1000) (new.toNat - old.toNat))
  | _, _, _ => True

end AllocCall

section Step

variable {s : Flat} {b : Block} {bs : List Block} {n p old new : ℕ}

theorem Reserved.allocPage (h : Reserved s bs)
    (hsafe : n ≤ (freeFrames s.pmemUsed).card → WindowApart s bs n) :
    Reserved (FirstOs.allocPage s n).2 (FirstOs.returned bs (FirstOs.allocPage s n).1 n) := by
  have hres := reserve_allocPage h.toReserve n
  refine h.returned hres.1 hres.2 (fun hne => ?_) fun hne => ?_
  · obtain ⟨w, -, -, hcard⟩ := window_of_allocPage hne
    exact hcard.trans ((card_freeFrames_le _).trans (by decide))
  · obtain ⟨w, hw, hpos, hcard⟩ := window_of_allocPage hne
    rw [allocPage_eq_of_window hw hpos hcard]
    exact hsafe hcard w hw

theorem Reserved.allocSequential (h : Reserved s bs) (hn : n < 0x100000000)
    (hsafe : FreeRun s.pmemUsed n → WindowApart s bs n) :
    Reserved (FirstOs.allocSequential s n).2
      (FirstOs.returned bs (FirstOs.allocSequential s n).1 n) := by
  have hres := reserve_allocSequential h.toReserve n
  refine h.returned hres.1 hres.2 (fun hne => ?_) fun hne => ?_
  · obtain ⟨w, -, -, -, f, hf, hf', hfree⟩ := window_of_allocSequential hn hne
    have hlt := frame_lt_of_free_run (h.low 0 (by decide)) hfree hf'
    by_contra hgt
    have := hlt 0x100000 (by omega)
    omega
  · obtain ⟨w, hw, hpos, hmax, hrun⟩ := window_of_allocSequential hn hne
    obtain ⟨j, -, -, -, he⟩ := allocSequential_eq_of_window hw hpos hmax hrun
    rw [he]
    exact hsafe hrun w hw

theorem Reserved.freePage (h : Reserved s (b :: bs)) :
    Reserved (FirstOs.freePage s b.addr b.pages) bs := by
  obtain ⟨hn, hcount, hpair, hdis, hres⟩ := h.tail
  exact ⟨reserve_freePage hres hn hdis, hcount, hpair⟩

/-- The block moves: a new one is allocated, and the old one given back. -/
theorem Reserved.move (h : Reserved s (b :: bs)) (src size : ℕ)
    (hsafe : n ≤ (freeFrames s.pmemUsed).card → WindowApart s (b :: bs) n) :
    Reserved (FirstOs.freePage (memcpy (FirstOs.allocPage s n).2 (FirstOs.allocPage s n).1 src size)
      b.addr b.pages) (FirstOs.returned bs (FirstOs.allocPage s n).1 n) := by
  obtain ⟨htables, hused⟩ := memcpy_same (FirstOs.allocPage s n).2 (FirstOs.allocPage s n).1 src size
  have halloc := (h.allocPage hsafe).perm (returned_cons_perm b bs _ n)
  refine Reserved.freePage ⟨?_, halloc.count, halloc.disjoint⟩
  exact halloc.toReserve.congr (fun i _ => congrFun htables i) hused

/-- The block grows in place. -/
theorem Reserved.grow (h : Reserved s (⟨p, old⟩ :: bs)) (hlt : old < new) (hnew : new ≤ 0x100000)
    (hgrow : Growable s (⟨p, old⟩ :: bs) (p + old * 0x1000) (new - old)) :
    Reserved (reallocGrow s (p + old * 0x1000) (new - old) 0) (⟨p, new⟩ :: bs) := by
  obtain ⟨-, hcount, hpair, hdis, hres⟩ := h.tail
  have hrange : Block.range ⟨p, new⟩ =
      Block.range ⟨p, old⟩ ∪ rangePages (p + old * 0x1000) (new - old) := by
    have hadd := rangePages_add p old (new - old)
    rwa [Nat.add_sub_cancel' hlt.le] at hadd
  refine Reserved.cons ?_ hcount hpair hnew ?_
  · rw [hrange, ← Set.union_assoc]
    refine reserve_reallocGrow ?_ (Nat.zero_le _) (by omega)
      (fun t _ ht hp => (hgrow.present t ht hp).1) hgrow.frames
    rwa [rangePages_zero, Set.union_empty]
  · rw [hrange, Set.disjoint_union_right]
    refine ⟨hdis, Set.disjoint_left.mpr ?_⟩
    rintro i hi ⟨t, ht, rfl⟩
    -- a page of another block is present, so it would not have been added
    have hpresent := (hres.held _ (.inl hi)).1
    exact (hgrow.present t ht hpresent).2 (livePages_cons ▸ .inl hi)

/-- The block shrinks. -/
theorem Reserved.shrink (h : Reserved s (⟨p, old⟩ :: bs)) (hle : new ≤ old) :
    Reserved (freePageFrom s (p + new * 0x1000) (old - new) 0) (⟨p, new⟩ :: bs) := by
  obtain ⟨hold, hcount, hpair, hdis, hres⟩ := h.tail
  have hrange : Block.range ⟨p, old⟩ =
      Block.range ⟨p, new⟩ ∪ rangePages (p + new * 0x1000) (old - new) := by
    have hadd := rangePages_add p new (old - new)
    rwa [Nat.add_sub_cancel' hle] at hadd
  have hcut : Disjoint (Block.range ⟨p, new⟩) (rangePages (p + new * 0x1000) (old - new)) :=
    disjoint_rangePages_add (by dsimp only at hold ⊢; omega)
  rw [hrange, Set.disjoint_union_right] at hdis
  rw [hrange, ← Set.union_assoc] at hres
  refine Reserved.cons ?_ hcount hpair (hle.trans hold) hdis.1
  exact reserve_freePage hres (by dsimp only at hold; omega)
    (Set.disjoint_union_left.mpr ⟨hdis.2, hcut⟩)

theorem Reserved.reallocPage (h : Reserved s bs) (hmem : ⟨p, old⟩ ∈ bs)
    (hmove : old < new →
      (∃ k < new - old, (s.tables (u32 (p / 0x1000 + old + k))).present = true) →
        new ≤ (freeFrames s.pmemUsed).card → WindowApart s bs new)
    (hgrow : old < new →
      (∀ k < new - old, (s.tables (u32 (p / 0x1000 + old + k))).present = false) →
        new ≤ 0x100000 ∧ Growable s bs (p + old * 0x1000) (new - old)) :
    Reserved (FirstOs.reallocPage s p old new).2
      (FirstOs.returned (bs.erase ⟨p, old⟩) (FirstOs.reallocPage s p old new).1 new) := by
  have hperm := List.perm_cons_erase hmem
  have hfirst := h.perm hperm
  rw [WindowApart, livePages_perm hperm] at hmove
  rw [FirstOs.reallocPage]
  dsimp only
  split_ifs with heq hlt hfails
  · rw [heq] at hfirst ⊢
    exact hfirst.returned_of_cons
  · obtain ⟨k, -, hk, hpresent⟩ := reallocFails_iff.mp hfails
    exact hfirst.move p _ (hmove hlt ⟨k, hk, hpresent⟩)
  · obtain ⟨hnew, hpages⟩ := hgrow hlt fun k hk => by
      by_contra hpresent
      exact hfails (reallocFails_iff.mpr ⟨k, Nat.zero_le k, hk, Bool.not_eq_false _ ▸ hpresent⟩)
    refine (hfirst.grow hlt hnew ⟨fun t ht hp => ?_, hpages.frames⟩).returned_of_cons
    exact livePages_perm hperm ▸ hpages.present t ht hp
  · exact (hfirst.shrink (by omega)).returned_of_cons

end Step

/-- The state with empty entries behind the table. -/
def Flat.bare (s : Flat) : Flat := s.behind fun _ => PageTableEntry.decode 0

/-- A state of a run, with the blocks handed out and not yet given back. -/
structure AllocState where
  flat : Flat
  live : List Block

/-- A call, and the memory behind the table at the call. -/
structure AllocEvent where
  call : AllocCall
  behind : ℕ → PageTableEntry

namespace AllocEvent

/-- The state in which the call is made. -/
def before (e : AllocEvent) (s : AllocState) : Flat := s.flat.behind e.behind

/-- A call that is given a block which is not live is no event of a run. -/
def act (e : AllocEvent) (s : AllocState) : Option AllocState :=
  if e.call.Owned s.live then
    some ⟨e.call.exec (e.before s), e.call.live (e.before s) s.live⟩
  else none

/-- The condition on a step. -/
def Safe (e : AllocEvent) (s : AllocState) : Prop := e.call.Safe (e.before s) s.live

/-- A call with empty entries behind the table. -/
def bare (c : AllocCall) : AllocEvent := ⟨c, fun _ => PageTableEntry.decode 0⟩

end AllocEvent

theorem lt_of_mem_livePages {bs : List Block} {i : ℕ} (hi : i ∈ livePages bs) : i < 0x100000 := by
  obtain ⟨b, -, hb⟩ := hi
  exact lt_of_mem_rangePages hb

theorem Reserved.before {s : AllocState} (h : Reserved s.flat s.live) (e : AllocEvent) :
    Reserved (e.before s) s.live :=
  ⟨h.toReserve.congr (fun _ hi => Flat.behind_tables _ _ (lt_of_mem_livePages hi))
    (Flat.behind_pmemUsed _ _), h.count, h.disjoint⟩

theorem Reserved.exec {s : Flat} {bs : List Block} (h : Reserved s bs) {c : AllocCall}
    (howned : c.Owned bs) (hsafe : c.Safe s bs) : Reserved (c.exec s) (c.live s bs) := by
  cases c with
  | allocPage n => exact h.allocPage hsafe
  | allocSequential n => exact h.allocSequential n.isLt hsafe
  | mapPageTo v => exact ⟨reserve_mapPageTo h.toReserve v.toNat, h.count, h.disjoint⟩
  | freePage v n => exact (h.perm (List.perm_cons_erase howned)).freePage
  | reallocPage p old new =>
    exact h.reallocPage howned (fun hlt => (hsafe hlt).1) fun hlt => (hsafe hlt).2

/-- From a state with the low frames in use on, they stay in use in every run of safe calls. -/
theorem lowUsed_of_safe {s₀ : Flat} (hlow : LowUsed s₀) (es : List AllocEvent)
    (hsafe : ∀ p e, p ++ [e] <+: es → ∀ s, Run.events AllocEvent.act p ⟨s₀, []⟩ = some s →
      e.Safe s) :
    ∀ p, p <+: es → ∀ s, Run.events AllocEvent.act p ⟨s₀, []⟩ = some s → LowUsed s.flat := by
  have hstart : Reserved s₀ [] :=
    ⟨⟨hlow, fun i ⟨b, hb, _⟩ => absurd hb List.not_mem_nil⟩,
      fun b hb => absurd hb List.not_mem_nil, .nil⟩
  intro p hp s hs
  refine (Run.events_of_condition (I := fun s : AllocState => Reserved s.flat s.live)
    (C := AllocEvent.Safe) (fun e _ s hs hC t ht => ?_) hstart hsafe p hp s hs).low
  simp only [AllocEvent.act] at ht
  split_ifs at ht with howned
  exact Option.some.inj ht ▸ (hs.before e).exec howned hC

/-! ### A block of a page that grows by one -/

/-- The entries behind the table are zero. -/
def Flat.ZeroBehind (s : Flat) : Prop := ∀ i, 0x100000 ≤ i → s.tables i = PageTableEntry.decode 0

section Grown

variable {s : Flat} {f g : ℕ}

theorem Flat.ZeroBehind.bare_eq (h : s.ZeroBehind) : s.bare = s := by
  have htables : (fun i => if i < 0x100000 then s.tables i else PageTableEntry.decode 0) =
      s.tables := by
    funext i
    split_ifs with hi
    · rfl
    · exact (h i (by omega)).symm
  rw [Flat.bare, Flat.behind, htables]
  rfl

theorem Flat.ZeroBehind.mapAddr (h : s.ZeroBehind) {v : ℕ} (hv : v < 0x100000000) (paddr : ℕ) :
    (FirstOs.mapAddr s v paddr).ZeroBehind := by
  intro i hi
  rw [Flat.mapAddr_tables, Function.update_of_ne (by omega)]
  exact h i hi

/-- A block of one page grows in place when the page behind it is absent. -/
theorem reallocPage_one_two (habsent : (s.tables 0xC0001).present = false) :
    reallocPage s 0xC0000000 1 2 = (0xC0000000, (mapPageTo s 0xC0001000).2) := by
  have hfails : reallocFails s 0xC0001 1 0 = false := by
    rw [reallocFails, if_pos (by decide)]
    change (if (s.tables 0xC0001).present = true then true else _) = false
    rw [habsent, if_neg Bool.false_ne_true, reallocFails, if_neg (by decide)]
  rw [reallocPage, if_neg (by decide), if_pos (by decide), hfails, if_neg (by decide),
    reallocGrow, if_pos (by decide), reallocGrow, if_neg (by decide)]

/-- A page is allocated, grown to two, and freed. -/
def grown : List AllocEvent :=
  [.bare (.allocPage 1), .bare (.reallocPage 0xC0000000 1 2), .bare (.freePage 0xC0000000 2)]

theorem act_allocPage_one (hzero : s.ZeroBehind) (habsent : (s.tables 0xC0000).present = false)
    (hf : IsLeast (searchedFrames s.pmemUsed) f) :
    (AllocEvent.bare (.allocPage 1)).act ⟨s, []⟩ =
      some ⟨mapAddr s 0xC0000000 (f * 0x1000), [⟨0xC0000000, 1⟩]⟩ := by
  refine (if_pos trivial).trans ?_
  change some (AllocState.mk (allocPage s.bare 1).2 (returned [] (allocPage s.bare 1).1 1)) = _
  rw [hzero.bare_eq, allocPage_one habsent hf]
  rfl

theorem act_reallocPage_one_two (hzero : s.ZeroBehind)
    (habsent : (s.tables 0xC0001).present = false) :
    (AllocEvent.bare (.reallocPage 0xC0000000 1 2)).act ⟨s, [⟨0xC0000000, 1⟩]⟩ =
      some ⟨(mapPageTo s 0xC0001000).2, [⟨0xC0000000, 2⟩]⟩ := by
  refine (if_pos (List.mem_singleton_self _)).trans ?_
  change some (AllocState.mk (reallocPage s.bare 0xC0000000 1 2).2
    (returned [] (reallocPage s.bare 0xC0000000 1 2).1 2)) = _
  rw [hzero.bare_eq, reallocPage_one_two habsent]
  rfl

theorem act_freePage_two (hzero : s.ZeroBehind) :
    (AllocEvent.bare (.freePage 0xC0000000 2)).act ⟨s, [⟨0xC0000000, 2⟩]⟩ =
      some ⟨unmapVaddr (unmapVaddr s 0xC0000000) 0xC0001000, []⟩ := by
  refine (if_pos (List.mem_singleton_self _)).trans ?_
  change some (AllocState.mk (freePage s.bare 0xC0000000 2) []) = _
  rw [hzero.bare_eq, freePage, freePageFrom, if_pos (by decide), freePageFrom, if_pos (by decide),
    freePageFrom, if_neg (by decide)]

end Grown

/-- A state with an empty table in which the low frames are in use. -/
def Flat.lowOnly : Flat := { Flat.empty with pmemUsed := fun k => if k < 0x100 then 255 else 0 }

theorem lowOnly_bit (f : ℕ) : Flat.lowOnly.pmemUsed.bit f = decide (f < 0x800) := by
  by_cases hf : f < 0x800
  · rw [decide_eq_true hf]
    exact Bitmap.bit_of_byte_eq_allOnes (if_pos (by omega))
  · rw [decide_eq_false hf]
    exact Bitmap.bit_of_byte_eq_zero (if_neg (by omega))

/-- The same with the first page mapped to the first free frame, `0x800`. -/
def Flat.lowPage : Flat := mapAddr Flat.lowOnly 0xC0000000 (0x800 * 0x1000)

theorem lowPage_bit (f : ℕ) : Flat.lowPage.pmemUsed.bit f = decide (f < 0x801) := by
  rw [Flat.lowPage, Flat.mapAddr_pmemUsed, claimPhysPage_frame, Bitmap.bit_set, lowOnly_bit,
    ← Bool.decide_or]
  exact decide_eq_decide.mpr (by omega)

theorem isLeast_lowPage : IsLeast (searchedFrames Flat.lowPage.pmemUsed) 0x801 := by
  refine ⟨⟨by decide, by decide, lowPage_bit _⟩, fun f hf => ?_⟩
  obtain ⟨-, -, hfree⟩ := hf
  rw [lowPage_bit, decide_eq_false_iff_not] at hfree
  omega

theorem lowPage_absent : (Flat.lowPage.tables 0xC0001).present = false := by
  rw [Flat.lowPage, mapAddr_present]
  rfl

/-- The second page can be added to the block of one. -/
theorem growable_lowPage :
    Growable Flat.lowPage [⟨0xC0000000, 1⟩] (0xC0000000 + 1 * 0x1000) (2 - 1) := by
  refine ⟨fun t ht hp => ?_, ?_⟩
  · obtain rfl : t = 0 := Nat.lt_one_iff.mp ht
    rw [show rangePage _ 0 = 0xC0001 from rfl, lowPage_absent] at hp
    exact absurd hp Bool.false_ne_true
  · have hfree : 0 < (freeFrames Flat.lowPage.pmemUsed).card :=
      Finset.card_pos.mpr ⟨0x801, mem_freeFrames.mpr ⟨by decide, lowPage_bit _⟩⟩
    exact (Finset.card_filter_le _ _).trans hfree

/-- The block of two pages. -/
def Flat.lowPages : Flat := mapAddr Flat.lowPage 0xC0001000 (0x801 * 0x1000)

theorem act_lowOnly : (AllocEvent.bare (.allocPage 1)).act ⟨Flat.lowOnly, []⟩ =
    some ⟨Flat.lowPage, [⟨0xC0000000, 1⟩]⟩ :=
  act_allocPage_one (fun _ _ => rfl) rfl
    ⟨⟨by decide, by decide, lowOnly_bit _⟩, fun _ hf => hf.1⟩

theorem zeroBehind_lowPage : Flat.lowPage.ZeroBehind :=
  Flat.ZeroBehind.mapAddr (fun _ _ => rfl) (by decide) _

theorem act_lowPage : (AllocEvent.bare (.reallocPage 0xC0000000 1 2)).act
    ⟨Flat.lowPage, [⟨0xC0000000, 1⟩]⟩ = some ⟨Flat.lowPages, [⟨0xC0000000, 2⟩]⟩ := by
  rw [act_reallocPage_one_two zeroBehind_lowPage lowPage_absent,
    mapPageTo_of_isLeast lowPage_absent isLeast_lowPage]
  rfl

theorem act_lowPages : (AllocEvent.bare (.freePage 0xC0000000 2)).act
    ⟨Flat.lowPages, [⟨0xC0000000, 2⟩]⟩ =
      some ⟨unmapVaddr (unmapVaddr Flat.lowPages 0xC0000000) 0xC0001000, []⟩ :=
  act_freePage_two (zeroBehind_lowPage.mapAddr (by decide) _)

theorem grown_safe : ∀ p e, p ++ [e] <+: grown → ∀ s,
    Run.events AllocEvent.act p ⟨Flat.lowOnly, []⟩ = some s → e.Safe s := by
  refine Run.condition_cons ?_ act_lowOnly (Run.condition_cons ?_ act_lowPage
    (Run.condition_cons ?_ act_lowPages Run.condition_nil))
  · exact fun _ w _ => Set.disjoint_left.mpr fun i ⟨b, hb, _⟩ => absurd hb List.not_mem_nil
  · intro _
    change ((∃ k < 1, (Flat.lowPage.bare.tables (u32 (0xC0001 + k))).present = true) → _ → _) ∧
      (_ → _ ∧ Growable Flat.lowPage.bare _ _ _)
    rw [zeroBehind_lowPage.bare_eq]
    refine ⟨fun ⟨k, hk, hp⟩ => ?_, fun _ => ⟨by decide, growable_lowPage⟩⟩
    obtain rfl : k = 0 := Nat.lt_one_iff.mp hk
    exact absurd (lowPage_absent.symm.trans hp) Bool.false_ne_true
  · trivial

/-- With two free frames, the page is allocated, the block grows and is freed. -/
theorem lowUsed_of_safe_grown :
    (∃ s, Run.events AllocEvent.act (grown.take 2) ⟨Flat.lowOnly, []⟩ = some s ∧
      s.live = [⟨0xC0000000, 2⟩] ∧ (s.flat.tables 0xC0001).frame = 0x801) ∧
    ∃ s, Run.events AllocEvent.act grown ⟨Flat.lowOnly, []⟩ = some s ∧ LowUsed s.flat ∧
      s.live = [] := by
  have htwo : Run.events AllocEvent.act (grown.take 2) ⟨Flat.lowOnly, []⟩ =
      some ⟨Flat.lowPages, [⟨0xC0000000, 2⟩]⟩ := by
    rw [grown, List.take_succ_cons, List.take_succ_cons, List.take_zero,
      Run.events_cons act_lowOnly, Run.events_cons act_lowPage, Run.events_nil]
  have hrun : Run.events AllocEvent.act grown ⟨Flat.lowOnly, []⟩ =
      some ⟨unmapVaddr (unmapVaddr Flat.lowPages 0xC0000000) 0xC0001000, []⟩ := by
    rw [grown, Run.events_cons act_lowOnly, Run.events_cons act_lowPage,
      Run.events_cons act_lowPages, Run.events_nil]
  have hframe : (Flat.lowPages.tables 0xC0001).frame = 0x801 := by
    rw [Flat.lowPages, Flat.mapAddr_tables, Function.update_self, mappedEntry_frame _ (by decide)]
  have hlow := lowUsed_of_safe (fun f hf => by rw [lowOnly_bit, decide_eq_true hf]) grown grown_safe
    grown (List.prefix_refl _) _ hrun
  exact ⟨⟨_, htwo, rfl, hframe⟩, _, hrun, hlow, rfl⟩

/-! ### A block with a hole -/

/-- There is no frame for the second page, and freeing it gives back frame 0. -/
theorem grown_hole : ∃ s, Run.events AllocEvent.act grown ⟨Flat.oneFree, []⟩ = some s ∧
    s.flat.pmemUsed.bit 0 = false := by
  have hleast : IsLeast (searchedFrames Flat.oneFree.pmemUsed) 0x800 := by
    refine ⟨⟨by decide, by decide, oneFree_bit _⟩, fun f hf => hf.1⟩
  have hzero : Flat.oneFree.ZeroBehind := fun _ _ => rfl
  have hzero' := hzero.mapAddr (v := 0xC0000000) (by decide) (0x800 * 0x1000)
  have habsent : (mapAddr Flat.oneFree 0xC0000000 (0x800 * 0x1000)).tables 0xC0001 =
      PageTableEntry.decode 0 := by
    rw [Flat.mapAddr_tables, Function.update_of_ne (by decide)]
    rfl
  -- all frames are in use after the first call, so that the second maps nothing
  have hfull : findFreePhysPage (mapAddr Flat.oneFree 0xC0000000 (0x800 * 0x1000)).pmemUsed = 0 := by
    refine (findFreePhysPage_eq_zero_iff _).mpr fun f _ _ => ?_
    rw [Flat.mapAddr_pmemUsed, claimPhysPage_frame, Bitmap.bit_set, oneFree_bit, Bool.not_or_self]
  have hmap : (mapPageTo (mapAddr Flat.oneFree 0xC0000000 (0x800 * 0x1000)) 0xC0001000).2 =
      mapAddr Flat.oneFree 0xC0000000 (0x800 * 0x1000) := by
    rw [mapPageTo, Flat.pmemUsed_eq, hfull]
    dsimp only
    rw [if_pos rfl, ite_self]
  refine ⟨⟨unmapVaddr (unmapVaddr (mapAddr Flat.oneFree 0xC0000000 (0x800 * 0x1000)) 0xC0000000)
    0xC0001000, []⟩, ?_, ?_⟩
  · rw [grown, Run.events_cons (act_allocPage_one hzero rfl hleast),
      Run.events_cons (act_reallocPage_one_two hzero' (by rw [habsent]; rfl)), hmap,
      Run.events_cons (act_freePage_two hzero'), Run.events_nil]
  · rw [Flat.unmapVaddr_pmemUsed, Flat.unmapVaddr_tables, Function.update_of_ne (by decide),
      habsent, Bitmap.bit_clear]
    exact Bool.and_false _

theorem not_lowUsed : ¬ ∀ s₀ : Flat, LowUsed s₀ →
    (∀ i < 0x100000, (s₀.tables i).present = false → s₀.tables i = PageTableEntry.decode 0) →
    ∀ es : List AllocEvent, ∀ p, p <+: es → ∀ s,
      Run.events AllocEvent.act p ⟨s₀, []⟩ = some s → LowUsed s.flat := by
  intro hall
  obtain ⟨s, hrun, hzero⟩ := grown_hole
  have hlow : LowUsed Flat.oneFree := by
    intro f hf
    have hne : f ≠ 0x800 := by omega
    rw [oneFree_bit, decide_eq_false hne, Bool.not_false]
  have hused := hall Flat.oneFree hlow (fun _ _ _ => rfl) grown _ (List.prefix_refl _) s hrun 0
    (by decide)
  rw [hzero] at hused
  exact Bool.false_ne_true hused

end FirstOs
