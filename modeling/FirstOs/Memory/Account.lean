import FirstOs.Memory.Undo

/-!
# The account of frames

Every frame below 2^20 is free, held by a present page, or neither: the frames the kernel was
loaded to, and those of entries that were written over. `frameAccount` counts the first two. A
call of the allocator moves frames from one to the other and back, also when it fails midway. It
can only lose frames, and loses none unless a window goes on behind the end of the table, where
it comes round to page 0 and writes over entries that may be present.

## Main definitions

- `presentPages`, `frameAccount` — the pages that hold a frame, and the account
- `ClosedStep` — a call made while the word behind the table does not look like an absent page

## Main results

- `frameAccount_mapAddr`, `frameAccount_unmapVaddr` — the two single-page steps
- `frameAccount_of_run` — the account over whole runs of calls
-/

namespace FirstOs

open AddressSpace Relation

/-- The present pages of the table. -/
def presentPages (s : Flat) : Finset ℕ := {i ∈ Finset.range 0x100000 | (s.tables i).present = true}

/-- The free frames, and the present pages, each of which holds one. -/
def frameAccount (s : Flat) : ℕ := freePages s.pmemUsed + (presentPages s).card

theorem mem_presentPages {s : Flat} {i : ℕ} :
    i ∈ presentPages s ↔ i < 0x100000 ∧ (s.tables i).present = true := by
  simp [presentPages]

-- ════════════════════════════════════════════════════════════════════════
-- Single-page steps
-- ════════════════════════════════════════════════════════════════════════

section Single

variable {s : Flat} {vaddr f : ℕ}

theorem presentPages_mapAddr (hv : vaddr / 0x1000 < 0x100000) (paddr : ℕ) :
    presentPages (mapAddr s vaddr paddr) = insert (vaddr / 0x1000) (presentPages s) := by
  ext i
  rw [mem_presentPages, Finset.mem_insert, mem_presentPages, Flat.mapAddr_tables]
  by_cases hi : i = vaddr / 0x1000
  · rw [hi, Function.update_self]
    exact iff_of_true ⟨hv, rfl⟩ (.inl rfl)
  · rw [Function.update_of_ne hi]
    exact (or_iff_right hi).symm

theorem presentPages_unmapVaddr (s : Flat) (vaddr : ℕ) :
    presentPages (unmapVaddr s vaddr) = (presentPages s).erase (vaddr / 0x1000) := by
  ext i
  rw [mem_presentPages, Finset.mem_erase, mem_presentPages, Flat.unmapVaddr_tables]
  by_cases hi : i = vaddr / 0x1000
  · rw [hi, Function.update_self]
    exact iff_of_false (fun h => Bool.false_ne_true h.2) fun h => h.1 rfl
  · rw [Function.update_of_ne hi]
    exact (and_iff_right hi).symm

theorem freePages_claim (hf : f < 0x100000) (hfree : s.pmemUsed.bit f = false) :
    freePages (claimPhysPage s.pmemUsed (f * 0x1000)) + 1 = freePages s.pmemUsed := by
  rw [freePages_eq_card, freePages_eq_card, claimPhysPage_frame, Bitmap.zeros_set]
  exact Finset.card_erase_add_one (Bitmap.mem_zeros.mpr ⟨hf, hfree⟩)

/-- A free frame moves to the page; the frame the page had before is lost. -/
theorem frameAccount_mapAddr (hv : vaddr / 0x1000 < 0x100000) (hf : f < 0x100000)
    (hfree : s.pmemUsed.bit f = false) :
    frameAccount (mapAddr s vaddr (f * 0x1000)) +
      (if (s.tables (vaddr / 0x1000)).present then 1 else 0) = frameAccount s := by
  have hclaim := freePages_claim hf hfree
  rw [frameAccount, frameAccount, Flat.mapAddr_pmemUsed, presentPages_mapAddr hv]
  cases hp : (s.tables (vaddr / 0x1000)).present with
  | true =>
    rw [Finset.insert_eq_of_mem (mem_presentPages.mpr ⟨hv, hp⟩), if_pos rfl]
    omega
  | false =>
    have habs : vaddr / 0x1000 ∉ presentPages s := fun hmem => by
      rw [(mem_presentPages.mp hmem).2] at hp
      exact Bool.noConfusion hp
    rw [Finset.card_insert_of_notMem habs, if_neg Bool.false_ne_true]
    omega

/-- The frame of a page goes back to the free ones. -/
theorem frameAccount_unmapVaddr (h : Exclusive s) (hv : vaddr / 0x1000 < 0x100000)
    (hp : (s.tables (vaddr / 0x1000)).present = true) :
    frameAccount (unmapVaddr s vaddr) = frameAccount s := by
  have hmem : vaddr / 0x1000 ∈ presentPages s := mem_presentPages.mpr ⟨hv, hp⟩
  have hused : (s.tables (vaddr / 0x1000)).frame ∉ s.pmemUsed.zeros 0x100000 := by
    rw [Bitmap.mem_zeros, h.used _ hv hp]
    exact fun hz => Bool.noConfusion hz.2
  have hcard := Finset.card_erase_add_one hmem
  rw [frameAccount, frameAccount, freePages_eq_card, freePages_eq_card, presentPages_unmapVaddr,
    Flat.unmapVaddr_pmemUsed, Bitmap.zeros_clear (PageTableEntry.frame_lt _),
    Finset.card_insert_of_notMem hused]
  omega

theorem frameAccount_congr {t : Flat} (h : SameTables s t) : frameAccount t = frameAccount s := by
  have hpages : presentPages t = presentPages s := by
    ext i
    rw [mem_presentPages, mem_presentPages]
    exact and_congr_right fun hi => by rw [h.1 i hi]
  rw [frameAccount, frameAccount, h.2, hpages]

end Single

-- ════════════════════════════════════════════════════════════════════════
-- The loops
-- ════════════════════════════════════════════════════════════════════════

section Loops

variable {s : Flat} {i j n k : ℕ}

/-- Mapping the page of a wrapped address takes at most one frame out of the account, and none when
    the page is absent. -/
theorem frameAccount_mapAddr_u32 {f : ℕ} (p : ℕ) (hf : f < 0x100000)
    (hfree : s.pmemUsed.bit f = false) :
    frameAccount (mapAddr s (u32 (p * 0x1000)) (f * 0x1000)) ≤ frameAccount s ∧
      ((s.tables (p % 0x100000)).present = false →
        frameAccount (mapAddr s (u32 (p * 0x1000)) (f * 0x1000)) = frameAccount s) := by
  have hpage := page_of_u32 p
  have hmap : frameAccount (mapAddr s (u32 (p * 0x1000)) (f * 0x1000)) + _ = frameAccount s :=
    frameAccount_mapAddr (by omega) hf hfree
  rw [hpage] at hmap
  refine ⟨Nat.le.intro hmap, fun habs => ?_⟩
  rw [habs, if_neg Bool.false_ne_true, Nat.add_zero] at hmap
  exact hmap

/-- The mapping loop of `alloc_page`, also when it gives up. -/
theorem frameAccount_allocPageMap (s : Flat) (i n k : ℕ) :
    frameAccount (allocPageMap s i n k).2 ≤ frameAccount s ∧
      (i + n ≤ 0x100000 → (∀ t, k ≤ t → t < n → (s.tables (i + t)).present = false) →
        frameAccount (allocPageMap s i n k).2 = frameAccount s) := by
  fun_induction allocPageMap s i n k with
  | case1 s k hlt paddr hz => exact ⟨le_refl _, fun _ _ => rfl⟩
  | case2 s k hlt paddr hne ih =>
    obtain ⟨f, -, hf, hfree, he⟩ := findFreePhysPage_spec hne
    have hpaddr : paddr = f * 0x1000 := he
    rw [hpaddr] at ih ⊢
    obtain ⟨hle, heq⟩ := frameAccount_mapAddr_u32 (i + k) hf hfree
    refine ⟨ih.1.trans hle, fun hin habs => ?_⟩
    rw [ih.2 hin fun t ht ht' => ?_]
    · exact heq (by rw [Nat.mod_eq_of_lt (by omega)]; exact habs k (le_refl k) hlt)
    · rw [Flat.mapAddr_tables, page_of_u32, Function.update_of_ne (by omega)]
      exact habs t (by omega) ht'
  | case3 s k hge => exact ⟨le_refl _, fun _ _ => rfl⟩

/-- The mapping loop of `alloc_sequential`, on a run of free frames. -/
theorem frameAccount_sequentialMap (hlt : ∀ l < n, j + l < 0x100000)
    (hfree : ∀ l, k ≤ l → l < n → s.pmemUsed.bit (j + l) = false) :
    frameAccount (sequentialMap s i j n k) ≤ frameAccount s ∧
      (i + n ≤ 0x100000 → (∀ t, k ≤ t → t < n → (s.tables (i + t)).present = false) →
        frameAccount (sequentialMap s i j n k) = frameAccount s) := by
  fun_induction sequentialMap s i j n k with
  | case1 s k hk ih =>
    have hjk := hlt k hk
    have haddr : u32 ((j + k) * 0x1000) = (j + k) * 0x1000 := Nat.mod_eq_of_lt (by omega)
    rw [haddr] at ih ⊢
    obtain ⟨hle, heq⟩ := frameAccount_mapAddr_u32 (i + k) hjk (hfree k (le_refl k) hk)
    have hrest := ih fun l hl hl' => by
      have hne : l ≠ k := by omega
      rw [Flat.mapAddr_pmemUsed, claimPhysPage_frame, Bitmap.bit_set, hfree l (by omega) hl']
      simp [hne]
    refine ⟨hrest.1.trans hle, fun hin habs => ?_⟩
    rw [hrest.2 hin fun t ht ht' => ?_]
    · exact heq (by rw [Nat.mod_eq_of_lt (by omega)]; exact habs k (le_refl k) hk)
    · rw [Flat.mapAddr_tables, page_of_u32, Function.update_of_ne (by omega)]
      exact habs t (by omega) ht'
  | case2 s k hk => exact ⟨le_refl _, fun _ _ => rfl⟩

/-- `free_page` of present pages. -/
theorem frameAccount_freePageFrom (h : Exclusive s) {start : ℕ} (hn : n ≤ 0x100000)
    (hp : ∀ t, k ≤ t → t < n → (s.tables ((start / 0x1000 + t) % 0x100000)).present = true) :
    frameAccount (freePageFrom s start n k) = frameAccount s := by
  fun_induction freePageFrom s start n k with
  | case1 s k hk ih =>
    have hpage : u32 (start + k * 0x1000) / 0x1000 = (start / 0x1000 + k) % 0x100000 := by
      simp only [u32]
      omega
    have hpk : (s.tables (u32 (start + k * 0x1000) / 0x1000)).present = true := by
      rw [hpage]
      exact hp k (le_refl k) hk
    have hv : u32 (start + k * 0x1000) / 0x1000 < 0x100000 := by omega
    rw [ih (exclusive_unmapVaddr h hv hpk) fun t ht ht' => ?_]
    · exact frameAccount_unmapVaddr h hv hpk
    · rw [Flat.unmapVaddr_tables, hpage, Function.update_of_ne (by omega)]
      exact hp t (by omega) ht'
  | case2 s k hk => rfl

/-- With a word behind the table that looks like a present entry, a window ends inside it. -/
theorem le_of_windowAt (hend : (s.tables 0x100000).present = true) (hi : i < 0x100000)
    (hw : windowAt s n i = true) : i + n ≤ 0x100000 := by
  by_contra hgt
  have habs := absent_of_windowAt hw hi (0x100000 - i) (by omega)
  have hword : u32 (i + (0x100000 - i)) = 0x100000 := by
    rw [Nat.add_sub_cancel' (Nat.le_of_lt hi), u32]
  rw [hword, Flat.entry_eq, hend] at habs
  exact Bool.noConfusion habs

end Loops

-- ════════════════════════════════════════════════════════════════════════
-- The calls
-- ════════════════════════════════════════════════════════════════════════

/-- What a call does to the account of the state it is made in: it never grows, and stays the same
    when the word behind the table does not look like an absent page. -/
def KeepsAccount (s s' : Flat) : Prop :=
  frameAccount s' ≤ frameAccount s ∧
    ((s.tables 0x100000).present = true → frameAccount s' = frameAccount s)

section Calls

variable {s t u : Flat}

theorem keepsAccount_of_eq (h : frameAccount t = frameAccount s) : KeepsAccount s t :=
  ⟨h.le, fun _ => h⟩

theorem KeepsAccount.trans_eq (h : KeepsAccount s t) (htu : frameAccount u = frameAccount t) :
    KeepsAccount s u :=
  ⟨htu.le.trans h.1, fun hend => htu.trans (h.2 hend)⟩

theorem frameAccount_mapPageTo (s : Flat) {vaddr : ℕ} (hv : vaddr / 0x1000 < 0x100000) :
    frameAccount (mapPageTo s vaddr).2 = frameAccount s := by
  rw [mapPageTo]
  dsimp only
  split_ifs with hp hz
  · rfl
  · rfl
  · obtain ⟨f, -, hf, hfree, he⟩ := findFreePhysPage_spec hz
    have hmap := frameAccount_mapAddr hv hf hfree
    rw [Flat.entry_eq] at hp
    rw [if_neg hp, Nat.add_zero] at hmap
    rw [Flat.pmemUsed_eq] at he
    rw [Flat.pmemUsed_eq, he]
    exact hmap

theorem keepsAccount_allocPage (s : Flat) (n : ℕ) : KeepsAccount s (allocPage s n).2 := by
  by_cases hn : n = 0
  · rw [allocPage, if_pos hn]
    exact keepsAccount_of_eq rfl
  · obtain ⟨he, -⟩ | ⟨w, -, hw, hat, -, he⟩ := allocPage_cases s hn
    · rw [he]
      exact keepsAccount_of_eq rfl
    · obtain ⟨hle, heq⟩ := frameAccount_allocPageMap s w n 0
      rw [he]
      refine ⟨hle, fun hend => ?_⟩
      have hin := le_of_windowAt hend hw hat
      exact heq hin fun t _ ht => absent_of_windowAt_le hat hw hin t ht

theorem keepsAccount_allocSequential (h : Exclusive s) (n : ℕ) :
    KeepsAccount s (allocSequential s n).2 := by
  by_cases hn : n = 0
  · rw [allocSequential, if_pos hn]
    exact keepsAccount_of_eq rfl
  · obtain ⟨he, -⟩ | ⟨w, j, -, hw, hat, -, hj, hj', hseq, -, he⟩ := allocSequential_cases s hn
    · rw [he]
      exact keepsAccount_of_eq rfl
    · have hfree := free_of_sequentialAt hseq hj'
      have hlt := frame_lt_of_free_run h.zeroUsed hfree hj'
      obtain ⟨hle, heq⟩ := frameAccount_sequentialMap (s := s) (i := w) (k := 0) hlt
        fun l _ hl => by
          have hl' := hfree l hl
          rwa [Nat.mod_eq_of_lt (hlt l hl)] at hl'
      rw [he]
      refine ⟨hle, fun hend => ?_⟩
      have hin := le_of_windowAt hend hw hat
      exact heq hin fun t _ ht => absent_of_windowAt_le hat hw hin t ht

theorem keepsAccount_reallocPage (h : Exclusive s) {ptr old : ℕ} (new : ℕ)
    (hold : old ≤ 0x100000) (hp : AllPresent s (rangePages ptr old)) :
    KeepsAccount s (reallocPage s ptr old new).2 := by
  rw [reallocPage]
  dsimp only
  split_ifs with heq hlt hfails
  · exact keepsAccount_of_eq rfl
  · -- the block moves: the copy keeps table and bitmap, and the old pages are still present
    obtain ⟨h1, hp1⟩ := exclusive_allocPage h new hp
    obtain ⟨h2, hp2⟩ := exclusive_memcpy h1 hp1 (allocPage s new).1 ptr (u32 (old * 0x1000))
    obtain ⟨ht, hm⟩ := memcpy_same (allocPage s new).2 (allocPage s new).1 ptr (u32 (old * 0x1000))
    have hcopy := frameAccount_congr (s := (allocPage s new).2) ⟨fun i _ => congrFun ht i, hm⟩
    have hfree := frameAccount_freePageFrom (k := 0) h2 hold fun t _ ht => hp2 _ ⟨t, ht, rfl⟩
    exact (keepsAccount_allocPage s new).trans_eq (hfree.trans hcopy)
  · refine keepsAccount_of_eq (reallocGrow_induct (P := fun t => frameAccount t = frameAccount s)
      (fun t vaddr ht => ?_) rfl)
    exact (frameAccount_mapPageTo t (by simp only [u32]; omega)).trans ht
  · refine keepsAccount_of_eq (frameAccount_freePageFrom h (by omega) fun t _ ht => ?_)
    exact hp _ ⟨new + t, by omega, by omega⟩

/-- One call, made in a state that keeps the invariant. -/
theorem AllocCall.keepsAccount {c : AllocCall} (h : Exclusive s) (hc : c.Allowed s) :
    KeepsAccount s (c.exec s) := by
  cases c with
  | allocPage n => exact keepsAccount_allocPage s n.toNat
  | allocSequential n => exact keepsAccount_allocSequential h n.toNat
  | mapPageTo v => exact keepsAccount_of_eq (frameAccount_mapPageTo s (by omega))
  | freePage v n =>
    refine keepsAccount_of_eq (frameAccount_freePageFrom h hc.1 fun t _ ht => ?_)
    exact hc.2 _ ⟨t, ht, rfl⟩
  | reallocPage p old new => exact keepsAccount_reallocPage h new.toNat hc.1 hc.2

end Calls

-- ════════════════════════════════════════════════════════════════════════
-- Runs
-- ════════════════════════════════════════════════════════════════════════

/-- A call of a run, made while the word behind the table does not look like an absent page. -/
def ClosedStep (s s' : Flat) : Prop :=
  ∃ t c, SameTables s t ∧ (t.tables 0x100000).present = true ∧ AllocCall.Allowed c t ∧
    s' = c.exec t

/-- **No frame is made up, and none is lost.** -/
theorem frameAccount_of_run {s s' : Flat} (h : Exclusive s) :
    (ReflTransGen AllocStep s s' → frameAccount s' ≤ frameAccount s) ∧
      (ReflTransGen ClosedStep s s' → frameAccount s' = frameAccount s) := by
  constructor
  · intro hrun
    refine (Run.invariant (I := fun t => Exclusive t ∧ frameAccount t ≤ frameAccount s)
      (fun a b hab ha => ⟨exclusive_step ha.1 hab, ?_⟩) hrun ⟨h, le_refl _⟩).2
    obtain ⟨t, c, hst, hc, rfl⟩ := hab
    have hkeep := AllocCall.keepsAccount (ha.1.of_sameTables hst) hc
    exact (hkeep.1.trans (frameAccount_congr hst).le).trans ha.2
  · intro hrun
    refine (Run.invariant (I := fun t => Exclusive t ∧ frameAccount t = frameAccount s)
      (fun a b hab ha => ?_) hrun ⟨h, rfl⟩).2
    obtain ⟨t, c, hst, hend, hc, rfl⟩ := hab
    have hkeep := AllocCall.keepsAccount (ha.1.of_sameTables hst) hc
    exact ⟨exclusive_step ha.1 ⟨t, c, hst, hc, rfl⟩,
      ((hkeep.2 hend).trans (frameAccount_congr hst)).trans ha.2⟩

/-- The same table with a present entry behind it. -/
def Flat.closeEnd (s : Flat) : Flat :=
  { s with tables := Function.update s.tables 0x100000 (mappedEntry (PageTableEntry.decode 0) 0) }

theorem closedStep_closeEnd {s : Flat} {c : AllocCall} (h : c.Allowed s.closeEnd) :
    ClosedStep s (c.exec s.closeEnd) := by
  refine ⟨s.closeEnd, c, ⟨fun i hi => ?_, rfl⟩, ?_, h, rfl⟩
  · rw [Flat.closeEnd]
    exact Function.update_of_ne (Nat.ne_of_lt hi) _ _
  · simp only [Flat.closeEnd, Function.update_self]
    rfl

/-- A page is given back, page 1 is mapped, and two more pages are allocated. -/
theorem frameAccount_of_run_scattered : ∃ s s', ReflTransGen ClosedStep Flat.scattered s ∧
    (s.tables 0xC0001).present = false ∧
    s' = (AllocCall.allocPage 2).exec ((AllocCall.mapPageTo 0x1000).exec s.closeEnd).closeEnd ∧
    frameAccount s' = frameAccount Flat.scattered := by
  have hallowed : (AllocCall.freePage 0xC0001000 1).Allowed Flat.scattered.closeEnd := by
    refine ⟨by decide, fun i hi => ?_⟩
    obtain ⟨t, ht, rfl⟩ := hi
    obtain rfl : t = 0 := Nat.lt_one_iff.mp ht
    exact scattered_present 0xC0001
  have hfreed : (AllocCall.freePage 0xC0001000 1).exec Flat.scattered.closeEnd =
      unmapVaddr Flat.scattered.closeEnd 0xC0001000 := by
    simp [AllocCall.exec, freePage, freePageFrom, u32]
  have hfirst := ReflTransGen.single (closedStep_closeEnd hallowed)
  rw [hfreed] at hfirst
  refine ⟨_, _, hfirst, ?_, rfl, ?_⟩
  · rw [Flat.unmapVaddr_tables, Function.update_self]
    rfl
  · exact (frameAccount_of_run exclusive_scattered).2
      ((hfirst.tail (@closedStep_closeEnd _ (.mapPageTo 0x1000) trivial)).tail
        (@closedStep_closeEnd _ (.allocPage 2) trivial))

end FirstOs
