import FirstOs.Library.Run
import FirstOs.Memory.Alloc

/-!
# Frame exclusivity

In a flat state no two present entries hold the same frame and every frame held by
a present entry is marked used. The allocation calls keep this in any order, also
when they fail midway and whatever they read behind the end of the table, as long
as pages are only given back while they are present. Frame 0 has to be part of the
invariant: it is marked used and mapped by no present entry, so that the physical
search of `alloc_sequential`, whose frame number wraps at 2^20, cannot run past it.

## Main results

- `exclusive_mapAddr`, `exclusive_unmapVaddr` — the two single-page steps
- `frameExclusive_of_run` — exclusivity over whole runs of calls
-/

namespace FirstOs

open AddressSpace Relation

/-- Every present entry's frame is marked used, and distinct present entries hold
    distinct frames. -/
structure FrameExclusive (s : Flat) : Prop where
  used : ∀ i < 0x100000, (s.tables i).present = true →
    s.pmemUsed.bit (s.tables i).frame = true
  distinct : ∀ i < 0x100000, ∀ j < 0x100000, (s.tables i).present = true →
    (s.tables j).present = true → (s.tables i).frame = (s.tables j).frame → i = j

/-- Frame 0 is marked used and mapped by no present entry. -/
structure FrameZeroReserved (s : Flat) : Prop where
  zeroUsed : s.pmemUsed.bit 0 = true
  zeroUnmapped : ∀ i < 0x100000, (s.tables i).present = true → (s.tables i).frame ≠ 0

/-- The invariant of the allocation calls. -/
structure Exclusive (s : Flat) : Prop extends FrameExclusive s, FrameZeroReserved s

namespace Flat

section Single

variable (s : Flat) (vaddr paddr : ℕ)

@[simp] theorem mapAddr_tables : (mapAddr s vaddr paddr).tables =
    Function.update s.tables (vaddr / 0x1000) (mappedEntry (s.tables (vaddr / 0x1000)) paddr) :=
  rfl

@[simp] theorem mapAddr_pmemUsed :
    (mapAddr s vaddr paddr).pmemUsed = claimPhysPage s.pmemUsed paddr := rfl

@[simp] theorem mapAddr_phys : (mapAddr s vaddr paddr).phys = s.phys := rfl

@[simp] theorem unmapVaddr_tables : (unmapVaddr s vaddr).tables =
    Function.update s.tables (vaddr / 0x1000) (unmappedEntry (s.tables (vaddr / 0x1000))) := rfl

@[simp] theorem unmapVaddr_pmemUsed : (unmapVaddr s vaddr).pmemUsed =
    s.pmemUsed.clear (s.tables (vaddr / 0x1000)).frame := by
  change releasePhysPage s.pmemUsed (_ * 0x1000) = _
  rw [releasePhysPage_frame]
  rfl

theorem store_tables (b : BitVec 8) : (s.store vaddr b).tables = s.tables := by
  simp only [store]
  split <;> rfl

theorem store_pmemUsed (b : BitVec 8) : (s.store vaddr b).pmemUsed = s.pmemUsed := by
  simp only [store]
  split <;> rfl

end Single

end Flat

theorem mappedEntry_frame (e : PageTableEntry) {f : ℕ} (hf : f < 0x100000) :
    (mappedEntry e (f * 0x1000)).frame = f := by
  simp only [mappedEntry, PageTableEntry.frame]
  rw [Nat.mul_div_cancel f (by omega), BitVec.toNat_ofNat, Nat.mod_eq_of_lt hf]

section Sequential

variable {s : Flat} {i j n k : ℕ}

theorem sequentialMap_frame (j k : ℕ) : u32 ((j + k) * 0x1000) = (j + k) % 0x100000 * 0x1000 := by
  simp only [u32]
  omega

theorem sequentialMap_outside {p : ℕ} (hp : ∀ l, k ≤ l → l < n → p ≠ (i + l) % 0x100000) :
    (sequentialMap s i j n k).tables p = s.tables p := by
  fun_induction sequentialMap s i j n k with
  | case1 s k hk ih =>
    rw [ih fun l hl => hp l (by omega), Flat.mapAddr_tables, page_of_u32,
      Function.update_of_ne (hp k (le_refl k) hk)]
  | case2 s k hk => rfl

/-- Page `i + l` of the window gets frame `j + l`. The window is shorter than the
    address space, so no page comes twice. -/
theorem sequentialMap_inside (hn : n ≤ 0x100000) {l : ℕ} (hl : l < n) (hkl : k ≤ l) :
    (sequentialMap s i j n k).tables ((i + l) % 0x100000) =
      mappedEntry (s.tables ((i + l) % 0x100000)) ((j + l) % 0x100000 * 0x1000) := by
  fun_induction sequentialMap s i j n k with
  | case1 s k hk ih =>
    obtain rfl | hlt := Nat.eq_or_lt_of_le hkl
    · rw [sequentialMap_outside (fun m hm hm' => by omega), Flat.mapAddr_tables, page_of_u32,
        Function.update_self, sequentialMap_frame]
    · rw [ih hlt, Flat.mapAddr_tables, page_of_u32, Function.update_of_ne (by omega)]
  | case2 s k hk => omega

end Sequential

-- ════════════════════════════════════════════════════════════════════════
-- Single-page steps
-- ════════════════════════════════════════════════════════════════════════

/-- Mapping a page, present or not, to a free frame keeps the invariant. -/
theorem exclusive_mapAddr {s : Flat} (h : Exclusive s) {vaddr f : ℕ} (hf0 : f ≠ 0)
    (hf : f < 0x100000) (hfree : s.pmemUsed.bit f = false) :
    Exclusive (mapAddr s vaddr (f * 0x1000)) := by
  -- no present entry holds `f`, since its bit is clear
  have hfresh : ∀ i < 0x100000, (s.tables i).present = true → (s.tables i).frame ≠ f := by
    intro i hi hp heq
    have := h.used i hi hp
    rw [heq, hfree] at this
    exact absurd this (by decide)
  refine ⟨⟨?_, ?_⟩, ⟨?_, ?_⟩⟩
  · intro i hi hp
    simp only [Flat.mapAddr_tables, Flat.mapAddr_pmemUsed, claimPhysPage_frame,
      Bitmap.bit_set] at hp ⊢
    by_cases hiv : i = vaddr / 0x1000
    · rw [hiv, Function.update_self, mappedEntry_frame _ hf]
      simp
    · rw [Function.update_of_ne hiv] at hp ⊢
      simp [h.used i hi hp]
  · intro i hi j hj hpi hpj heq
    simp only [Flat.mapAddr_tables] at hpi hpj heq
    by_cases hiv : i = vaddr / 0x1000 <;> by_cases hjv : j = vaddr / 0x1000
    · rw [hiv, hjv]
    · rw [hiv, Function.update_self, mappedEntry_frame _ hf, Function.update_of_ne hjv] at heq
      rw [Function.update_of_ne hjv] at hpj
      exact absurd heq.symm (hfresh j hj hpj)
    · rw [hjv, Function.update_self, mappedEntry_frame _ hf, Function.update_of_ne hiv] at heq
      rw [Function.update_of_ne hiv] at hpi
      exact absurd heq (hfresh i hi hpi)
    · rw [Function.update_of_ne hiv] at hpi heq
      rw [Function.update_of_ne hjv] at hpj heq
      exact h.distinct i hi j hj hpi hpj heq
  · simp [h.zeroUsed]
  · intro i hi hp
    simp only [Flat.mapAddr_tables] at hp ⊢
    by_cases hiv : i = vaddr / 0x1000
    · rw [hiv, Function.update_self, mappedEntry_frame _ hf]
      exact hf0
    · rw [Function.update_of_ne hiv] at hp ⊢
      exact h.zeroUnmapped i hi hp

/-- Unmapping a present page keeps the invariant. -/
theorem exclusive_unmapVaddr {s : Flat} (h : Exclusive s) {vaddr : ℕ}
    (hv : vaddr / 0x1000 < 0x100000) (hp : (s.tables (vaddr / 0x1000)).present = true) :
    Exclusive (unmapVaddr s vaddr) := by
  have hother : ∀ i, ((unmapVaddr s vaddr).tables i).present = true →
      i ≠ vaddr / 0x1000 ∧ (s.tables i).present = true ∧
        (unmapVaddr s vaddr).tables i = s.tables i := by
    intro i hi
    rw [Flat.unmapVaddr_tables] at hi ⊢
    by_cases hiv : i = vaddr / 0x1000
    · rw [hiv, Function.update_self] at hi
      exact absurd hi (by simp [unmappedEntry])
    · rw [Function.update_of_ne hiv] at hi ⊢
      exact ⟨hiv, hi, rfl⟩
  refine ⟨⟨?_, ?_⟩, ⟨?_, ?_⟩⟩
  · intro i hi hpi
    obtain ⟨hne, hpi, he⟩ := hother i hpi
    have hframe : (s.tables i).frame ≠ (s.tables (vaddr / 0x1000)).frame := fun heq =>
      hne (h.distinct i hi _ hv hpi hp heq)
    rw [he, Flat.unmapVaddr_pmemUsed, Bitmap.bit_clear, h.used i hi hpi]
    simp [hframe]
  · intro i hi j hj hpi hpj heq
    obtain ⟨-, hpi, hei⟩ := hother i hpi
    obtain ⟨-, hpj, hej⟩ := hother j hpj
    rw [hei, hej] at heq
    exact h.distinct i hi j hj hpi hpj heq
  · have hne : (0 : ℕ) ≠ (s.tables (vaddr / 0x1000)).frame := (h.zeroUnmapped _ hv hp).symm
    rw [Flat.unmapVaddr_pmemUsed, Bitmap.bit_clear, h.zeroUsed]
    simp [hne]
  · intro i hi hpi
    obtain ⟨-, hpi, he⟩ := hother i hpi
    rw [he]
    exact h.zeroUnmapped i hi hpi

/-- Mapping a page to what `find_free_phys_page` returned keeps the invariant. -/
theorem exclusive_mapAddr_findFree {s : Flat} (h : Exclusive s) {vaddr : ℕ}
    (hne : findFreePhysPage s.pmemUsed ≠ 0) :
    Exclusive (mapAddr s vaddr (findFreePhysPage s.pmemUsed)) := by
  obtain ⟨f, hf, hf', hfree, he⟩ := findFreePhysPage_spec hne
  rw [he]
  exact exclusive_mapAddr h (by omega) hf' hfree

-- ════════════════════════════════════════════════════════════════════════
-- The calls
-- ════════════════════════════════════════════════════════════════════════

/-- Every page of a set is present. -/
def AllPresent (s : Flat) (pages : Set ℕ) : Prop := ∀ i ∈ pages, (s.tables i).present = true

theorem allPresent_mapAddr {s : Flat} {pages : Set ℕ} (h : AllPresent s pages) (vaddr paddr : ℕ) :
    AllPresent (mapAddr s vaddr paddr) pages := by
  intro i hi
  rw [Flat.mapAddr_tables]
  by_cases hiv : i = vaddr / 0x1000
  · rw [hiv, Function.update_self]
    rfl
  · rw [Function.update_of_ne hiv]
    exact h i hi

theorem mapAddr_present (s : Flat) (vaddr paddr i : ℕ) :
    ((mapAddr s vaddr paddr).tables i).present =
      ((s.tables i).present || decide (i = vaddr / 0x1000)) := by
  rw [Flat.mapAddr_tables, Function.update_apply]
  split_ifs with hi <;> simp [mappedEntry, hi]

/-- The pages `start`, `start + 1`, … of a range given by its address, wrapping at 2^20. -/
def rangePages (start pages : ℕ) : Set ℕ := {i | ∃ t < pages, i = (start / 0x1000 + t) % 0x100000}

theorem exclusive_mapPageTo {s : Flat} (h : Exclusive s) (vaddr : ℕ) :
    Exclusive (mapPageTo s vaddr).2 := by
  rw [mapPageTo]
  dsimp only
  split_ifs with hp hz
  · exact h
  · exact h
  · exact exclusive_mapAddr_findFree h hz

/-- `map_page_to` maps an absent page to the least free frame. -/
theorem mapPageTo_of_isLeast {s : Flat} {vaddr f : ℕ}
    (h : (s.tables (vaddr / 0x1000)).present = false)
    (hf : IsLeast (searchedFrames s.pmemUsed) f) :
    mapPageTo s vaddr = (vaddr, mapAddr s vaddr (f * 0x1000)) := by
  obtain ⟨hfind, hne⟩ := (findFreePhysPage_eq_frame_iff _ f).mpr hf
  rw [mapPageTo, Flat.entry_eq, h, if_neg Bool.false_ne_true, Flat.pmemUsed_eq, hfind]
  dsimp only
  rw [if_neg (by omega)]

/-- `alloc_page` keeps the invariant and makes no present page absent. -/
theorem exclusive_allocPage {s : Flat} (h : Exclusive s) (n : ℕ) {pages : Set ℕ}
    (hp : AllPresent s pages) :
    Exclusive (allocPage s n).2 ∧ AllPresent (allocPage s n).2 pages := by
  by_cases hn : n = 0
  · rw [allocPage, if_pos hn]
    exact ⟨h, hp⟩
  · rcases allocPage_cases s hn with ⟨he, -⟩ | ⟨w, -, -, -, -, he⟩
    · rw [he]
      exact ⟨h, hp⟩
    · rw [he]
      refine allocPageMap_induct (P := fun t => Exclusive t ∧ AllPresent t pages)
        (fun t step _ hne ht => ?_) ⟨h, hp⟩
      exact ⟨exclusive_mapAddr_findFree ht.1 hne, allPresent_mapAddr ht.2 _ _⟩

/-- With frame 0 in use, a run of free frames does not wrap. -/
theorem frame_lt_of_free_run {m : Bitmap} {j n : ℕ} (h0 : m.bit 0 = true)
    (hfree : ∀ k < n, m.bit ((j + k) % 0x100000) = false) (hj : j < 0x100000) :
    ∀ k < n, j + k < 0x100000 := by
  intro k hk
  by_contra hge
  have hzero := hfree (0x100000 - j) (by omega)
  rw [show (j + (0x100000 - j)) % 0x100000 = 0 by omega, h0] at hzero
  exact absurd hzero (by decide)

theorem exclusive_sequentialMap {s : Flat} (h : Exclusive s) {i j n k : ℕ}
    (hlt : ∀ k < n, j + k < 0x100000) (hj : j ≠ 0)
    (hfree : ∀ l, k ≤ l → l < n → s.pmemUsed.bit (j + l) = false) :
    Exclusive (sequentialMap s i j n k) := by
  fun_induction sequentialMap s i j n k with
  | case1 s k hk ih =>
    have hjk := hlt k hk
    have haddr : u32 ((j + k) * 0x1000) = (j + k) * 0x1000 := Nat.mod_eq_of_lt (by omega)
    rw [haddr] at ih ⊢
    refine ih (exclusive_mapAddr h (by omega) hjk (hfree k (le_refl k) hk)) fun l hl hl' => ?_
    rw [Flat.mapAddr_pmemUsed, claimPhysPage_frame, Bitmap.bit_set, hfree l (by omega) hl']
    have hne : l ≠ k := by omega
    simp [hne]
  | case2 s k hk => exact h

theorem exclusive_allocSequential {s : Flat} (h : Exclusive s) (n : ℕ) :
    Exclusive (allocSequential s n).2 := by
  by_cases hn : n = 0
  · rw [allocSequential, if_pos hn]
    exact h
  · rcases allocSequential_cases s hn with ⟨he, -⟩ | ⟨w, j, -, -, -, -, hj, hj', hat, -, he⟩
    · rw [he]
      exact h
    · rw [he]
      have hfree := free_of_sequentialAt hat hj'
      have hlt := frame_lt_of_free_run h.zeroUsed hfree hj'
      refine exclusive_sequentialMap h hlt (by omega) fun l _ hl => ?_
      have := hfree l hl
      rwa [Nat.mod_eq_of_lt (hlt l hl)] at this

/-- `free_page` of present pages keeps the invariant. The pages still to come stay
    present because at most 2^20 pages are freed, so no page comes twice. -/
theorem exclusive_freePageFrom {s : Flat} (h : Exclusive s) {start n i : ℕ} (hn : n ≤ 0x100000)
    (hp : ∀ t, i ≤ t → t < n → (s.tables ((start / 0x1000 + t) % 0x100000)).present = true) :
    Exclusive (freePageFrom s start n i) := by
  fun_induction freePageFrom s start n i with
  | case1 s i hi ih =>
    have hpage : u32 (start + i * 0x1000) / 0x1000 = (start / 0x1000 + i) % 0x100000 := by
      simp only [u32]
      omega
    refine ih (exclusive_unmapVaddr h (by omega) (by rw [hpage]; exact hp i (le_refl i) hi)) ?_
    intro t ht ht'
    rw [Flat.unmapVaddr_tables, hpage, Function.update_of_ne (by omega)]
    exact hp t (by omega) ht'
  | case2 s i hi => exact h

/-- `memcpy` changes neither the table nor the bitmap. -/
theorem memcpy_same (s : Flat) (dst src size : ℕ) :
    (memcpy s dst src size).tables = s.tables ∧ (memcpy s dst src size).pmemUsed = s.pmemUsed := by
  simp only [memcpy]
  refine memcpyFrom_induct
    (P := fun t : Flat => t.tables = s.tables ∧ t.pmemUsed = s.pmemUsed)
    (fun t i _ ht => ?_) ⟨rfl, rfl⟩
  exact ⟨(t.store_tables _ _).trans ht.1, (t.store_pmemUsed _ _).trans ht.2⟩

theorem exclusive_memcpy {s : Flat} (h : Exclusive s) {pages : Set ℕ} (hp : AllPresent s pages)
    (dst src size : ℕ) :
    Exclusive (memcpy s dst src size) ∧ AllPresent (memcpy s dst src size) pages := by
  obtain ⟨ht, hm⟩ := memcpy_same s dst src size
  refine ⟨⟨⟨?_, ?_⟩, ⟨?_, ?_⟩⟩, ?_⟩
  · rw [ht, hm]; exact h.used
  · rw [ht]; exact h.distinct
  · rw [hm]; exact h.zeroUsed
  · rw [ht]; exact h.zeroUnmapped
  · simp only [AllPresent]
    rw [ht]
    exact hp

theorem exclusive_reallocPage {s : Flat} (h : Exclusive s) {ptr old : ℕ} (new : ℕ)
    (hold : old ≤ 0x100000) (hp : AllPresent s (rangePages ptr old)) :
    Exclusive (reallocPage s ptr old new).2 := by
  rw [reallocPage]
  dsimp only
  split_ifs with heq hlt hfails
  · exact h
  · -- the block moves: allocate, copy, give the old pages back
    obtain ⟨h1, hp1⟩ := exclusive_allocPage h new hp
    obtain ⟨h2, hp2⟩ := exclusive_memcpy h1 hp1 (allocPage s new).1 ptr (u32 (old * 0x1000))
    exact exclusive_freePageFrom h2 hold fun t _ ht => hp2 _ ⟨t, ht, rfl⟩
  · exact reallocGrow_induct (fun t vaddr ht => exclusive_mapPageTo ht _) h
  · refine exclusive_freePageFrom h (by omega) fun t _ ht => hp _ ⟨new + t, by omega, ?_⟩
    omega

-- ════════════════════════════════════════════════════════════════════════
-- Runs
-- ════════════════════════════════════════════════════════════════════════

/-- A call of the page allocator with its 32-bit arguments. -/
inductive AllocCall where
  | allocPage (n : BitVec 32)
  | allocSequential (n : BitVec 32)
  | mapPageTo (v : BitVec 32)
  | freePage (v n : BitVec 32)
  | reallocPage (p old new : BitVec 32)

namespace AllocCall

/-- The state a call leaves. -/
def exec : AllocCall → Flat → Flat
  | allocPage n, s => (FirstOs.allocPage s n.toNat).2
  | allocSequential n, s => (FirstOs.allocSequential s n.toNat).2
  | mapPageTo v, s => (FirstOs.mapPageTo s v.toNat).2
  | freePage v n, s => FirstOs.freePage s v.toNat n.toNat
  | reallocPage p old new, s => (FirstOs.reallocPage s p.toNat old.toNat new.toNat).2

/-- `free_page` and `realloc_page` are given at most 2^20 pages, all of them present. -/
def Allowed : AllocCall → Flat → Prop
  | freePage v n, s => n.toNat ≤ 0x100000 ∧ AllPresent s (rangePages v.toNat n.toNat)
  | reallocPage p old _, s => old.toNat ≤ 0x100000 ∧ AllPresent s (rangePages p.toNat old.toNat)
  | _, _ => True

end AllocCall

/-- The two states have the same table and bitmap; what lies behind the table and in
    physical memory may differ. -/
def SameTables (s t : Flat) : Prop :=
  (∀ i < 0x100000, t.tables i = s.tables i) ∧ t.pmemUsed = s.pmemUsed

/-- One call of a run. Before it, everything but table and bitmap may change, so
    that what is read behind the table is arbitrary at every call. -/
def AllocStep (s s' : Flat) : Prop :=
  ∃ t c, SameTables s t ∧ AllocCall.Allowed c t ∧ s' = c.exec t

theorem Exclusive.of_sameTables {s t : Flat} (h : Exclusive s) (hst : SameTables s t) :
    Exclusive t := by
  obtain ⟨ht, hm⟩ := hst
  refine ⟨⟨?_, ?_⟩, ⟨?_, ?_⟩⟩
  · intro i hi
    rw [ht i hi, hm]
    exact h.used i hi
  · intro i hi j hj
    rw [ht i hi, ht j hj]
    exact h.distinct i hi j hj
  · rw [hm]
    exact h.zeroUsed
  · intro i hi
    rw [ht i hi]
    exact h.zeroUnmapped i hi

/-- One call keeps the invariant. -/
theorem exclusive_step {s s' : Flat} (h : Exclusive s) (hs : AllocStep s s') : Exclusive s' := by
  obtain ⟨t, c, hst, hc, rfl⟩ := hs
  have ht := h.of_sameTables hst
  cases c with
  | allocPage n => exact (exclusive_allocPage ht n.toNat (fun _ hi => hi.elim : AllPresent t ∅)).1
  | allocSequential n => exact exclusive_allocSequential ht n.toNat
  | mapPageTo v => exact exclusive_mapPageTo ht v.toNat
  | freePage v n => exact exclusive_freePageFrom ht hc.1 fun k _ hk => hc.2 _ ⟨k, hk, rfl⟩
  | reallocPage p old new => exact exclusive_reallocPage ht new.toNat hc.1 hc.2

/-- **Frame exclusivity over whole runs.** -/
theorem frameExclusive_of_run {s s' : Flat} (hex : FrameExclusive s) (hzero : FrameZeroReserved s)
    (hrun : ReflTransGen AllocStep s s') : FrameExclusive s' :=
  (Run.invariant (fun _ _ hs h => exclusive_step h hs) hrun
    (⟨hex, hzero⟩ : Exclusive s)).toFrameExclusive

/-- A state with an empty table in which all frames are in use. -/
def Flat.empty : Flat where
  tables _ := PageTableEntry.decode 0
  pmemUsed _ := 255#8
  phys _ := 0
  unmapped _ := 0

/-- A state with an empty table in which all frames are free. -/
def Flat.fresh : Flat := { Flat.empty with pmemUsed := fun _ => 0 }

/-- A state with an empty table in which only frame 0 is in use. -/
def Flat.zeroUsed : Flat := { Flat.empty with pmemUsed := Bitmap.set (fun _ => 0) 0 }

theorem zeroUsed_bit (f : ℕ) : Flat.zeroUsed.pmemUsed.bit f = decide (f = 0) := by
  change (Bitmap.set _ 0).bit f = _
  rw [Bitmap.bit_set, Bitmap.bit_of_byte_eq_zero rfl, Bool.false_or]

theorem exclusive_zeroUsed : Exclusive Flat.zeroUsed :=
  ⟨⟨fun _ _ h => Bool.noConfusion h, fun _ _ _ _ h => Bool.noConfusion h⟩,
    ⟨zeroUsed_bit 0, fun _ _ h => Bool.noConfusion h⟩⟩

/-- Three pages are mapped, with a hole between them and one between their frames. -/
def Flat.scattered : Flat :=
  mapAddr (mapAddr (mapAddr Flat.zeroUsed 0xC0000000 0x800000) 0xC0001000 0x801000)
    0xC0003000 0x1001000

theorem scattered_bit (f : ℕ) : Flat.scattered.pmemUsed.bit f =
    decide (f = 0 ∨ f = 0x800 ∨ f = 0x801 ∨ f = 0x1001) := by
  simp only [Flat.scattered, Flat.mapAddr_pmemUsed, claimPhysPage_eq_set, Bitmap.bit_set,
    zeroUsed_bit, Nat.reduceDiv, Bool.decide_or, Bool.or_assoc]

theorem scattered_present (i : ℕ) : (Flat.scattered.tables i).present =
    decide (i = 0xC0000 ∨ i = 0xC0001 ∨ i = 0xC0003) := by
  have hempty : (Flat.zeroUsed.tables i).present = false := rfl
  simp only [Flat.scattered, mapAddr_present, hempty, Nat.reduceDiv, Bool.decide_or,
    Bool.or_assoc, Bool.false_or]

theorem exclusive_scattered : Exclusive Flat.scattered := by
  have h1 : Exclusive (mapAddr Flat.zeroUsed 0xC0000000 (0x800 * 0x1000)) :=
    exclusive_mapAddr exclusive_zeroUsed (by decide) (by decide) (zeroUsed_bit _)
  have h2 : Exclusive (mapAddr (mapAddr Flat.zeroUsed 0xC0000000 (0x800 * 0x1000)) 0xC0001000
      (0x801 * 0x1000)) := by
    refine exclusive_mapAddr h1 (by decide) (by decide) ?_
    simp only [Flat.mapAddr_pmemUsed, claimPhysPage_frame, Bitmap.bit_set, zeroUsed_bit]
    decide
  refine exclusive_mapAddr (f := 0x1001) h2 (by decide) (by decide) ?_
  simp only [Flat.mapAddr_pmemUsed, claimPhysPage_frame, Bitmap.bit_set, zeroUsed_bit]
  decide

/-- Page `0xC0001` is given back, and `map_page_to` maps page 1 to its frame. -/
theorem frameExclusive_of_run_scattered :
    ∃ s, ReflTransGen AllocStep Flat.scattered s ∧ FrameExclusive s ∧
      (s.tables 0xC0001).present = false ∧ (s.tables 1).present = true ∧
      (s.tables 1).frame = 0x801 := by
  have hallowed : (AllocCall.freePage 0xC0001000 1).Allowed Flat.scattered := by
    refine ⟨by decide, fun i hi => ?_⟩
    obtain ⟨t, ht, rfl⟩ := hi
    obtain rfl : t = 0 := Nat.lt_one_iff.mp ht
    exact scattered_present 0xC0001
  have hfreed : (AllocCall.freePage 0xC0001000 1).exec Flat.scattered =
      unmapVaddr Flat.scattered 0xC0001000 := by
    simp [AllocCall.exec, freePage, freePageFrom, u32]
  have hframe : (Flat.scattered.tables 0xC0001).frame = 0x801 := rfl
  have hleast : IsLeast
      (searchedFrames (unmapVaddr Flat.scattered 0xC0001000).pmemUsed) 0x801 := by
    refine ⟨⟨by decide, by decide, ?_⟩, fun f hf => ?_⟩
    · rw [Flat.unmapVaddr_pmemUsed, hframe, Bitmap.bit_clear]
      simp
    · obtain ⟨hf, -, hfree⟩ := hf
      rw [Flat.unmapVaddr_pmemUsed, hframe, Bitmap.bit_clear, scattered_bit] at hfree
      simp at hfree
      omega
  have habsent : ((unmapVaddr Flat.scattered 0xC0001000).tables 1).present = false := by
    rw [Flat.unmapVaddr_tables, Function.update_of_ne (by decide)]
    exact scattered_present 1
  have hmapped : (AllocCall.mapPageTo 0x1000).exec (unmapVaddr Flat.scattered 0xC0001000) =
      mapAddr (unmapVaddr Flat.scattered 0xC0001000) 0x1000 (0x801 * 0x1000) :=
    congrArg Prod.snd (mapPageTo_of_isLeast habsent hleast)
  have hrun : ReflTransGen AllocStep Flat.scattered
      (mapAddr (unmapVaddr Flat.scattered 0xC0001000) 0x1000 (0x801 * 0x1000)) :=
    (ReflTransGen.single ⟨_, .freePage 0xC0001000 1, ⟨fun _ _ => rfl, rfl⟩, hallowed,
      hfreed.symm⟩).tail ⟨_, .mapPageTo 0x1000, ⟨fun _ _ => rfl, rfl⟩, trivial, hmapped.symm⟩
  refine ⟨_, hrun, frameExclusive_of_run exclusive_scattered.toFrameExclusive
    exclusive_scattered.toFrameZeroReserved hrun, ?_, ?_, ?_⟩
  · rw [Flat.mapAddr_tables, Function.update_of_ne (by decide), Flat.unmapVaddr_tables,
      Function.update_self]
    rfl
  · rw [Flat.mapAddr_tables, Function.update_self]
    rfl
  · rw [Flat.mapAddr_tables, Function.update_self, mappedEntry_frame _ (by decide)]

end FirstOs
