import FirstOs.Machine.Tables
import FirstOs.Memory.Undo

/-!
# The tables stay the hardware's

After `paging_init` the page allocator writes entries only. It maps absent pages and
unmaps pages it has mapped before, and the pages of the table itself are neither: they
are present and in no block.

## Main results

- `PageStep.keeps` — a call keeps the tables in force
- `walk_eq_kernelTables` — after every run the walk finds the entry of the array
-/

namespace FirstOs

open AddressSpace Machine Relation

/-- The machine, and the blocks the calls have returned. -/
structure PageClient where
  machine : Machine
  returned : List Block

/-- The window the search of `alloc_page(n)` and `alloc_sequential(n)` accepts first does not
    reach behind the table. -/
def WindowFits (m : Machine) (n : ℕ) : Prop :=
  ∀ w, 0xC0000 ≤ w → w < 0x100000 → windowAt m n w = true →
    (∀ v, 0xC0000 ≤ v → v < w → windowAt m n v = false) → w + n ≤ 0x100000

/-- A call that returned `r.1` for `n` pages. -/
def PageClient.after (s : PageClient) (r : ℕ × Machine) (n : ℕ) : PageClient :=
  ⟨r.2, if r.1 = 0 then s.returned else ⟨r.1, n⟩ :: s.returned⟩

/-- A call of the page allocator. A block that was returned may be given back at any time. -/
inductive PageStep (s : PageClient) : PageClient → Prop
  | allocPage (n : BitVec 32) (hfits : WindowFits s.machine n.toNat) :
      PageStep s (s.after (allocPage s.machine n.toNat) n.toNat)
  | allocSequential (n : BitVec 32) (hfits : WindowFits s.machine n.toNat) :
      PageStep s (s.after (allocSequential s.machine n.toNat) n.toNat)
  | mapPageTo (v : BitVec 32) : PageStep s (s.after (mapPageTo s.machine v.toNat) 1)
  | freePage (b : Block) (hb : b ∈ s.returned) :
      PageStep s ⟨freePage s.machine b.addr b.pages, s.returned⟩

/-- No page of the block is one of the table's. -/
def OffTable (b : Block) : Prop :=
  ∀ t < b.pages, u32 (b.addr + t * 0x1000) / 0x1000 / 1024 ≠ 769

/-- The tables are in force, and the blocks are beside them. -/
structure PagesKept (img : Image) (s : PageClient) : Prop where
  booted : Booted img s.machine
  offTable : ∀ b ∈ s.returned, OffTable b

section Steps

variable {img : Image} {m : Machine} {s s' : PageClient} {i n w : ℕ}

/-- The pages of the table are present. -/
theorem Booted.off_table_of_absent (h : Booted img m) (hi : i < 0x100000)
    (habs : (entry m i).present = false) : i / 1024 ≠ 769 := by
  intro hd
  have hself : selfPage m ((i - 0xC0400) * 0x1000) = i := by
    rw [selfPage, h.kernelTables]
    simp only [u32]
    omega
  have hpres := h.mapped.self_present (k := (i - 0xC0400) * 0x1000) (by omega)
  rw [hself, ← h.mapped.entry_eq hi, habs] at hpres
  exact absurd hpres (by decide)

/-- The pages of a window are not the table's. -/
theorem Booted.window_off_table (h : Booted img m) (hat : windowAt m n w = true)
    (hw : w < 0x100000) (hfits : w + n ≤ 0x100000) : ∀ t < n, (w + t) / 1024 ≠ 769 := by
  intro t ht
  have habs := absent_of_windowAt hat hw t ht
  rw [show u32 (w + t) = w + t from Nat.mod_eq_of_lt (by omega)] at habs
  exact h.off_table_of_absent (by omega) habs

theorem page_window (hfits : w + n ≤ 0x100000) {t : ℕ} (ht : t < n) :
    u32 ((w + t) * 0x1000) / 0x1000 = w + t := by
  rw [page_of_u32]
  omega

theorem offTable_window (hoff : ∀ t < n, (w + t) / 1024 ≠ 769) (hfits : w + n ≤ 0x100000) :
    OffTable ⟨w * 0x1000, n⟩ := by
  intro t ht
  dsimp only at ht ⊢
  rw [← Nat.add_mul, page_window hfits ht]
  exact hoff t ht

/-- A call keeps what it does not touch, and its block is beside the table. -/
theorem PagesKept.after (h : PagesKept img s) {r : ℕ × Machine} (hr : Booted img r.2)
    (hblock : r.1 ≠ 0 → OffTable ⟨r.1, n⟩) : PagesKept img (s.after r n) := by
  refine ⟨hr, fun b hb => ?_⟩
  simp only [PageClient.after] at hb
  split_ifs at hb with hz
  · exact h.offTable b hb
  · obtain rfl | hb := List.mem_cons.mp hb
    · exact hblock hz
    · exact h.offTable b hb

theorem PagesKept.allocPage (h : PagesKept img s) (hfits : WindowFits s.machine n) :
    PagesKept img (s.after (FirstOs.allocPage s.machine n) n) := by
  by_cases hn : n = 0
  · rw [FirstOs.allocPage, if_pos hn]
    exact h.after h.booted fun hne => absurd rfl hne
  obtain ⟨he, -⟩ | ⟨w, hw, hw', hat, hmin, he⟩ := allocPage_cases s.machine hn
  · rw [he]
    exact h.after h.booted fun hne => absurd rfl hne
  have hfit := hfits w hw hw' hat hmin
  have hoff := h.booted.window_off_table hat hw' hfit
  rw [he]
  refine h.after ?_ fun hne => ?_
  · refine allocPageMap_induct (P := fun t => Booted img t) (fun t step hstep _ ht => ?_) h.booted
    have hpage := page_window hfit hstep
    exact ht.mapAddr (by omega) (by rw [hpage]; exact hoff step hstep) _
  · rw [allocPageMap_fst s.machine w 0 hne]
    exact offTable_window hoff hfit

theorem PagesKept.allocSequential (h : PagesKept img s) (hfits : WindowFits s.machine n) :
    PagesKept img (s.after (FirstOs.allocSequential s.machine n) n) := by
  by_cases hn : n = 0
  · rw [FirstOs.allocSequential, if_pos hn]
    exact h.after h.booted fun hne => absurd rfl hne
  obtain ⟨he, -⟩ | ⟨w, j, hw, hw', hat, hmin, -, -, -, -, he⟩ := allocSequential_cases s.machine hn
  · rw [he]
    exact h.after h.booted fun hne => absurd rfl hne
  have hfit := hfits w hw hw' hat hmin
  have hoff := h.booted.window_off_table hat hw' hfit
  rw [he]
  refine h.after ?_ fun _ => offTable_window hoff hfit
  refine sequentialMap_induct (P := fun t => Booted img t) (fun t k hk ht => ?_) h.booted
  have hpage := page_window hfit hk
  exact ht.mapAddr (by omega) (by rw [hpage]; exact hoff k hk) _

theorem PagesKept.mapPageTo (h : PagesKept img s) {v : ℕ} (hv : v < 0x100000000) :
    PagesKept img (s.after (FirstOs.mapPageTo s.machine v) 1) := by
  rw [FirstOs.mapPageTo]
  dsimp only
  split_ifs with hpres hnone
  · exact h.after h.booted fun hne => absurd rfl hne
  · exact h.after h.booted fun hne => absurd rfl hne
  · have hoff := h.booted.off_table_of_absent (i := v / 0x1000) (by omega)
      (Bool.eq_false_of_not_eq_true hpres)
    refine h.after (h.booted.mapAddr (by omega) hoff _) fun _ t ht => ?_
    dsimp only at ht ⊢
    obtain rfl : t = 0 := by omega
    have hpage : u32 (v + 0 * 0x1000) / 0x1000 = v / 0x1000 := by
      simp only [u32]
      omega
    rwa [hpage]

theorem PagesKept.freePage (h : PagesKept img s) {b : Block} (hb : b ∈ s.returned) :
    PagesKept img ⟨FirstOs.freePage s.machine b.addr b.pages, s.returned⟩ := by
  refine ⟨freePageFrom_induct (P := fun t => Booted img t) (fun t k hk ht => ?_) h.booted,
    h.offTable⟩
  have hlt : u32 (b.addr + k * 0x1000) / 0x1000 < 0x100000 := by
    simp only [u32]
    omega
  exact ht.unmapVaddr hlt (h.offTable b hb k hk)

/-- A call keeps the tables in force. -/
theorem PageStep.keeps (hs : PageStep s s') (h : PagesKept img s) : PagesKept img s' := by
  cases hs with
  | allocPage n hfits => exact h.allocPage hfits
  | allocSequential n hfits => exact h.allocSequential hfits
  | mapPageTo v => exact h.mapPageTo v.isLt
  | freePage b hb => exact h.freePage hb

end Steps

/-! ### Runs from the boot on -/

/-- After `paging_init` and any calls of the page allocator, the walk from `kernel_page_dir`
    finds the entry of `kernel_tables`, which is read and written through that directory. -/
theorem walk_eq_kernelTables {img : Image} {m m' : Machine} {fuel : ℕ} {mbi : BitVec 32}
    {s : PageClient} (hboot : Boots img m) (hmbi : mbi.toNat < 0xC0000000)
    (hret : pagingInit img fuel m mbi.toNat = some m')
    (hrun : ReflTransGen PageStep ⟨m', []⟩ s) :
    s.machine.cr3 = img.kernelPageDir.addr - 0xC0000000 ∧
      s.machine.kernelTables = 0xC0400000 ∧
      ∀ v : BitVec 32, s.machine.walk (img.kernelPageDir.addr - 0xC0000000) v.toNat =
        some (entry s.machine (v.toNat / 0x1000)) := by
  have hstart : PagesKept img ⟨m', []⟩ :=
    ⟨booted_pagingInit hboot hmbi hret, fun b hb => absurd hb List.not_mem_nil⟩
  obtain ⟨hb, -⟩ := Run.invariant (I := PagesKept img) (fun _ _ hs h => PageStep.keeps hs h) hrun hstart
  have hcr3 : s.machine.cr3 = img.kernelPageDir.addr - 0xC0000000 := by
    rw [hb.cr3, ImagePage.addr_sub]
  refine ⟨hcr3, hb.kernelTables, fun v => ?_⟩
  rw [← hcr3]
  exact hb.mapped.walk_eq_entry v.isLt

/-- An image of four pages. -/
def smallImage : Image where
  bootPageDirectory := ⟨0x110, by decide, by decide⟩
  kernelPageDir := ⟨0x111, by decide, by decide⟩
  newBasePageTable := ⟨0x112, by decide, by decide⟩
  fullKernelTableStorage := ⟨0x113, by decide, by decide⟩
  distinct := by decide

/-- Memory with that image and a given first MiB. -/
def smallPhys (low : ByteMemory) : ByteMemory := fun a =>
  if a < 0x100000 then low a
  else if a / 0x1000 = 0x110 then ByteMemory.byteOf (bootDirWord (a % 0x1000 / 4)) (a % 4)
  else 0

/-- The machine `boot.asm` leaves. -/
def smallMachine (low : ByteMemory) : Machine where
  phys := smallPhys low
  cr3 := 0x110000
  kernelTables := 0xC0400000
  pmemUsed _ := 0
  unmapped _ := 0

section Small

variable (low : ByteMemory)

theorem smallMachine_phys : (smallMachine low).phys = smallPhys low := rfl

theorem smallMachine_cr3 : (smallMachine low).cr3 = 0x110000 := rfl

theorem smallMachine_low {a : ℕ} (ha : a + 3 < 0x100000) :
    ByteMemory.read32 (smallMachine low).phys a = ByteMemory.read32 low a := by
  rw [smallMachine_phys]
  refine ByteMemory.read32_congr fun k hk => ?_
  rw [smallPhys, if_pos (by omega)]

theorem boots_smallMachine : Boots smallImage (smallMachine low) := by
  refine ⟨rfl, rfl, fun d hd => ?_, fun p hp i hi => ?_⟩
  · have haddr : dirAddr (smallMachine low).cr3 d = 0x110000 + 4 * d := by
      rw [dirAddr, smallMachine_cr3]
    rw [haddr, Machine.word, ByteMemory.read32, smallMachine_phys,
      ← ByteMemory.wordOf_byteOf (bootDirWord d)]
    refine ByteMemory.wordOf_congr fun k hk => ?_
    rw [smallPhys, if_neg (by omega), if_pos (by omega),
      show (0x110000 + 4 * d + k) % 0x1000 / 4 = d by omega,
      show (0x110000 + 4 * d + k) % 4 = k by omega]
  · have hframe : 0x111 ≤ p.frame := by
      simp only [List.mem_cons, List.not_mem_nil, or_false] at hp
      obtain rfl | rfl | rfl := hp <;> decide
    have hzero : ByteMemory.wordOf (fun _ => 0) = 0 := by decide
    rw [Machine.word, ByteMemory.read32, smallMachine_phys, ← hzero]
    refine ByteMemory.wordOf_congr fun k hk => ?_
    rw [smallPhys, tableAddr, if_neg (by omega), if_neg (by omega)]

/-- The information at address 0, and a memory map in the same page. -/
theorem loadWord_small {a : ℕ} (ha : a < 0xFFD) :
    loadWord (mapped smallImage (smallMachine low) 0) (u32 a) = ByteMemory.read32 low a := by
  rw [u32, Nat.mod_eq_of_lt (by omega), loadWord_mapped (boots_smallMachine low) (by decide)
    (by omega) (by omega), smallMachine_low low (by omega)]

end Small

/-- Without a memory map, `paging_init` returns at the second entry it reads. -/
theorem pagingInit_small : pagingInit smallImage 0 (smallMachine fun _ => 0) 0 =
    some (setPmemUsed (mapped smallImage (smallMachine fun _ => 0) 0) (memsetPmemUsed
      (mapped smallImage (smallMachine fun _ => 0) 0).pmemUsed 255 256)) := by
  have hzero : ∀ a < 0xFFD, loadWord (mapped smallImage (smallMachine fun _ => 0) 0) (u32 a) = 0 :=
    fun a ha => by
      rw [loadWord_small _ ha, ByteMemory.read32]
      decide
  rw [pagingInit_eq, hzero _ (by decide)]
  generalize mapped smallImage (smallMachine fun _ => 0) 0 = s at hzero ⊢
  have htype : mmapType s 0 0 ≠ 1 := by
    rw [mmapType, hzero _ (by decide)]
    decide
  have haddr : mmapAddr s 0 1 = 0 := by
    rw [mmapAddr, loadDouble, hzero _ (by decide)]
    rw [show u32 (0 + 24 * 1 + 4) = u32 28 from rfl, hzero _ (by decide)]
    decide
  rw [show (0 : BitVec 32).toNat = 0 from rfl, scanMmap, if_pos (by decide),
    if_neg fun h => absurd h.1 (by decide), if_neg htype, scanMmap, if_pos (by decide),
    if_pos ⟨by decide, haddr⟩]
  rfl

end FirstOs
