import FirstOs.Machine.Runs

/-!
# The frames the boot marks free

`paging_init` marks all frames used, releases the pages of the available entries of the memory
map, and marks the first 8 MiB used again. It reads up to 15 entries and stops before that at
an entry, not the first, whose address is 0; the length of the map is not read. Of the address
of a page only the low 32 bits are used, and a page is released when its first byte, counted
from the start of the entry, is before the end.

## Main results

- `releaseRegion_bits`, `scanMmap_bits` — what the two loops release
- `pagingInit_free_iff` — the free frames after `paging_init`
- `onlyRam_iff` — when they are all available memory
- `releasesRam_of_aligned` — so it is for a map of whole pages below 4 GiB, read to its end
-/

namespace FirstOs

open AddressSpace Machine Relation

section Map

variable (s : Machine) (mmap length i k f x : ℕ)

/-- Entry `i` is available memory. -/
def Available : Prop := mmapType s mmap i = 1

/-- Byte `x` of physical memory is in entry `i`. -/
def InEntry : Prop :=
  (mmapAddr s mmap i).toNat ≤ x ∧ x < (mmapAddr s mmap i).toNat + (mmapLen s mmap i).toNat

/-- Every byte of the frame is in an available entry of the first `length` bytes of the map. -/
def RealFrame : Prop :=
  ∀ x, f * 0x1000 ≤ x → x < f * 0x1000 + 0x1000 →
    ∃ i, 24 * (i + 1) ≤ length ∧ Available s mmap i ∧ InEntry s mmap i x

/-- The scan from entry `i` on reads entry `j`. -/
def ReadFrom (j : ℕ) : Prop :=
  i ≤ j ∧ j < 15 ∧ ∀ l, i ≤ l → l ≤ j → ¬ (0 < l ∧ mmapAddr s mmap l = 0)

/-- The inner loop takes step `k` over entry `i`. -/
def Stepped : Prop :=
  (mmapAddr s mmap i).toNat + 0x1000 * k < (mmapAddr s mmap i + mmapLen s mmap i).toNat

/-- The frame released in step `k` over entry `i`. -/
def steppedFrame : ℕ := u32 ((mmapAddr s mmap i).toNat + 0x1000 * k) / 0x1000

/-- All frames that are free in `m` are available memory behind the first 8 MiB. -/
def OnlyRam (m : Machine) : Prop :=
  ∀ f < 0x100000, checkPhysPage m.pmemUsed (f * 0x1000) = false →
    0x800 ≤ f ∧ RealFrame s mmap length f

/-- All frames the scan releases are in the first 8 MiB or available memory. -/
def ReleasesRam : Prop :=
  ∀ i, ReadFrom s mmap 0 i → Available s mmap i → ∀ k, Stepped s mmap i k →
    steppedFrame s mmap i k < 0x800 ∨ RealFrame s mmap length (steppedFrame s mmap i k)

end Map

/-- `mbi->mmap_length`. -/
def mmapLength (s : Machine) (mbi : ℕ) : ℕ := (loadWord s (u32 (mbi + 44))).toNat

/-- `mbi->mmap_addr`. -/
def mmapPointer (s : Machine) (mbi : ℕ) : ℕ := (loadWord s (u32 (mbi + 48))).toNat

/-! ### The loops -/

section Loops

variable {s m : Machine} {b : Bitmap} {mmap fuel i : ℕ} {p : BitVec 64}

theorem mmapAddr_setPmemUsed : mmapAddr (setPmemUsed s b) mmap i = mmapAddr s mmap i := by
  simp only [mmapAddr, loadDouble, loadWord_setPmemUsed]

theorem mmapLen_setPmemUsed : mmapLen (setPmemUsed s b) mmap i = mmapLen s mmap i := by
  simp only [mmapLen, loadDouble, loadWord_setPmemUsed]

theorem mmapType_setPmemUsed : mmapType (setPmemUsed s b) mmap i = mmapType s mmap i :=
  loadWord_setPmemUsed s b _

/-- One turn of the inner loop. -/
theorem releaseRegion_succ : releaseRegion mmap i (fuel + 1) (setPmemUsed s b) p =
    if p < mmapAddr s mmap i + mmapLen s mmap i then
      releaseRegion mmap i fuel (setPmemUsed s (b.clear (u32 p.toNat / 0x1000))) (p + 0x1000)
    else some (setPmemUsed s b) := by
  rw [releaseRegion, mmapAddr_setPmemUsed, mmapLen_setPmemUsed]
  rfl

/-- The loop does not end when the last page address of the 64-bit range is before the end. -/
theorem releaseRegion_eq_none (h : 2 ^ 64 - 0x1000 + p.toNat % 0x1000 <
    (mmapAddr s mmap i + mmapLen s mmap i).toNat) :
    releaseRegion mmap i fuel (setPmemUsed s b) p = none := by
  induction fuel generalizing b p with
  | zero => rfl
  | succ fuel ih =>
    have hp := p.isLt
    have hlt : p < mmapAddr s mmap i + mmapLen s mmap i := by
      rw [BitVec.lt_def]
      omega
    have hnext : (p + 0x1000).toNat % 0x1000 = p.toNat % 0x1000 := by
      have hstep : (0x1000 : BitVec 64).toNat = 0x1000 := rfl
      rw [BitVec.toNat_add, hstep]
      omega
    rw [releaseRegion_succ, if_pos hlt]
    exact ih (by rwa [hnext])

/-- The inner loop, when it ends, has released one frame for each step. -/
theorem releaseRegion_bits (h : releaseRegion mmap i fuel (setPmemUsed s b) p = some m) :
    ∃ c, m = setPmemUsed s c ∧ ∀ f, c.bit f = true ↔ b.bit f = true ∧
      ∀ k, p.toNat + 0x1000 * k < (mmapAddr s mmap i + mmapLen s mmap i).toNat →
        u32 (p.toNat + 0x1000 * k) / 0x1000 ≠ f := by
  induction fuel generalizing b p with
  | zero => exact absurd h (by simp [releaseRegion])
  | succ fuel ih =>
    rw [releaseRegion_succ] at h
    split_ifs at h with hlt
    · rw [BitVec.lt_def] at hlt
      -- the next page address does not wrap, or the loop would go on for ever
      have hnext : (p + 0x1000).toNat = p.toNat + 0x1000 := by
        by_contra hwrap
        have hend := (mmapAddr s mmap i + mmapLen s mmap i).isLt
        have hsum : (p + 0x1000).toNat = (p.toNat + 0x1000) % 2 ^ 64 := by
          rw [BitVec.toNat_add]
          rfl
        rw [releaseRegion_eq_none (by omega)] at h
        exact absurd h (by simp)
      obtain ⟨c, rfl, hc⟩ := ih h
      refine ⟨c, rfl, fun f => ?_⟩
      rw [hc, Bitmap.bit_clear, Bool.and_eq_true, Bool.not_eq_true', decide_eq_false_iff_not,
        and_assoc, hnext]
      refine and_congr_right fun _ => ⟨?_, fun hall => ⟨?_, fun k hk => ?_⟩⟩
      · rintro ⟨hne, hrest⟩ k hk
        cases k with
        | zero => exact Ne.symm hne
        | succ k =>
          have hadd : p.toNat + 0x1000 * (k + 1) = p.toNat + 0x1000 + 0x1000 * k := by omega
          rw [hadd] at hk ⊢
          exact hrest k hk
      · exact (hall 0 hlt).symm
      · have hadd : p.toNat + 0x1000 + 0x1000 * k = p.toNat + 0x1000 * (k + 1) := by omega
        rw [hadd] at hk ⊢
        exact hall (k + 1) hk
    · rw [Option.some.injEq] at h
      refine ⟨b, h.symm, fun f => ⟨fun hf => ⟨hf, fun k hk => ?_⟩, And.left⟩⟩
      rw [BitVec.lt_def] at hlt
      omega

/-- The scan reads the entry it is at, and what the scan behind it reads. -/
theorem readFrom_succ {j : ℕ} (hi : i < 15) (hend : ¬ (0 < i ∧ mmapAddr s mmap i = 0)) :
    ReadFrom s mmap i j ↔ i = j ∨ ReadFrom s mmap (i + 1) j := by
  constructor
  · rintro ⟨hij, hj, hall⟩
    obtain rfl | hlt := Nat.eq_or_lt_of_le hij
    · exact .inl rfl
    · exact .inr ⟨hlt, hj, fun l hl hlj => hall l (by omega) hlj⟩
  · rintro (rfl | ⟨hij, hj, hall⟩)
    · refine ⟨le_refl i, hi, fun l hl hli => ?_⟩
      obtain rfl := le_antisymm hl hli
      exact hend
    · refine ⟨by omega, hj, fun l hl hlj => ?_⟩
      obtain rfl | hlt := Nat.eq_or_lt_of_le hl
      · exact hend
      · exact hall l hlt hlj

/-- The scan from entry `i` on, when it ends, has released the frames of the available entries
    it has read. -/
theorem scanMmap_bits (h : scanMmap mmap fuel (setPmemUsed s b) i = some m) :
    ∃ c, m = setPmemUsed s c ∧ ∀ f, c.bit f = true ↔ b.bit f = true ∧
      ∀ j, ReadFrom s mmap i j → Available s mmap j →
        ∀ k, Stepped s mmap j k → steppedFrame s mmap j k ≠ f := by
  induction hn : 15 - i generalizing b i with
  | zero =>
    rw [scanMmap, if_neg (by omega), Option.some.injEq] at h
    refine ⟨b, h.symm, fun f => ⟨fun hf => ⟨hf, ?_⟩, And.left⟩⟩
    rintro j ⟨hij, hj, -⟩
    omega
  | succ n ih =>
    have hi : i < 15 := by omega
    rw [scanMmap, if_pos hi, mmapAddr_setPmemUsed, mmapType_setPmemUsed] at h
    by_cases hend : 0 < i ∧ mmapAddr s mmap i = 0
    · rw [if_pos hend, Option.some.injEq] at h
      refine ⟨b, h.symm, fun f => ⟨fun hf => ⟨hf, ?_⟩, And.left⟩⟩
      rintro j ⟨hij, -, hall⟩
      exact absurd hend (hall i (le_refl i) hij)
    rw [if_neg hend] at h
    by_cases havail : mmapType s mmap i = 1
    · rw [if_pos havail] at h
      obtain ⟨r, hr, hrest⟩ := Option.bind_eq_some_iff.mp h
      obtain ⟨c, rfl, hc⟩ := releaseRegion_bits hr
      obtain ⟨d, rfl, hd⟩ := ih hrest (by omega)
      refine ⟨d, rfl, fun f => ?_⟩
      rw [hd, hc, and_assoc]
      refine and_congr_right fun _ => ⟨?_, fun hall => ⟨?_, fun j hj => ?_⟩⟩
      · rintro ⟨hfirst, htail⟩ j hj
        obtain rfl | hj := (readFrom_succ hi hend).mp hj
        · exact fun _ => hfirst
        · exact htail j hj
      · exact hall i ((readFrom_succ hi hend).mpr (.inl rfl)) havail
      · exact hall j ((readFrom_succ hi hend).mpr (.inr hj))
    · rw [if_neg havail] at h
      obtain ⟨d, rfl, hd⟩ := ih h (by omega)
      refine ⟨d, rfl, fun f => ?_⟩
      rw [hd]
      refine and_congr_right fun _ => ⟨fun htail j hj hj' => ?_, fun hall j hj => ?_⟩
      · obtain rfl | hj := (readFrom_succ hi hend).mp hj
        · exact absurd hj' havail
        · exact htail j hj hj'
      · exact hall j ((readFrom_succ hi hend).mpr (.inr hj))

end Loops

/-! ### The free frames -/

section Free

variable {img : Image} {m m' s : Machine} {fuel mmap mbi f length : ℕ}

theorem setPmemUsed_pmemUsed (m : Machine) (b : Bitmap) : (setPmemUsed m b).pmemUsed = b := rfl

theorem setPmemUsed_setPmemUsed (m : Machine) (b c : Bitmap) :
    setPmemUsed (setPmemUsed m b) c = setPmemUsed m c := rfl

theorem setPmemUsed_self (m : Machine) : setPmemUsed m m.pmemUsed = m := rfl

theorem bit_memsetPmemUsed (b : Bitmap) (n : ℕ) :
    (memsetPmemUsed b 255 n).bit f = (decide (f < 8 * n) || b.bit f) := by
  by_cases hf : f < 8 * n
  · have hbyte : memsetPmemUsed b 255 n (f / 8) = 255#8 := if_pos (by omega)
    rw [Bitmap.bit_of_byte_eq_allOnes hbyte, decide_eq_true hf, Bool.true_or]
  · have hbyte : memsetPmemUsed b 255 n (f / 8) = b (f / 8) := if_neg (by omega)
    rw [Bitmap.bit, Bitmap.bit, hbyte, decide_eq_false hf, Bool.false_or]

/-- After the map of the multiboot information, `paging_init` changes the bitmap only. -/
theorem pagingInit_eq_setPmemUsed (hret : pagingInit img fuel m mbi = some m') :
    ∃ b, m' = setPmemUsed (identityMap (buildTables img m) mbi) b := by
  obtain ⟨b, hb⟩ : ∃ b, mapped img m mbi = setPmemUsed (identityMap (buildTables img m) mbi) b :=
    ⟨_, rfl⟩
  rw [pagingInit_eq, hb] at hret
  obtain ⟨r, hr, rfl⟩ := Option.map_eq_some_iff.mp hret
  generalize identityMap (buildTables img m) mbi = s at hr ⊢
  obtain ⟨c, rfl, -⟩ := scanMmap_bits hr
  refine ⟨memsetPmemUsed c 255 256, ?_⟩
  rw [setPmemUsed_pmemUsed, setPmemUsed_setPmemUsed]

/-- The free frames after `paging_init` are those of the pages stepped over, but for the first
    8 MiB. -/
theorem pagingInit_free_iff (hret : pagingInit img fuel m mbi = some m') (hf : f < 0x100000) :
    checkPhysPage m'.pmemUsed (f * 0x1000) = false ↔
      0x800 ≤ f ∧ ∃ i, ReadFrom (mapped img m mbi) (mmapPointer (mapped img m mbi) mbi) 0 i ∧
        Available (mapped img m mbi) (mmapPointer (mapped img m mbi) mbi) i ∧
        ∃ k, Stepped (mapped img m mbi) (mmapPointer (mapped img m mbi) mbi) i k ∧
          steppedFrame (mapped img m mbi) (mmapPointer (mapped img m mbi) mbi) i k = f := by
  rw [pagingInit_eq] at hret
  obtain ⟨r, hr, rfl⟩ := Option.map_eq_some_iff.mp hret
  have hused : (mapped img m mbi).pmemUsed.bit f = true := by
    rw [mapped, setPmemUsed_pmemUsed, bit_memsetPmemUsed, decide_eq_true (by omega), Bool.true_or]
  generalize mapped img m mbi = s at hr hused ⊢
  have hr' : scanMmap (mmapPointer s mbi) fuel (setPmemUsed s s.pmemUsed) 0 = some r := by
    rw [setPmemUsed_self]
    exact hr
  obtain ⟨c, rfl, hc⟩ := scanMmap_bits hr'
  rw [setPmemUsed_pmemUsed, setPmemUsed_pmemUsed, checkPhysPage_frame, bit_memsetPmemUsed,
    Bool.or_eq_false_iff, decide_eq_false_iff_not, Bool.eq_false_iff, Ne, hc]
  refine and_congr (by omega) ?_
  simp only [hused, true_and, not_forall, exists_prop, ne_eq, not_not]

/-- Only available memory is free exactly when the scan releases nothing else. -/
theorem onlyRam_iff {mbi : BitVec 32} (hret : pagingInit img fuel m mbi.toNat = some m') :
    OnlyRam (mapped img m mbi.toNat) (mmapPointer (mapped img m mbi.toNat) mbi.toNat)
        (mmapLength (mapped img m mbi.toNat) mbi.toNat) m' ↔
      ReleasesRam (mapped img m mbi.toNat) (mmapPointer (mapped img m mbi.toNat) mbi.toNat)
        (mmapLength (mapped img m mbi.toNat) mbi.toNat) := by
  constructor
  · intro h i hread havail k hstep
    by_cases hlow : steppedFrame (mapped img m mbi.toNat)
        (mmapPointer (mapped img m mbi.toNat) mbi.toNat) i k < 0x800
    · exact .inl hlow
    · have hlt : steppedFrame (mapped img m mbi.toNat)
          (mmapPointer (mapped img m mbi.toNat) mbi.toNat) i k < 0x100000 := by
        simp only [steppedFrame, u32]
        omega
      have hfree := (pagingInit_free_iff hret hlt).mpr
        ⟨by omega, i, hread, havail, k, hstep, rfl⟩
      exact .inr (h _ hlt hfree).2
  · intro h f hf hfree
    obtain ⟨hlow, i, hread, havail, k, hstep, rfl⟩ := (pagingInit_free_iff hret hf).mp hfree
    refine ⟨hlow, ?_⟩
    obtain hlt | hreal := h i hread havail k hstep
    · exact absurd hlt (by omega)
    · exact hreal

/-- A map of whole pages below 4 GiB, of which no entry is read behind its end. -/
theorem releasesRam_of_aligned
    (hread : ∀ i, ReadFrom s mmap 0 i → Available s mmap i → 24 * (i + 1) ≤ length)
    (halign : ∀ i, ReadFrom s mmap 0 i → Available s mmap i →
      (mmapAddr s mmap i).toNat % 0x1000 = 0 ∧ (mmapLen s mmap i).toNat % 0x1000 = 0 ∧
        (mmapAddr s mmap i).toNat + (mmapLen s mmap i).toNat ≤ 0x100000000) :
    ReleasesRam s mmap length := by
  intro i hi havail k hstep
  obtain ⟨haddr, hlen, hend⟩ := halign i hi havail
  have hsum : (mmapAddr s mmap i + mmapLen s mmap i).toNat =
      (mmapAddr s mmap i).toNat + (mmapLen s mmap i).toNat := by
    rw [BitVec.toNat_add, Nat.mod_eq_of_lt (by omega)]
  rw [Stepped, hsum] at hstep
  have hframe : steppedFrame s mmap i k = (mmapAddr s mmap i).toNat / 0x1000 + k := by
    simp only [steppedFrame, u32]
    omega
  refine .inr fun x hx hx' => ⟨i, hread i hi havail, havail, ?_⟩
  rw [hframe] at hx hx'
  simp only [InEntry]
  omega

end Free

/-! ### A map of one page -/

section OnePage

variable (high : Bool)

/-- Multiboot information at address 0: a map of 24 bytes at `0x100`, whose entry is a page of
    available memory at `0x900000`, or at `0x100900000`, behind 4 GiB. -/
def pageMap : ByteMemory := fun a =>
  if a = 44 then 24 else if a = 49 then 1 else if a = 0x106 then 0x90
  else if a = 0x108 then if high then 1 else 0
  else if a = 0x10D then 0x10 else if a = 0x114 then 1 else 0

/-- The machine that reads that map. -/
def pageMachine : Machine := mapped smallImage (smallMachine (pageMap high)) 0

theorem loadWord_page {a : ℕ} (ha : a < 0xFFD) :
    loadWord (pageMachine high) (u32 a) = ByteMemory.read32 (pageMap high) a :=
  loadWord_small (pageMap high) ha

theorem mmapLength_page : mmapLength (pageMachine high) 0 = 24 := by
  rw [mmapLength, loadWord_page high (by decide)]
  decide +revert

theorem mmapPointer_page : mmapPointer (pageMachine high) 0 = 0x100 := by
  rw [mmapPointer, loadWord_page high (by decide)]
  decide +revert

theorem mmapType_page : mmapType (pageMachine high) 0x100 0 = 1 := by
  rw [mmapType, loadWord_page high (by decide)]
  decide +revert

theorem loadDouble_small (low : ByteMemory) {a : ℕ} (ha : a < 0xFF9) :
    loadDouble (mapped smallImage (smallMachine low) 0) (u32 a) =
      ByteMemory.read32 low (a + 4) ++ ByteMemory.read32 low a := by
  have hlow : u32 a = a := Nat.mod_eq_of_lt (by omega)
  rw [loadDouble, loadWord_small low (a := a) (by omega), hlow, loadWord_small low (by omega)]

theorem loadDouble_page {a : ℕ} (ha : a < 0xFF9) : loadDouble (pageMachine high) (u32 a) =
    ByteMemory.read32 (pageMap high) (a + 4) ++ ByteMemory.read32 (pageMap high) a :=
  loadDouble_small (pageMap high) ha

theorem mmapAddr_page :
    mmapAddr (pageMachine high) 0x100 0 = if high then 0x100900000 else 0x900000 := by
  rw [mmapAddr, loadDouble_page high (by decide)]
  decide +revert

theorem mmapLen_page : mmapLen (pageMachine high) 0x100 0 = 0x1000 := by
  rw [mmapLen, loadDouble_page high (by decide)]
  decide +revert

theorem mmapAddr_page_next : mmapAddr (pageMachine high) 0x100 1 = 0 := by
  rw [mmapAddr, loadDouble_page high (by decide)]
  decide +revert

theorem pagingInit_page :
    ∃ m', pagingInit smallImage 2 (smallMachine (pageMap high)) 0 = some m' := by
  rw [pagingInit_eq]
  change ∃ m', (scanMmap (mmapPointer (pageMachine high) 0) 2 (pageMachine high) 0).map _ = some m'
  rw [mmapPointer_page]
  have hscan : ∃ m', scanMmap 0x100 2 (pageMachine high) 0 = some m' := by
    have haddr := mmapAddr_page high
    have hlen := mmapLen_page high
    have htype := mmapType_page high
    have hnext := mmapAddr_page_next high
    generalize pageMachine high = s at haddr hlen htype hnext ⊢
    rw [scanMmap, if_pos (by decide), if_neg (by simp), if_pos htype, haddr, ← setPmemUsed_self s,
      releaseRegion_succ, haddr, hlen, if_pos (by cases high <;> decide), releaseRegion_succ, haddr, hlen,
      if_neg (by cases high <;> decide), Option.bind_some, scanMmap, if_pos (by decide),
      if_pos ⟨by decide, by rw [mmapAddr_setPmemUsed, hnext]⟩]
    exact ⟨_, rfl⟩
  obtain ⟨m', hm'⟩ := hscan
  rw [hm']
  exact ⟨_, rfl⟩

/-- The scan reads the entry and releases frame `0x900` for it. -/
theorem released_page : ReadFrom (pageMachine high) 0x100 0 0 ∧
    Available (pageMachine high) 0x100 0 ∧
    Stepped (pageMachine high) 0x100 0 0 ∧ steppedFrame (pageMachine high) 0x100 0 0 = 0x900 := by
  refine ⟨⟨le_refl 0, by decide, fun l _ hl h => ?_⟩, mmapType_page high, ?_, ?_⟩
  · exact absurd h.1 (by omega)
  · rw [Stepped, mmapAddr_page, mmapLen_page]
    decide +revert
  · rw [steppedFrame, mmapAddr_page]
    decide +revert

/-- So the frame is free after `paging_init`. -/
theorem freed_page {m' : Machine}
    (hret : pagingInit smallImage 2 (smallMachine (pageMap high)) 0 = some m') :
    checkPhysPage m'.pmemUsed (0x900 * 0x1000) = false := by
  have hfree := pagingInit_free_iff hret (f := 0x900) (by decide)
  change _ ↔ _ ∧ ∃ i, ReadFrom (pageMachine high) (mmapPointer (pageMachine high) 0) 0 i ∧
    Available (pageMachine high) (mmapPointer (pageMachine high) 0) i ∧
      ∃ k, Stepped (pageMachine high) (mmapPointer (pageMachine high) 0) i k ∧
        steppedFrame (pageMachine high) (mmapPointer (pageMachine high) 0) i k = 0x900 at hfree
  rw [mmapPointer_page] at hfree
  obtain ⟨hread, havail, hstep, hframe⟩ := released_page high
  exact hfree.mpr ⟨by decide, 0, hread, havail, 0, hstep, hframe⟩

end OnePage

/-- The map with memory behind 4 GiB has none at the frame. -/
theorem not_realFrame_high : ¬ RealFrame (pageMachine true) 0x100 24 0x900 := by
  intro hreal
  obtain ⟨i, hi, -, hle, -⟩ := hreal 0x900000 (by decide) (by decide)
  obtain rfl : i = 0 := by omega
  rw [mmapAddr_page] at hle
  exact absurd hle (by decide)

theorem onlyRam_iff_high : ∃ m', pagingInit smallImage 2 (smallMachine (pageMap true)) 0 = some m' ∧
    ¬ OnlyRam (pageMachine true) 0x100 24 m' := by
  obtain ⟨m', hret⟩ := pagingInit_page true
  have hiff := @onlyRam_iff smallImage (smallMachine (pageMap true)) m' 2 0#32 hret
  change OnlyRam (pageMachine true) (mmapPointer (pageMachine true) 0)
      (mmapLength (pageMachine true) 0) m' ↔
    ReleasesRam (pageMachine true) (mmapPointer (pageMachine true) 0)
      (mmapLength (pageMachine true) 0) at hiff
  rw [mmapPointer_page, mmapLength_page] at hiff
  refine ⟨m', hret, fun hram => ?_⟩
  obtain ⟨hread, havail, hstep, hframe⟩ := released_page true
  have hreleased := hiff.mp hram 0 hread havail 0 hstep
  rw [hframe] at hreleased
  exact hreleased.elim (by decide) not_realFrame_high

/-- A frame is free that no entry of the map is memory for. -/
theorem not_onlyRam : ¬ ∀ (img : Image) (m m' : Machine) (fuel : ℕ) (mbi : BitVec 32),
    Boots img m → pagingInit img fuel m mbi.toNat = some m' →
      OnlyRam (mapped img m mbi.toNat) (mmapPointer (mapped img m mbi.toNat) mbi.toNat)
        (mmapLength (mapped img m mbi.toNat) mbi.toNat) m' := by
  intro hall
  obtain ⟨m', hret⟩ := pagingInit_page true
  have hram := hall smallImage (smallMachine (pageMap true)) m' 2 0#32 (boots_smallMachine _) hret
  change OnlyRam (pageMachine true) (mmapPointer (pageMachine true) 0)
    (mmapLength (pageMachine true) 0) m' at hram
  rw [mmapPointer_page, mmapLength_page] at hram
  exact not_realFrame_high (hram 0x900 (by decide) (freed_page true hret)).2

/-! ### Calls after `paging_init` -/

section Calls

variable {img : Image} {m m' : Machine} {fuel mbi v : ℕ}

/-- `paging_init` leaves the pages behind the table absent. -/
theorem entry_pagingInit (h : Boots img m) (hmbi : mbi < 0xC0000000)
    (hret : pagingInit img fuel m mbi = some m') {i : ℕ} (hi : 0xC0800 ≤ i) (hi' : i < 0x100000) :
    (entry m' i).present = false := by
  obtain ⟨hbuilt, hfilled, -⟩ := booted_buildTables h
  obtain ⟨b, rfl⟩ := pagingInit_eq_setPmemUsed hret
  have hzero : initialWord (i / 1024) (i % 1024) = 0 := by
    rw [initialWord, if_neg (by omega), if_neg (by omega)]
  rw [entry_setPmemUsed, hbuilt.identityMap_entry hmbi (by omega) hi', hbuilt.mapped.entry_eq hi',
    entryAddr, hfilled _ (by omega) _ (by omega), hzero]
  rfl

/-- A page that is mapped and given back. -/
theorem mapPageTo_booted (h : Booted img m) (hv : v < 0x100000000)
    (habs : (entry m (v / 0x1000)).present = false) (hfree : findFreePhysPage m.pmemUsed ≠ 0) :
    (mapPageTo m v).1 = v ∧ (entry (mapPageTo m v).2 (v / 0x1000)).present = true ∧
      (entry (freePage (mapPageTo m v).2 v 1) (v / 0x1000)).present = false := by
  have hi : v / 0x1000 < 0x100000 := by omega
  have hoff := h.off_table_of_absent hi habs
  have hmap : mapPageTo m v = (v, mapAddr m v (findFreePhysPage m.pmemUsed)) := by
    rw [mapPageTo, habs, if_neg Bool.false_ne_true, pmemUsed_eq]
    exact if_neg hfree
  have hnext := h.mapAddr hi hoff (findFreePhysPage m.pmemUsed)
  have hgone : freePage (mapAddr m v (findFreePhysPage m.pmemUsed)) v 1 =
      unmapVaddr (mapAddr m v (findFreePhysPage m.pmemUsed)) v := by
    have hfirst : u32 (v + 0 * 0x1000) = v := Nat.mod_eq_of_lt (by omega)
    rw [freePage, freePageFrom, if_pos (by decide), hfirst, freePageFrom, if_neg (by decide)]
  rw [hmap]
  dsimp only
  rw [hgone, (hnext.unmapVaddr hi hoff).mapped.entry_eq hi, hnext.mapped.unmapVaddr_eq hi,
    set_word_self, PageTableEntry.decode_encode, hnext.mapped.entry_eq hi, h.mapped.mapAddr_eq hi,
    set_word_self, PageTableEntry.decode_encode]
  exact ⟨rfl, rfl, rfl⟩

end Calls

/-- A page is mapped to the frame of the map and given back, and the walk follows. -/
theorem walk_eq_kernelTables_page : ∃ m' s₁ s₂,
    pagingInit smallImage 2 (smallMachine (pageMap false)) 0 = some m' ∧
      PageStep ⟨m', []⟩ s₁ ∧ PageStep s₁ s₂ ∧
      (∃ e, s₁.machine.walk (smallImage.kernelPageDir.addr - 0xC0000000) 0xD0000123 = some e ∧
        e.present = true) ∧
      ∃ e, s₂.machine.walk (smallImage.kernelPageDir.addr - 0xC0000000) 0xD0000123 = some e ∧
        e.present = false := by
  obtain ⟨m', hret⟩ := pagingInit_page false
  have hboot := boots_smallMachine (pageMap false)
  have hmbi : (0#32).toNat < 0xC0000000 := by decide
  have hbooted := booted_pagingInit hboot hmbi hret
  have habs := entry_pagingInit hboot hmbi hret (i := 0xD0000) (by decide) (by decide)
  have hfree : findFreePhysPage m'.pmemUsed ≠ 0 := by
    intro hzero
    have hused := (findFreePhysPage_eq_zero_iff m'.pmemUsed).mp hzero 0x900 (by decide) (by decide)
    have hclear := freed_page false hret
    rw [checkPhysPage_frame, hused] at hclear
    exact Bool.noConfusion hclear
  obtain ⟨hreturned, hpresent, hgone⟩ := mapPageTo_booted (v := 0xD0000000) hbooted (by decide) habs
    hfree
  have hfirst : PageStep ⟨m', []⟩ (PageClient.after ⟨m', []⟩ (mapPageTo m' 0xD0000000) 1) :=
    PageStep.mapPageTo 0xD0000000#32
  have hblock : ⟨0xD0000000, 1⟩ ∈
      (PageClient.after ⟨m', []⟩ (mapPageTo m' 0xD0000000) 1).returned := by
    rw [PageClient.after, hreturned]
    exact List.mem_singleton_self _
  have hsecond := PageStep.freePage _ hblock
  have hwalk₁ := (walk_eq_kernelTables hboot hmbi hret (ReflTransGen.single hfirst)).2.2
    0xD0000123#32
  have hwalk₂ := (walk_eq_kernelTables hboot hmbi hret
    ((ReflTransGen.single hfirst).tail hsecond)).2.2 0xD0000123#32
  exact ⟨m', _, _, hret, hfirst, hsecond, ⟨_, hwalk₁, hpresent⟩, _, hwalk₂, hgone⟩

end FirstOs
