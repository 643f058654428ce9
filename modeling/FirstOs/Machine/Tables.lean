import FirstOs.Machine.Boot
import FirstOs.Memory.Fork

/-!
# The first tables are the hardware's

What `paging_init` leaves, stage by stage. Each loop writes an array whose translation
it does not change; the link of the directory changes it, but only to tables that say
the same of the image.

## Main results

- `WordWindow` — an array of words that a loop may change, and what the loop leaves
- `Booted` — the directory and the array of tables are the ones the processor walks
- `booted_pagingInit` — so it is after `paging_init`
-/

namespace FirstOs

open AddressSpace Machine

/-! ### Changing an array -/

/-- While `J` holds, entry `i` of the array at `arr` is the word at `addr i`, and changing it
    by `g i` keeps `J`. -/
structure WordWindow (J : Machine → Prop) (arr n : ℕ) (addr : ℕ → ℕ)
    (g : ℕ → Option (BitVec 32 → BitVec 32)) : Prop where
  mod : ∀ i < n, addr i % 4 = 0
  inj : ∀ i < n, ∀ j < n, addr i = addr j → i = j
  translate_eq : ∀ s, J s → ∀ i < n, s.translate (u32 (arr + 4 * i)) = some (addr i)
  keeps : ∀ s, J s → ∀ i < n, ∀ f, g i = some f →
    J (s.set s.pmemUsed (addr i) (f (s.word (addr i))))

section Array

variable {J : Machine → Prop} {arr n : ℕ} {addr : ℕ → ℕ}
  {g : ℕ → Option (BitVec 32 → BitVec 32)} {s : Machine} {i l a : ℕ}

theorem Machine.modifyWord_eq {m : Machine} {v a : ℕ} (h : m.translate v = some a)
    (f : BitVec 32 → BitVec 32) : m.modifyWord v f = m.set m.pmemUsed a (f (m.word a)) := by
  rw [Machine.modifyWord, Machine.writeWord, Machine.readWord, h]
  rfl

theorem WordWindow.step_eq (h : WordWindow J arr n addr g) (hs : J s) (hi : i < n)
    (f : BitVec 32 → BitVec 32) : s.modifyWord (u32 (arr + 4 * i)) f =
      s.set s.pmemUsed (addr i) (f (s.word (addr i))) :=
  modifyWord_eq (h.translate_eq s hs i hi) f

theorem WordWindow.modifyArray_keeps (h : WordWindow J arr n addr g) (hs : J s) :
    J (s.modifyArray arr g n i) := by
  fun_induction Machine.modifyArray s arr g n i with
  | case1 s i hi f hf ih =>
    refine ih ?_
    rw [h.step_eq hs hi]
    exact h.keeps s hs i hi f hf
  | case2 s i hi hf ih => exact ih hs
  | case3 s i hi => exact hs

/-- The loop changes no other word. -/
theorem WordWindow.modifyArray_outside (h : WordWindow J arr n addr g) (hs : J s) (ha : a % 4 = 0)
    (hout : ∀ l, i ≤ l → l < n → a ≠ addr l) : (s.modifyArray arr g n i).word a = s.word a := by
  fun_induction Machine.modifyArray s arr g n i with
  | case1 s i hi f hf ih =>
    have hstep := h.step_eq hs hi f
    rw [ih (by rw [hstep]; exact h.keeps s hs i hi f hf) fun l hl hl' => hout l (by omega) hl',
      hstep, set_word_of_ne _ _ _ _ (h.mod i hi) ha (hout i (le_refl i) hi)]
  | case2 s i hi hf ih => exact ih hs fun l hl hl' => hout l (by omega) hl'
  | case3 s i hi => rfl

/-- The loop changes each entry once, or not at all. -/
theorem WordWindow.modifyArray_inside (h : WordWindow J arr n addr g) (hs : J s) (hil : i ≤ l)
    (hl : l < n) :
    (s.modifyArray arr g n i).word (addr l) = (g l).getD id (s.word (addr l)) := by
  fun_induction Machine.modifyArray s arr g n i with
  | case1 s i hi f hf ih =>
    have hstep := h.step_eq hs hi f
    have hkeep : J (s.modifyWord (u32 (arr + 4 * i)) f) := by
      rw [hstep]
      exact h.keeps s hs i hi f hf
    obtain rfl | hlt := Nat.eq_or_lt_of_le hil
    · -- the turns after this one change other words
      rw [h.modifyArray_outside hkeep (h.mod i hi) fun l hl hl' heq => by
        have := h.inj i hi l hl' heq
        omega]
      rw [hstep, set_word_self, hf, Option.getD_some]
    · rw [ih hkeep hlt, hstep, set_word_of_ne _ _ _ _ (h.mod i hi) (h.mod l hl) fun heq => by
        have := h.inj l hl i hi heq
        omega]
  | case2 s i hi hf ih =>
    obtain rfl | hlt := Nat.eq_or_lt_of_le hil
    · rw [h.modifyArray_outside hs (h.mod i hi) fun l hl hl' heq => by
        have := h.inj i hi l hl' heq
        omega]
      rw [hf, Option.getD_none, id]
    · exact ih hs hlt
  | case3 s i hi => omega

/-- A window that keeps another property of the state as well. -/
theorem WordWindow.and (h : WordWindow J arr n addr g) {K : Machine → Prop}
    (hK : ∀ s, K s → ∀ i < n, ∀ f, g i = some f →
      K (s.set s.pmemUsed (addr i) (f (s.word (addr i))))) :
    WordWindow (fun s => J s ∧ K s) arr n addr g :=
  ⟨h.mod, h.inj, fun s hs => h.translate_eq s hs.1,
    fun s hs i hi f hf => ⟨h.keeps s hs.1 i hi f hf, hK s hs.2 i hi f hf⟩⟩

/-- `s` has the first MiB of `m`, which no array of the paging code is in. -/
def KeepsLow (m s : Machine) : Prop := ∀ a < 0x100000, s.phys a = m.phys a

theorem KeepsLow.refl (m : Machine) : KeepsLow m m := fun _ _ => rfl

theorem KeepsLow.trans {m r : Machine} (h : KeepsLow m s) (hr : KeepsLow s r) : KeepsLow m r :=
  fun a ha => (hr a ha).trans (h a ha)

theorem KeepsLow.set {m : Machine} (h : KeepsLow m s) (b : Bitmap) {f : ℕ} (hf : 0x100 ≤ f)
    (i : ℕ) (w : BitVec 32) : KeepsLow m (s.set b (tableAddr f i) w) := by
  intro a ha
  rw [← h a ha]
  refine ByteMemory.write32_of_not_mem _ _ (Or.inl ?_)
  simp only [tableAddr]
  omega

theorem WordWindow.keepsLow {f : ℕ} (h : WordWindow J arr n (tableAddr f) g) (hs : J s)
    (hf : 0x100 ≤ f) : KeepsLow s (s.modifyArray arr g n i) :=
  ((h.and (K := KeepsLow s) fun _ hr l _ _ _ => hr.set _ hf l _).modifyArray_keeps
    ⟨hs, KeepsLow.refl s⟩).2

end Array

/-! ### Words that map -/

/-- The word is a directory entry that names the table in frame `t`. -/
structure NamesTable (w : BitVec 32) (t : ℕ) : Prop where
  present : (PageDirEntry.decode w).present = true
  size : (PageDirEntry.decode w).size = false
  frame : (PageDirEntry.decode w).frame = t

/-- The word is a table entry that maps frame `f`. -/
structure MapsFrame (w : BitVec 32) (f : ℕ) : Prop where
  present : (PageTableEntry.decode w).present = true
  frame : (PageTableEntry.decode w).frame = f

/-- The table in frame `t` maps the image. -/
def MapsImage (s : Machine) (t : ℕ) : Prop :=
  ∀ x, 0x100 ≤ x → x < 0x3FF → MapsFrame (s.word (tableAddr t x)) x

/-- The table in frame `t` maps the 4 MiB of the new tables. -/
def MapsStorage (s : Machine) (t : ℕ) : Prop :=
  ∀ x < 1024, MapsFrame (s.word (tableAddr t x)) (0x400 + x)

section Words

variable {m s : Machine} {w : BitVec 32} {f t v : ℕ}

theorem mapsFrame_pteTo (hf : f < 0x100000) (w : BitVec 32) : MapsFrame (pteTo f w) f := by
  constructor
  · rw [pteTo, PageTableEntry.decode_encode]
  · rw [pteTo, PageTableEntry.decode_encode, PageTableEntry.frame, BitVec.toNat_ofNat]
    exact Nat.mod_eq_of_lt hf

theorem namesTable_pdeTo (hf : f < 0x100000) (hw : (PageDirEntry.decode w).size = false) :
    NamesTable (pdeTo f w) f := by
  constructor
  · rw [pdeTo, PageDirEntry.decode_encode]
  · rw [pdeTo, PageDirEntry.decode_encode]
    exact hw
  · rw [pdeTo, PageDirEntry.decode_encode, PageDirEntry.frame, BitVec.toNat_ofNat]
    exact Nat.mod_eq_of_lt hf

theorem namesTable_userPdeTo (hf : f < 0x100000) (hw : (PageDirEntry.decode w).size = false) :
    NamesTable (userPdeTo f w) f := by
  constructor
  · rw [userPdeTo, PageDirEntry.decode_encode]
  · rw [userPdeTo, PageDirEntry.decode_encode]
    exact hw
  · rw [userPdeTo, PageDirEntry.decode_encode, PageDirEntry.frame, BitVec.toNat_ofNat]
    exact Nat.mod_eq_of_lt hf

theorem dirAddr_frame (f d : ℕ) : dirAddr (f * 0x1000) d = tableAddr f d := by
  rw [dirAddr, Nat.mul_div_cancel f (by decide), tableAddr]

/-- The translation by a table. -/
theorem translate_of_words (hdir : NamesTable (m.word (dirAddr m.cr3 (v / 0x400000))) t)
    (htab : MapsFrame (m.word (tableAddr t (v / 0x1000 % 1024))) f) :
    m.translate v = some (f * 0x1000 + v % 0x1000) := by
  have hwalk : m.walk m.cr3 v =
      some (PageTableEntry.decode (m.word (tableAddr t (v / 0x1000 % 1024)))) := by
    rw [walk, pde, hdir.present, hdir.size, hdir.frame]
    rfl
  rw [translate_of_walk hwalk, htab.present, htab.frame, if_pos rfl]

theorem MapsImage.congr (h : MapsImage m t)
    (hs : ∀ x < 1024, s.word (tableAddr t x) = m.word (tableAddr t x)) : MapsImage s t := by
  intro x hx hx'
  rw [hs x (by omega)]
  exact h x hx hx'

theorem MapsStorage.congr (h : MapsStorage m t)
    (hs : ∀ x < 1024, s.word (tableAddr t x) = m.word (tableAddr t x)) : MapsStorage s t := by
  intro x hx
  rw [hs x hx]
  exact h x hx

/-- Entries of different tables are different words. -/
theorem tableAddr_ne {f' x x' : ℕ} (hx : x < 1024) (hx' : x' < 1024) (hne : f ≠ f' ∨ x ≠ x') :
    tableAddr f x ≠ tableAddr f' x' := by
  simp only [tableAddr]
  omega

/-- Setting an entry of a table leaves the other tables alone. -/
theorem set_table_word {b : Bitmap} {x i : ℕ} (hx : x < 1024) (hi : i < 1024)
    (hne : t ≠ f ∨ x ≠ i) : (m.set b (tableAddr f i) w).word (tableAddr t x) =
      m.word (tableAddr t x) :=
  set_word_of_ne _ _ _ _ (tableAddr_mod f i) (tableAddr_mod t x) (tableAddr_ne hx hi hne)

end Words

/-! ### The boot directory -/

section Phases

variable {img : Image} {m s : Machine} {i d v n : ℕ}

theorem Image.frames_ne (img : Image) :
    img.kernelPageDir.frame ≠ img.bootPageDirectory.frame ∧
    img.newBasePageTable.frame ≠ img.bootPageDirectory.frame ∧
    img.newBasePageTable.frame ≠ img.kernelPageDir.frame ∧
    img.fullKernelTableStorage.frame ≠ img.kernelPageDir.frame ∧
    img.fullKernelTableStorage.frame ≠ img.newBasePageTable.frame := by
  have h := img.distinct
  simp only [List.nodup_cons, List.mem_cons, List.not_mem_nil, or_false, not_or] at h
  obtain ⟨⟨h1, h2, -⟩, ⟨h3, h4⟩, h5, -⟩ := h
  exact ⟨Ne.symm h1, Ne.symm h2, Ne.symm h3, Ne.symm h4, Ne.symm h5⟩

theorem ImagePage.addr_sub (p : ImagePage) : p.addr - 0xC0000000 = p.frame * 0x1000 := by
  simp only [ImagePage.addr]
  omega

theorem ImagePage.addr_sub_div (p : ImagePage) : (p.addr - 0xC0000000) / 0x1000 = p.frame := by
  rw [p.addr_sub, Nat.mul_div_cancel p.frame (by decide)]

/-- The address of entry `i` of an array in the image. -/
theorem ImagePage.entry_addr (p : ImagePage) (hi : i < 1024) :
    u32 (p.addr + 4 * i) / 0x400000 = 768 ∧ u32 (p.addr + 4 * i) / 0x1000 % 1024 = p.frame ∧
      u32 (p.addr + 4 * i) % 0x1000 = 4 * i ∧ u32 (p.addr + 4 * i) = p.addr + 4 * i := by
  have hlower := p.lower
  have hupper := p.upper
  simp only [ImagePage.addr, u32]
  omega

/-- The image is mapped by the directory of `boot.asm`. -/
structure BootMapped (img : Image) (s : Machine) : Prop where
  cr3 : s.cr3 = img.bootPageDirectory.frame * 0x1000
  kernelTables : s.kernelTables = 0xC0400000
  dir : s.word (tableAddr img.bootPageDirectory.frame 768) = bootDirWord 768

theorem Boots.bootMapped (h : Boots img m) : BootMapped img m := by
  have hcr3 := h.cr3
  rw [ImagePage.addr_sub] at hcr3
  refine ⟨hcr3, h.kernelTables, ?_⟩
  rw [← dirAddr_frame, ← hcr3]
  exact h.bootDir 768 (by decide)

/-- The 4 MiB from 3 GiB on are the first 4 MiB of physical memory. -/
theorem BootMapped.translate (h : BootMapped img s) (hv : 0xC0000000 ≤ v) (hv' : v < 0xC0400000) :
    s.translate v = some (v - 0xC0000000) := by
  have hpde : s.pde s.cr3 v = PageDirEntry.decode (bootDirWord 768) := by
    rw [pde, show v / 0x400000 = 768 by omega, h.cr3, dirAddr_frame, h.dir]
  have hflags : ((PageDirEntry.decode (bootDirWord 768)).present &&
      (PageDirEntry.decode (bootDirWord 768)).size) = true := by decide
  have hframe : (PageDirEntry.decode (bootDirWord 768)).frame = 0 := by decide
  rw [Machine.translate, hpde, if_pos hflags, hframe, Option.some.injEq]
  omega

theorem BootMapped.translate_eq (h : BootMapped img s) (p : ImagePage) (hi : i < 1024) :
    s.translate (u32 (p.addr + 4 * i)) = some (tableAddr p.frame i) := by
  obtain ⟨-, -, -, hu⟩ := p.entry_addr hi
  have hupper := p.upper
  rw [hu, ImagePage.addr, h.translate (by omega) (by omega), tableAddr, Option.some.injEq]
  omega

theorem BootMapped.window (p : ImagePage) (hp : p.frame ≠ img.bootPageDirectory.frame)
    (hn : n ≤ 1024) (g : ℕ → Option (BitVec 32 → BitVec 32)) :
    WordWindow (BootMapped img) p.addr n (tableAddr p.frame) g := by
  refine ⟨fun i _ => tableAddr_mod _ _, fun i hi j hj heq => ?_, fun s hs i hi => ?_,
    fun s hs i hi f _ => ?_⟩
  · simp only [tableAddr] at heq
    omega
  · exact hs.translate_eq p (by omega)
  · refine ⟨hs.cr3, hs.kernelTables, ?_⟩
    rw [set_table_word (by decide) (by omega) (Or.inl hp.symm)]
    exact hs.dir

/-- The directory names the table for the image, and no entry of it has the size bit. -/
structure ImageDir (img : Image) (s : Machine) : Prop where
  base : NamesTable (s.word (tableAddr img.kernelPageDir.frame 768)) img.newBasePageTable.frame
  size : ∀ d < 1024,
    (PageDirEntry.decode (s.word (tableAddr img.kernelPageDir.frame d))).size = false

theorem ImageDir.congr (h : ImageDir img m) (hs : ∀ d < 1024,
    s.word (tableAddr img.kernelPageDir.frame d) = m.word (tableAddr img.kernelPageDir.frame d)) :
    ImageDir img s := by
  constructor
  · rw [hs 768 (by decide)]
    exact h.base
  · intro d hd
    rw [hs d hd]
    exact h.size d hd

/-- The entry for the image in the empty directory. -/
theorem imageDir_set (b : Bitmap) (hzero : ∀ d < 1024,
    m.word (tableAddr img.kernelPageDir.frame d) = 0) :
    ImageDir img (m.set b (tableAddr img.kernelPageDir.frame 768)
      (pdeTo img.newBasePageTable.frame
        (m.word (tableAddr img.kernelPageDir.frame 768)))) := by
  have hupper := img.newBasePageTable.upper
  have hnames : NamesTable (pdeTo img.newBasePageTable.frame
      (m.word (tableAddr img.kernelPageDir.frame 768))) img.newBasePageTable.frame := by
    rw [hzero 768 (by decide)]
    exact namesTable_pdeTo (by omega) (by decide)
  constructor
  · rw [set_word_self]
    exact hnames
  · intro d hd
    by_cases hd' : d = 768
    · rw [hd', set_word_self]
      exact hnames.size
    · rw [set_table_word hd (by decide) (Or.inr hd'), hzero d hd]
      decide

/-- `new_base_page_table`, while the boot directory is in force. -/
theorem baseWindow (img : Image) (hn : n ≤ 1024) (g : ℕ → Option (BitVec 32 → BitVec 32)) :
    WordWindow (fun s => BootMapped img s ∧ ImageDir img s) img.newBasePageTable.addr n
      (tableAddr img.newBasePageTable.frame) g := by
  obtain ⟨-, hnb, hnd, -, -⟩ := img.frames_ne
  refine (BootMapped.window _ hnb hn g).and fun s hs i hi f _ => hs.congr fun d hd => ?_
  exact set_table_word hd (by omega) (Or.inl hnd.symm)

/-! ### The first stage -/

/-- The image is mapped by a table of its own. -/
structure ImageMapped (img : Image) (s : Machine) : Prop extends ImageDir img s where
  cr3 : s.cr3 = img.kernelPageDir.frame * 0x1000
  kernelTables : s.kernelTables = 0xC0400000
  image : MapsImage s img.newBasePageTable.frame

theorem imageMapped_mapImage (h : Boots img m) :
    ImageMapped img (mapImage img m) ∧ KeepsLow m (mapImage img m) := by
  obtain ⟨hdb, -⟩ := img.frames_ne
  -- the directory entry
  have hwin := BootMapped.window img.kernelPageDir hdb (le_refl 1024)
    fun _ => some (pdeTo img.newBasePageTable.frame)
  have hboot := hwin.keeps m h.bootMapped 768 (by decide) _ rfl
  have hdir := @imageDir_set img m m.pmemUsed (h.bss _ (by simp))
  have hlow := (KeepsLow.refl m).set m.pmemUsed img.kernelPageDir.lower 768
    (pdeTo img.newBasePageTable.frame (m.word (tableAddr img.kernelPageDir.frame 768)))
  rw [mapImage, ImagePage.addr_sub_div, hwin.step_eq h.bootMapped (i := 768) (by decide)]
  generalize m.set m.pmemUsed _ _ = m1 at hboot hdir hlow ⊢
  -- the table, but its last entry
  have hwin1 := baseWindow img (n := 1023) (by decide) lowEntry
  obtain ⟨hboot2, hdir2⟩ := hwin1.modifyArray_keeps ⟨hboot, hdir⟩ (i := 0)
  have himage : MapsImage (m1.modifyArray img.newBasePageTable.addr lowEntry 1023 0)
      img.newBasePageTable.frame := by
    intro x hx hx'
    have hentry : lowEntry x = some (pteTo x) := if_pos (by omega)
    rw [hwin1.modifyArray_inside ⟨hboot, hdir⟩ (Nat.zero_le x) hx', hentry]
    exact mapsFrame_pteTo (by omega) _
  have hlow2 := hlow.trans
    (hwin1.keepsLow (i := 0) ⟨hboot, hdir⟩ img.newBasePageTable.lower)
  generalize m1.modifyArray img.newBasePageTable.addr lowEntry 1023 0 = m2 at *
  -- the last entry
  have hwin2 := baseWindow img (le_refl 1024) fun _ => some (pteTo 0xB8)
  obtain ⟨hboot3, hdir3⟩ := hwin2.keeps m2 ⟨hboot2, hdir2⟩ 1023 (by decide) _ rfl
  rw [hwin2.step_eq ⟨hboot2, hdir2⟩ (i := 1023) (by decide)]
  have himage3 : MapsImage (m2.set m2.pmemUsed (tableAddr img.newBasePageTable.frame 1023)
      (pteTo 0xB8 (m2.word (tableAddr img.newBasePageTable.frame 1023))))
      img.newBasePageTable.frame := by
    intro x hx hx'
    rw [set_table_word (by omega) (by decide) (Or.inr (by omega))]
    exact himage x hx hx'
  have hlow3 := hlow2.set m2.pmemUsed img.newBasePageTable.lower 1023
    (pteTo 0xB8 (m2.word (tableAddr img.newBasePageTable.frame 1023)))
  generalize m2.set m2.pmemUsed _ _ = m3 at *
  refine ⟨⟨hdir3.congr fun d _ => loadCr3_word .., ?_, ?_,
    himage3.congr fun x _ => loadCr3_word ..⟩, fun a ha => ?_⟩
  · rw [loadCr3_cr3, ImagePage.addr_sub]
  · rw [loadCr3_kernelTables]
    exact hboot3.kernelTables
  · rw [loadCr3_phys]
    exact hlow3 a ha

/-! ### The second stage -/

/-- An entry of an array in the image, through a table that maps the image. -/
theorem translate_image {t : ℕ} (hcr3 : s.cr3 = img.kernelPageDir.frame * 0x1000)
    (hdir : NamesTable (s.word (tableAddr img.kernelPageDir.frame 768)) t) (himage : MapsImage s t)
    (p : ImagePage) (hi : i < 1024) :
    s.translate (u32 (p.addr + 4 * i)) = some (tableAddr p.frame i) := by
  obtain ⟨hd, hx, ho, -⟩ := p.entry_addr hi
  have htr := translate_of_words (m := s) (v := u32 (p.addr + 4 * i)) (t := t) (f := p.frame)
    (by rw [hd, hcr3, dirAddr_frame]; exact hdir)
    (by rw [hx]; exact himage p.frame p.lower p.upper)
  rw [htr, ho, tableAddr]

/-- A byte of the 4 MiB of the new tables, through a table that maps them. -/
theorem translate_storage {t k : ℕ} (hcr3 : s.cr3 = img.kernelPageDir.frame * 0x1000)
    (hdir : NamesTable (s.word (tableAddr img.kernelPageDir.frame 769)) t)
    (hstorage : MapsStorage s t) (hk : k < 0x400000) :
    s.translate (u32 (0xC0400000 + k)) = some (0x400000 + k) := by
  have hu : u32 (0xC0400000 + k) = 0xC0400000 + k := Nat.mod_eq_of_lt (by omega)
  have hd : (0xC0400000 + k) / 0x400000 = 769 := by omega
  have hx : (0xC0400000 + k) / 0x1000 % 1024 = k / 0x1000 := by omega
  have htr := translate_of_words (m := s) (v := 0xC0400000 + k) (t := t)
    (f := 0x400 + k / 0x1000) (by rw [hd, hcr3, dirAddr_frame]; exact hdir)
    (by rw [hx]; exact hstorage _ (by omega))
  rw [hu, htr, Option.some.injEq]
  omega

/-- The new tables are mapped as well. -/
structure StorageMapped (img : Image) (s : Machine) : Prop extends ImageMapped img s where
  storageDir : NamesTable (s.word (tableAddr img.kernelPageDir.frame 769))
    img.fullKernelTableStorage.frame
  storage : MapsStorage s img.fullKernelTableStorage.frame

theorem ImageMapped.congr (h : ImageMapped img m) (hcr3 : s.cr3 = m.cr3)
    (hkt : s.kernelTables = m.kernelTables) (hs : ∀ p : ImagePage,
      p.frame = img.kernelPageDir.frame ∨ p.frame = img.newBasePageTable.frame →
      ∀ x < 1024, s.word (tableAddr p.frame x) = m.word (tableAddr p.frame x)) :
    ImageMapped img s :=
  ⟨h.toImageDir.congr (hs img.kernelPageDir (Or.inl rfl)), hcr3.trans h.cr3, hkt.trans h.kernelTables,
    h.image.congr (hs img.newBasePageTable (Or.inr rfl))⟩

theorem StorageMapped.congr (h : StorageMapped img m) (hcr3 : s.cr3 = m.cr3)
    (hkt : s.kernelTables = m.kernelTables) (hs : ∀ p : ImagePage, ∀ x < 1024,
      s.word (tableAddr p.frame x) = m.word (tableAddr p.frame x)) : StorageMapped img s := by
  refine ⟨h.toImageMapped.congr hcr3 hkt fun p _ => hs p, ?_, h.storage.congr (hs _)⟩
  rw [hs img.kernelPageDir 769 (by decide)]
  exact h.storageDir

/-- The directory entry for the new tables. -/
theorem ImageMapped.set_storageDir (h : ImageMapped img m) (b : Bitmap) :
    let s := m.set b (tableAddr img.kernelPageDir.frame 769)
      (pdeTo img.fullKernelTableStorage.frame (m.word (tableAddr img.kernelPageDir.frame 769)))
    ImageMapped img s ∧ NamesTable (s.word (tableAddr img.kernelPageDir.frame 769))
      img.fullKernelTableStorage.frame := by
  obtain ⟨-, -, hnd, -⟩ := img.frames_ne
  have hupper := img.fullKernelTableStorage.upper
  have hnames := namesTable_pdeTo (f := img.fullKernelTableStorage.frame) (by omega)
    (h.size 769 (by decide))
  refine ⟨⟨⟨?_, ?_⟩, h.cr3, h.kernelTables, ?_⟩, ?_⟩
  · rw [set_table_word (by decide) (by decide) (Or.inr (by decide))]
    exact h.base
  · intro d hd
    by_cases hd' : d = 769
    · rw [hd', set_word_self]
      exact hnames.size
    · rw [set_table_word hd (by decide) (Or.inr hd')]
      exact h.size d hd
  · exact h.image.congr fun x hx => set_table_word hx (by decide) (Or.inl hnd)
  · rw [set_word_self]
    exact hnames

/-- `full_kernel_table_storage`, while the first directory is in force. -/
theorem storageWindow (img : Image) (g : ℕ → Option (BitVec 32 → BitVec 32)) :
    WordWindow (fun s => ImageMapped img s ∧
        NamesTable (s.word (tableAddr img.kernelPageDir.frame 769)) img.fullKernelTableStorage.frame)
      img.fullKernelTableStorage.addr 1024 (tableAddr img.fullKernelTableStorage.frame) g := by
  obtain ⟨-, -, -, hfd, hfn⟩ := img.frames_ne
  refine ⟨fun i _ => tableAddr_mod _ _, fun i hi j hj heq => ?_, fun s hs i hi => ?_,
    fun s hs i hi f _ => ⟨hs.1.congr rfl rfl fun p hp x hx => ?_, ?_⟩⟩
  · simp only [tableAddr] at heq
    omega
  · exact translate_image hs.1.cr3 hs.1.base hs.1.image _ hi
  · refine set_table_word hx hi (Or.inl ?_)
    obtain hp | hp := hp
    · rw [hp]
      exact hfd.symm
    · rw [hp]
      exact hfn.symm
  · rw [set_table_word (by decide) hi (Or.inl hfd.symm)]
    exact hs.2

theorem storageMapped_mapStorage (h : ImageMapped img m) :
    StorageMapped img (mapStorage img m) ∧ KeepsLow m (mapStorage img m) := by
  have hwin := storageWindow img storageEntry
  have hstep := modifyWord_eq (translate_image h.cr3 h.base h.image img.kernelPageDir
    (i := 768 + 1) (by decide)) (pdeTo img.fullKernelTableStorage.frame)
  rw [mapStorage, ImagePage.addr_sub_div, hstep]
  have hset := h.set_storageDir m.pmemUsed
  have hlow := (KeepsLow.refl m).set m.pmemUsed img.kernelPageDir.lower 769
    (pdeTo img.fullKernelTableStorage.frame (m.word (tableAddr img.kernelPageDir.frame 769)))
  dsimp only at hset ⊢
  generalize m.set m.pmemUsed _ _ = m1 at hset hlow ⊢
  obtain ⟨himage, hdir⟩ := hwin.modifyArray_keeps hset (i := 0)
  refine ⟨⟨himage, hdir, fun x hx => ?_⟩,
    hlow.trans (hwin.keepsLow hset img.fullKernelTableStorage.lower)⟩
  rw [hwin.modifyArray_inside hset (Nat.zero_le x) hx]
  exact mapsFrame_pteTo (by omega) _

/-! ### The third stage -/

/-- Setting a word of a frame behind the image. -/
theorem StorageMapped.set (h : StorageMapped img m) (b : Bitmap) {f : ℕ} (hf : 0x400 ≤ f)
    (hi : i < 1024) (w : BitVec 32) : StorageMapped img (m.set b (tableAddr f i) w) :=
  h.congr rfl rfl fun p x hx => set_table_word hx hi (Or.inl (by have := p.upper; omega))

/-- The 4 MiB of the new tables as a window. -/
theorem storageBytes (img : Image) :
    ByteWindow Machine.phys (StorageMapped img) 0xC0400000 0x400000 (Flat.frameByte 0x400) := by
  refine window_of_translate (fun s hs x hx =>
    translate_storage hs.cr3 hs.storageDir hs.storage hx) fun s hs x hx b =>
    hs.congr rfl rfl fun p i hi => ByteMemory.read32_congr fun k hk => ?_
  have hupper := p.upper
  rw [withPhys_phys, Function.update_of_ne]
  simp only [tableAddr, Flat.frameByte]
  omega

/-- The new table `d` as an array, while the first directory is in force. -/
theorem newTableWindow (img : Image) (hd : d < 1024) (hn : n ≤ 1024)
    (g : ℕ → Option (BitVec 32 → BitVec 32)) :
    WordWindow (StorageMapped img) (0xC0400000 + 4 * (d * 1024)) n (tableAddr (0x400 + d)) g := by
  refine ⟨fun i _ => tableAddr_mod _ _, fun i hi j hj heq => ?_, fun s hs i hi => ?_,
    fun s hs i hi f _ => hs.set _ (by omega) (by omega) _⟩
  · simp only [tableAddr] at heq
    omega
  · have htr := translate_storage hs.cr3 hs.storageDir hs.storage
      (k := 4 * (d * 1024) + 4 * i) (by omega)
    rw [Nat.add_assoc, htr, tableAddr, Option.some.injEq]
    omega

/-- The frame of part `d` of the new table. -/
def newTab (d : ℕ) : ℕ := 0x400 + d

/-- Entry `x` of part `d` of the new table, as `paging_init` fills it. -/
def initialWord (d x : ℕ) : BitVec 32 :=
  if d = 768 then
    if x = 1023 then pteTo 0xB8 0
    else if 0x100000 ≤ x * 0x1000 then pteTo x 0
    else 0
  else if d = 769 then pteTo (0x400000 / 0x1000 + x) 0
  else 0

/-- The new table has its first entries. -/
def Filled (s : Machine) : Prop :=
  ∀ d < 1024, ∀ x < 1024, s.word (tableAddr (newTab d) x) = initialWord d x

theorem Filled.mapsImage (h : Filled s) : MapsImage s 0x700 := by
  intro x hx hx'
  have hword : initialWord 768 x = pteTo x 0 := by
    rw [initialWord, if_pos rfl, if_neg (by omega), if_pos (by omega)]
  rw [show 0x700 = newTab 768 from rfl, h 768 (by decide) x (by omega), hword]
  exact mapsFrame_pteTo (by omega) _

theorem Filled.mapsStorage (h : Filled s) : MapsStorage s 0x701 := by
  intro x hx
  have hword : initialWord 769 x = pteTo (0x400 + x) 0 := rfl
  rw [show 0x701 = newTab 769 from rfl, h 769 (by decide) x hx, hword]
  exact mapsFrame_pteTo (by omega) _

theorem frameByte_inj {f x y : ℕ} (h : Flat.frameByte f x = Flat.frameByte f y) : x = y :=
  Nat.add_left_cancel h

/-- The 4 MiB of the new tables, cleared. -/
theorem memset_newTables (h : StorageMapped img m) :
    StorageMapped img (memset m 0xC0400000 0 0x400000) ∧
      (∀ d < 1024, ∀ x < 1024,
        (memset m 0xC0400000 0 0x400000).word (tableAddr (newTab d) x) = 0) ∧
      KeepsLow m (memset m 0xC0400000 0 0x400000) := by
  have hwin := storageBytes img
  rw [memset_eq_memcpyFrom_zero _ _ _ (by decide)]
  refine ⟨memcpyFrom_keeps _ hwin h (le_refl _), fun d hd x hx => ?_, fun a ha => ?_⟩
  · have hbyte := memcpyFrom_inside (i := 0) (c := fun _ => 0) (fun _ _ => 0) hwin
      (fun x _ y _ heq => frameByte_inj heq) h (le_refl _) (fun _ _ _ _ => rfl)
      fun x hx => absurd hx (Nat.not_lt_zero x)
    have hzero : ByteMemory.wordOf (fun _ => 0) = 0 := by decide
    rw [Machine.word, ByteMemory.read32, ← hzero]
    refine ByteMemory.wordOf_congr fun k hk => ?_
    have haddr : tableAddr (newTab d) x + k = Flat.frameByte 0x400 (d * 0x1000 + 4 * x + k) := by
      simp only [tableAddr, newTab, Flat.frameByte]
      omega
    rw [haddr]
    exact hbyte _ (by omega)
  · refine memcpyFrom_outside _ hwin h (le_refl _) fun x _ heq => ?_
    simp only [Flat.frameByte] at heq
    omega

/-- A loop over the first `n` entries of part `d` of the new table. -/
theorem StorageMapped.fill (h : StorageMapped img m) (hd : d < 1024) (hn : n ≤ 1024)
    (g : ℕ → Option (BitVec 32 → BitVec 32)) :
    let s := m.modifyArray (m.kernelTables + 4 * (d * 1024)) g n 0
    StorageMapped img s ∧
      (∀ e < 1024, ∀ x < 1024, s.word (tableAddr (newTab e) x) =
        if e = d ∧ x < n then (g x).getD id (m.word (tableAddr (newTab e) x))
        else m.word (tableAddr (newTab e) x)) ∧
      KeepsLow m s := by
  have hwin := newTableWindow img hd hn g
  rw [h.kernelTables]
  refine ⟨hwin.modifyArray_keeps h, fun e he x hx => ?_, hwin.keepsLow h (by omega)⟩
  split_ifs with hin
  · obtain ⟨rfl, hxn⟩ := hin
    exact hwin.modifyArray_inside h (Nat.zero_le x) hxn
  · refine hwin.modifyArray_outside h (tableAddr_mod _ _) fun l _ hl => ?_
    refine tableAddr_ne hx (by omega) ?_
    unfold newTab
    omega

/-- Setting one entry of part `d` of the new table. -/
theorem StorageMapped.fillEntry (h : StorageMapped img m) (hd : d < 1024) (hi : i < 1024)
    (f : BitVec 32 → BitVec 32) :
    let s := m.modifyWord (u32 (m.kernelTables + 4 * (d * 1024 + i))) f
    StorageMapped img s ∧
      (∀ e < 1024, ∀ x < 1024, s.word (tableAddr (newTab e) x) =
        if e = d ∧ x = i then f (m.word (tableAddr (newTab e) x))
        else m.word (tableAddr (newTab e) x)) ∧
      KeepsLow m s := by
  have hwin := newTableWindow img hd (le_refl 1024) fun _ => some f
  rw [h.kernelTables, Nat.mul_add, ← Nat.add_assoc, hwin.step_eq h hi f]
  refine ⟨hwin.keeps m h i hi f rfl, fun e he x hx => ?_,
    (KeepsLow.refl m).set m.pmemUsed (by omega) i _⟩
  split_ifs with hin
  · obtain ⟨rfl, rfl⟩ := hin
    exact set_word_self ..
  · refine set_table_word hx hi ?_
    unfold newTab
    omega

theorem filled_fillTables (h : StorageMapped img m) :
    StorageMapped img (fillTables m) ∧ Filled (fillTables m) ∧ KeepsLow m (fillTables m) := by
  obtain ⟨hzero, hword₁, hlow₁⟩ := memset_newTables h
  obtain ⟨hkeep₂, hword₂, hlow₂⟩ := hzero.fill (d := 768) (n := 1023) (by decide) (by decide)
    lowEntry
  obtain ⟨hkeep₃, hword₃, hlow₃⟩ := hkeep₂.fillEntry (d := 768) (i := 1023) (by decide) (by decide)
    (pteTo 0xB8)
  obtain ⟨hkeep₄, hword₄, hlow₄⟩ := hkeep₃.fill (d := 769) (by decide) (le_refl 1024) storageEntry
  refine ⟨hkeep₄, fun d hd x hx => ?_, hlow₁.trans (hlow₂.trans (hlow₃.trans hlow₄))⟩
  refine (hword₄ d hd x hx).trans ?_
  rw [hword₃ d hd x hx, hword₂ d hd x hx, hword₁ d hd x hx, initialWord]
  by_cases h769 : d = 769
  · rw [if_pos ⟨h769, hx⟩, if_neg (by omega), if_neg (by omega), if_neg (by omega), if_pos h769]
    rfl
  rw [if_neg fun hin => h769 hin.1, if_neg h769]
  by_cases h768 : d = 768
  · rw [if_pos h768]
    by_cases h1023 : x = 1023
    · rw [if_pos ⟨h768, h1023⟩, if_neg (by omega), if_pos h1023]
    · rw [if_neg fun hin => h1023 hin.2, if_pos ⟨h768, by omega⟩, if_neg h1023, lowEntry]
      split_ifs <;> rfl
  · rw [if_neg fun hin => h768 hin.1, if_neg fun hin => h768 hin.1, if_neg h768]

/-! ### Linking the directory -/

/-- While the directory is linked: whichever table its entry for the image names maps the image,
    and so do the new tables. -/
structure Linking (img : Image) (s : Machine) : Prop where
  cr3 : s.cr3 = img.kernelPageDir.frame * 0x1000
  kernelTables : s.kernelTables = 0xC0400000
  size : ∀ d < 1024,
    (PageDirEntry.decode (s.word (tableAddr img.kernelPageDir.frame d))).size = false
  dir : ∃ t, t ≠ img.kernelPageDir.frame ∧
    NamesTable (s.word (tableAddr img.kernelPageDir.frame 768)) t ∧ MapsImage s t
  image : MapsImage s 0x700
  storage : MapsStorage s 0x701

/-- `kernel_page_dir` in the loop that links it. -/
theorem linkWindow (img : Image) : WordWindow (Linking img) img.kernelPageDir.addr 1024
    (tableAddr img.kernelPageDir.frame) linkEntry := by
  have hupper := img.kernelPageDir.upper
  refine ⟨fun i _ => tableAddr_mod _ _, fun i hi j hj heq => ?_, fun s hs i hi => ?_,
    fun s hs i hi f hf => ?_⟩
  · simp only [tableAddr] at heq
    omega
  · obtain ⟨t, -, hdir, himage⟩ := hs.dir
    exact translate_image hs.cr3 hdir himage _ hi
  · rw [linkEntry, Option.some.injEq] at hf
    subst hf
    have hnames := namesTable_userPdeTo (f := 0x400 + i) (by omega) (hs.size i hi)
    have himage : MapsImage (s.set s.pmemUsed (tableAddr img.kernelPageDir.frame i)
        (userPdeTo (0x400 + i) (s.word (tableAddr img.kernelPageDir.frame i)))) 0x700 :=
      hs.image.congr fun x hx => set_table_word hx hi (Or.inl (by omega))
    refine ⟨hs.cr3, hs.kernelTables, fun d hd => ?_, ?_, himage, ?_⟩
    · by_cases hd' : d = i
      · rw [hd', set_word_self]
        exact hnames.size
      · rw [set_table_word hd hi (Or.inr hd')]
        exact hs.size d hd
    · by_cases h768 : 768 = i
      · -- from here on the new table maps the image
        refine ⟨0x700, by omega, ?_, himage⟩
        rw [← h768, set_word_self, h768]
        rw [← h768] at hnames ⊢
        exact hnames
      · obtain ⟨t, hne, hdir, ht⟩ := hs.dir
        refine ⟨t, hne, ?_, ht.congr fun x hx => set_table_word hx hi (Or.inl hne)⟩
        rw [set_table_word (by decide) hi (Or.inr h768)]
        exact hdir
    · exact hs.storage.congr fun x hx => set_table_word hx hi (Or.inl (by omega))

/-- The new tables are in force: `kernel_tables` is the table the processor walks. -/
structure Booted (img : Image) (m : Machine) : Prop where
  mapped : Mapped m newTab
  cr3 : m.cr3 = img.kernelPageDir.frame * 0x1000
  kernelTables : m.kernelTables = 0xC0400000

/-- The tables before the directory is linked to them. -/
theorem linking_fillTables (h : Boots img m) :
    Linking img (fillTables (mapStorage img (mapImage img m))) ∧
      Filled (fillTables (mapStorage img (mapImage img m))) ∧
      KeepsLow m (fillTables (mapStorage img (mapImage img m))) := by
  obtain ⟨-, -, hnd, -⟩ := img.frames_ne
  obtain ⟨himage, hlow1⟩ := imageMapped_mapImage h
  obtain ⟨hstorage, hlow2⟩ := storageMapped_mapStorage himage
  obtain ⟨hs, hfilled, hlow3⟩ := filled_fillTables hstorage
  exact ⟨⟨hs.cr3, hs.kernelTables, hs.size, ⟨_, hnd, hs.base, hs.image⟩, hfilled.mapsImage,
    hfilled.mapsStorage⟩, hfilled, (hlow1.trans hlow2).trans hlow3⟩

/-- The first half of `paging_init`: the tables in force, their entries, and the first MiB. -/
theorem booted_buildTables (h : Boots img m) : Booted img (buildTables img m) ∧
    Filled (buildTables img m) ∧ KeepsLow m (buildTables img m) := by
  have hupper := img.kernelPageDir.upper
  obtain ⟨hlink, hfilled, hlow⟩ := linking_fillTables h
  rw [buildTables]
  generalize fillTables (mapStorage img (mapImage img m)) = s at hlink hfilled hlow ⊢
  have hwin := linkWindow img
  have hfin := hwin.modifyArray_keeps hlink (i := 0)
  have hlow4 := hlow.trans (hwin.keepsLow (i := 0) hlink img.kernelPageDir.lower)
  have hfilled4 : Filled (s.modifyArray img.kernelPageDir.addr linkEntry 1024 0) := by
    intro d hd x hx
    rw [hwin.modifyArray_outside hlink (tableAddr_mod _ _) fun l _ hl =>
      tableAddr_ne hx hl (Or.inl (by unfold newTab; omega)), hfilled d hd x hx]
  have hdir : ∀ d < 1024, NamesTable ((s.modifyArray img.kernelPageDir.addr linkEntry 1024 0).word
      (tableAddr img.kernelPageDir.frame d)) (newTab d) := by
    intro d hd
    rw [hwin.modifyArray_inside hlink (Nat.zero_le d) hd]
    exact namesTable_userPdeTo (by omega) (hlink.size d hd)
  generalize s.modifyArray img.kernelPageDir.addr linkEntry 1024 0 = q at hfin hdir hlow4 hfilled4 ⊢
  refine ⟨⟨⟨fun d hd => ?_, fun k hk => ?_⟩, hfin.cr3, hfin.kernelTables⟩, hfilled4, hlow4⟩
  · rw [hfin.cr3, dirAddr_frame]
    exact ⟨(hdir d hd).present, (hdir d hd).size, (hdir d hd).frame⟩
  · rw [hfin.kernelTables, translate_storage hfin.cr3 (hdir 769 (by decide)) hfin.storage hk,
      Option.some.injEq, Flat.frameByte, newTab]
    omega

end Phases

/-! ### Reading the memory map -/

section Booted

variable {img : Image} {m m' : Machine} {i v : ℕ}

theorem newTab_inj : ∀ d < 1024, ∀ e < 1024, newTab d = newTab e → d = e := by
  simp only [newTab]
  omega

/-- The entries that do not map the table may be written. -/
theorem Booted.writable (h : Booted img m) (hi : i < 0x100000) (hd : i / 1024 ≠ 769) :
    Writable m newTab i := by
  constructor
  · intro d hd heq
    have hupper := img.kernelPageDir.upper
    rw [h.cr3, dirAddr_frame] at heq
    simp only [entryAddr, tableAddr, newTab] at heq
    omega
  · intro k hk heq
    have hself : selfPage m k = 0xC0400 + k / 0x1000 := by
      rw [selfPage, h.kernelTables]
      simp only [u32]
      omega
    have := entryAddr_inj newTab_inj (by omega) hi heq
    omega

theorem Booted.setPmemUsed (h : Booted img m) (b : Bitmap) :
    Booted img (AddressSpace.setPmemUsed m b) :=
  ⟨h.mapped.of_words rfl rfl (fun _ _ => rfl) fun _ _ => rfl, h.cr3, h.kernelTables⟩

theorem Booted.setEntry (h : Booted img m) (hi : i < 0x100000) (hd : i / 1024 ≠ 769) (b : Bitmap)
    (e : PageTableEntry) : Booted img (AddressSpace.setEntry (AddressSpace.setPmemUsed m b) i e) := by
  rw [h.mapped.setEntry_eq hi]
  exact ⟨h.mapped.set (h.writable hi hd) b e.encode, h.cr3, h.kernelTables⟩

theorem Booted.mapAddr (h : Booted img m) (hv : v / 0x1000 < 0x100000)
    (hd : v / 0x1000 / 1024 ≠ 769) (paddr : ℕ) : Booted img (FirstOs.mapAddr m v paddr) :=
  h.setEntry hv hd _ _

theorem Booted.unmapVaddr (h : Booted img m) (hv : v / 0x1000 < 0x100000)
    (hd : v / 0x1000 / 1024 ≠ 769) : Booted img (FirstOs.unmapVaddr m v) :=
  h.setEntry hv hd _ _

theorem Booted.identityMap (h : Booted img m) (hv : v < 0xC0000000) :
    Booted img (FirstOs.identityMap m v) := by
  rw [FirstOs.identityMap]
  dsimp only
  split_ifs
  · exact h
  · exact h.setEntry (by omega) (by omega) _ _

/-- `identity_map` of a page below the kernel leaves the entries of the kernel alone. -/
theorem Booted.identityMap_entry (h : Booted img m) (hv : v < 0xC0000000)
    (hi : 0xC0000 ≤ i) (hi' : i < 0x100000) : entry (FirstOs.identityMap m v) i = entry m i := by
  have hb := h.identityMap hv
  rw [hb.mapped.entry_eq hi', h.mapped.entry_eq hi']
  rw [FirstOs.identityMap]
  dsimp only
  split_ifs
  · rfl
  · rw [h.mapped.setEntry_eq (by omega), set_word_of_ne _ _ _ _ (entryAddr_mod newTab _)
      (entryAddr_mod newTab _)]
    intro heq
    have := entryAddr_inj newTab_inj hi' (by omega) heq
    omega

theorem Booted.releaseRegion {mmap fuel : ℕ} {physptr : BitVec 64} (h : Booted img m)
    (hret : releaseRegion mmap i fuel m physptr = some m') : Booted img m' := by
  induction fuel generalizing m physptr with
  | zero => exact absurd hret (by simp [FirstOs.releaseRegion])
  | succ fuel ih =>
    rw [FirstOs.releaseRegion] at hret
    split_ifs at hret
    · exact ih (h.setPmemUsed _) hret
    · rw [Option.some.injEq] at hret
      exact hret ▸ h

theorem Booted.scanMmap {mmap fuel : ℕ} (h : Booted img m)
    (hret : scanMmap mmap fuel m i = some m') : Booted img m' := by
  fun_induction FirstOs.scanMmap mmap fuel m i with
  | case1 m i hi hend =>
    rw [Option.some.injEq] at hret
    exact hret ▸ h
  | case2 m i hi hend htype ih =>
    obtain ⟨s, hs, hret⟩ := Option.bind_eq_some_iff.mp hret
    exact ih s (h.releaseRegion hs) hret
  | case3 m i hi hend htype ih => exact ih h hret
  | case4 m i hi =>
    rw [Option.some.injEq] at hret
    exact hret ▸ h

/-- `paging_init`, when it returns, leaves the new tables in force. -/
theorem booted_pagingInit {fuel mbi : ℕ} (h : Boots img m) (hmbi : mbi < 0xC0000000)
    (hret : pagingInit img fuel m mbi = some m') : Booted img m' := by
  obtain ⟨s, hs, rfl⟩ := Option.map_eq_some_iff.mp hret
  have htables := (booted_buildTables h).1.identityMap hmbi
  exact ((htables.setPmemUsed _).scanMmap hs).setPmemUsed _

end Booted

/-! ### The first MiB after the switch -/

section Low

variable {img : Image} {m : Machine} {mbi a : ℕ}

theorem load_setPmemUsed (m : Machine) (b : Bitmap) (v : ℕ) :
    AddressSpace.load (setPmemUsed m b) v = AddressSpace.load m v := rfl

theorem entry_setPmemUsed (m : Machine) (b : Bitmap) (i : ℕ) :
    entry (setPmemUsed m b) i = entry m i := rfl

theorem initialWord_of_ne {d : ℕ} (hd : d ≠ 768) (hd' : d ≠ 769) (x : ℕ) : initialWord d x = 0 := by
  rw [initialWord, if_neg hd, if_neg hd']

/-- `identity_map` of an absent page. -/
theorem identityMap_of_absent (h : (entry m (mbi / 0x1000)).present = false) :
    identityMap m mbi = setEntry (setPmemUsed m (claimPhysPage m.pmemUsed mbi)) (mbi / 0x1000)
      { entry (setPmemUsed m (claimPhysPage m.pmemUsed mbi)) (mbi / 0x1000) with
        address := BitVec.ofNat 20 (mbi / 0x1000), readwrite := true, present := true } := by
  rw [identityMap]
  dsimp only
  rw [if_neg]
  rw [h, Bool.false_and, Bool.false_and]
  exact Bool.false_ne_true

/-- A page of the first MiB that `identity_map` maps reads as the boot loader left it. -/
theorem load_identityMap (h : Boots img m) (hmbi : mbi < 0x100000)
    (ha : a / 0x1000 = mbi / 0x1000) :
    AddressSpace.load (identityMap (buildTables img m) mbi) a = m.phys a := by
  obtain ⟨hb, hfilled, hlow⟩ := booted_buildTables h
  generalize buildTables img m = s at hb hfilled hlow ⊢
  have hword := hfilled 0 (by decide) (mbi / 0x1000) (by omega)
  have haddr : entryAddr newTab (mbi / 0x1000) = tableAddr (newTab 0) (mbi / 0x1000) := by
    rw [entryAddr, Nat.div_eq_of_lt (by omega), Nat.mod_eq_of_lt (by omega)]
  have hentry : entry s (mbi / 0x1000) = PageTableEntry.decode 0 := by
    rw [hb.mapped.entry_eq (by omega), haddr, hword,
      initialWord_of_ne (by decide) (by decide)]
  have hstep : identityMap s mbi = s.set (claimPhysPage s.pmemUsed mbi)
      (entryAddr newTab (mbi / 0x1000)) (pteTo (mbi / 0x1000) 0) := by
    have habs : (entry s (mbi / 0x1000)).present = false := by
      rw [hentry]
      rfl
    rw [identityMap_of_absent habs, hb.mapped.setEntry_eq (by omega), entry_setPmemUsed, hentry,
      pteTo]
  have hmapped := hb.mapped.set (hb.writable (i := mbi / 0x1000) (by omega) (by omega))
    (claimPhysPage s.pmemUsed mbi) (pteTo (mbi / 0x1000) 0)
  have hkeep := hlow.set (claimPhysPage s.pmemUsed mbi) (f := newTab 0) (by decide)
    (mbi / 0x1000) (pteTo (mbi / 0x1000) 0)
  have hpte := mapsFrame_pteTo (f := mbi / 0x1000) (by omega) 0
  have hself := set_word_self s (claimPhysPage s.pmemUsed mbi) (entryAddr newTab (mbi / 0x1000))
    (pteTo (mbi / 0x1000) 0)
  rw [hstep]
  rw [← haddr] at hkeep
  generalize s.set _ _ _ = q at hmapped hkeep hself ⊢
  have htr : q.translate a = some a := by
    rw [hmapped.translate_eq (by omega), ha, hself, hpte.present, hpte.frame, if_pos rfl,
      Option.some.injEq]
    omega
  show q.load a = _
  rw [Machine.load, htr]
  exact hkeep a (by omega)

/-- The machine that reads the memory map. -/
def mapped (img : Image) (m : Machine) (mbi : ℕ) : Machine :=
  setPmemUsed (identityMap (buildTables img m) mbi)
    (memsetPmemUsed (identityMap (buildTables img m) mbi).pmemUsed 255 0x20000)

theorem loadWord_setPmemUsed (m : Machine) (b : Bitmap) (v : ℕ) :
    loadWord (setPmemUsed m b) v = loadWord m v :=
  ByteMemory.wordOf_congr fun k _ => load_setPmemUsed m b (u32 (v + k))

/-- `paging_init` from the reading of the memory map on. -/
theorem pagingInit_eq (img : Image) (fuel : ℕ) (m : Machine) (mbi : ℕ) :
    pagingInit img fuel m mbi =
      (scanMmap (loadWord (mapped img m mbi) (u32 (mbi + 48))).toNat fuel (mapped img m mbi) 0).map
        fun s => setPmemUsed s (memsetPmemUsed s.pmemUsed 255 256) := by
  rw [mapped, loadWord_setPmemUsed]
  rfl

/-- A word of the page of the multiboot information. -/
theorem loadWord_mapped (h : Boots img m) (hmbi : mbi < 0x100000)
    (ha : a / 0x1000 = mbi / 0x1000) (ha' : (a + 3) / 0x1000 = mbi / 0x1000) :
    loadWord (mapped img m mbi) a = ByteMemory.read32 m.phys a := by
  rw [mapped, loadWord_setPmemUsed, loadWord, ByteMemory.read32]
  refine ByteMemory.wordOf_congr fun k hk => ?_
  rw [u32, Nat.mod_eq_of_lt (by omega)]
  exact load_identityMap h hmbi (by omega)

end Low

end FirstOs
