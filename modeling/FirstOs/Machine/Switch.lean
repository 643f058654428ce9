import FirstOs.Console.Vga
import FirstOs.Machine.MemoryMap

/-!
# What the switch of tables keeps mapped

Under the directory of `boot.asm` the 4 MiB from 3 GiB on are the first 4 MiB of physical
memory, the text buffer of the console among them. `paging_init` maps the image at the same
addresses, but only from 1 MiB on, and the text buffer by the last entry of the image's table,
at `0xC03FF000`, where the console does not write.

## Main results

- `switch_keeps_image` — the image is mapped as before
- `switch_loses_text` — no address of the text buffer is mapped
-/

namespace FirstOs

open AddressSpace Machine

/-- The page of `v` is present and writable, by the directory entry and by the table entry. -/
def Machine.mapsWritable (m : Machine) (v : ℕ) : Bool :=
  (m.pde m.cr3 v).present && (m.pde m.cr3 v).readwrite &&
    ((m.pde m.cr3 v).size || (m.walk m.cr3 v).any fun e => e.present && e.readwrite)

/-- The addresses of the kernel image. -/
def imageRange : Set ℕ := {v | 0xC0100000 ≤ v ∧ v < 0xC03FF000}

/-- The addresses of the text buffer that the console writes. -/
def textBuffer : Set ℕ := {v | ∃ index < 2000, v = vgaBuffer + 2 * index}

/-- `v` is present and writable in `m'`, and translates as in `m`, to the address 3 GiB below. -/
structure KeptAt (m m' : Machine) (v : ℕ) : Prop where
  writable : m'.mapsWritable v = true
  same : m'.translate v = m.translate v
  physical : m'.translate v = some (v - 0xC0000000)

/-- The switch keeps what the kernel uses mapped. -/
def SwitchKeeps (m m' : Machine) : Prop := ∀ v ∈ imageRange ∪ textBuffer, KeptAt m m' v

section Switch

variable {img : Image} {m m' s : Machine} {d i v mbi fuel : ℕ}

/-- The directory entries after the link. -/
theorem pde_buildTables (h : Boots img m) (hd : d < 1024) :
    ∃ w, (buildTables img m).word (tableAddr img.kernelPageDir.frame d) =
      userPdeTo (0x400 + d) w := by
  obtain ⟨hlink, -, -⟩ := linking_fillTables h
  rw [buildTables, (linkWindow img).modifyArray_inside hlink (Nat.zero_le d) hd]
  exact ⟨_, rfl⟩

/-- `identity_map` changes the entry of its page only. -/
theorem identityMap_word (h : Booted img s) (hmbi : mbi < 0xC0000000) {a : ℕ}
    (ha : a % 4 = 0) (hne : a ≠ entryAddr newTab (mbi / 0x1000)) :
    (identityMap s mbi).word a = s.word a := by
  rw [identityMap]
  dsimp only
  split_ifs
  · rfl
  · rw [h.mapped.setEntry_eq (by omega)]
    exact set_word_of_ne _ _ _ _ (entryAddr_mod newTab _) ha hne

/-- What `paging_init` leaves of the directory and of the table for the image. -/
structure Switched (img : Image) (m : Machine) : Prop extends Booted img m where
  dir : (m.pde m.cr3 0xC0000000).readwrite = true
  image : ∀ x < 1024, m.word (tableAddr (newTab 768) x) = initialWord 768 x

theorem setPmemUsed_word (m : Machine) (b : Bitmap) (a : ℕ) :
    (setPmemUsed m b).word a = m.word a := rfl

theorem switched_pagingInit (h : Boots img m) (hmbi : mbi < 0xC0000000)
    (hret : pagingInit img fuel m mbi = some m') : Switched img m' := by
  have hbooted := booted_pagingInit h hmbi hret
  obtain ⟨hb, hfilled, -⟩ := booted_buildTables h
  obtain ⟨w, hw⟩ := pde_buildTables h (d := 768) (by decide)
  obtain ⟨b, rfl⟩ := pagingInit_eq_setPmemUsed hret
  refine ⟨hbooted, ?_, fun x hx => ?_⟩
  · have hcr3 : (setPmemUsed (identityMap (buildTables img m) mbi) b).cr3 =
        img.kernelPageDir.frame * 0x1000 := hbooted.cr3
    have hne : dirAddr (buildTables img m).cr3 768 ≠ entryAddr newTab (mbi / 0x1000) :=
      (hb.writable (i := mbi / 0x1000) (by omega) (by omega)).dir 768 (by decide)
    rw [hb.cr3, dirAddr_frame] at hne
    rw [pde, hcr3, show 0xC0000000 / 0x400000 = 768 from rfl, dirAddr_frame,
      setPmemUsed_word, identityMap_word hb hmbi (tableAddr_mod _ _) hne, hw, userPdeTo,
      PageDirEntry.decode_encode]
  · have hne : tableAddr (newTab 768) x ≠ entryAddr newTab (mbi / 0x1000) := by
      simp only [entryAddr]
      exact tableAddr_ne hx (Nat.mod_lt _ (by decide)) (.inl (by unfold newTab; omega))
    rw [setPmemUsed_word, identityMap_word hb hmbi (tableAddr_mod _ _) hne,
      hfilled 768 (by decide) x hx]

/-- An address of the 4 MiB from 3 GiB on, by the table for the image. -/
theorem Switched.walk (h : Switched img m) (hv : 0xC0000000 ≤ v) (hv' : v < 0xC0400000) :
    m.walk m.cr3 v =
      some (PageTableEntry.decode (initialWord 768 (v / 0x1000 % 1024))) := by
  rw [h.mapped.walk_eq (by omega), entryAddr, show v / 0x1000 / 1024 = 768 by omega,
    h.image _ (Nat.mod_lt _ (by decide))]

/-- The image is mapped as under the directory of `boot.asm`. -/
theorem switch_keeps_image (h : Boots img m) (hs : Switched img m') (hv : v ∈ imageRange) :
    KeptAt m m' v := by
  obtain ⟨hlow, hhigh⟩ := hv
  have hwalk := hs.walk (v := v) (by omega) (by omega)
  have hword : initialWord 768 (v / 0x1000 % 1024) = pteTo (v / 0x1000 % 1024) 0 := by
    rw [initialWord, if_pos rfl, if_neg (by omega), if_pos (by omega)]
  have hmaps := mapsFrame_pteTo (f := v / 0x1000 % 1024) (by omega) 0
  have hwritable : (PageTableEntry.decode (pteTo (v / 0x1000 % 1024) 0)).readwrite = true := by
    rw [pteTo, PageTableEntry.decode_encode]
  rw [hword] at hwalk
  have hphysical : m'.translate v = some (v - 0xC0000000) := by
    rw [translate_of_walk hwalk, hmaps.present, hmaps.frame, if_pos rfl, Option.some.injEq]
    omega
  refine ⟨?_, ?_, hphysical⟩
  · have hpde : m'.pde m'.cr3 v = m'.pde m'.cr3 0xC0000000 := by
      rw [pde, pde, show v / 0x400000 = 0xC0000000 / 0x400000 by omega]
    obtain ⟨hpresent, -⟩ := hs.mapped.dir 768 (by decide)
    have hpresent' : (m'.pde m'.cr3 0xC0000000).present = true := hpresent
    rw [mapsWritable, hpde, hpresent', hs.dir, hwalk, Option.any_some, hmaps.present, hwritable]
    simp
  · rw [hphysical, h.bootMapped.translate (by omega) (by omega)]

/-- The text buffer was mapped, and is not any more. -/
theorem switch_loses_text (h : Boots img m) (hs : Switched img m') (hv : v ∈ textBuffer) :
    m.translate v = some (v - 0xC0000000) ∧ m'.translate v = none := by
  obtain ⟨index, hindex, rfl⟩ := hv
  simp only [vgaBuffer]
  have hwalk := hs.walk (v := 0xC00B8000 + 2 * index) (by omega) (by omega)
  have hword : initialWord 768 ((0xC00B8000 + 2 * index) / 0x1000 % 1024) = 0 := by
    rw [initialWord, if_pos rfl, if_neg (by omega), if_neg (by omega)]
  rw [hword] at hwalk
  refine ⟨h.bootMapped.translate (by omega) (by omega), ?_⟩
  rw [translate_of_walk hwalk]
  rfl

end Switch

/-- The switch keeps the image mapped and loses the text buffer, on every machine. -/
theorem switch_maps_image_not_text {img : Image} {m m' : Machine} {fuel : ℕ} {mbi : BitVec 32}
    (hboot : Boots img m) (hmbi : mbi.toNat < 0xC0000000)
    (hret : pagingInit img fuel m mbi.toNat = some m') :
    (∀ v ∈ imageRange, KeptAt m m' v) ∧
      (∀ v ∈ textBuffer, m.translate v = some (v - 0xC0000000) ∧ m'.translate v = none) ∧
      ¬ SwitchKeeps m m' := by
  have hs := switched_pagingInit hboot hmbi hret
  refine ⟨fun v => switch_keeps_image hboot hs, fun v => switch_loses_text hboot hs, ?_⟩
  intro hkeeps
  have htext : vgaBuffer ∈ textBuffer := ⟨0, by decide, rfl⟩
  have hkept := (hkeeps vgaBuffer (.inr htext)).physical
  rw [(switch_loses_text hboot hs htext).2] at hkept
  exact absurd hkept (by simp)

theorem switch_maps_image_not_text_small :
    ∃ m', pagingInit smallImage 0 (smallMachine fun _ => 0) 0 = some m' ∧
      KeptAt (smallMachine fun _ => 0) m' 0xC0100000 ∧ m'.translate 0xC00B8000 = none := by
  obtain ⟨m', hret⟩ : ∃ m', pagingInit smallImage 0 (smallMachine fun _ => 0) 0 = some m' :=
    ⟨_, pagingInit_small⟩
  obtain ⟨himage, htext, -⟩ := switch_maps_image_not_text (boots_smallMachine _)
    (by decide : (0#32).toNat < 0xC0000000) hret
  exact ⟨m', hret, himage _ ⟨le_refl _, by decide⟩, (htext _ ⟨0, by decide, rfl⟩).2⟩

/-- The switch of a machine that boots does not keep the text buffer. -/
theorem not_switchKeeps : ¬ ∀ (img : Image) (m m' : Machine) (fuel : ℕ) (mbi : BitVec 32),
    Boots img m → mbi.toNat < 0xC0000000 → pagingInit img fuel m mbi.toNat = some m' →
      SwitchKeeps m m' := by
  intro hall
  obtain ⟨m', hret⟩ : ∃ m', pagingInit smallImage 0 (smallMachine fun _ => 0) 0 = some m' :=
    ⟨_, pagingInit_small⟩
  have hboot := boots_smallMachine fun _ => 0
  have hs := switched_pagingInit hboot (by decide) hret
  have htext : vgaBuffer ∈ textBuffer := ⟨0, by decide, rfl⟩
  have hkept := (hall _ _ m' 0 0#32 hboot (by decide) hret vgaBuffer (.inr htext)).physical
  rw [(switch_loses_text hboot hs htext).2] at hkept
  exact absurd hkept (by simp)

end FirstOs
