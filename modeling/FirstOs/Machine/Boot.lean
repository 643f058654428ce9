import FirstOs.Machine.Walk

/-!
# Building the first tables

`paging_init` of `memory/memory.c`, run by the machine `boot.asm` leaves: the kernel
image is mapped by one entry of 4 MiB, and the arrays of the paging code lie in the
image. A group of assignments to the bit fields of one entry is one change of its word.

## Main definitions

- `Image` — where the linker puts the arrays
- `buildTables` — the first half, up to the link of the directory to the new tables
- `identityMap`, `scanMmap` — the second half, which reads the memory map
- `Boots` — the machine at the call
-/

namespace FirstOs

open AddressSpace Machine

-- ════════════════════════════════════════════════════════════════════════
-- The kernel image
-- ════════════════════════════════════════════════════════════════════════

/-- A page of the image, by its frame. The image is loaded at 1 MiB and linked 3 GiB above;
    the last page of its 4 MiB is the screen. -/
structure ImagePage where
  frame : ℕ
  lower : 0x100 ≤ frame
  upper : frame < 0x3FF

/-- The address the page is linked at. -/
def ImagePage.addr (p : ImagePage) : ℕ := 0xC0000000 + p.frame * 0x1000

/-- The page-aligned arrays of the paging code. -/
structure Image where
  bootPageDirectory : ImagePage
  kernelPageDir : ImagePage
  newBasePageTable : ImagePage
  fullKernelTableStorage : ImagePage
  distinct : [bootPageDirectory.frame, kernelPageDir.frame, newBasePageTable.frame,
    fullKernelTableStorage.frame].Nodup

/-- Entry `d` of `boot_page_directory`. -/
def bootDirWord (d : ℕ) : BitVec 32 :=
  if d = 0 then 0b10000011#32
  else if 768 ≤ d ∧ d < 772 then (BitVec.ofNat 32 (d - 768) <<< 22) ||| 0b10000011#32
  else 0

/-- The machine at the call of `paging_init`: the directory of `boot.asm` is in force, and the
    arrays are zero. -/
structure Boots (img : Image) (m : Machine) : Prop where
  cr3 : m.cr3 = img.bootPageDirectory.addr - 0xC0000000
  kernelTables : m.kernelTables = 0xC0400000
  bootDir : ∀ d < 1024, m.word (dirAddr m.cr3 d) = bootDirWord d
  bss : ∀ p ∈ [img.kernelPageDir, img.newBasePageTable, img.fullKernelTableStorage],
    ∀ i < 1024, m.word (tableAddr p.frame i) = 0

-- ════════════════════════════════════════════════════════════════════════
-- Assignments to entries
-- ════════════════════════════════════════════════════════════════════════

/-- `present = 1; readwrite = 1; address = frame` of a table entry. -/
def pteTo (frame : ℕ) (w : BitVec 32) : BitVec 32 :=
  PageTableEntry.encode { PageTableEntry.decode w with
    present := true, readwrite := true, address := BitVec.ofNat 20 frame }

/-- `present = 1; readwrite = 1; address = frame` of a directory entry. -/
def pdeTo (frame : ℕ) (w : BitVec 32) : BitVec 32 :=
  PageDirEntry.encode { PageDirEntry.decode w with
    present := true, readwrite := true, address := BitVec.ofNat 20 frame }

/-- `address = frame; readwrite = 1; present = 1; user = 1` of a directory entry. -/
def userPdeTo (frame : ℕ) (w : BitVec 32) : BitVec 32 :=
  PageDirEntry.encode { PageDirEntry.decode w with
    address := BitVec.ofNat 20 frame, readwrite := true, present := true, user := true }

namespace Machine

/-- Change the word at a virtual address. -/
def modifyWord (m : Machine) (v : ℕ) (f : BitVec 32 → BitVec 32) : Machine :=
  m.writeWord v (f (m.readWord v))

/-- `mov cr3`. -/
def loadCr3 (m : Machine) (dir : ℕ) : Machine := { m with cr3 := dir }

section Simp

variable (m : Machine) (dir a : ℕ)

@[simp] theorem loadCr3_cr3 : (m.loadCr3 dir).cr3 = dir := rfl

@[simp] theorem loadCr3_kernelTables : (m.loadCr3 dir).kernelTables = m.kernelTables := rfl

@[simp] theorem loadCr3_phys : (m.loadCr3 dir).phys = m.phys := rfl

@[simp] theorem loadCr3_word : (m.loadCr3 dir).word a = m.word a := rfl

end Simp

/-- The loop over the array at `arr` from entry `i` on that changes entry `i` by `g i`, where
    there is a `g i`. -/
def modifyArray (m : Machine) (arr : ℕ) (g : ℕ → Option (BitVec 32 → BitVec 32)) (n i : ℕ) :
    Machine :=
  if i < n then
    match g i with
    | some f => modifyArray (m.modifyWord (u32 (arr + 4 * i)) f) arr g n (i + 1)
    | none => modifyArray m arr g n (i + 1)
  else m
termination_by n - i

end Machine

/-- The body of the loops that map the first 4 MiB: entry `i` is page `i`, from 1 MiB on. -/
def lowEntry (i : ℕ) : Option (BitVec 32 → BitVec 32) :=
  if 0x100000 ≤ i * 0x1000 then some (pteTo i) else none

/-- The body of the loops that map the new tables: entry `i` is page `i` behind 4 MiB. -/
def storageEntry (i : ℕ) : Option (BitVec 32 → BitVec 32) := some (pteTo (0x400000 / 0x1000 + i))

/-- The body of the loop that links the directory to the new tables. -/
def linkEntry (i : ℕ) : Option (BitVec 32 → BitVec 32) := some (userPdeTo (0x400 + i))

-- ════════════════════════════════════════════════════════════════════════
-- paging_init
-- ════════════════════════════════════════════════════════════════════════

/-- The first stage of `paging_init`: a directory that maps the image by a table. -/
def mapImage (img : Image) (m : Machine) : Machine :=
  let m := m.modifyWord (u32 (img.kernelPageDir.addr + 4 * 768))
    (pdeTo ((img.newBasePageTable.addr - 0xC0000000) / 0x1000))
  let m := m.modifyArray img.newBasePageTable.addr lowEntry 1023 0
  let m := m.modifyWord (u32 (img.newBasePageTable.addr + 4 * 1023)) (pteTo 0xB8)
  m.loadCr3 (img.kernelPageDir.addr - 0xC0000000)

/-- The second stage: the 4 MiB for the new tables. -/
def mapStorage (img : Image) (m : Machine) : Machine :=
  let m := m.modifyWord (u32 (img.kernelPageDir.addr + 4 * (768 + 1)))
    (pdeTo ((img.fullKernelTableStorage.addr - 0xC0000000) / 0x1000))
  m.modifyArray img.fullKernelTableStorage.addr storageEntry 1024 0

/-- The third stage: the new tables. -/
def fillTables (m : Machine) : Machine :=
  let m := memset m 0xC0400000 0 0x400000
  let m := m.modifyArray (m.kernelTables + 4 * (768 * 1024)) lowEntry 1023 0
  let m := m.modifyWord (u32 (m.kernelTables + 4 * (768 * 1024 + 1023))) (pteTo 0xB8)
  m.modifyArray (m.kernelTables + 4 * (769 * 1024)) storageEntry 1024 0

/-- `paging_init` up to the second reload of `cr3`. -/
def buildTables (img : Image) (m : Machine) : Machine :=
  (fillTables (mapStorage img (mapImage img m))).modifyArray img.kernelPageDir.addr linkEntry 1024 0

/-- `identity_map`. -/
def identityMap (m : Machine) (addr : ℕ) : Machine :=
  let page := addr / 0x1000
  if (entry m page).present && (entry m page).readwrite &&
      (entry m page).address.toNat == addr / 0x1000 then m
  else
    let m := setPmemUsed m (claimPhysPage m.pmemUsed addr)
    setEntry m page { entry m page with
      address := BitVec.ofNat 20 page, readwrite := true, present := true }

/-- The double word at a virtual address. -/
def loadDouble (m : Machine) (v : ℕ) : BitVec 64 := loadWord m (u32 (v + 4)) ++ loadWord m v

/-- `mmap[i].addr`. An entry of the memory map has 24 bytes. -/
def mmapAddr (m : Machine) (mmap i : ℕ) : BitVec 64 := loadDouble m (u32 (mmap + 24 * i + 4))

/-- `mmap[i].len`. -/
def mmapLen (m : Machine) (mmap i : ℕ) : BitVec 64 := loadDouble m (u32 (mmap + 24 * i + 12))

/-- `mmap[i].type`. -/
def mmapType (m : Machine) (mmap i : ℕ) : BitVec 32 := loadWord m (u32 (mmap + 24 * i + 20))

/-- The inner loop over the pages of an available region, from `physptr` on, with a bound on
    its turns. It does not end when `physptr` wraps before it reaches the end of the region. -/
def releaseRegion (mmap i : ℕ) : ℕ → Machine → BitVec 64 → Option Machine
  | 0, _, _ => none
  | fuel + 1, m, physptr =>
    if physptr < mmapAddr m mmap i + mmapLen m mmap i then
      releaseRegion mmap i fuel
        (setPmemUsed m (releasePhysPage m.pmemUsed (u32 physptr.toNat))) (physptr + 0x1000)
    else some m

/-- The loop over the memory map from entry `i` on. -/
def scanMmap (mmap fuel : ℕ) (m : Machine) (i : ℕ) : Option Machine :=
  if i < 15 then
    if 0 < i ∧ mmapAddr m mmap i = 0 then some m
    else if mmapType m mmap i = 1 then
      (releaseRegion mmap i fuel m (mmapAddr m mmap i)).bind fun m => scanMmap mmap fuel m (i + 1)
    else scanMmap mmap fuel m (i + 1)
  else some m
termination_by 15 - i

/-- `memset` on the first bytes of `pmem_used`. -/
def memsetPmemUsed (pmemUsed : Bitmap) (val : BitVec 8) (count : ℕ) : Bitmap := fun k =>
  if k < count then val else pmemUsed k

/-- `paging_init`, with a bound on the turns of its inner loop. The pointer to the memory map is
    at byte 48 of the multiboot information. -/
def pagingInit (img : Image) (fuel : ℕ) (m : Machine) (mbi : ℕ) : Option Machine :=
  let m := identityMap (buildTables img m) mbi
  let mmap := (loadWord m (u32 (mbi + 48))).toNat
  let m := setPmemUsed m (memsetPmemUsed m.pmemUsed 255 0x20000)
  (scanMmap mmap fuel m 0).map fun m => setPmemUsed m (memsetPmemUsed m.pmemUsed 255 256)

end FirstOs
