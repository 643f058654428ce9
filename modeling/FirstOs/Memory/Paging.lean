import FirstOs.Memory.Entry
import FirstOs.Memory.Frames

/-!
# The paging code

The functions of `memory/memory.c` that work on the current page table, written
once over any `AddressSpace`: a state in which `kernel_tables[i]` can be read and
written, bytes can be loaded and stored at virtual addresses, and the table in
force can be exchanged. Pointers and `uint32_t` values are naturals, reduced with
`u32` wherever the C expression can leave 32 bits.

The code reloads `cr3` after each change of an entry, so no stale translation is
ever used and the translation lookaside buffer is not modelled. An access to an
unmapped address raises exception 14, whose handler prints a message and loops
forever; instead of stopping there, a load returns an arbitrary byte and a
store is dropped, so the runs of the model include every run of the machine up to
such a halt.

## Main definitions

- `AddressSpace` — what the paging code needs of a state
- `allocPage`, `freePage`, `allocSequential`, `mapPageTo`, `reallocPage` — page allocation
- `cloneTables`, `cloneUserPages`, `freeAllUserPages` — duplicating an address space
- `Flat` — the state in which `kernel_tables` is an array that is itself the translation
-/

namespace FirstOs

/-- The state the paging code runs on. -/
class AddressSpace (σ : Type) where
  /-- `kernel_tables[i]`; from index 2^20 on, whatever lies behind the table. -/
  entry : σ → ℕ → PageTableEntry
  /-- Assign `kernel_tables[i]`. -/
  setEntry : σ → ℕ → PageTableEntry → σ
  /-- The frame bitmap. -/
  pmemUsed : σ → Bitmap
  /-- Assign the frame bitmap. -/
  setPmemUsed : σ → Bitmap → σ
  /-- The byte at a virtual address. -/
  load : σ → ℕ → BitVec 8
  /-- Store a byte at a virtual address. -/
  store : σ → ℕ → BitVec 8 → σ
  /-- Byte `k` of the memory `kernel_tables` points to. -/
  tableByte : σ → ℕ → BitVec 8
  /-- `switch_tables(new)` followed by loading `cr3` with a directory address. -/
  switchTables : σ → ℕ → ℕ → σ

open AddressSpace

section Code

variable {σ : Type} [AddressSpace σ]

-- ════════════════════════════════════════════════════════════════════════
-- Single pages
-- ════════════════════════════════════════════════════════════════════════

/-- The entry `map_addr` leaves: the frame of `paddr`, present and writable. -/
def mappedEntry (e : PageTableEntry) (paddr : ℕ) : PageTableEntry :=
  { e with address := BitVec.ofNat 20 (paddr / 0x1000), readwrite := true, present := true }

/-- The entry `unmap_vaddr` leaves. -/
def unmappedEntry (e : PageTableEntry) : PageTableEntry :=
  { e with address := 0, readwrite := false, present := false }

/-- `map_addr`. -/
def mapAddr (s : σ) (vaddr paddr : ℕ) : σ :=
  let s := setPmemUsed s (claimPhysPage (pmemUsed s) paddr)
  let vaddrPage := vaddr / 0x1000
  setEntry s vaddrPage (mappedEntry (entry s vaddrPage) paddr)

/-- `unmap_vaddr`. -/
def unmapVaddr (s : σ) (vaddr : ℕ) : σ :=
  let vaddrPage := vaddr / 0x1000
  let s := setPmemUsed s
    (releasePhysPage (pmemUsed s) ((entry s vaddrPage).address.toNat * 0x1000))
  setEntry s vaddrPage (unmappedEntry (entry s vaddrPage))

/-- `mark_user`. -/
def markUser (s : σ) (vaddr : ℕ) (user : Bool) : σ :=
  setEntry s (vaddr / 0x1000) { entry s (vaddr / 0x1000) with user := user }

/-- `get_phys_addr`. -/
def getPhysAddr (s : σ) (vaddr : ℕ) : ℕ :=
  (entry s (vaddr / 0x1000)).address.toNat * 0x1000 + vaddr % 0x1000

/-- `map_page_to`: back one absent page by a free frame; the result is 0 on failure. -/
def mapPageTo (s : σ) (vaddr : ℕ) : ℕ × σ :=
  if (entry s (vaddr / 0x1000)).present then (0, s)
  else
    let paddr := findFreePhysPage (pmemUsed s)
    if paddr = 0 then (0, s)
    else (vaddr, mapAddr s vaddr paddr)

-- ════════════════════════════════════════════════════════════════════════
-- Runs of pages
-- ════════════════════════════════════════════════════════════════════════

/-- The counting loop `for (j = i+1; j-i < pages+1; j++)` shared by the allocators,
    with `t = j - i`. It counts the free positions that follow position `i` and
    stops at `pages`; its bound is computed in 32 bits, so that it is never
    entered for `pages = 0xFFFFFFFF`. -/
def successfulPages (free : ℕ → Bool) (i pages t successful : ℕ) : ℕ :=
  if t < u32 (pages + 1) then
    if successful = pages then successful
    else if free (u32 (i + t)) then successfulPages free i pages (t + 1) (successful + 1)
    else successful
  else successful
termination_by u32 (pages + 1) - t

/-- `!kernel_tables[i].present`. -/
def absent (s : σ) (i : ℕ) : Bool := !(entry s i).present

/-- The test both allocators make at virtual page `i`: it is absent, and so are
    the pages after it until `pages` of them are counted. -/
def windowAt (s : σ) (pages i : ℕ) : Bool :=
  absent s i && decide (successfulPages (absent s) i pages 1 1 = pages)

/-- The mapping loop of `alloc_page` from `step` on: one free frame for each page of
    the window at `i`, giving up in the middle when no frame is left. -/
def allocPageMap (s : σ) (i pages step : ℕ) : ℕ × σ :=
  if step < pages then
    let paddr := findFreePhysPage (pmemUsed s)
    if paddr = 0 then (0, s)
    else allocPageMap (mapAddr s (u32 ((i + step) * 0x1000)) paddr) i pages (step + 1)
  else (i * 0x1000, s)
termination_by pages - step

/-- The outer loop of `alloc_page` from virtual page `i` on. -/
def allocPageFrom (s : σ) (pages i : ℕ) : ℕ × σ :=
  if i < 0x100000 then
    if windowAt s pages i then allocPageMap s i pages 0
    else allocPageFrom s pages (i + 1)
  else (0, s)
termination_by 0x100000 - i

/-- `alloc_page`. -/
def allocPage (s : σ) (pages : ℕ) : ℕ × σ :=
  if pages = 0 then (0, s) else allocPageFrom s pages 0xC0000

/-- The loop of `free_page` from `i` on. -/
def freePageFrom (s : σ) (start pages i : ℕ) : σ :=
  if i < pages then freePageFrom (unmapVaddr s (u32 (start + i * 0x1000))) start pages (i + 1)
  else s
termination_by pages - i

/-- `free_page`. -/
def freePage (s : σ) (start pages : ℕ) : σ := freePageFrom s start pages 0

/-- The test `alloc_sequential` makes at frame `j`: it is free, and so are the frames
    after it until `pages` of them are counted. The frame number wraps at 2^20,
    where the address does. -/
def sequentialAt (pmemUsed : Bitmap) (pages j : ℕ) : Bool :=
  !checkPhysPage pmemUsed (j * 0x1000) &&
    decide (successfulPages (fun k => !checkPhysPage pmemUsed (u32 (k * 0x1000)))
      j pages 1 1 = pages)

/-- The physical loop of `alloc_sequential` from frame `j` on. -/
def sequentialFrom (pmemUsed : Bitmap) (pages j : ℕ) : Option ℕ :=
  if j < 0x100000 then
    if checkPageCluster pmemUsed (j * 0x1000) = 255#8 then
      sequentialFrom pmemUsed pages (j + 7 + 1)
    else if sequentialAt pmemUsed pages j then
      some j
    else
      sequentialFrom pmemUsed pages (j + 1)
  else none
termination_by 0x100000 - j

/-- The mapping loop of `alloc_sequential` from `k` on. -/
def sequentialMap (s : σ) (i j pages k : ℕ) : σ :=
  if k < pages then
    sequentialMap (mapAddr s (u32 ((i + k) * 0x1000)) (u32 ((j + k) * 0x1000))) i j pages (k + 1)
  else s
termination_by pages - k

/-- The outer loop of `alloc_sequential` from virtual page `i` on. -/
def allocSequentialFrom (s : σ) (pages i : ℕ) : ℕ × σ :=
  if i < 0x100000 then
    if windowAt s pages i then
      match sequentialFrom (pmemUsed s) pages 0x1000 with
      | some j => (i * 0x1000, sequentialMap s i j pages 0)
      | none => allocSequentialFrom s pages (i + 1)
    else allocSequentialFrom s pages (i + 1)
  else (0, s)
termination_by 0x100000 - i

/-- `alloc_sequential`. -/
def allocSequential (s : σ) (pages : ℕ) : ℕ × σ :=
  if pages = 0 then (0, s) else allocSequentialFrom s pages 0xC0000

/-- `map_page_secretly`: a frame that is not claimed. Its assembly moves `%cr3` to `%ecx` and does
    not say so; the first component is what it leaves in `%ecx`. -/
def mapPageSecretly (s : σ) (cr3 vaddr paddr : ℕ) : ℕ × σ :=
  let vaddrPage := vaddr / 0x1000
  (cr3, setEntry s vaddrPage (mappedEntry (entry s vaddrPage) paddr))

/-- The mapping loop of `map_paddr` from `step` on, compiled with `-O2`: `map_page_secretly` is
    inlined, and the distance of the physical from the virtual address is kept in `%ecx`. -/
def mapPaddrFromStep (s : σ) (cr3 i pages step ecx : ℕ) : σ :=
  if step < pages then
    let vaddr := u32 ((i + step) * 0x1000)
    let (ecx, s) := mapPageSecretly s cr3 vaddr (u32 (vaddr + ecx))
    mapPaddrFromStep s cr3 i pages (step + 1) ecx
  else s
termination_by pages - step

/-- The mapping loop of `map_paddr`. The first page is taken out of it: `paddr_page` is in `%ecx`
    then, and the distance is computed from `%ecx` behind it. -/
def mapPaddrMap (s : σ) (cr3 i paddrPage pages : ℕ) : σ :=
  let (ecx, s) := mapPageSecretly s cr3 (u32 (i * 0x1000)) (u32 (paddrPage * 0x1000))
  mapPaddrFromStep s cr3 i pages 1 (u32 ((ecx + 0x100000000 - i) * 0x1000))

/-- The outer loop of `map_paddr` from virtual page `i` on. -/
def mapPaddrFrom (s : σ) (cr3 paddr pages i : ℕ) : ℕ × σ :=
  if i < 0x100000 then
    if windowAt s pages i then
      (i * 0x1000 + paddr % 0x1000, mapPaddrMap s cr3 i (paddr / 0x1000) pages)
    else mapPaddrFrom s cr3 paddr pages (i + 1)
  else (0, s)
termination_by 0x100000 - i

/-- `map_paddr`, with what `%cr3` holds. -/
def mapPaddr (s : σ) (cr3 paddr pages : ℕ) : ℕ × σ :=
  if pages = 0 then (0, s) else mapPaddrFrom s cr3 paddr pages 0xC0000

-- ════════════════════════════════════════════════════════════════════════
-- Bytes
-- ════════════════════════════════════════════════════════════════════════

/-- `memset`. -/
def memset (s : σ) (dest : ℕ) (val : BitVec 8) (count : ℕ) : σ :=
  if count ≠ 0 then memset (store s dest val) (u32 (dest + 1)) val (count - 1) else s
termination_by count

/-- The loop of `memcpy` from byte `i` on, the source given by what reads its bytes. -/
def memcpyFrom (src : σ → ℕ → BitVec 8) (s : σ) (dst size i : ℕ) : σ :=
  if i < size then memcpyFrom src (store s (u32 (dst + i)) (src s i)) dst size (i + 1) else s
termination_by size - i

/-- `memcpy` between virtual addresses. -/
def memcpy (s : σ) (dst src size : ℕ) : σ :=
  memcpyFrom (fun s i => load s (u32 (src + i))) s dst size 0

/-- `memcpy` whose source is the memory `kernel_tables` points to. -/
def memcpyTables (s : σ) (dst size : ℕ) : σ := memcpyFrom tableByte s dst size 0

/-- The word at a virtual address. -/
def loadWord (s : σ) (vaddr : ℕ) : BitVec 32 := ByteMemory.wordOf fun k => load s (u32 (vaddr + k))

/-- Store the four bytes of a word at a virtual address. -/
def storeWord (s : σ) (vaddr : ℕ) (w : BitVec 32) : σ :=
  memcpyFrom (fun _ k => ByteMemory.byteOf w k) s vaddr 4 0

-- ════════════════════════════════════════════════════════════════════════
-- Reallocation
-- ════════════════════════════════════════════════════════════════════════

/-- The first loop of `realloc_page`: is one of the next `amtPages` entries present? -/
def reallocFails (s : σ) (first amtPages i : ℕ) : Bool :=
  if i < amtPages then
    if (entry s (u32 (first + i))).present then true else reallocFails s first amtPages (i + 1)
  else false
termination_by amtPages - i

/-- The growing loop of `realloc_page`. -/
def reallocGrow (s : σ) (start amtPages i : ℕ) : σ :=
  if i < amtPages then reallocGrow (mapPageTo s (u32 (start + i * 0x1000))).2 start amtPages (i + 1)
  else s
termination_by amtPages - i

/-- `realloc_page`. Shrinking unmaps the pages behind the new end. -/
def reallocPage (s : σ) (ptr oldPages newPages : ℕ) : ℕ × σ :=
  let ptrPage := ptr / 0x1000
  if oldPages = newPages then (ptr, s)
  else if oldPages < newPages then
    if reallocFails s (ptrPage + oldPages) (newPages - oldPages) 0 then
      let (ret, s) := allocPage s newPages
      let s := memcpy s ret ptr (u32 (oldPages * 0x1000))
      (ret, freePage s ptr oldPages)
    else
      (ptr, reallocGrow s (ptr + oldPages * 0x1000) (newPages - oldPages) 0)
  else
    (ptr, freePageFrom s (ptr + newPages * 0x1000) (oldPages - newPages) 0)

-- ════════════════════════════════════════════════════════════════════════
-- Address spaces
-- ════════════════════════════════════════════════════════════════════════

/-- The loop of `clone_tables` that fills the new directory from entry `i` on. -/
def cloneDirFrom (s : σ) (new i : ℕ) : σ :=
  if i < 1024 then
    let pde := PageDirEntry.decode (loadWord s (u32 (new + 4 * i)))
    let pde := { pde with
      user := true, present := true, readwrite := true,
      address := BitVec.ofNat 20 (getPhysAddr s (u32 (new + 0x1000)) / 0x1000 + i) }
    cloneDirFrom (storeWord s (u32 (new + 4 * i)) pde.encode) new (i + 1)
  else s
termination_by 1024 - i

/-- `clone_tables`: the physical address of the new directory, and the state that
    uses it. The result of `alloc_sequential` is not checked. -/
def cloneTables (s : σ) : ℕ × σ :=
  let (new, s) := allocSequential s 1025
  let s := memset s new 0 (0x1000 * 1025)
  let s := memcpyTables s (u32 (new + 0x1000)) (1024 * 0x1000)
  let s := memset s new 0 0x1000
  let s := cloneDirFrom s new 0
  let newAddr := getPhysAddr s new
  (newAddr, switchTables s (u32 (new + 0x1000)) newAddr)

/-- The loop of `free_all_user_pages` from page `i` on. -/
def freeAllUserPagesFrom (s : σ) (i : ℕ) : σ :=
  if i < 1024 * 1024 then
    if (entry s i).user && (entry s i).present then
      freeAllUserPagesFrom (freePage s (i * 0x1000) 1) (i + 1)
    else freeAllUserPagesFrom s (i + 1)
  else s
termination_by 1024 * 1024 - i

/-- `free_all_user_pages`. -/
def freeAllUserPages (s : σ) : σ := freeAllUserPagesFrom s 0

/-- Exchange the frame of page `i` for the free one at `paddr`. -/
def swapFrame (s : σ) (i paddr : ℕ) : σ :=
  let s := setEntry s i { entry s i with address := BitVec.ofNat 20 (paddr / 0x1000) }
  setPmemUsed s (claimPhysPage (pmemUsed s) paddr)

/-- The body of the loop of `clone_user_pages` for page `i` and the free frame at
    `paddr`. The page is copied to the static buffer `clone_data`, which nothing else
    reads, and from there into the new frame. -/
def cloneUserPage (s : σ) (i paddr : ℕ) : σ :=
  let cloneData := fun k => load s (u32 (i * 0x1000 + k))
  let s := swapFrame s i paddr
  let rw := (entry s i).readwrite
  let s := setEntry s i { entry s i with readwrite := true }
  let s := memcpyFrom (fun _ k => cloneData k) s (i * 0x1000) 0x1000 0
  setEntry s i { entry s i with readwrite := rw }

/-- The loop of `clone_user_pages` from page `i` on. -/
def cloneUserPagesFrom (s : σ) (i : ℕ) : Bool × σ :=
  if i < 1024 * 1024 then
    if (entry s i).user && (entry s i).present then
      let paddr := findFreePhysPage (pmemUsed s)
      if paddr = 0 then (false, s)
      else cloneUserPagesFrom (cloneUserPage s i paddr) (i + 1)
    else cloneUserPagesFrom s (i + 1)
  else (true, s)
termination_by 1024 * 1024 - i

/-- `clone_user_pages`. -/
def cloneUserPages (s : σ) : Bool × σ := cloneUserPagesFrom s 0

end Code

-- ════════════════════════════════════════════════════════════════════════
-- The flat state
-- ════════════════════════════════════════════════════════════════════════

/-- A state in which `kernel_tables` is an array of entries and is itself the
    translation of virtual addresses. The memory behind the frames is separate from
    the array and from the bitmap. -/
structure Flat where
  tables : ℕ → PageTableEntry
  pmemUsed : Bitmap
  /-- The bytes of physical memory: byte `o` of frame `f` is at `f * 0x1000 + o`. -/
  phys : ByteMemory
  /-- What a load from an unmapped address returns. -/
  unmapped : ByteMemory

namespace Flat

/-- The physical address of a virtual one, unless its page is absent. -/
def translate (s : Flat) (vaddr : ℕ) : Option ℕ :=
  let e := s.tables (vaddr / 0x1000)
  if e.present then some (e.frame * 0x1000 + vaddr % 0x1000) else none

/-- The byte at a virtual address. -/
def load (s : Flat) (vaddr : ℕ) : BitVec 8 :=
  match s.translate vaddr with
  | some a => s.phys a
  | none => s.unmapped vaddr

/-- Store a byte at a virtual address. -/
def store (s : Flat) (vaddr : ℕ) (b : BitVec 8) : Flat :=
  match s.translate vaddr with
  | some a => { s with phys := Function.update s.phys a b }
  | none => s

/-- The table replaced. -/
def withTables (s : Flat) (tables : ℕ → PageTableEntry) : Flat := { s with tables := tables }

/-- The entries found at a virtual address. -/
def tablesAt (s : Flat) (vaddr : ℕ) : ℕ → PageTableEntry := fun i =>
  PageTableEntry.decode (ByteMemory.wordOf fun k => s.load (u32 (vaddr + 4 * i + k)))

/-- The flat state is an address space. A new table takes effect as the array of
    entries found at its virtual address. -/
instance : AddressSpace Flat where
  entry s i := s.tables i
  setEntry s i e := s.withTables (Function.update s.tables i e)
  pmemUsed s := s.pmemUsed
  setPmemUsed s m := { s with pmemUsed := m }
  load := load
  store := store
  tableByte s k := ByteMemory.byteOf (s.tables (k / 4)).encode (k % 4)
  switchTables s new _ := s.withTables (s.tablesAt new)

section Simp

variable (s : Flat) (i : ℕ) (e : PageTableEntry) (m : Bitmap)

@[simp] theorem entry_eq : entry s i = s.tables i := rfl

@[simp] theorem pmemUsed_eq : AddressSpace.pmemUsed s = s.pmemUsed := rfl

@[simp] theorem setEntry_eq :
    setEntry s i e = s.withTables (Function.update s.tables i e) := rfl

@[simp] theorem setPmemUsed_eq : setPmemUsed s m = { s with pmemUsed := m } := rfl

@[simp] theorem switchTables_eq (new cr3 : ℕ) :
    switchTables s new cr3 = s.withTables (s.tablesAt new) := rfl

variable (tables : ℕ → PageTableEntry)

@[simp] theorem withTables_tables : (s.withTables tables).tables = tables := rfl

@[simp] theorem withTables_pmemUsed : (s.withTables tables).pmemUsed = s.pmemUsed := rfl

@[simp] theorem withTables_phys : (s.withTables tables).phys = s.phys := rfl

end Simp

end Flat

end FirstOs
