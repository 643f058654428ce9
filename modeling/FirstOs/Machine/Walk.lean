import FirstOs.Memory.Window

/-!
# The machine under the paging code

Physical memory with a directory and tables in it, and the walk the processor makes
through them. `kernel_tables` is an array at a virtual address here, so that each
assignment to an entry goes through the translation in force. The bitmap is kept
apart from the memory, as it lies in the kernel image, in no frame the code below
writes. A word is read and written at once, by the translation of its address.

`Mapped m tab` says that `kernel_tables` is the hardware table: directory entry `d`
names the frame `tab d`, and page `d` of the array is that frame.

## Main results

- `Mapped.walk_eq_entry` — the walk finds the entry `kernel_tables[v >> 12]`
- `Mapped.mapAddr`, `Mapped.unmapVaddr` — changing a writable entry keeps `Mapped`
- `writable_of_absent` — an absent entry is writable
-/

namespace FirstOs

open AddressSpace

/-- The machine, as far as the paging code sees it. -/
structure Machine where
  /-- Physical memory. -/
  phys : ByteMemory
  /-- The physical address of the directory in force. -/
  cr3 : ℕ
  /-- The pointer `kernel_tables`. -/
  kernelTables : ℕ
  pmemUsed : Bitmap
  /-- What a load from an unmapped address returns. -/
  unmapped : ByteMemory

namespace Machine

/-- The word at a physical address. -/
def word (m : Machine) (a : ℕ) : BitVec 32 := ByteMemory.read32 m.phys a

/-- Entry `d` of the directory at `dir`. The low 12 bits of `cr3` name no frame. -/
def dirAddr (dir d : ℕ) : ℕ := dir / 0x1000 * 0x1000 + 4 * d

/-- Entry `x` of the table in a frame. -/
def tableAddr (frame x : ℕ) : ℕ := frame * 0x1000 + 4 * x

/-- The directory entry for `v`. -/
def pde (m : Machine) (dir v : ℕ) : PageDirEntry :=
  PageDirEntry.decode (m.word (dirAddr dir (v / 0x400000)))

/-- The two-level walk from the directory at `dir`. A present entry with the size bit maps
    4 MiB and names no table. -/
def walk (m : Machine) (dir v : ℕ) : Option PageTableEntry :=
  if (m.pde dir v).present && !(m.pde dir v).size then
    some (PageTableEntry.decode (m.word (tableAddr (m.pde dir v).frame (v / 0x1000 % 1024))))
  else none

/-- The physical address of a virtual one. -/
def translate (m : Machine) (v : ℕ) : Option ℕ :=
  if (m.pde m.cr3 v).present && (m.pde m.cr3 v).size then
    some ((m.pde m.cr3 v).frame / 1024 * 0x400000 + v % 0x400000)
  else
    match m.walk m.cr3 v with
    | some e => if e.present then some (e.frame * 0x1000 + v % 0x1000) else none
    | none => none

def withPhys (m : Machine) (phys : ByteMemory) : Machine := { m with phys := phys }

/-- The byte at a virtual address. -/
def load (m : Machine) (v : ℕ) : BitVec 8 :=
  match m.translate v with
  | some a => m.phys a
  | none => m.unmapped v

/-- Store a byte at a virtual address. -/
def store (m : Machine) (v : ℕ) (b : BitVec 8) : Machine :=
  match m.translate v with
  | some a => m.withPhys (Function.update m.phys a b)
  | none => m

/-- The word at a virtual address. -/
def readWord (m : Machine) (v : ℕ) : BitVec 32 :=
  match m.translate v with
  | some a => m.word a
  | none => ByteMemory.read32 m.unmapped v

/-- Store a word at a virtual address. -/
def writeWord (m : Machine) (v : ℕ) (w : BitVec 32) : Machine :=
  match m.translate v with
  | some a => m.withPhys (ByteMemory.write32 m.phys a w)
  | none => m

/-- The machine is an address space whose table is read and written through itself. -/
instance : AddressSpace Machine where
  entry m i := PageTableEntry.decode (m.readWord (u32 (m.kernelTables + 4 * i)))
  setEntry m i e := m.writeWord (u32 (m.kernelTables + 4 * i)) e.encode
  pmemUsed m := m.pmemUsed
  setPmemUsed m b := { m with pmemUsed := b }
  load := load
  store := store
  tableByte m k := m.load (u32 (m.kernelTables + k))
  switchTables m new dir := { m with kernelTables := new, cr3 := dir }

/-- A bitmap and a word of memory replaced. -/
def set (m : Machine) (b : Bitmap) (a : ℕ) (w : BitVec 32) : Machine :=
  { m with pmemUsed := b, phys := ByteMemory.write32 m.phys a w }

section Simp

variable (m : Machine) (b : Bitmap) (a : ℕ) (w : BitVec 32) (phys : ByteMemory)

@[simp] theorem pmemUsed_eq : AddressSpace.pmemUsed m = m.pmemUsed := rfl

@[simp] theorem set_cr3 : (m.set b a w).cr3 = m.cr3 := rfl

@[simp] theorem set_kernelTables : (m.set b a w).kernelTables = m.kernelTables := rfl

@[simp] theorem set_pmemUsed : (m.set b a w).pmemUsed = b := rfl

@[simp] theorem withPhys_phys : (m.withPhys phys).phys = phys := rfl

@[simp] theorem withPhys_cr3 : (m.withPhys phys).cr3 = m.cr3 := rfl

@[simp] theorem withPhys_kernelTables : (m.withPhys phys).kernelTables = m.kernelTables := rfl

@[simp] theorem withPhys_pmemUsed : (m.withPhys phys).pmemUsed = m.pmemUsed := rfl

@[simp] theorem switchTables_phys (new dir : ℕ) : (switchTables m new dir).phys = m.phys := rfl

@[simp] theorem switchTables_walk (new dir d v : ℕ) :
    (switchTables m new dir).walk d v = m.walk d v := rfl

theorem set_word_self : (m.set b a w).word a = w := ByteMemory.read32_write32 ..

/-- Words at distinct multiples of 4 do not overlap. -/
theorem set_word_of_ne {c : ℕ} (ha : a % 4 = 0) (hc : c % 4 = 0) (hne : c ≠ a) :
    (m.set b a w).word c = m.word c :=
  ByteMemory.read32_write32_of_disjoint _ _ (by omega)

end Simp

theorem dirAddr_mod (dir d : ℕ) : dirAddr dir d % 4 = 0 := by
  simp only [dirAddr]
  omega

theorem tableAddr_mod (frame x : ℕ) : tableAddr frame x % 4 = 0 := by
  simp only [tableAddr]
  omega

/-- A translation depends on the directory entry and, when that names a table, on one word
    of it. -/
theorem translate_congr {s m : Machine} {v : ℕ} (hcr3 : s.cr3 = m.cr3)
    (hdir : s.word (dirAddr m.cr3 (v / 0x400000)) = m.word (dirAddr m.cr3 (v / 0x400000)))
    (htab : (m.pde m.cr3 v).size = false →
      s.word (tableAddr (m.pde m.cr3 v).frame (v / 0x1000 % 1024)) =
        m.word (tableAddr (m.pde m.cr3 v).frame (v / 0x1000 % 1024))) :
    s.translate v = m.translate v := by
  have hpde : s.pde s.cr3 v = m.pde m.cr3 v := by
    rw [pde, pde, hcr3, hdir]
  cases hsize : (m.pde m.cr3 v).size with
  | true =>
    rw [translate, translate, walk, walk, hpde, hsize]
    simp
  | false => rw [translate, translate, walk, walk, hpde, htab hsize]

/-- The translation through a table. -/
theorem translate_of_walk {m : Machine} {v : ℕ} {e : PageTableEntry}
    (hwalk : m.walk m.cr3 v = some e) :
    m.translate v = if e.present then some (e.frame * 0x1000 + v % 0x1000) else none := by
  have hsize : ((m.pde m.cr3 v).present && (m.pde m.cr3 v).size) = false := by
    rw [walk] at hwalk
    split_ifs at hwalk with hpde
    rw [Bool.and_eq_true, Bool.not_eq_true'] at hpde
    rw [hpde.2, Bool.and_false]
  rw [translate, hsize, if_neg Bool.false_ne_true, hwalk]

/-- Bytes that keep their translation are a window, if storing to them keeps `J`. -/
theorem window_of_translate {J : Machine → Prop} {dst n : ℕ} {addr : ℕ → ℕ}
    (htr : ∀ s, J s → ∀ x < n, s.translate (u32 (dst + x)) = some (addr x))
    (hkeep : ∀ s, J s → ∀ x < n, ∀ b, J (s.withPhys (Function.update s.phys (addr x) b))) :
    ByteWindow Machine.phys J dst n addr := by
  have hstore : ∀ s, J s → ∀ x < n, ∀ b, s.store (u32 (dst + x)) b =
      s.withPhys (Function.update s.phys (addr x) b) := by
    intro s hs x hx b
    rw [store, htr s hs x hx]
  constructor
  · intro s hs x hx
    show s.load _ = _
    rw [load, htr s hs x hx]
  · intro s hs x hx b
    show (s.store _ b).phys = _
    rw [hstore s hs x hx, withPhys_phys]
  · intro s hs x hx b
    show J (s.store _ b)
    rw [hstore s hs x hx]
    exact hkeep s hs x hx b

end Machine

open Machine

/-- Entry `i` of the table whose parts are in the frames `tab 0`, `tab 1`, … -/
def entryAddr (tab : ℕ → ℕ) (i : ℕ) : ℕ := tableAddr (tab (i / 1024)) (i % 1024)

/-- The array `kernel_tables` is the table the processor walks: directory entry `d` names
    the frame `tab d`, and page `d` of the array is that frame. -/
structure Mapped (m : Machine) (tab : ℕ → ℕ) : Prop where
  dir : ∀ d < 1024, (PageDirEntry.decode (m.word (dirAddr m.cr3 d))).present = true ∧
    (PageDirEntry.decode (m.word (dirAddr m.cr3 d))).size = false ∧
    (PageDirEntry.decode (m.word (dirAddr m.cr3 d))).frame = tab d
  table : ∀ k < 0x400000, m.translate (u32 (m.kernelTables + k)) =
    some (Flat.frameByte (tab (k / 0x1000)) (k % 0x1000))

/-- The page of the byte `k` of `kernel_tables`. -/
def selfPage (m : Machine) (k : ℕ) : ℕ := u32 (m.kernelTables + k) / 0x1000

/-- Entry `i` is neither a directory entry nor one of the entries that map the table. -/
structure Writable (m : Machine) (tab : ℕ → ℕ) (i : ℕ) : Prop where
  dir : ∀ d < 1024, dirAddr m.cr3 d ≠ entryAddr tab i
  self : ∀ k < 0x400000, entryAddr tab (selfPage m k) ≠ entryAddr tab i

section Mapped

variable {m s : Machine} {tab : ℕ → ℕ} {i v : ℕ}

theorem Mapped.walk_eq (h : Mapped m tab) (hv : v < 0x100000000) :
    m.walk m.cr3 v = some (PageTableEntry.decode (m.word (entryAddr tab (v / 0x1000)))) := by
  obtain ⟨hpres, hsize, hframe⟩ := h.dir (v / 0x400000) (by omega)
  have hdiv : v / 0x400000 = v / 0x1000 / 1024 := by omega
  rw [walk, pde, hpres, hsize, hframe, entryAddr, hdiv]
  rfl

theorem Mapped.translate_eq (h : Mapped m tab) (hv : v < 0x100000000) :
    m.translate v =
      if (PageTableEntry.decode (m.word (entryAddr tab (v / 0x1000)))).present then
        some ((PageTableEntry.decode (m.word (entryAddr tab (v / 0x1000)))).frame * 0x1000 +
          v % 0x1000)
      else none :=
  translate_of_walk (h.walk_eq hv)

/-- The word of entry `i`, through the array. -/
theorem Mapped.translate_entry (h : Mapped m tab) (hi : i < 0x100000) :
    m.translate (u32 (m.kernelTables + 4 * i)) = some (entryAddr tab i) := by
  rw [h.table (4 * i) (by omega), Option.some.injEq, Flat.frameByte, entryAddr, tableAddr,
    show 4 * i / 0x1000 = i / 1024 by omega]
  omega

theorem Mapped.entry_eq (h : Mapped m tab) (hi : i < 0x100000) :
    entry m i = PageTableEntry.decode (m.word (entryAddr tab i)) := by
  show PageTableEntry.decode (m.readWord (u32 (m.kernelTables + 4 * i))) = _
  rw [readWord, h.translate_entry hi]

/-- The walk of the processor finds the entry of the array. -/
theorem Mapped.walk_eq_entry (h : Mapped m tab) (hv : v < 0x100000000) :
    m.walk m.cr3 v = some (entry m (v / 0x1000)) := by
  rw [h.walk_eq hv, h.entry_eq (by omega)]

/-- The pages of the array are present. -/
theorem Mapped.self_present (h : Mapped m tab) {k : ℕ} (hk : k < 0x400000) :
    (PageTableEntry.decode (m.word (entryAddr tab (selfPage m k)))).present = true := by
  have htr := h.table k hk
  rw [h.translate_eq (Nat.mod_lt _ (by decide))] at htr
  by_contra habs
  rw [← selfPage, if_neg habs] at htr
  exact absurd htr (by simp)

/-- `Mapped` depends on the directory and on the entries that map the array. -/
theorem Mapped.of_words (h : Mapped m tab) (hcr3 : s.cr3 = m.cr3)
    (hkt : s.kernelTables = m.kernelTables)
    (hdir : ∀ d < 1024, s.word (dirAddr m.cr3 d) = m.word (dirAddr m.cr3 d))
    (hself : ∀ k < 0x400000, s.word (entryAddr tab (selfPage m k)) =
      m.word (entryAddr tab (selfPage m k))) : Mapped s tab := by
  constructor
  · intro d hd
    rw [hcr3, hdir d hd]
    exact h.dir d hd
  · intro k hk
    have hlt : u32 (m.kernelTables + k) < 0x100000000 := Nat.mod_lt _ (by decide)
    obtain ⟨-, -, hframe⟩ := h.dir (u32 (m.kernelTables + k) / 0x400000) (by omega)
    rw [hkt, ← h.table k hk]
    refine translate_congr hcr3 (hdir _ (by omega)) fun _ => ?_
    have hpage := hself k hk
    rw [entryAddr, selfPage] at hpage
    rw [pde, hframe]
    have hdiv : u32 (m.kernelTables + k) / 0x400000 =
        u32 (m.kernelTables + k) / 0x1000 / 1024 := by omega
    rw [hdiv]
    exact hpage

/-- An absent entry is writable, since the words it must not be are present. -/
theorem writable_of_absent (h : Mapped m tab) (hi : i < 0x100000)
    (habs : (entry m i).present = false) : Writable m tab i := by
  rw [h.entry_eq hi] at habs
  constructor
  · intro d hd heq
    have hpres := (h.dir d hd).1
    rw [heq, present_decode_eq, habs] at hpres
    exact absurd hpres (by decide)
  · intro k hk heq
    have hpres := h.self_present hk
    rw [heq, habs] at hpres
    exact absurd hpres (by decide)

theorem entryAddr_mod (tab : ℕ → ℕ) (i : ℕ) : entryAddr tab i % 4 = 0 := tableAddr_mod _ _

/-- Distinct entries of a table in distinct frames are distinct words. -/
theorem entryAddr_inj (htab : ∀ d < 1024, ∀ e < 1024, tab d = tab e → d = e) {j : ℕ}
    (hi : i < 0x100000) (hj : j < 0x100000) (h : entryAddr tab i = entryAddr tab j) : i = j := by
  simp only [entryAddr, tableAddr] at h
  have hframe : tab (i / 1024) = tab (j / 1024) := by omega
  have hdiv := htab (i / 1024) (by omega) (j / 1024) (by omega) hframe
  rw [hframe] at h
  omega

/-! ### Changing an entry -/

/-- Writing a writable entry keeps `Mapped`. -/
theorem Mapped.set (h : Mapped m tab) (hw : Writable m tab i) (b : Bitmap) (w : BitVec 32) :
    Mapped (m.set b (entryAddr tab i) w) tab := by
  refine h.of_words rfl rfl (fun d hd => ?_) fun k hk => ?_
  · exact set_word_of_ne _ _ _ _ (entryAddr_mod tab i) (dirAddr_mod _ _) (hw.dir d hd)
  · exact set_word_of_ne _ _ _ _ (entryAddr_mod tab i) (entryAddr_mod tab _) (hw.self k hk)

theorem Mapped.setEntry_eq (h : Mapped m tab) (hi : i < 0x100000) (b : Bitmap)
    (e : PageTableEntry) : setEntry (setPmemUsed m b) i e =
      m.set b (entryAddr tab i) e.encode := by
  have htr : (setPmemUsed m b).translate (u32 (m.kernelTables + 4 * i)) =
      some (entryAddr tab i) := h.translate_entry hi
  show (setPmemUsed m b).writeWord (u32 (m.kernelTables + 4 * i)) e.encode = _
  rw [writeWord, htr]
  rfl

/-- `map_addr` is one write of a word. -/
theorem Mapped.mapAddr_eq (h : Mapped m tab) (hi : v / 0x1000 < 0x100000) (paddr : ℕ) :
    FirstOs.mapAddr m v paddr = m.set (claimPhysPage m.pmemUsed paddr)
      (entryAddr tab (v / 0x1000)) (mappedEntry (entry m (v / 0x1000)) paddr).encode :=
  h.setEntry_eq hi _ _

/-- `unmap_vaddr` is one write of a word. -/
theorem Mapped.unmapVaddr_eq (h : Mapped m tab) (hi : v / 0x1000 < 0x100000) :
    FirstOs.unmapVaddr m v = m.set
      (releasePhysPage m.pmemUsed ((entry m (v / 0x1000)).address.toNat * 0x1000))
      (entryAddr tab (v / 0x1000)) (unmappedEntry (entry m (v / 0x1000))).encode :=
  h.setEntry_eq hi _ _

theorem Mapped.mapAddr (h : Mapped m tab) (hi : v / 0x1000 < 0x100000)
    (hw : Writable m tab (v / 0x1000)) (paddr : ℕ) : Mapped (FirstOs.mapAddr m v paddr) tab := by
  rw [h.mapAddr_eq hi]
  exact h.set hw _ _

theorem Mapped.unmapVaddr (h : Mapped m tab) (hi : v / 0x1000 < 0x100000)
    (hw : Writable m tab (v / 0x1000)) : Mapped (FirstOs.unmapVaddr m v) tab := by
  rw [h.unmapVaddr_eq hi]
  exact h.set hw _ _

/-- The entries after `map_addr`. -/
theorem Mapped.mapAddr_word (h : Mapped m tab) (hi : v / 0x1000 < 0x100000) (paddr : ℕ) {a : ℕ}
    (ha : a % 4 = 0) : (FirstOs.mapAddr m v paddr).word a =
      if a = entryAddr tab (v / 0x1000) then (mappedEntry (entry m (v / 0x1000)) paddr).encode
      else m.word a := by
  rw [h.mapAddr_eq hi]
  split_ifs with heq
  · rw [heq, set_word_self]
  · exact set_word_of_ne _ _ _ _ (entryAddr_mod tab _) ha heq

end Mapped

end FirstOs
