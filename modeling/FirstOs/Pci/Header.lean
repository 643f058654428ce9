import FirstOs.Pci.Config

/-!
# The header by its fields

`pci_t` has its fields one behind the other; `pci_get_data` fills it in words, and
`pci_read_config_dword` reads the same bytes in dwords. Here the address in port `0xCF8` is kept,
with all the addresses that were written to the port.

## Main definitions

- `PciT.fields` — the fields with their offsets
- `pciReadConfigDword`, `readHeader` — a dword, and the header with the accesses to the ports

## Main results

- `configAddr_injective` — an address names one dword of one function
- `readHeader_fields` — the fields are the bytes of the dwords, and no other function is read
-/

namespace FirstOs

-- ════════════════════════════════════════════════════════════════════════
-- The fields
-- ════════════════════════════════════════════════════════════════════════

/-- A field of `size` bytes, its low byte at `offset`. -/
structure PciField where
  offset : ℕ
  size : ℕ
  value : BitVec (8 * size)

/-- Fields one behind the other, without padding. -/
def layOut : ℕ → List (Σ size : ℕ, BitVec (8 * size)) → List PciField
  | _, [] => []
  | offset, ⟨size, value⟩ :: rest => ⟨offset, size, value⟩ :: layOut (offset + size) rest

/-- The fields of `pci_t`. -/
def PciT.fields (pci : PciT) : List PciField :=
  layOut 0
    [⟨2, pci.vendorID⟩, ⟨2, pci.deviceID⟩, ⟨2, pci.command⟩, ⟨2, pci.status⟩, ⟨1, pci.revisionID⟩,
      ⟨1, pci.progIF⟩, ⟨1, pci.subclass⟩, ⟨1, pci.classId⟩, ⟨1, pci.cacheLineSize⟩,
      ⟨1, pci.latencyTimer⟩, ⟨1, pci.headerType⟩, ⟨1, pci.bist⟩, ⟨4, pci.bar0⟩, ⟨4, pci.bar1⟩,
      ⟨4, pci.bar2⟩, ⟨4, pci.bar3⟩, ⟨4, pci.bar4⟩, ⟨4, pci.bar5⟩, ⟨4, pci.cardbusCISPointer⟩,
      ⟨2, pci.subsystemVendorID⟩, ⟨2, pci.subsystemID⟩, ⟨4, pci.expansionROMBaseAddress⟩,
      ⟨1, pci.capabilitiesPointer⟩, ⟨1, pci.reserved0⟩, ⟨2, pci.reserved1⟩, ⟨4, pci.reserved2⟩,
      ⟨1, pci.irq⟩, ⟨1, pci.interruptPIN⟩, ⟨1, pci.minGrant⟩, ⟨1, pci.maxLatency⟩]

/-- The field lies in one of the dwords `x` and has its bits. -/
structure Spelled (x : BitVec 6 → BitVec 32) (field : PciField) : Prop where
  behind : field.offset < 64
  within : field.offset % 4 + field.size ≤ 4
  value : field.value =
    (x (BitVec.ofNat 6 (field.offset / 4))).extractLsb' (8 * (field.offset % 4)) (8 * field.size)

theorem spelled_part (x : BitVec 6 → BitVec 32) {offset size : ℕ} (hlt : offset < 64)
    (hwithin : offset % 4 + size ≤ 4) : Spelled x ⟨offset, size,
      (x (BitVec.ofNat 6 (offset / 4))).extractLsb' (8 * (offset % 4)) (8 * size)⟩ :=
  ⟨hlt, hwithin, rfl⟩

theorem spelled_dword (x : BitVec 6 → BitVec 32) {offset : ℕ} (hlt : offset < 64)
    (hmod : offset % 4 = 0) : Spelled x ⟨offset, 4, x (BitVec.ofNat 6 (offset / 4))⟩ := by
  refine ⟨hlt, by dsimp only; omega, ?_⟩
  dsimp only
  rw [hmod]
  exact BitVec.extractLsb'_eq_self.symm

/-- The fields of the header that the dwords spell. -/
theorem spelled_fields (x : BitVec 6 → BitVec 32) :
    ∀ field ∈ (PciT.ofDwords x).fields, Spelled x field := by
  simp only [PciT.fields, layOut, List.forall_mem_cons]
  repeat' apply And.intro
  all_goals first
    | exact spelled_part x (by decide) (by decide)
    | exact spelled_dword x (by decide) (by decide)
    | exact fun field h => absurd h List.not_mem_nil

-- ════════════════════════════════════════════════════════════════════════
-- The ports
-- ════════════════════════════════════════════════════════════════════════

/-- The address in port `0xCF8`, and all that were written to it. -/
structure PciPorts where
  address : BitVec 32
  written : List (BitVec 32)

/-- `out_port_l(0xCF8, addr)`. -/
def PciPorts.outAddress (p : PciPorts) (addr : BitVec 32) : PciPorts :=
  ⟨addr, p.written ++ [addr]⟩

/-- `in_port_l(0xCFC)`. -/
def PciPorts.inData (p : PciPorts) (cfg : ConfigSpace) : BitVec 32 := cfg.data p.address

/-- The address `pci_read_config_dword` writes. The offset is not masked. -/
def configDwordAddr (bus num function offset : BitVec 8) : BitVec 32 :=
  (1#32 <<< 31) ||| (bus.setWidth 32 <<< 16) ||| (num.setWidth 32 <<< 11) |||
    (function.setWidth 32 <<< 8) ||| offset.setWidth 32

section Reads

variable (cfg : ConfigSpace) (bus num function : BitVec 8)

/-- `pci_read_config_dword`. -/
def pciReadConfigDword (offset : BitVec 8) : BitVec 32 :=
  cfg.data (configDwordAddr bus num function offset)

/-- `pci_read_config_word` on the ports. -/
def readWord (offset : BitVec 8) (p : PciPorts) : BitVec 16 × PciPorts :=
  let p := p.outAddress (configAddr bus num function offset)
  (((p.inData cfg >>> ((offset.toNat &&& 2) * 8)) &&& 0xffff#32).setWidth 16, p)

/-- A turn of the loop of `pci_get_data`, on the words of the record and the ports. -/
def readWordInto (state : (ℕ → BitVec 16) × PciPorts) (i : ℕ) : (ℕ → BitVec 16) × PciPorts :=
  let (words, p) := state
  let (word, p) := readWord cfg bus num function (BitVec.ofNat 8 (i * 2)) p
  (Function.update words i word, p)

/-- The loop of `pci_get_data` over the first `n` words. -/
def readWords (n : ℕ) (words : ℕ → BitVec 16) (p : PciPorts) : (ℕ → BitVec 16) × PciPorts :=
  (List.range n).foldl (readWordInto cfg bus num function) (words, p)

/-- `pci_get_data` on the ports. The record is not initialised before the loop. -/
def readHeader (words : ℕ → BitVec 16) (p : PciPorts) : PciT × PciPorts :=
  let (words, p) := readWords cfg bus num function 32 words p
  (PciT.ofWords fun i => words i.val, p)

/-- The address of word `i`. -/
def wordAddr (i : ℕ) : BitVec 32 := configAddr bus num function (BitVec.ofNat 8 (i * 2))

end Reads

section Loop

variable (cfg : ConfigSpace) (bus num function : BitVec 8)

theorem readWords_succ (n : ℕ) (words : ℕ → BitVec 16) (p : PciPorts) :
    readWords cfg bus num function (n + 1) words p =
      readWordInto cfg bus num function (readWords cfg bus num function n words p) n := by
  rw [readWords, List.range_succ, List.foldl_append]
  rfl

/-- The loop writes one address for each word. -/
theorem readWords_written (n : ℕ) (words : ℕ → BitVec 16) (p : PciPorts) :
    (readWords cfg bus num function n words p).2.written =
      p.written ++ (List.range n).map (wordAddr bus num function) := by
  induction n with
  | zero => exact (List.append_nil _).symm
  | succ n ih =>
    rw [readWords_succ, List.range_succ, List.map_append, ← List.append_assoc, ← ih]
    rfl

/-- The words behind the first `n` are as they were. -/
theorem readWords_words (n : ℕ) (words : ℕ → BitVec 16) (p : PciPorts) (i : ℕ) :
    (readWords cfg bus num function n words p).1 i =
      if i < n then pciReadConfigWord cfg bus num function (BitVec.ofNat 8 (i * 2))
      else words i := by
  induction n with
  | zero => rfl
  | succ n ih =>
    rw [readWords_succ]
    change Function.update (readWords cfg bus num function n words p).1 n
      (pciReadConfigWord cfg bus num function (BitVec.ofNat 8 (n * 2))) i = _
    by_cases hi : i = n
    · rw [hi, Function.update_self, if_pos (Nat.lt_succ_self n)]
    · rw [Function.update_of_ne hi, ih]
      exact if_congr (by omega) rfl rfl

/-- On the ports the header is read that `pci_get_data` gives. -/
theorem readHeader_eq (words : ℕ → BitVec 16) (p : PciPorts) :
    (readHeader cfg bus num function words p).1 = pciGetData cfg bus num function := by
  change PciT.ofWords (fun i => (readWords cfg bus num function 32 words p).1 i.val) = _
  rw [pciGetData]
  congr 1
  funext i
  rw [readWords_words, if_pos i.isLt]

end Loop

section Fields

variable (bus : BitVec 8) (d : BitVec 5) (f : BitVec 3) (offset : BitVec 8)

/-- The access to an address is enabled and goes to a function. -/
structure NamesFunction (addr : BitVec 32) : Prop where
  enabled : addr.getLsbD 31 = true
  bus : addr.extractLsb' 16 8 = bus
  device : addr.extractLsb' 11 5 = d
  function : addr.extractLsb' 8 3 = f

theorem namesFunction_configAddr :
    NamesFunction bus d f (configAddr bus (d.setWidth 8) (f.setWidth 8) offset) :=
  ⟨configAddr_enabled bus offset d f, configAddr_bus bus offset d f,
    configAddr_device bus offset d f, configAddr_function bus offset d f⟩

/-- An address names one dword of one function. -/
theorem configAddr_injective {bus bus' : BitVec 8} {d d' : BitVec 5} {f f' : BitVec 3}
    {offset offset' : BitVec 8}
    (h : configAddr bus (d.setWidth 8) (f.setWidth 8) offset =
      configAddr bus' (d'.setWidth 8) (f'.setWidth 8) offset') :
    bus = bus' ∧ d = d' ∧ f = f' ∧ offset.extractLsb' 2 6 = offset'.extractLsb' 2 6 := by
  refine ⟨?_, ?_, ?_, ?_⟩
  · rw [← configAddr_bus bus offset d f, h, configAddr_bus]
  · rw [← configAddr_device bus offset d f, h, configAddr_device]
  · rw [← configAddr_function bus offset d f, h, configAddr_function]
  · rw [← configAddr_offset bus offset d f, h, configAddr_offset]

/-- At the offset of a dword both functions write the same address. -/
theorem configDwordAddr_masked (num function : BitVec 8) :
    configDwordAddr bus num function (offset &&& 0xFC#8) = configAddr bus num function offset := by
  have hmask : (offset &&& 0xFC#8).setWidth 32 = offset.setWidth 32 &&& 0xfc#32 := by
    rw [BitVec.setWidth_and]
    rfl
  rw [configDwordAddr, hmask, configAddr]

/-- The dword that holds a byte of the header. -/
theorem pciReadConfigDword_masked (cfg : ConfigSpace) :
    pciReadConfigDword cfg bus (d.setWidth 8) (f.setWidth 8) (offset &&& 0xFC#8) =
      cfg bus d f (offset.extractLsb' 2 6) := by
  rw [pciReadConfigDword, configDwordAddr_masked, data_configAddr]

/-- Each field of the header has the bytes at its offset that `pci_read_config_dword` reads. The
    32 addresses that are written name that function, and those of another function or another
    dword are different. -/
theorem readHeader_fields (cfg : ConfigSpace) (words : ℕ → BitVec 16) (p : PciPorts) :
    (∀ field ∈ (readHeader cfg bus (d.setWidth 8) (f.setWidth 8) words p).1.fields,
      field.offset % 4 + field.size ≤ 4 ∧ field.value =
        (pciReadConfigDword cfg bus (d.setWidth 8) (f.setWidth 8)
          (BitVec.ofNat 8 field.offset &&& 0xFC#8)).extractLsb' (8 * (field.offset % 4))
          (8 * field.size)) ∧
      (readHeader cfg bus (d.setWidth 8) (f.setWidth 8) words p).2.written =
        p.written ++ (List.range 32).map (wordAddr bus (d.setWidth 8) (f.setWidth 8)) ∧
      (∀ i, NamesFunction bus d f (wordAddr bus (d.setWidth 8) (f.setWidth 8) i)) ∧
      ∀ (bus' : BitVec 8) (d' : BitVec 5) (f' : BitVec 3) (o o' : BitVec 8),
        (bus, d, f, o.extractLsb' 2 6) ≠ (bus', d', f', o'.extractLsb' 2 6) →
          configAddr bus (d.setWidth 8) (f.setWidth 8) o ≠
            configAddr bus' (d'.setWidth 8) (f'.setWidth 8) o' := by
  refine ⟨fun field hfield => ?_, readWords_written cfg bus _ _ 32 words p,
    fun i => namesFunction_configAddr bus d f _, fun bus' d' f' o o' hne h => hne ?_⟩
  · rw [readHeader_eq, pciGetData_eq] at hfield
    obtain ⟨hlt, hwithin, hvalue⟩ := spelled_fields (cfg bus d f) field hfield
    have hoffset : ∀ o < 64, (BitVec.ofNat 8 o).extractLsb' 2 6 = BitVec.ofNat 6 (o / 4) := by
      decide
    rw [pciReadConfigDword_masked, hoffset field.offset hlt]
    exact ⟨hwithin, hvalue⟩
  · obtain ⟨rfl, rfl, rfl, hoffset⟩ := configAddr_injective h
    rw [hoffset]

end Fields

end FirstOs
