import Mathlib.Data.BitVec
import Mathlib.Tactic.IntervalCases

/-!
# PCI configuration space

A configuration space has a 32-bit value at each bus, device, function and dword offset. The
kernel reads it in 16-bit words: it writes the address of a dword to port `0xCF8`, reads the dword
from port `0xCFC` and takes one half of it. `pci_get_data` reads the header of a function, the
first 16 dwords, word by word into a record.

## Main definitions

- `PciT` — the header of a function
- `pciReadConfigWord`, `pciGetData` — one word and the whole header

## Main results

- `pciGetData_eq` — the header read is the one the dwords spell
-/

namespace FirstOs

/-- The dword at a bus, device, function and dword offset. -/
abbrev ConfigSpace := BitVec 8 → BitVec 5 → BitVec 3 → BitVec 6 → BitVec 32

/-- The dword port `0xCFC` gives for an address: bit 31 enables the access, and bits 2 to 23 name
    the offset, the function, the device and the bus. -/
def ConfigSpace.data (cfg : ConfigSpace) (addr : BitVec 32) : BitVec 32 :=
  if addr.getLsbD 31 then
    cfg (addr.extractLsb' 16 8) (addr.extractLsb' 11 5) (addr.extractLsb' 8 3) (addr.extractLsb' 2 6)
  else BitVec.allOnes 32

/-- `pci_t`. -/
@[ext]
structure PciT where
  vendorID : BitVec 16
  deviceID : BitVec 16
  command : BitVec 16
  status : BitVec 16
  revisionID : BitVec 8
  progIF : BitVec 8
  subclass : BitVec 8
  classId : BitVec 8
  cacheLineSize : BitVec 8
  latencyTimer : BitVec 8
  headerType : BitVec 8
  bist : BitVec 8
  bar0 : BitVec 32
  bar1 : BitVec 32
  bar2 : BitVec 32
  bar3 : BitVec 32
  bar4 : BitVec 32
  bar5 : BitVec 32
  cardbusCISPointer : BitVec 32
  subsystemVendorID : BitVec 16
  subsystemID : BitVec 16
  expansionROMBaseAddress : BitVec 32
  capabilitiesPointer : BitVec 8
  reserved0 : BitVec 8
  reserved1 : BitVec 16
  reserved2 : BitVec 32
  irq : BitVec 8
  interruptPIN : BitVec 8
  minGrant : BitVec 8
  maxLatency : BitVec 8
deriving DecidableEq

/-- The record whose 64 bytes are the words `w 0`, ..., `w 31`, the low byte of a word and the low
    word of a dword first. -/
def PciT.ofWords (w : Fin 32 → BitVec 16) : PciT where
  vendorID := w 0
  deviceID := w 1
  command := w 2
  status := w 3
  revisionID := (w 4).extractLsb' 0 8
  progIF := (w 4).extractLsb' 8 8
  subclass := (w 5).extractLsb' 0 8
  classId := (w 5).extractLsb' 8 8
  cacheLineSize := (w 6).extractLsb' 0 8
  latencyTimer := (w 6).extractLsb' 8 8
  headerType := (w 7).extractLsb' 0 8
  bist := (w 7).extractLsb' 8 8
  bar0 := w 9 ++ w 8
  bar1 := w 11 ++ w 10
  bar2 := w 13 ++ w 12
  bar3 := w 15 ++ w 14
  bar4 := w 17 ++ w 16
  bar5 := w 19 ++ w 18
  cardbusCISPointer := w 21 ++ w 20
  subsystemVendorID := w 22
  subsystemID := w 23
  expansionROMBaseAddress := w 25 ++ w 24
  capabilitiesPointer := (w 26).extractLsb' 0 8
  reserved0 := (w 26).extractLsb' 8 8
  reserved1 := w 27
  reserved2 := w 29 ++ w 28
  irq := (w 30).extractLsb' 0 8
  interruptPIN := (w 30).extractLsb' 8 8
  minGrant := (w 31).extractLsb' 0 8
  maxLatency := (w 31).extractLsb' 8 8

/-- The address written to port `0xCF8`. -/
def configAddr (bus num function offset : BitVec 8) : BitVec 32 :=
  (1#32 <<< 31) ||| (bus.setWidth 32 <<< 16) ||| (num.setWidth 32 <<< 11) |||
    (function.setWidth 32 <<< 8) ||| (offset.setWidth 32 &&& 0xfc#32)

/-- `pci_read_config_word`. -/
def pciReadConfigWord (cfg : ConfigSpace) (bus num function offset : BitVec 8) : BitVec 16 :=
  ((cfg.data (configAddr bus num function offset) >>> ((offset.toNat &&& 2) * 8)) &&&
    0xffff#32).setWidth 16

/-- `pci_get_data`: word `i` of the record is read at offset `i * 2`. -/
def pciGetData (cfg : ConfigSpace) (bus num function : BitVec 8) : PciT :=
  PciT.ofWords fun i => pciReadConfigWord cfg bus num function (BitVec.ofNat 8 (i.val * 2))

-- ════════════════════════════════════════════════════════════════════════
-- The header of a function
-- ════════════════════════════════════════════════════════════════════════

/-- The header the dwords of a function spell. -/
def PciT.ofDwords (d : BitVec 6 → BitVec 32) : PciT where
  vendorID := (d 0).extractLsb' 0 16
  deviceID := (d 0).extractLsb' 16 16
  command := (d 1).extractLsb' 0 16
  status := (d 1).extractLsb' 16 16
  revisionID := (d 2).extractLsb' 0 8
  progIF := (d 2).extractLsb' 8 8
  subclass := (d 2).extractLsb' 16 8
  classId := (d 2).extractLsb' 24 8
  cacheLineSize := (d 3).extractLsb' 0 8
  latencyTimer := (d 3).extractLsb' 8 8
  headerType := (d 3).extractLsb' 16 8
  bist := (d 3).extractLsb' 24 8
  bar0 := d 4
  bar1 := d 5
  bar2 := d 6
  bar3 := d 7
  bar4 := d 8
  bar5 := d 9
  cardbusCISPointer := d 10
  subsystemVendorID := (d 11).extractLsb' 0 16
  subsystemID := (d 11).extractLsb' 16 16
  expansionROMBaseAddress := d 12
  capabilitiesPointer := (d 13).extractLsb' 0 8
  reserved0 := (d 13).extractLsb' 8 8
  reserved1 := (d 13).extractLsb' 16 16
  reserved2 := d 14
  irq := (d 15).extractLsb' 0 8
  interruptPIN := (d 15).extractLsb' 8 8
  minGrant := (d 15).extractLsb' 16 8
  maxLatency := (d 15).extractLsb' 24 8

/-! ### The address -/

section Address

variable (bus offset : BitVec 8) (d : BitVec 5) (f : BitVec 3)

theorem configAddr_enabled :
    (configAddr bus (d.setWidth 8) (f.setWidth 8) offset).getLsbD 31 = true := by
  simp [configAddr]

theorem configAddr_bus :
    (configAddr bus (d.setWidth 8) (f.setWidth 8) offset).extractLsb' 16 8 = bus := by
  apply BitVec.eq_of_getLsbD_eq
  intro i hi
  simp only [configAddr]
  interval_cases i <;> simp

theorem configAddr_device :
    (configAddr bus (d.setWidth 8) (f.setWidth 8) offset).extractLsb' 11 5 = d := by
  apply BitVec.eq_of_getLsbD_eq
  intro i hi
  simp only [configAddr]
  interval_cases i <;> simp

theorem configAddr_function :
    (configAddr bus (d.setWidth 8) (f.setWidth 8) offset).extractLsb' 8 3 = f := by
  apply BitVec.eq_of_getLsbD_eq
  intro i hi
  simp only [configAddr]
  interval_cases i <;> simp

theorem configAddr_offset : (configAddr bus (d.setWidth 8) (f.setWidth 8) offset).extractLsb' 2 6 =
    offset.extractLsb' 2 6 := by
  apply BitVec.eq_of_getLsbD_eq
  intro i hi
  simp only [configAddr]
  interval_cases i <;> simp

theorem data_configAddr (cfg : ConfigSpace) :
    cfg.data (configAddr bus (d.setWidth 8) (f.setWidth 8) offset) =
      cfg bus d f (offset.extractLsb' 2 6) := by
  rw [ConfigSpace.data, configAddr_enabled, if_pos rfl, configAddr_bus, configAddr_device,
    configAddr_function, configAddr_offset]

end Address

/-! ### The words -/

theorem setWidth_shift_and_mask (x : BitVec 32) (k : ℕ) :
    ((x >>> k) &&& 0xffff#32).setWidth 16 = x.extractLsb' k 16 := by
  apply BitVec.eq_of_getLsbD_eq
  intro i hi
  interval_cases i <;> simp

/-- A byte of a half of a dword. -/
theorem extractLsb'_half (x : BitVec 32) (a b : ℕ) (hb : b + 8 ≤ 16) :
    (x.extractLsb' a 16).extractLsb' b 8 = x.extractLsb' (a + b) 8 := by
  apply BitVec.eq_of_getLsbD_eq
  intro i hi
  rw [BitVec.getLsbD_extractLsb', BitVec.getLsbD_extractLsb', BitVec.getLsbD_extractLsb',
    decide_eq_true hi, decide_eq_true (show b + i < 16 by omega), Nat.add_assoc]
  rfl

section Words

variable (cfg : ConfigSpace) (bus : BitVec 8) (d : BitVec 5) (f : BitVec 3)

/-- Word `i` of a header is a half of dword `i / 2`. -/
theorem pciReadConfigWord_eq {i : ℕ} (hi : i < 32) :
    pciReadConfigWord cfg bus (d.setWidth 8) (f.setWidth 8) (BitVec.ofNat 8 (i * 2)) =
      (cfg bus d f (BitVec.ofNat 6 (i / 2))).extractLsb' (16 * (i % 2)) 16 := by
  have hshift : ∀ i < 32, ((BitVec.ofNat 8 (i * 2)).toNat &&& 2) * 8 = 16 * (i % 2) := by decide
  have hoffset : ∀ i < 32, (BitVec.ofNat 8 (i * 2)).extractLsb' 2 6 = BitVec.ofNat 6 (i / 2) := by
    decide
  rw [pciReadConfigWord, data_configAddr, hshift i hi, hoffset i hi, setWidth_shift_and_mask]

theorem ofWords_halves (x : BitVec 6 → BitVec 32) :
    PciT.ofWords (fun i => (x (BitVec.ofNat 6 (i.val / 2))).extractLsb' (16 * (i.val % 2)) 16) =
      PciT.ofDwords x := by
  ext1 <;> first
    | rfl
    | exact BitVec.extractLsb'_append_extractLsb'
    | exact extractLsb'_half _ _ _ (by decide)

/-- `pci_get_data` reads the header the dwords of the function spell. -/
theorem pciGetData_eq :
    pciGetData cfg bus (d.setWidth 8) (f.setWidth 8) = PciT.ofDwords (cfg bus d f) := by
  rw [← ofWords_halves, pciGetData]
  congr 1
  funext i
  exact pciReadConfigWord_eq cfg bus d f i.isLt

end Words

end FirstOs
