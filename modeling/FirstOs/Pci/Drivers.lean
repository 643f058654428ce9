import FirstOs.Library.Search
import FirstOs.Pci.Config
import Mathlib.Data.Finset.Card
import Mathlib.Data.Finset.Range

/-!
# PCI drivers

A table of 255 slots holds the registered drivers. `launch_driver` calls the function of the first
slot in use whose class and subclass are those of the device. `pci_register_driver` looks for slots
that are not in use, but it does not stop at the first one: it fills all of them, so that the first
registration takes the whole table and the later ones have no effect.

## Main definitions

- `pciRegisterDriver`, `launchDriver` — the two operations
- `OneSlotEach`, `Dispatches` — what the table is for

## Main results

- `registerAll_cons` — the table after any registrations but none
- `registered_iff` — when every registration takes a slot, and is found
-/

namespace FirstOs

-- ════════════════════════════════════════════════════════════════════════
-- Names
-- ════════════════════════════════════════════════════════════════════════

/-- `classnames`: class, subclass and name. -/
def classnames : List (BitVec 8 × BitVec 8 × String) := [
  (0x00, 0x00, "Non-VGA-Compatible Unclassified Device"),
  (0x00, 0x01, "VGA-Compatible Unclassified Device"),
  (0x01, 0x00, "SCSI Bus Controller"),
  (0x01, 0x01, "IDE Controller"),
  (0x01, 0x02, "Floppy Disk Controller"),
  (0x01, 0x03, "IPI Bus Controller"),
  (0x01, 0x04, "RAID Controller"),
  (0x01, 0x05, "ATA Controller"),
  (0x01, 0x06, "Serial ATA Controller"),
  (0x01, 0x07, "Serial Attached SCSI Controller"),
  (0x01, 0x08, "Non-Volatile Memory Controller"),
  (0x01, 0x80, "Other Mass Storage Controller"),
  (0x02, 0x00, "Ethernet Controller"),
  (0x02, 0x01, "Token Ring Controller"),
  (0x02, 0x02, "FDDI Controller"),
  (0x02, 0x03, "ATM Controller"),
  (0x02, 0x04, "ISDN Controller"),
  (0x02, 0x05, "WorldFip Controller"),
  (0x02, 0x06, "PICMG 2.14 Multi Computing Controller"),
  (0x02, 0x07, "Infiniband Controller"),
  (0x02, 0x08, "Fabric Controller"),
  (0x02, 0x80, "Other Network Controller"),
  (0x03, 0x00, "VGA Compatible Controller"),
  (0x03, 0x01, "XGA Controller"),
  (0x03, 0x02, "3D Controller (Not VGA-Compatible)"),
  (0x03, 0x80, "Other Display Controller"),
  (0x04, 0x00, "Multimedia Video Controller"),
  (0x04, 0x01, "Multimedia Audio Controller"),
  (0x04, 0x02, "Computer Telephony Device"),
  (0x04, 0x03, "Audio Device"),
  (0x04, 0x80, "Other Multimedia Controller"),
  (0x05, 0x00, "RAM Controller"),
  (0x05, 0x01, "Flash Controller"),
  (0x05, 0x80, "Other Memory Controller"),
  (0x06, 0x00, "Host Bridge"),
  (0x06, 0x01, "ISA Bridge"),
  (0x06, 0x02, "EISA Bridge"),
  (0x06, 0x03, "MCA Bridge"),
  (0x06, 0x04, "PCI-to-PCI Brige"),
  (0x06, 0x05, "PCMCIA Bridge"),
  (0x06, 0x06, "NuBus Bridge"),
  (0x06, 0x07, "CardBus Bridge"),
  (0x06, 0x08, "RACEway Bridge"),
  (0x06, 0x09, "PCI-to-PCI Bridge"),
  (0x06, 0x0A, "Infiniband-to-PCI Host Bridge"),
  (0x06, 0x80, "Other Bridge"),
  (0x07, 0x00, "Serial Controller"),
  (0x07, 0x01, "Parallel Controller"),
  (0x07, 0x02, "Multiport Serial Controller"),
  (0x07, 0x03, "Modem"),
  (0x07, 0x04, "IEEE 488.1/2 (GPIB) Controller"),
  (0x07, 0x05, "Smart Card Controller"),
  (0x07, 0x80, "Other Simple Communication Controller"),
  (0x08, 0x00, "PIC"),
  (0x08, 0x01, "DMA Controller"),
  (0x08, 0x02, "Timer"),
  (0x08, 0x03, "RTC Controller"),
  (0x08, 0x04, "PCI Hot-Plug Controller"),
  (0x08, 0x05, "SD Host Controller"),
  (0x08, 0x07, "IOMMU"),
  (0x08, 0x80, "Other Base System Peripheral"),
  (0x09, 0x00, "Keyboard Controller"),
  (0x09, 0x01, "Digitizer Pen"),
  (0x09, 0x02, "Mouse Controller"),
  (0x09, 0x03, "Scanner Controller"),
  (0x09, 0x04, "Gameport Controller"),
  (0x09, 0x80, "Other Input Device Controller"),
  (0x0A, 0x00, "Generic Docking Station"),
  (0x0A, 0x80, "Other Docking Station"),
  (0x0B, 0x00, "386 Processor"),
  (0x0B, 0x01, "486 Processor"),
  (0x0B, 0x02, "Pentium Processor"),
  (0x0B, 0x03, "Pentioum Pro Processor"),
  (0x0B, 0x10, "Alpha Processor"),
  (0x0B, 0x20, "PowerPC Processor"),
  (0x0B, 0x30, "MIPS Processor"),
  (0x0B, 0x40, "Co-Processor"),
  (0x0B, 0x80, "Other Processor"),
  (0x0C, 0x00, "FireWire (IEEE 1394) Controller"),
  (0x0C, 0x01, "ACCESS Bus Controller"),
  (0x0C, 0x02, "SSA"),
  (0x0C, 0x03, "USB Controller"),
  (0x0C, 0x04, "Fibre Channel"),
  (0x0C, 0x05, "SMBus Controller"),
  (0x0C, 0x06, "InfiniBand Controller"),
  (0x0C, 0x07, "IPMI Interface"),
  (0x0C, 0x08, "SERCOS Interface (IEC 61491)"),
  (0x0C, 0x09, "CANbus Controller"),
  (0x0C, 0x80, "Other Serial Bus Controller"),
  (0x0D, 0x00, "iRDA Compatible Controller"),
  (0x0D, 0x00, "Consumer IR Controller"),
  (0x0D, 0x00, "RF Controller"),
  (0x0D, 0x00, "Bluetooth Controller"),
  (0x0D, 0x00, "Broadband Controller"),
  (0x0D, 0x00, "Ethernet Controller (802.1a)"),
  (0x0D, 0x00, "Ethernet Controller (802.1b)"),
  (0x0D, 0x00, "Other Wireless Controller"),
  (0x0E, 0x00, "I20"),
  (0x0F, 0x01, "Satellite TV Controller"),
  (0x0F, 0x02, "Satellite Audio Controller"),
  (0x0F, 0x03, "Satellite Voice Controller"),
  (0x0F, 0x04, "Satellite Data Controller"),
  (0x10, 0x00, "Network and Computing Encryption/Decryption"),
  (0x10, 0x10, "Entertainment Encryption/Decryption"),
  (0x10, 0x80, "Other Encryption Controller"),
  (0x11, 0x00, "DPIO Modules"),
  (0x11, 0x01, "Performance Counters"),
  (0x11, 0x10, "Communication Synchronizer"),
  (0x11, 0x20, "Signal Processing Management"),
  (0x11, 0x80, "Other Signal Processing Controller")]

/-- `pci_find_name`. -/
def pciFindName (classId subclass : BitVec 8) : String :=
  if classId = 0x12 then "Processing Accelerator"
  else if classId = 0x13 then "Non-Essential Instrumentation"
  else if classId = 0x40 then "Co-Processor"
  else if classId = 0xFF then "Vendor Specific"
  else
    match classnames.find? fun c => c.1 == classId && c.2.1 == subclass with
    | some c => c.2.2
    | none => "Unknown PCI Device"

-- ════════════════════════════════════════════════════════════════════════
-- The table
-- ════════════════════════════════════════════════════════════════════════

/-- `pci_driver`. The function is given by its address. -/
structure PciDriver where
  used : Bool
  classId : BitVec 8
  subclass : BitVec 8
  pciFunction : BitVec 32
deriving DecidableEq

/-- `pci_drivers`. -/
abbrev PciDrivers := ℕ → PciDriver

/-- The table at the start. -/
def PciDrivers.empty : PciDrivers := fun _ => ⟨false, 0, 0, 0⟩

/-- The arguments of a `pci_register_driver` call. -/
structure Registration where
  pciFunction : BitVec 32
  classId : BitVec 8
  subclass : BitVec 8
deriving DecidableEq

/-- The slot a registration leaves. -/
def Registration.driver (r : Registration) : PciDriver :=
  ⟨true, r.classId, r.subclass, r.pciFunction⟩

/-- The loop of `pci_register_driver` over the `k` slots from slot `i` on. -/
def pciRegisterDriverFrom (r : Registration) : ℕ → ℕ → PciDrivers → PciDrivers
  | _, 0, drivers => drivers
  | i, k + 1, drivers =>
    pciRegisterDriverFrom r (i + 1) k
      (if !(drivers i).used then Function.update drivers i r.driver else drivers)

/-- `pci_register_driver`. -/
def pciRegisterDriver (r : Registration) (drivers : PciDrivers) : PciDrivers :=
  pciRegisterDriverFrom r 0 255 drivers

/-- What `launch_driver` does: text on the screen, and calls of driver functions. -/
inductive PciEffect where
  | print (text : String)
  | call (pciFunction : BitVec 32) (pci : PciT) (bus device function : BitVec 8)
deriving DecidableEq

/-- The calls among the effects. -/
def PciEffect.isCall : PciEffect → Bool
  | print _ => false
  | call _ _ _ _ _ => true

/-- The test of `launch_driver`. -/
def PciDriver.matches (driver : PciDriver) (pci : PciT) : Bool :=
  driver.used && driver.classId == pci.classId && driver.subclass == pci.subclass

/-- `launch_driver`. -/
def launchDriver (drivers : PciDrivers) (pci : PciT) (bus device function : BitVec 8) :
    List PciEffect :=
  match Search.first (fun i => (drivers i).matches pci) 0 255 with
  | some i =>
    [.print "Launching the driver for ", .print (pciFindName pci.classId pci.subclass), .print "\n",
      .call (drivers i).pciFunction pci bus device function]
  | none =>
    [.print "No driver registered for ", .print (pciFindName pci.classId pci.subclass), .print "\n"]

-- ════════════════════════════════════════════════════════════════════════
-- What the table is for
-- ════════════════════════════════════════════════════════════════════════

/-- The table after the registrations. -/
def registerAll (rs : List Registration) : PciDrivers :=
  rs.foldl (fun drivers r => pciRegisterDriver r drivers) PciDrivers.empty

/-- The slots in use. -/
def PciDrivers.slots (drivers : PciDrivers) : Finset ℕ :=
  {i ∈ Finset.range 255 | (drivers i).used = true}

/-- Each registration takes one slot. -/
def OneSlotEach (rs : List Registration) : Prop :=
  ∀ p r, p ++ [r] <+: rs → ∃ i ∉ (registerAll p).slots,
    (registerAll (p ++ [r])).slots = insert i (registerAll p).slots

/-- The registration is for the class and subclass of the device. -/
def Registration.isFor (r : Registration) (pci : PciT) : Bool :=
  r.classId == pci.classId && r.subclass == pci.subclass

/-- A device gets the earliest registration for its class and subclass, and no other. -/
def Dispatches (rs : List Registration) : Prop :=
  ∀ pci bus device function,
    (launchDriver (registerAll rs) pci bus device function).filter PciEffect.isCall =
      match rs.find? fun r => r.isFor pci with
      | some r => [.call r.pciFunction pci bus device function]
      | none => []

section Register

variable {r : Registration} {rs : List Registration} {drivers : PciDrivers} {i j k : ℕ}

theorem pciRegisterDriverFrom_apply (r : Registration) (drivers : PciDrivers) (i j k : ℕ) :
    pciRegisterDriverFrom r i k drivers j =
      if i ≤ j ∧ j < i + k ∧ (drivers j).used = false then r.driver else drivers j := by
  induction k generalizing i drivers with
  | zero => rw [pciRegisterDriverFrom, if_neg (by omega)]
  | succ k ih =>
    rw [pciRegisterDriverFrom, ih]
    have hother : j ≠ i →
        (if !(drivers i).used then Function.update drivers i r.driver else drivers) j =
          drivers j := by
      intro hne
      split_ifs
      · exact Function.update_of_ne hne _ _
      · rfl
    obtain rfl | hne := eq_or_ne j i
    · rw [if_neg (by omega)]
      cases hused : (drivers j).used with
      | false => simp
      | true => simp
    · rw [hother hne]
      refine if_congr ⟨?_, ?_⟩ rfl rfl
      · rintro ⟨hi, hk, hused⟩
        exact ⟨by omega, by omega, hused⟩
      · rintro ⟨hi, hk, hused⟩
        exact ⟨by omega, by omega, hused⟩

/-- A registration fills every slot that is not in use. -/
theorem pciRegisterDriver_apply (r : Registration) (drivers : PciDrivers) (j : ℕ) :
    pciRegisterDriver r drivers j =
      if j < 255 ∧ (drivers j).used = false then r.driver else drivers j := by
  rw [pciRegisterDriver, pciRegisterDriverFrom_apply, Nat.zero_add]
  exact if_congr (and_iff_right (Nat.zero_le j)) rfl rfl

/-- A table whose slots are all in use stays as it is. -/
theorem foldl_register_of_full (h : ∀ j < 255, (drivers j).used = true) :
    rs.foldl (fun drivers r => pciRegisterDriver r drivers) drivers = drivers := by
  induction rs with
  | nil => rfl
  | cons r rs ih =>
    have hsame : pciRegisterDriver r drivers = drivers := by
      funext j
      rw [pciRegisterDriver_apply, if_neg]
      rintro ⟨hj, hfalse⟩
      rw [h j hj] at hfalse
      exact absurd hfalse (by decide)
    rw [List.foldl_cons, hsame, ih]

/-- After the first registration all slots hold it. -/
theorem registerAll_cons (r : Registration) (rs : List Registration) (hj : j < 255) :
    registerAll (r :: rs) j = r.driver := by
  have hfirst : ∀ j < 255, pciRegisterDriver r PciDrivers.empty j = r.driver := by
    intro j hj
    rw [pciRegisterDriver_apply, if_pos ⟨hj, rfl⟩]
  rw [registerAll, List.foldl_cons, foldl_register_of_full, hfirst j hj]
  intro j hj
  rw [hfirst j hj]
  rfl

theorem slots_nil : (registerAll []).slots = ∅ :=
  Finset.filter_false_of_mem fun _ _ h => Bool.false_ne_true h

theorem slots_cons (r : Registration) (rs : List Registration) :
    (registerAll (r :: rs)).slots = Finset.range 255 := by
  refine Finset.filter_true_of_mem fun j hj => ?_
  rw [registerAll_cons r rs (Finset.mem_range.mp hj)]
  rfl

/-- The first registration takes all slots. -/
theorem oneSlotEach_iff : OneSlotEach rs ↔ rs = [] := by
  constructor
  · intro h
    cases rs with
    | nil => rfl
    | cons r rs =>
      obtain ⟨i, -, hslots⟩ := h [] r (List.prefix_append [r] rs)
      rw [slots_nil, List.nil_append, slots_cons] at hslots
      have hcard := congrArg Finset.card hslots
      rw [Finset.card_range, insert_empty_eq, Finset.card_singleton] at hcard
      exact absurd hcard (by decide)
  · rintro rfl p r hp
    exact absurd (List.prefix_nil.mp hp) (by simp)

theorem calls_launchDriver (drivers : PciDrivers) (pci : PciT) (bus device function : BitVec 8) :
    (launchDriver drivers pci bus device function).filter PciEffect.isCall =
      match Search.first (fun i => (drivers i).matches pci) 0 255 with
      | some i => [.call (drivers i).pciFunction pci bus device function]
      | none => [] := by
  simp only [launchDriver]
  cases Search.first (fun i => (drivers i).matches pci) 0 255 with
  | none => rfl
  | some i => rfl

/-- The only driver that is called is the first one registered. -/
theorem calls_registerAll_cons (pci : PciT) (bus device function : BitVec 8) :
    (launchDriver (registerAll (r :: rs)) pci bus device function).filter PciEffect.isCall =
      if r.driver.matches pci then [.call r.pciFunction pci bus device function] else [] := by
  have hslot : registerAll (r :: rs) 0 = r.driver := registerAll_cons r rs (by decide)
  rw [calls_launchDriver]
  cases hmatch : r.driver.matches pci with
  | true =>
    have hfound : Search.first (fun i => (registerAll (r :: rs) i).matches pci) 0 255 = some 0 := by
      rw [Search.first, hslot, hmatch, if_pos rfl]
    rw [hfound]
    dsimp only
    rw [hslot, if_pos rfl]
    rfl
  | false =>
    have hnone : Search.first (fun i => (registerAll (r :: rs) i).matches pci) 0 255 = none := by
      refine Search.first_eq_none_iff.mpr fun l _ hl => ?_
      rw [registerAll_cons r rs (by omega), hmatch]
    rw [hnone, if_neg Bool.false_ne_true]

theorem driver_matches (r : Registration) (pci : PciT) : r.driver.matches pci = r.isFor pci := by
  rw [PciDriver.matches, Registration.driver, Bool.true_and, Registration.isFor]

theorem isFor_iff {pci : PciT} :
    r.isFor pci = true ↔ r.classId = pci.classId ∧ r.subclass = pci.subclass := by
  rw [Registration.isFor, Bool.and_eq_true, beq_iff_eq, beq_iff_eq]

/-- A header with a class and a subclass. -/
def PciT.ofClass (classId subclass : BitVec 8) : PciT :=
  { PciT.ofWords (fun _ => 0) with classId := classId, subclass := subclass }

/-- Devices get their drivers exactly when all drivers are for one class and subclass. -/
theorem dispatches_iff : Dispatches rs ↔
    ∀ r ∈ rs, ∀ q ∈ rs, r.classId = q.classId ∧ r.subclass = q.subclass := by
  cases rs with
  | nil =>
    refine iff_of_true (fun pci bus device function => ?_) fun r hr => absurd hr List.not_mem_nil
    have hnone : Search.first (fun i => (registerAll [] i).matches pci) 0 255 = none :=
      Search.first_eq_none_iff.mpr fun _ _ _ => rfl
    rw [calls_launchDriver, hnone, List.find?_nil]
  | cons q rs =>
    have hsame : Dispatches (q :: rs) ↔
        ∀ r ∈ q :: rs, r.classId = q.classId ∧ r.subclass = q.subclass := by
      constructor
      · intro h r hr
        have hcalls := h (PciT.ofClass r.classId r.subclass) 0 0 0
        rw [calls_registerAll_cons] at hcalls
        cases hfind : (q :: rs).find? fun p => p.isFor (PciT.ofClass r.classId r.subclass) with
        | none => exact absurd (isFor_iff.mpr ⟨rfl, rfl⟩) (List.find?_eq_none.mp hfind r hr)
        | some p =>
          rw [hfind] at hcalls
          cases hmatch : q.driver.matches (PciT.ofClass r.classId r.subclass) with
          | false =>
            rw [hmatch, if_neg Bool.false_ne_true] at hcalls
            exact absurd hcalls (by simp)
          | true =>
            rw [driver_matches, isFor_iff] at hmatch
            exact ⟨hmatch.1.symm, hmatch.2.symm⟩
      · intro h pci bus device function
        rw [calls_registerAll_cons, driver_matches]
        cases hmatch : q.isFor pci with
        | true =>
      rw [List.find?_cons_of_pos (p := fun r : Registration => r.isFor pci) hmatch, if_pos rfl]
        | false =>
          have hnone : (q :: rs).find? (fun r => r.isFor pci) = none := by
            refine List.find?_eq_none.mpr fun r hr => ?_
            rw [Registration.isFor, (h r hr).1, (h r hr).2, ← Registration.isFor, hmatch]
            exact Bool.false_ne_true
          rw [hnone, if_neg Bool.false_ne_true]
    rw [hsame]
    constructor
    · intro h r hr p hp
      exact ⟨(h r hr).1.trans (h p hp).1.symm, (h r hr).2.trans (h p hp).2.symm⟩
    · exact fun h r hr => h r hr q List.mem_cons_self

/-- Every registration takes one slot and is found exactly when there are no registrations, and is
    found exactly when all are for one class and subclass. -/
theorem registered_iff (rs : List Registration) :
    (OneSlotEach rs ∧ Dispatches rs ↔ rs = []) ∧ (Dispatches rs ↔
      ∀ r ∈ rs, ∀ q ∈ rs, r.classId = q.classId ∧ r.subclass = q.subclass) := by
  refine ⟨⟨fun h => oneSlotEach_iff.mp h.1, ?_⟩, dispatches_iff⟩
  rintro rfl
  exact ⟨oneSlotEach_iff.mpr rfl, dispatches_iff.mpr fun r hr => absurd hr List.not_mem_nil⟩

/-- One registration takes more than one slot. -/
theorem not_registered : ¬ ∀ rs : List Registration, rs.length ≤ 255 →
    OneSlotEach rs ∧ Dispatches rs := by
  intro hall
  exact absurd (oneSlotEach_iff.mp (hall [⟨0xC0101000, 1, 6⟩] (by decide)).1) (by simp)

end Register

end FirstOs
