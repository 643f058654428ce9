import FirstOs.Pci.Drivers
import Mathlib.Data.List.Nodup

/-!
# The PCI scan

`pci_scan` looks at function 0 of device 0 of every bus, and goes on to the next bus when it is not
there. On the other buses it launches the driver of every function of the devices that have a
function 0. So a device on a bus without a device 0 is not found; every other one is launched once.

## Main definitions

- `pciScan` — the scan, and `scanLaunches`, the `launch_driver` calls it makes

## Main results

- `count_scanLaunches` — what is launched, and how often
-/

namespace FirstOs

/-- The arguments of a `launch_driver` call. -/
structure Launch where
  pci : PciT
  bus : BitVec 8
  device : BitVec 8
  function : BitVec 8
deriving DecidableEq

/-- The loop of `pci_scan` over the functions 1 to 7 of a device. -/
def scanFunctions (cfg : ConfigSpace) (i j : BitVec 8) : List Launch :=
  (List.range' 1 7).flatMap fun k =>
    let pci := pciGetData cfg i j (BitVec.ofNat 8 k)
    if pci.vendorID ≠ 0xFFFF then [⟨pci, i, j, BitVec.ofNat 8 k⟩] else []

/-- The loop of `pci_scan` over the devices of a bus. -/
def scanDevices (cfg : ConfigSpace) (i : BitVec 8) : List Launch :=
  (List.range 32).flatMap fun j =>
    let cPci := pciGetData cfg i (BitVec.ofNat 8 j) 0
    if cPci.vendorID ≠ 0xFFFF then
      ⟨cPci, i, BitVec.ofNat 8 j, 0⟩ :: scanFunctions cfg i (BitVec.ofNat 8 j)
    else []

/-- The `launch_driver` calls of `pci_scan`, in order. -/
def scanLaunches (cfg : ConfigSpace) : List Launch :=
  (List.range 256).flatMap fun i =>
    let cPci := pciGetData cfg (BitVec.ofNat 8 i) 0 0
    if cPci.vendorID ≠ 0xFFFF then scanDevices cfg (BitVec.ofNat 8 i) else []

/-- `pci_scan`. -/
def pciScan (drivers : PciDrivers) (cfg : ConfigSpace) : List PciEffect :=
  [.print "Scanning PCI bus\n"] ++
    (scanLaunches cfg).flatMap (fun l => launchDriver drivers l.pci l.bus l.device l.function) ++
    [.print "Finished scanning PCI bus\n"]

-- ════════════════════════════════════════════════════════════════════════
-- What is there
-- ════════════════════════════════════════════════════════════════════════

/-- The header of a function. -/
def ConfigSpace.header (cfg : ConfigSpace) (bus device function : BitVec 8) : PciT :=
  PciT.ofDwords (cfg bus (device.setWidth 5) (function.setWidth 3))

/-- The function has a vendor ID. -/
def ConfigSpace.Answers (cfg : ConfigSpace) (bus device function : BitVec 8) : Prop :=
  (cfg.header bus device function).vendorID ≠ 0xFFFF

instance (cfg : ConfigSpace) (bus device function : BitVec 8) :
    Decidable (cfg.Answers bus device function) :=
  inferInstanceAs (Decidable ((cfg.header bus device function).vendorID ≠ 0xFFFF))

/-- A function of a device that has a function 0, with its header. -/
structure ConfigSpace.Present (cfg : ConfigSpace) (l : Launch) : Prop where
  device : l.device.toNat < 32
  function : l.function.toNat < 8
  answers : cfg.Answers l.bus l.device l.function
  first : cfg.Answers l.bus l.device 0
  pci : l.pci = cfg.header l.bus l.device l.function

-- ════════════════════════════════════════════════════════════════════════
-- The loops
-- ════════════════════════════════════════════════════════════════════════

/-- Lists that differ in a key have no element in common. -/
theorem nodup_flatMap_of_key {α β κ : Type*} {l : List α} {f : α → List β} (key : β → κ)
    (k : α → κ) (hl : l.Nodup) (hf : ∀ a ∈ l, (f a).Nodup) (hkey : ∀ a ∈ l, ∀ b ∈ f a, key b = k a)
    (hinj : ∀ a ∈ l, ∀ b ∈ l, k a = k b → a = b) : (l.flatMap f).Nodup := by
  refine List.nodup_flatMap.mpr ⟨hf, ?_⟩
  refine hl.imp_of_mem fun {a b} ha hb hne => ?_
  intro x hx hx'
  exact hne (hinj a ha b hb ((hkey a ha x hx).symm.trans (hkey b hb x hx')))

theorem toNat_ofNat_eight {k : ℕ} (hk : k < 256) : (BitVec.ofNat 8 k).toNat = k := by
  rw [BitVec.toNat_ofNat, Nat.mod_eq_of_lt hk]

theorem ofNat_eight_inj {a b : ℕ} (ha : a < 256) (hb : b < 256)
    (h : BitVec.ofNat 8 a = BitVec.ofNat 8 b) : a = b := by
  rw [← toNat_ofNat_eight ha, h, toNat_ofNat_eight hb]

section Loops

variable {cfg : ConfigSpace} {bus device function i j : BitVec 8} {l : Launch}

theorem pciGetData_header (hd : device.toNat < 32) (hf : function.toNat < 8) :
    pciGetData cfg bus device function = cfg.header bus device function := by
  have hdevice : (device.setWidth 5).setWidth 8 = device := by
    apply BitVec.eq_of_toNat_eq
    rw [BitVec.toNat_setWidth, BitVec.toNat_setWidth, Nat.mod_eq_of_lt (by omega),
      Nat.mod_eq_of_lt (by omega)]
  have hfunction : (function.setWidth 3).setWidth 8 = function := by
    apply BitVec.eq_of_toNat_eq
    rw [BitVec.toNat_setWidth, BitVec.toNat_setWidth, Nat.mod_eq_of_lt (by omega),
      Nat.mod_eq_of_lt (by omega)]
  have hdata := pciGetData_eq cfg bus (device.setWidth 5) (function.setWidth 3)
  rwa [hdevice, hfunction] at hdata

theorem mem_scanFunctions (hj : j.toNat < 32) : l ∈ scanFunctions cfg i j ↔
    l.bus = i ∧ l.device = j ∧ 1 ≤ l.function.toNat ∧ l.function.toNat < 8 ∧
      cfg.Answers i j l.function ∧ l.pci = cfg.header i j l.function := by
  rw [scanFunctions, List.mem_flatMap]
  simp only [List.mem_ite_nil_right, List.mem_singleton, List.mem_range'_1]
  constructor
  · rintro ⟨k, ⟨hlower, hupper⟩, hvendor, hl⟩
    have hnat := toNat_ofNat_eight (show k < 256 by omega)
    rw [pciGetData_header hj (by omega)] at hvendor hl
    obtain rfl := hl
    dsimp only
    exact ⟨rfl, rfl, by omega, by omega, hvendor, rfl⟩
  · rintro ⟨rfl, rfl, hlower, hupper, hvendor, hpci⟩
    refine ⟨l.function.toNat, ⟨hlower, hupper⟩, ?_⟩
    rw [BitVec.ofNat_toNat, BitVec.setWidth_eq, pciGetData_header hj hupper, ← hpci]
    exact ⟨hpci ▸ hvendor, rfl⟩

theorem nodup_scanFunctions : (scanFunctions cfg i j).Nodup := by
  refine nodup_flatMap_of_key Launch.function (BitVec.ofNat 8) List.nodup_range' (fun k _ => ?_)
    (fun k _ l hl => ?_) fun a ha b hb => ?_
  · dsimp only
    split_ifs
    · exact List.nodup_singleton _
    · exact List.nodup_nil
  · rw [List.mem_ite_nil_right, List.mem_singleton] at hl
    rw [hl.2]
  · rw [List.mem_range'_1] at ha hb
    exact ofNat_eight_inj (by omega) (by omega)

theorem mem_scanDevices : l ∈ scanDevices cfg i ↔ l.bus = i ∧ cfg.Present l := by
  rw [scanDevices, List.mem_flatMap]
  simp only [List.mem_ite_nil_right, List.mem_cons, List.mem_range]
  constructor
  · rintro ⟨j, hj, hvendor, hl⟩
    have hnat := toNat_ofNat_eight (show j < 256 by omega)
    rw [pciGetData_header (by omega) (by decide)] at hvendor hl
    obtain rfl | hmem := hl
    · exact ⟨rfl, by dsimp only; omega, Nat.zero_lt_succ 7, hvendor, hvendor, rfl⟩
    · obtain ⟨rfl, hdevice, -, hupper, hanswers, hpci⟩ := (mem_scanFunctions (by omega)).mp hmem
      rw [← hdevice] at hnat hanswers hpci hvendor
      exact ⟨rfl, by omega, hupper, hanswers, hvendor, hpci⟩
  · rintro ⟨rfl, h⟩
    refine ⟨l.device.toNat, h.device, ?_⟩
    rw [BitVec.ofNat_toNat, BitVec.setWidth_eq, pciGetData_header h.device (by decide),
      mem_scanFunctions h.device]
    refine ⟨h.first, ?_⟩
    obtain hzero | hpos := Nat.eq_zero_or_pos l.function.toNat
    · have hfunction : l.function = 0 := BitVec.eq_of_toNat_eq hzero
      left
      rw [← hfunction, ← h.pci]
    · exact .inr ⟨rfl, rfl, hpos, h.function, h.answers, h.pci⟩

theorem nodup_scanDevices : (scanDevices cfg i).Nodup := by
  refine nodup_flatMap_of_key Launch.device (BitVec.ofNat 8) List.nodup_range (fun j hj => ?_)
    (fun j hj l hl => ?_) fun a ha b hb => ?_
  · rw [List.mem_range] at hj
    have hnat := toNat_ofNat_eight (show j < 256 by omega)
    dsimp only
    split_ifs
    · refine List.nodup_cons.mpr ⟨fun hmem => ?_, nodup_scanFunctions⟩
      obtain ⟨-, -, hlower, -⟩ := (mem_scanFunctions (by omega)).mp hmem
      exact absurd hlower (Nat.not_succ_le_zero 0)
    · exact List.nodup_nil
  · rw [List.mem_range] at hj
    have hnat := toNat_ofNat_eight (show j < 256 by omega)
    rw [List.mem_ite_nil_right, List.mem_cons, mem_scanFunctions (by omega)] at hl
    obtain rfl | hl := hl.2
    · rfl
    · exact hl.2.1
  · rw [List.mem_range] at ha hb
    exact ofNat_eight_inj (by omega) (by omega)

theorem mem_scanLaunches : l ∈ scanLaunches cfg ↔ cfg.Present l ∧ cfg.Answers l.bus 0 0 := by
  rw [scanLaunches, List.mem_flatMap]
  simp only [List.mem_ite_nil_right, mem_scanDevices]
  constructor
  · rintro ⟨i, -, hvendor, hbus, hpresent⟩
    rw [pciGetData_header (by decide) (by decide), ← hbus] at hvendor
    exact ⟨hpresent, hvendor⟩
  · rintro ⟨hpresent, hanswers⟩
    refine ⟨l.bus.toNat, List.mem_range.mpr l.bus.isLt, ?_⟩
    rw [BitVec.ofNat_toNat, BitVec.setWidth_eq, pciGetData_header (by decide) (by decide)]
    exact ⟨hanswers, rfl, hpresent⟩

theorem nodup_scanLaunches : (scanLaunches cfg).Nodup := by
  refine nodup_flatMap_of_key Launch.bus (BitVec.ofNat 8) List.nodup_range (fun i _ => ?_)
    (fun i _ l hl => ?_) fun a ha b hb => ?_
  · dsimp only
    split_ifs
    · exact nodup_scanDevices
    · exact List.nodup_nil
  · rw [List.mem_ite_nil_right, mem_scanDevices] at hl
    exact hl.2.1
  · rw [List.mem_range] at ha hb
    exact ofNat_eight_inj ha hb

end Loops

/-- The scan launches each function that is present on a bus with a device 0 once, and no other. -/
theorem count_scanLaunches (cfg : ConfigSpace) (l : Launch) :
    (cfg.Present l ∧ cfg.Answers l.bus 0 0 → (scanLaunches cfg).count l = 1) ∧
      (¬ (cfg.Present l ∧ cfg.Answers l.bus 0 0) → (scanLaunches cfg).count l = 0) := by
  rw [← mem_scanLaunches]
  exact ⟨List.count_eq_one_of_mem nodup_scanLaunches, List.count_eq_zero_of_not_mem⟩

/-- A configuration space in which only the functions of device 1 answer. -/
def deviceOne : ConfigSpace := fun _ device _ _ => if device = 1 then 0 else BitVec.allOnes 32

/-- Its functions are present, but they are not launched. -/
theorem not_count_scanLaunches : ¬ ∀ (cfg : ConfigSpace) (l : Launch),
    (cfg.Present l → (scanLaunches cfg).count l = 1) ∧
      (¬ cfg.Present l → (scanLaunches cfg).count l = 0) := by
  intro hall
  have hpresent : deviceOne.Present ⟨deviceOne.header 0 1 0, 0, 1, 0⟩ :=
    ⟨by decide, by decide, by decide, by decide, rfl⟩
  have hcount := (hall _ _).1 hpresent
  rw [List.count_eq_zero_of_not_mem] at hcount
  · exact absurd hcount (by decide)
  · rw [mem_scanLaunches]
    rintro ⟨-, hanswers⟩
    exact hanswers (by decide)

end FirstOs
