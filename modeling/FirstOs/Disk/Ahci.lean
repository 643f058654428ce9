import FirstOs.Library.Records
import FirstOs.Library.Search
import FirstOs.Memory.Paging
import Mathlib.Data.BitVec
import Mathlib.Data.Finset.Card
import Mathlib.Data.Finset.Range
import Mathlib.Order.Interval.Finset.Nat

/-!
# AHCI commands

`ahci_read_sectors_internal` and `ahci_write_sectors_internal` differ in the opcode and in one bit
of the command header. They pick a free command slot, fill in the header of the slot and its
command table, wait until the port is idle, and start the command by writing to `ci`.

What the port registers give is arbitrary: `reads` is the stream of all values read from now on.
The headers and tables are kept in bytes, at the addresses the driver uses for them; nothing under
`src/` says where they lie, so that a table may overlap a header. A write to a register is recorded
together with the memory at that time, so that it can be said what a command finds there.

## Main definitions

- `CommandMemory` — the bytes, and the headers and tables in them
- `ahciSectorsInternal` — the two functions, `ahciReadSectors` and `ahciWriteSectors` on top
- `SlotFree`, `PortIdle` — what the hardware has to answer for a command to be started

## Main results

- `ahciSectorsInternal_cases` — the exits before a command, and the one command
- `headers_commandMemory`, `tables_commandMemory` — what a command finds in its header and table
-/

namespace FirstOs

open AddressSpace

-- ════════════════════════════════════════════════════════════════════════
-- Records
-- ════════════════════════════════════════════════════════════════════════

/-- `FIS_HostToDevice`. -/
structure FisHostToDevice where
  fisType : BitVec 8
  pmport : BitVec 4
  reserved0 : BitVec 3
  c : BitVec 1
  command : BitVec 8
  featureLow : BitVec 8
  lba0 : BitVec 8
  lba1 : BitVec 8
  lba2 : BitVec 8
  dev : BitVec 8
  lba3 : BitVec 8
  lba4 : BitVec 8
  lba5 : BitVec 8
  featureHigh : BitVec 8
  countLow : BitVec 8
  countHigh : BitVec 8
  isyncCmdComplete : BitVec 8
  ctrlReg : BitVec 8
  reserved1 : BitVec 32

/-- `HBACommandHeader`. -/
structure HBACommandHeader where
  cfl : BitVec 5
  a : BitVec 1
  w : BitVec 1
  p : BitVec 1
  r : BitVec 1
  b : BitVec 1
  c : BitVec 1
  reserved0 : BitVec 1
  pmp : BitVec 4
  prdtl : BitVec 16
  prdbc : BitVec 32
  ctba : BitVec 32
  ctbau : BitVec 32

/-- `HBAPhysRegionDT`. -/
structure HBAPhysRegionDT where
  dba : BitVec 32
  dbau : BitVec 32
  reserved0 : BitVec 32
  dbc : BitVec 22
  reserved1 : BitVec 9
  i : BitVec 1

/-- `HBACommandTable`: the FIS at the start of `cfis`, and the one region. -/
structure HBACommandTable where
  cfis : FisHostToDevice
  prdtEntry : HBAPhysRegionDT

/-- A FIS in 20 bytes. -/
def fisRecord : RecordType FisHostToDevice where
  size := 20
  bits := Equiv.trans
    { toFun := fun f => (f.fisType, f.pmport, f.reserved0, f.c, f.command, f.featureLow, f.lba0,
        f.lba1, f.lba2, f.dev, f.lba3, f.lba4, f.lba5, f.featureHigh, f.countLow, f.countHigh,
        f.isyncCmdComplete, f.ctrlReg, f.reserved1, ())
      invFun := fun (fisType, pmport, reserved0, c, command, featureLow, lba0, lba1, lba2, dev,
        lba3, lba4, lba5, featureHigh, countLow, countHigh, isyncCmdComplete, ctrlReg, reserved1,
        ()) => ⟨fisType, pmport, reserved0, c, command, featureLow, lba0, lba1, lba2, dev, lba3,
          lba4, lba5, featureHigh, countLow, countHigh, isyncCmdComplete, ctrlReg, reserved1⟩
      left_inv := fun _ => rfl
      right_inv := fun _ => rfl }
    (Fields.equiv [8, 4, 3, 1, 8, 8, 8, 8, 8, 8, 8, 8, 8, 8, 8, 8, 8, 8, 32])

/-- The first 16 bytes of a header; the other 16 are reserved. -/
def headerRecord : RecordType HBACommandHeader where
  size := 16
  bits := Equiv.trans
    { toFun := fun h => (h.cfl, h.a, h.w, h.p, h.r, h.b, h.c, h.reserved0, h.pmp, h.prdtl,
        h.prdbc, h.ctba, h.ctbau, ())
      invFun := fun (cfl, a, w, p, r, b, c, reserved0, pmp, prdtl, prdbc, ctba, ctbau, ()) =>
        ⟨cfl, a, w, p, r, b, c, reserved0, pmp, prdtl, prdbc, ctba, ctbau⟩
      left_inv := fun _ => rfl
      right_inv := fun _ => rfl }
    (Fields.equiv [5, 1, 1, 1, 1, 1, 1, 1, 4, 16, 32, 32, 32])

/-- A region in 16 bytes. -/
def regionRecord : RecordType HBAPhysRegionDT where
  size := 16
  bits := Equiv.trans
    { toFun := fun r => (r.dba, r.dbau, r.reserved0, r.dbc, r.reserved1, r.i, ())
      invFun := fun (dba, dbau, reserved0, dbc, reserved1, i, ()) =>
        ⟨dba, dbau, reserved0, dbc, reserved1, i⟩
      left_inv := fun _ => rfl
      right_inv := fun _ => rfl }
    (Fields.equiv [32, 32, 32, 22, 9, 1])

/-- `ahci_port`, its pointers given by their addresses. -/
structure AhciPort where
  abar : BitVec 32
  port : BitVec 32
  clb : BitVec 32
  fb : BitVec 32
  ctba : ℕ → BitVec 32

/-- The bytes of the command headers and command tables, by the addresses the driver has for them.
    No byte has two of these addresses. -/
structure CommandMemory where
  bytes : BitVec 32 → BitVec 8

namespace CommandMemory

variable (m : CommandMemory) (a : BitVec 32)

/-- The header at an address. -/
def headers : HBACommandHeader := headerRecord.load m.bytes a

/-- The table at an address: `cfis` has 64 bytes, and 64 more lie before the region. -/
def tables : HBACommandTable where
  cfis := fisRecord.load m.bytes a
  prdtEntry := regionRecord.load m.bytes (a + 0x80)

/-- Store a header. -/
def setHeader (header : HBACommandHeader) : CommandMemory := ⟨headerRecord.store m.bytes a header⟩

/-- Store the FIS of a table. -/
def setFis (fis : FisHostToDevice) : CommandMemory := ⟨fisRecord.store m.bytes a fis⟩

/-- Store the region of a table. -/
def setRegion (region : HBAPhysRegionDT) : CommandMemory :=
  ⟨regionRecord.store m.bytes (a + 0x80) region⟩

end CommandMemory

/-- The registers of a port that are written. -/
inductive PortRegister where
  | is
  | ci
deriving DecidableEq

/-- A write to a register, and the memory at that time. -/
structure PortWrite where
  register : PortRegister
  value : BitVec 32
  memory : CommandMemory

/-- The memory, the values read from registers from now on, and the writes so far. -/
structure AhciState where
  memory : CommandMemory
  reads : ℕ → BitVec 32
  writes : List PortWrite

/-- What the two functions differ in. -/
inductive Direction where
  | read
  | write
deriving DecidableEq

/-- `SATA_READ_DMA_EX`, `SATA_WRITE_DMA_EX`. -/
def Direction.opcode : Direction → BitVec 8
  | read => 0x25
  | write => 0x35

/-- The bit `w` of the command header. -/
def Direction.w : Direction → BitVec 1
  | read => 0
  | write => 1

namespace AhciState

/-- Read a register. -/
def read (s : AhciState) : BitVec 32 × AhciState :=
  (s.reads 0, { s with reads := fun n => s.reads (n + 1) })

/-- Write a register. -/
def write (s : AhciState) (register : PortRegister) (value : BitVec 32) : AhciState :=
  { s with writes := s.writes ++ [⟨register, value, s.memory⟩] }

end AhciState

-- ════════════════════════════════════════════════════════════════════════
-- The functions
-- ════════════════════════════════════════════════════════════════════════

/-- The slot `find_cmd_slot` picks: the first of the `cap[11:8]` slots whose bit is clear. -/
def freeSlot (slots cap : BitVec 32) : Option ℕ :=
  Search.first (fun i => slots >>> i &&& 1 == 0) 0 ((cap &&& 0x0F00#32) >>> 8).toNat

/-- `find_cmd_slot`. -/
def findCmdSlot (s : AhciState) : Option ℕ × AhciState :=
  let (sact, s) := s.read
  let (ci, s) := s.read
  let (cap, s) := s.read
  (freeSlot (sact ||| ci) cap, s)

/-- `SATA_BUSY | SATA_DRQ`. -/
def busy (tfd : BitVec 32) : Bool := tfd &&& (0x80#32 ||| 0x08#32) != 0

/-- The loop that waits for the port, at most `n` times. -/
def spin : ℕ → AhciState → AhciState
  | 0, s => s
  | n + 1, s =>
    let (tfd, s) := s.read
    if busy tfd then spin n s else s

/-- The address of the header of a slot. -/
def AhciPort.header (aport : AhciPort) (slot : ℕ) : BitVec 32 :=
  aport.clb + BitVec.ofNat 32 (32 * slot)

/-- The header and the table of a slot, which have 32 and 0x90 bytes, do not overlap. -/
def AhciPort.SlotApart (aport : AhciPort) (slot : ℕ) : Prop :=
  Apart (aport.header slot) 32 (aport.ctba slot) 0x90

section Commands

variable {σ : Type} [AddressSpace σ] (t : σ) (dir : Direction)

/-- The header of a command: `cfl` is the length of the FIS in dwords. -/
def commandHeader (header : HBACommandHeader) : HBACommandHeader :=
  { header with cfl := 5, w := dir.w }

/-- The region of a command. The statement about `dbc` computes a value and does not store it. -/
def commandRegion (buf : BitVec 32) (region : HBAPhysRegionDT) : HBAPhysRegionDT :=
  { region with dba := BitVec.ofNat 32 (getPhysAddr t buf.toNat), dbau := 0, i := 1 }

/-- The FIS of a command. -/
def commandFis (startLow startHigh count : BitVec 32) (fis : FisHostToDevice) : FisHostToDevice :=
  { fis with
    fisType := 0x27
    c := 1
    command := dir.opcode
    lba0 := startLow.setWidth 8
    lba1 := (startLow >>> 8).setWidth 8
    lba2 := (startLow >>> 16).setWidth 8
    dev := 1#8 <<< 6
    lba3 := (startLow >>> 24).setWidth 8
    lba4 := startHigh.setWidth 8
    lba5 := (startHigh >>> 8).setWidth 8
    countLow := (count &&& 0xFF#32).setWidth 8
    countHigh := (count >>> 8).setWidth 8 }

/-- The memory with the header and the table of a command, which are written in this order. -/
def commandMemory (aport : AhciPort) (slot : ℕ) (startLow startHigh count buf : BitVec 32)
    (m : CommandMemory) : CommandMemory :=
  let cmdHeader := aport.header slot
  let cmdTable := aport.ctba slot
  let m := m.setHeader cmdHeader (commandHeader dir (m.headers cmdHeader))
  let m := m.setRegion cmdTable (commandRegion t buf (m.tables cmdTable).prdtEntry)
  m.setFis cmdTable (commandFis dir startLow startHigh count (m.tables cmdTable).cfis)

/-- The loop that waits for a command. It has no bound in the source; here it has no result when
    the fuel runs out. -/
def waitCommand (slot : ℕ) : ℕ → AhciState → Option (BitVec 8) × AhciState
  | 0, s => (none, s)
  | fuel + 1, s =>
    let (ci, s) := s.read
    if ci &&& (1#32 <<< slot) = 0 then
      let (is, s) := s.read
      if is &&& (1#32 <<< 30) ≠ 0 then (some 3, s) else (some 0, s)
    else
      let (is, s) := s.read
      if is &&& (1#32 <<< 30) ≠ 0 then (some 3, s) else waitCommand slot fuel s

/-- Test the port once more, start the command and wait for it. -/
def startCommand (slot fuel : ℕ) (s : AhciState) : Option (BitVec 8) × AhciState :=
  let (tfd, s) := s.read
  if busy tfd then (some 2, s)
  else waitCommand slot fuel (s.write .ci (1#32 <<< slot))

/-- `ahci_read_sectors_internal` and `ahci_write_sectors_internal`. -/
def ahciSectorsInternal (fuel : ℕ) (aport : AhciPort) (startLow startHigh count buf : BitVec 32)
    (s : AhciState) : Option (BitVec 8) × AhciState :=
  let s := s.write .is 0xFFFFFFFF
  match findCmdSlot s with
  | (none, s) => (some 1, s)
  | (some slot, s) =>
    startCommand slot fuel (spin 1000000
      { s with memory := commandMemory t dir aport slot startLow startHigh count buf s.memory })

/-- `ahci_read_sectors` and `ahci_write_sectors`. -/
def ahciSectors (fuel : ℕ) (ports : ℕ → AhciPort) (driveNum : BitVec 16) (startSector : BitVec 64)
    (count buf : BitVec 32) (s : AhciState) : Option (BitVec 8) × AhciState :=
  if (ports driveNum.toNat).abar ≠ 0 then
    ahciSectorsInternal t dir fuel (ports driveNum.toNat)
      ((startSector &&& 0xFFFFFFFF#64).setWidth 32)
      (((startSector >>> 32) &&& 0xFFFFFFFF#64).setWidth 32) count buf s
  else (some 4, s)

/-- `ahci_read_sectors`. -/
def ahciReadSectors := ahciSectors t .read

/-- `ahci_write_sectors`. -/
def ahciWriteSectors := ahciSectors t .write

end Commands

-- ════════════════════════════════════════════════════════════════════════
-- Headers and tables
-- ════════════════════════════════════════════════════════════════════════

section Memory

namespace CommandMemory

variable {m : CommandMemory} {a b : BitVec 32} {header : HBACommandHeader} {fis : FisHostToDevice}
  {region : HBAPhysRegionDT}

theorem headers_setHeader : (m.setHeader a header).headers a = header :=
  RecordType.load_store (by decide) header

theorem headers_setHeader_of_apart (h : Apart a 32 b 32) :
    (m.setHeader b header).headers a = m.headers a :=
  RecordType.load_store_of_apart (by decide) (h.mono (by decide) (by decide)) header

theorem headers_setFis (h : Apart a 32 b 0x90) : (m.setFis b fis).headers a = m.headers a :=
  RecordType.load_store_of_apart (by decide) (h.mono (by decide) (by decide)) fis

theorem headers_setRegion (h : Apart a 32 b 0x90) :
    (m.setRegion b region).headers a = m.headers a :=
  RecordType.load_store_of_apart (by decide)
    ((h.part 0x80 0x10 (by decide)).mono (by decide) (by decide)) region

/-- The FIS and the region of a table do not overlap. -/
theorem fis_apart_region (a : BitVec 32) : Apart a 20 (a + 0x80) 16 := by
  refine apart_of_le ?_ ?_
  · rw [add_sub_cancel_left]
    decide
  · rw [sub_add_cancel_left]
    decide

theorem tables_setFis : (m.setFis a fis).tables a = { m.tables a with cfis := fis } :=
  congrArg₂ HBACommandTable.mk (RecordType.load_store (by decide) fis)
    (RecordType.load_store_of_apart (by decide) (fis_apart_region a).symm fis)

theorem tables_setRegion : (m.setRegion a region).tables a =
    { m.tables a with prdtEntry := region } :=
  congrArg₂ HBACommandTable.mk
    (RecordType.load_store_of_apart (by decide) (fis_apart_region a) region)
    (RecordType.load_store (by decide) region)

/-- A store that is apart from a table leaves it alone. -/
theorem tables_store_of_apart {R : Type} {c : RecordType R} {r : R}
    (h : Apart b c.size a 0x90) : (CommandMemory.mk (c.store m.bytes b r)).tables a = m.tables a :=
  congrArg₂ HBACommandTable.mk
    (RecordType.load_store_of_apart (by decide) (h.mono le_rfl (by decide)).symm r)
    (RecordType.load_store_of_apart (by decide) (h.part 0x80 0x10 (by decide)).symm r)

theorem tables_setHeader (h : Apart b 32 a 0x90) : (m.setHeader b header).tables a = m.tables a :=
  tables_store_of_apart (h.mono (by decide) le_rfl)

theorem tables_setFis_of_apart (h : Apart b 0x90 a 0x90) :
    (m.setFis b fis).tables a = m.tables a :=
  tables_store_of_apart (h.mono (by decide) le_rfl)

theorem tables_setRegion_of_apart (h : Apart b 0x90 a 0x90) :
    (m.setRegion b region).tables a = m.tables a :=
  tables_store_of_apart (h.symm.part 0x80 0x10 (by decide)).symm

end CommandMemory

variable {σ : Type} [AddressSpace σ] {t : σ} {dir : Direction} {aport : AhciPort} {slot : ℕ}
  {startLow startHigh count buf a : BitVec 32} {m : CommandMemory}

/-- A command finds its header, when the table does not lie over it. -/
theorem headers_commandMemory (h : aport.SlotApart slot) :
    (commandMemory t dir aport slot startLow startHigh count buf m).headers (aport.header slot) =
      commandHeader dir (m.headers (aport.header slot)) := by
  rw [commandMemory, CommandMemory.headers_setFis h, CommandMemory.headers_setRegion h,
    CommandMemory.headers_setHeader]

/-- A command finds its FIS, and the region with what the table has held before. -/
theorem tables_commandMemory (h : aport.SlotApart slot) :
    (commandMemory t dir aport slot startLow startHigh count buf m).tables (aport.ctba slot) =
      { cfis := commandFis dir startLow startHigh count (m.tables (aport.ctba slot)).cfis
        prdtEntry := commandRegion t buf (m.tables (aport.ctba slot)).prdtEntry } := by
  rw [commandMemory, CommandMemory.tables_setFis, CommandMemory.tables_setRegion,
    CommandMemory.tables_setHeader h]

/-- A header that is apart from what is written stays. -/
theorem headers_commandMemory_of_apart (hheader : Apart a 32 (aport.header slot) 32)
    (htable : Apart a 32 (aport.ctba slot) 0x90) :
    (commandMemory t dir aport slot startLow startHigh count buf m).headers a = m.headers a := by
  rw [commandMemory, CommandMemory.headers_setFis htable, CommandMemory.headers_setRegion htable,
    CommandMemory.headers_setHeader_of_apart hheader]

/-- A table that is apart from what is written stays. -/
theorem tables_commandMemory_of_apart (hheader : Apart (aport.header slot) 32 a 0x90)
    (htable : Apart (aport.ctba slot) 0x90 a 0x90) :
    (commandMemory t dir aport slot startLow startHigh count buf m).tables a = m.tables a := by
  rw [commandMemory, CommandMemory.tables_setFis_of_apart htable,
    CommandMemory.tables_setRegion_of_apart htable, CommandMemory.tables_setHeader hheader]

end Memory

-- ════════════════════════════════════════════════════════════════════════
-- The run of a command
-- ════════════════════════════════════════════════════════════════════════

/-- One of the slots the controller has is free. -/
def SlotFree (reads : ℕ → BitVec 32) : Prop :=
  ∃ i < ((reads 2 &&& 0x0F00#32) >>> 8).toNat, (reads 0 ||| reads 1) >>> i &&& 1 = 0

/-- The port is idle at the test that follows at most `n` reads in the waiting loop. -/
def PortIdle (n : ℕ) (reads : ℕ → BitVec 32) : Prop :=
  (∃ m < n, (∀ l < m, busy (reads l) = true) ∧ busy (reads m) = false ∧
    busy (reads (m + 1)) = false) ∨
  (∀ l < n, busy (reads l) = true) ∧ busy (reads n) = false

/-- The writes that start a command. -/
def AhciState.commands (s : AhciState) : List PortWrite := s.writes.filter (·.register = .ci)

section Run

variable {σ : Type} [AddressSpace σ] {t : σ} {dir : Direction} {s : AhciState} {n slot fuel : ℕ}
  {aport : AhciPort} {startLow startHigh count buf : BitVec 32} {reads : ℕ → BitVec 32}

theorem freeSlot_eq_none_iff :
    freeSlot (reads 0 ||| reads 1) (reads 2) = none ↔ ¬ SlotFree reads := by
  rw [freeSlot, Search.first_eq_none_iff, SlotFree]
  push Not
  constructor
  · intro h i hi
    simpa using h i (Nat.zero_le i) (by omega)
  · intro h i _ hi
    simpa using h i (by omega)

theorem slotFree_of_eq_some (h : freeSlot (reads 0 ||| reads 1) (reads 2) = some slot) :
    SlotFree reads := by
  by_contra hnone
  rw [freeSlot_eq_none_iff.mpr hnone] at h
  cases h

theorem freeSlot_lt {slots cap : BitVec 32} (h : freeSlot slots cap = some slot) : slot < 16 := by
  obtain ⟨-, hlt, -⟩ := Search.first_eq_some_iff.mp h
  rw [BitVec.toNat_ushiftRight, BitVec.toNat_and, Nat.shiftRight_eq_div_pow] at hlt
  have hand : cap.toNat &&& (0x0F00#32).toNat ≤ 0x0F00 := Nat.and_le_right
  omega

theorem portIdle_zero : PortIdle 0 reads ↔ busy (reads 0) = false := by
  constructor
  · rintro (⟨m, hm, -⟩ | ⟨-, h⟩)
    · exact absurd hm (Nat.not_lt_zero m)
    · exact h
  · exact fun h => .inr ⟨fun l hl => absurd hl (Nat.not_lt_zero l), h⟩

theorem portIdle_succ : PortIdle (n + 1) reads ↔
    if busy (reads 0) then PortIdle n (fun k => reads (k + 1)) else busy (reads 1) = false := by
  cases hbusy : busy (reads 0) with
  | true =>
    rw [if_pos rfl]
    have hall : ∀ m, (∀ l < m + 1, busy (reads l) = true) ↔
        ∀ l < m, busy (reads (l + 1)) = true := by
      intro m
      constructor
      · exact fun h l hl => h (l + 1) (by omega)
      · rintro h (_ | l) hl
        · exact hbusy
        · exact h l (by omega)
    constructor
    · rintro (⟨m, hm, hl, hidle, hnext⟩ | ⟨hl, hidle⟩)
      · cases m with
        | zero =>
          rw [hbusy] at hidle
          exact absurd hidle (by decide)
        | succ m => exact .inl ⟨m, by omega, (hall m).mp hl, hidle, hnext⟩
      · exact .inr ⟨(hall n).mp hl, hidle⟩
    · rintro (⟨m, hm, hl, hidle, hnext⟩ | ⟨hl, hidle⟩)
      · exact .inl ⟨m + 1, by omega, (hall m).mpr hl, hidle, hnext⟩
      · exact .inr ⟨(hall n).mpr hl, hidle⟩
  | false =>
    rw [if_neg Bool.false_ne_true]
    constructor
    · rintro (⟨m, hm, hl, hidle, hnext⟩ | ⟨hl, hidle⟩)
      · obtain rfl | hpos := Nat.eq_zero_or_pos m
        · exact hnext
        · rw [hl 0 hpos] at hbusy
          exact absurd hbusy (by decide)
      · rw [hl 0 (by omega)] at hbusy
        exact absurd hbusy (by decide)
    · exact fun h => .inl ⟨0, by omega, fun l hl => absurd hl (Nat.not_lt_zero l), hbusy, h⟩

/-- Waiting for the port reads only. -/
theorem spin_spec (n : ℕ) (s : AhciState) : (spin n s).memory = s.memory ∧
    (spin n s).writes = s.writes ∧ (busy ((spin n s).reads 0) = false ↔ PortIdle n s.reads) := by
  induction n generalizing s with
  | zero => exact ⟨rfl, rfl, portIdle_zero.symm⟩
  | succ n ih =>
    rw [portIdle_succ, spin]
    dsimp only [AhciState.read]
    split_ifs with hbusy
    · exact ih _
    · exact ⟨rfl, rfl, Iff.rfl⟩

/-- Waiting for a command reads only. -/
theorem waitCommand_writes (slot fuel : ℕ) (s : AhciState) :
    (waitCommand slot fuel s).2.writes = s.writes := by
  induction fuel generalizing s with
  | zero => rfl
  | succ fuel ih =>
    rw [waitCommand]
    dsimp only [AhciState.read]
    split_ifs
    · rfl
    · rfl
    · rfl
    · exact ih _

/-- A command is started when the port is not busy. -/
theorem startCommand_cases (slot fuel : ℕ) (s : AhciState) :
    (busy (s.reads 0) = true ∧ (startCommand slot fuel s).1 = some 2 ∧
      (startCommand slot fuel s).2.commands = s.commands) ∨
    (busy (s.reads 0) = false ∧ (startCommand slot fuel s).2.commands =
      s.commands ++ [⟨.ci, 1#32 <<< slot, s.memory⟩]) := by
  rw [startCommand]
  dsimp only [AhciState.read]
  cases hbusy : busy (s.reads 0) with
  | true => exact .inl ⟨rfl, rfl, rfl⟩
  | false =>
    refine .inr ⟨rfl, ?_⟩
    rw [if_neg Bool.false_ne_true, AhciState.commands, waitCommand_writes, AhciState.write,
      List.filter_append]
    rfl

/-- Without a free slot, or with a port that stays busy, a non-zero code is the answer and no
    command is started; else one is, in the slot that was found. -/
theorem ahciSectorsInternal_cases (t : σ) (dir : Direction) (fuel : ℕ) (aport : AhciPort)
    (startLow startHigh count buf : BitVec 32) (s : AhciState) :
    let r := ahciSectorsInternal t dir fuel aport startLow startHigh count buf s
    (¬ SlotFree s.reads ∧ r.1 = some 1 ∧ r.2.commands = s.commands) ∨
    (SlotFree s.reads ∧ ¬ PortIdle 1000000 (fun k => s.reads (k + 3)) ∧ r.1 = some 2 ∧
      r.2.commands = s.commands) ∨
    ∃ slot < 16, freeSlot (s.reads 0 ||| s.reads 1) (s.reads 2) = some slot ∧
      PortIdle 1000000 (fun k => s.reads (k + 3)) ∧
      r.2.commands = s.commands ++ [⟨.ci, 1#32 <<< slot,
        commandMemory t dir aport slot startLow startHigh count buf s.memory⟩] := by
  intro r
  have hr : r = ahciSectorsInternal t dir fuel aport startLow startHigh count buf s := rfl
  have hwrite : (s.write .is 0xFFFFFFFF).commands = s.commands := by
    simp [AhciState.commands, AhciState.write]
  rw [ahciSectorsInternal, findCmdSlot] at hr
  dsimp only [AhciState.read] at hr
  cases hslot : freeSlot (s.reads 0 ||| s.reads 1) (s.reads 2) with
  | none =>
    have hnone : freeSlot
        ((s.write .is 0xFFFFFFFF).reads 0 ||| (s.write .is 0xFFFFFFFF).reads (0 + 1))
        ((s.write .is 0xFFFFFFFF).reads (0 + 1 + 1)) = none := hslot
    rw [hnone] at hr
    rw [hr]
    exact .inl ⟨freeSlot_eq_none_iff.mp hslot, rfl, hwrite⟩
  | some slot =>
    have hsome : freeSlot
        ((s.write .is 0xFFFFFFFF).reads 0 ||| (s.write .is 0xFFFFFFFF).reads (0 + 1))
        ((s.write .is 0xFFFFFFFF).reads (0 + 1 + 1)) = some slot := hslot
    rw [hsome] at hr
    dsimp only at hr
    have hfree : SlotFree s.reads := slotFree_of_eq_some hslot
    have hspin := spin_spec 1000000 ⟨commandMemory t dir aport slot startLow startHigh count buf
      s.memory, fun n => s.reads (n + 3), (s.write .is 0xFFFFFFFF).writes⟩
    dsimp only at hspin
    change r = startCommand slot fuel (spin 1000000 ⟨commandMemory t dir aport slot startLow
      startHigh count buf s.memory, fun n => s.reads (n + 3), (s.write .is 0xFFFFFFFF).writes⟩) at hr
    generalize spin 1000000 _ = q at hr hspin
    obtain ⟨hmem, hwrites, hidle⟩ := hspin
    have hcommands : q.commands = s.commands := by
      rw [AhciState.commands, hwrites]
      exact hwrite
    obtain ⟨hbusy, hcode, hsame⟩ | ⟨hbusy, hstarted⟩ := startCommand_cases slot fuel q
    · rw [hr]
      refine .inr (.inl ⟨hfree, fun h => ?_, hcode, hsame.trans hcommands⟩)
      rw [hidle.mpr h] at hbusy
      exact Bool.false_ne_true hbusy
    · rw [hr, hstarted, hcommands, hmem]
      exact .inr (.inr ⟨slot, freeSlot_lt hslot, rfl, hidle.mp hbusy, rfl⟩)

/-- The same for a port without commands: a request is refused, or it is the one command. -/
theorem ahciSectorsInternal_refused_or_started (t : σ) (dir : Direction) (fuel : ℕ)
    (aport : AhciPort) (startLow startHigh count buf : BitVec 32) (memory : CommandMemory)
    (reads : ℕ → BitVec 32) :
    let r := ahciSectorsInternal t dir fuel aport startLow startHigh count buf ⟨memory, reads, []⟩
    ((∀ slot, freeSlot (reads 0 ||| reads 1) (reads 2) = some slot →
        ¬ PortIdle 1000000 (fun k => reads (k + 3))) ∧
      (∃ c, r.1 = some c ∧ c ≠ 0) ∧ r.2.commands = []) ∨
    ∃ slot < 16, freeSlot (reads 0 ||| reads 1) (reads 2) = some slot ∧
      PortIdle 1000000 (fun k => reads (k + 3)) ∧
      r.2.commands = [⟨.ci, 1#32 <<< slot,
        commandMemory t dir aport slot startLow startHigh count buf memory⟩] := by
  intro r
  obtain ⟨hslot, hcode, hnone⟩ | ⟨-, hidle, hcode, hnone⟩ | hstarted :=
    ahciSectorsInternal_cases t dir fuel aport startLow startHigh count buf ⟨memory, reads, []⟩
  · refine .inl ⟨fun slot hsome => ?_, ⟨1, hcode, by decide⟩, hnone⟩
    rw [freeSlot_eq_none_iff.mpr hslot] at hsome
    cases hsome
  · exact .inl ⟨fun _ _ => hidle, ⟨2, hcode, by decide⟩, hnone⟩
  · exact .inr hstarted

end Run

end FirstOs
