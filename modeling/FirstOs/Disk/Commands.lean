import FirstOs.Disk.Ahci
import FirstOs.Memory.Exclusive
import Mathlib.Tactic.IntervalCases

/-!
# What a command asks for

A command carries the sector in six bytes and the count in two, a count of 0 standing for 65536, so
that sectors from 2^48 on and counts above 65536 are cut down. No test keeps such a request, or one
for no sectors, from being started. The header is written first, so that a table that lies over it
can take the direction away.

The region of the command starts at the physical address of the buffer. Its length is never set: it
is whatever the command table has held before.

## Main definitions

- `FisHostToDevice.Asks` — the sectors a FIS asks for
- `writtenByte`, `AhciPort.KeepsW` — what is written over the header where the table lies there
- `bufferBytes`, `HBAPhysRegionDT.bytes` — the bytes of a buffer and of a region

## Main results

- `asksExactly_iff` — when a request asks for its sectors, or is refused
- `touchesBuffer_iff` — when a command touches the bytes of its buffer
-/

namespace FirstOs

open AddressSpace

-- ════════════════════════════════════════════════════════════════════════
-- Sectors
-- ════════════════════════════════════════════════════════════════════════

/-- The sector an LBA48 command starts at. -/
def FisHostToDevice.lba (f : FisHostToDevice) : ℕ :=
  f.lba0.toNat + 2 ^ 8 * f.lba1.toNat + 2 ^ 16 * f.lba2.toNat + 2 ^ 24 * f.lba3.toNat +
    2 ^ 32 * f.lba4.toNat + 2 ^ 40 * f.lba5.toNat

/-- The number of its sectors. -/
def FisHostToDevice.sectors (f : FisHostToDevice) : ℕ :=
  if 2 ^ 8 * f.countHigh.toNat + f.countLow.toNat = 0 then 65536
  else 2 ^ 8 * f.countHigh.toNat + f.countLow.toNat

/-- The FIS is a command for these sectors. -/
structure FisHostToDevice.Asks (f : FisHostToDevice) (dir : Direction) (startSector : BitVec 64)
    (count : BitVec 32) : Prop where
  command : f.fisType = 0x27 ∧ f.c = 1
  opcode : f.command = dir.opcode
  lba : f.lba = startSector.toNat
  sectors : f.sectors = count.toNat

/-- An LBA48 command can ask for these sectors. -/
def Expressible (startSector : BitVec 64) (count : BitVec 32) : Prop :=
  startSector.toNat < 2 ^ 48 ∧ 1 ≤ count.toNat ∧ count.toNat ≤ 65536

section Sectors

variable {dir : Direction} {startSector : BitVec 64} {count : BitVec 32} {fis : FisHostToDevice}

theorem mask_setWidth (x : BitVec 64) : (x &&& 0xFFFFFFFF#64).setWidth 32 = x.setWidth 32 := by
  apply BitVec.eq_of_getLsbD_eq
  intro i hi
  interval_cases i <;> simp

/-- The FIS of a request, in terms of its arguments. -/
def requestFis (dir : Direction) (startSector : BitVec 64) (count : BitVec 32)
    (fis : FisHostToDevice) : FisHostToDevice :=
  commandFis dir ((startSector &&& 0xFFFFFFFF#64).setWidth 32)
    (((startSector >>> 32) &&& 0xFFFFFFFF#64).setWidth 32) count fis

theorem lba_requestFis :
    (requestFis dir startSector count fis).lba = startSector.toNat % 2 ^ 48 := by
  rw [requestFis, mask_setWidth, mask_setWidth, FisHostToDevice.lba, commandFis]
  simp only [BitVec.toNat_setWidth, BitVec.toNat_ushiftRight, Nat.shiftRight_eq_div_pow]
  omega

theorem sectors_requestFis : (requestFis dir startSector count fis).sectors =
    if count.toNat % 65536 = 0 then 65536 else count.toNat % 65536 := by
  have hlow : (count &&& 0xFF#32).toNat = count.toNat % 2 ^ 8 := by
    rw [BitVec.toNat_and]
    exact Nat.and_two_pow_sub_one_eq_mod _ 8
  have hbytes : 2 ^ 8 * ((count >>> 8).setWidth 8).toNat +
      ((count &&& 0xFF#32).setWidth 8).toNat = count.toNat % 65536 := by
    rw [BitVec.toNat_setWidth, BitVec.toNat_setWidth, hlow, BitVec.toNat_ushiftRight,
      Nat.shiftRight_eq_div_pow]
    omega
  rw [FisHostToDevice.sectors, requestFis, commandFis]
  dsimp only
  rw [hbytes]

/-- A command asks for the sectors of the request when it can. -/
theorem requestFis_asks_iff :
    (requestFis dir startSector count fis).Asks dir startSector count ↔
      Expressible startSector count := by
  have hsector := startSector.isLt
  have hcount := count.isLt
  constructor
  · intro h
    have hlba := h.lba
    have hsectors := h.sectors
    rw [lba_requestFis] at hlba
    rw [sectors_requestFis] at hsectors
    split_ifs at hsectors
    · exact ⟨by omega, by omega, by omega⟩
    · exact ⟨by omega, by omega, by omega⟩
  · rintro ⟨hlba, hlow, hhigh⟩
    refine ⟨⟨rfl, rfl⟩, rfl, ?_, ?_⟩
    · rw [lba_requestFis]
      omega
    · rw [sectors_requestFis]
      split_ifs <;> omega

end Sectors

-- ════════════════════════════════════════════════════════════════════════
-- The direction
-- ════════════════════════════════════════════════════════════════════════

/-- The bytes a request writes in its table, by their offsets; in byte 1 it writes only the bit `c`,
    and in byte 0x8F only the bit `i`. -/
def writtenByte (dir : Direction) (startSector : BitVec 64) (count dba : BitVec 32) :
    ℕ → Option (BitVec 8)
  | 0 => some 0x27
  | 2 => some dir.opcode
  | 4 => some (startSector.extractLsb' 0 8)
  | 5 => some (startSector.extractLsb' 8 8)
  | 6 => some (startSector.extractLsb' 16 8)
  | 7 => some 0x40
  | 8 => some (startSector.extractLsb' 24 8)
  | 9 => some (startSector.extractLsb' 32 8)
  | 10 => some (startSector.extractLsb' 40 8)
  | 12 => some (count.extractLsb' 0 8)
  | 13 => some (count.extractLsb' 8 8)
  | 0x80 => some (dba.extractLsb' 0 8)
  | 0x81 => some (dba.extractLsb' 8 8)
  | 0x82 => some (dba.extractLsb' 16 8)
  | 0x83 => some (dba.extractLsb' 24 8)
  | 0x84 | 0x85 | 0x86 | 0x87 => some 0
  | _ => none

/-- A byte that is written over the first one of the header, where the bit `w` is bit 6, has the same
    bit there. -/
def AhciPort.KeepsW (aport : AhciPort) (slot : ℕ) (dir : Direction) (startSector : BitVec 64)
    (count dba : BitVec 32) : Prop :=
  ∀ b, writtenByte dir startSector count dba (aport.header slot - aport.ctba slot).toNat = some b →
    b.extractLsb' 6 1 = dir.w

section Direction

variable {dir : Direction} {aport : AhciPort} {slot : ℕ} {startSector : BitVec 64}
  {count dba a x : BitVec 32} {m : CommandMemory}

theorem writtenByte_eq_none {d : ℕ} (h : 0x90 ≤ d) : writtenByte dir startSector count dba d = none := by
  rw [writtenByte] <;> omega

/-- A table that does not lie over the header keeps the bit. -/
theorem AhciPort.SlotApart.keepsW (h : aport.SlotApart slot) :
    aport.KeepsW slot dir startSector count dba := by
  have hfar : 0x90 ≤ (aport.header slot - aport.ctba slot).toNat :=
    h _ (by rw [sub_self]; decide)
  intro b hb
  rw [writtenByte_eq_none hfar] at hb
  cases hb

/-- The bit `w` in the first byte of a header. -/
theorem headers_w : (m.headers a).w = (m.bytes a).extractLsb' 6 1 := by
  have hbits : ∀ h, (headerRecord.bits h).getLsbD 6 = (0#0 ++ h.ctbau ++ h.ctba ++ h.prdbc ++
      h.prdtl ++ h.pmp ++ h.reserved0 ++ h.c ++ h.b ++ h.r ++ h.p ++ h.w ++ h.a ++
      h.cfl).getLsbD 6 := fun _ => rfl
  have hw : ∀ h, (headerRecord.bits h).getLsbD 6 = h.w.getLsbD 0 := by
    intro h
    rw [hbits]
    simp only [BitVec.getLsbD_append]
    simp
  have hload := headerRecord.getLsbD_bits_load (m := m.bytes) (a := a) (x := a) (i := 6)
    (by rw [sub_self]; decide) (by decide)
  rw [sub_self] at hload
  apply BitVec.eq_of_getLsbD_eq
  intro i hi
  obtain rfl := Nat.lt_one_iff.mp hi
  rw [BitVec.getLsbD_extractLsb', ← hw]
  exact hload

/-- Bit 6 of the bytes of a FIS, when the fields of a request are set. -/
theorem bits_requestFis {fis : FisHostToDevice} {d : ℕ} (hd : d < 20) :
    (fisRecord.bits (requestFis dir startSector count fis)).getLsbD (8 * d + 6) =
      (writtenByte dir startSector count dba d).elim ((fisRecord.bits fis).getLsbD (8 * d + 6))
        (·.getLsbD 6) := by
  have hbits : ∀ f i, (fisRecord.bits f).getLsbD i = (0#0 ++ f.reserved1 ++ f.ctrlReg ++
      f.isyncCmdComplete ++ f.countHigh ++ f.countLow ++ f.featureHigh ++ f.lba5 ++ f.lba4 ++
      f.lba3 ++ f.dev ++ f.lba2 ++ f.lba1 ++ f.lba0 ++ f.featureLow ++ f.command ++ f.c ++
      f.reserved0 ++ f.pmport ++ f.fisType).getLsbD i := fun _ _ => rfl
  rw [hbits, hbits]
  simp only [BitVec.getLsbD_append]
  interval_cases d <;> simp [requestFis, commandFis, writtenByte]

/-- Bit 6 of the bytes of a region, when its address is set. -/
theorem bits_region {r : HBAPhysRegionDT} {k : ℕ} (hk : k < 16) :
    (regionRecord.bits { r with dba := dba, dbau := 0, i := 1 }).getLsbD (8 * k + 6) =
      (writtenByte dir startSector count dba (0x80 + k)).elim
        ((regionRecord.bits r).getLsbD (8 * k + 6)) (·.getLsbD 6) := by
  have hbits : ∀ r i, (regionRecord.bits r).getLsbD i = (0#0 ++ r.i ++ r.reserved1 ++ r.dbc ++
      r.reserved0 ++ r.dbau ++ r.dba).getLsbD i := fun _ _ => rfl
  rw [hbits, hbits]
  simp only [BitVec.getLsbD_append]
  interval_cases k <;> simp [writtenByte]

/-- Bit 6 of a byte after the FIS of a request has been stored. -/
theorem setFis_bit (dba : BitVec 32) : ((m.setFis a (requestFis dir startSector count (m.tables a).cfis)).bytes
    x).getLsbD 6 = if (x - a).toNat < 20 then
      (writtenByte dir startSector count dba (x - a).toNat).elim ((m.bytes x).getLsbD 6) (·.getLsbD 6)
    else (m.bytes x).getLsbD 6 := by
  rw [CommandMemory.setFis, fisRecord.getLsbD_store _ _ (by decide)]
  refine if_ctx_congr Iff.rfl (fun hx => ?_) fun _ => rfl
  rw [bits_requestFis hx]
  exact congrArg (Option.elim _ · _) (fisRecord.getLsbD_bits_load hx (by decide))

/-- Bit 6 of a byte after the region of a request has been stored. -/
theorem setRegion_bit (dir : Direction) (startSector : BitVec 64) (count : BitVec 32) :
    ((m.setRegion a { (m.tables a).prdtEntry with
      dba := dba, dbau := 0, i := 1 }).bytes x).getLsbD 6 =
      if (x - (a + 0x80)).toNat < 16 then
        (writtenByte dir startSector count dba (0x80 + (x - (a + 0x80)).toNat)).elim
          ((m.bytes x).getLsbD 6) (·.getLsbD 6)
      else (m.bytes x).getLsbD 6 := by
  rw [CommandMemory.setRegion, regionRecord.getLsbD_store _ _ (by decide)]
  refine if_ctx_congr Iff.rfl (fun hx => ?_) fun _ => rfl
  rw [bits_region hx]
  exact congrArg (Option.elim _ · _) (regionRecord.getLsbD_bits_load hx (by decide))

/-- Bit 6 of a byte after a table has been written. -/
theorem setTable_bit {region : HBAPhysRegionDT}
    (hregion : region = { (m.tables a).prdtEntry with dba := dba, dbau := 0, i := 1 }) :
    (((m.setRegion a region).setFis a (requestFis dir startSector count
      ((m.setRegion a region).tables a).cfis)).bytes x).getLsbD 6 =
    (writtenByte dir startSector count dba (x - a).toNat).elim ((m.bytes x).getLsbD 6)
      (·.getLsbD 6) := by
  subst hregion
  have hsum : x - (a + 0x80) = (x - a) - 0x80 := by ring
  rw [setFis_bit dba, setRegion_bit dir startSector count, hsum]
  by_cases hfis : (x - a).toNat < 20
  · rw [if_pos hfis, if_neg (by bv_omega)]
  by_cases hregion : 0x80 ≤ (x - a).toNat ∧ (x - a).toNat < 0x90
  · have hoffset : ((x - a) - 0x80).toNat + 0x80 = (x - a).toNat := by bv_omega
    rw [if_neg hfis, if_pos (by omega), Nat.add_comm, hoffset]
  · have hnone : writtenByte dir startSector count dba (x - a).toNat = none := by
      rw [writtenByte] <;> omega
    rw [if_neg hfis, if_neg (by bv_omega), hnone]
    rfl

end Direction

/-- The write that starts a command sets the bit of a slot, and the header and the FIS of the slot
    ask for these sectors. -/
def PortWrite.Asks (w : PortWrite) (dir : Direction) (aport : AhciPort) (startSector : BitVec 64)
    (count : BitVec 32) : Prop :=
  ∃ slot < 32, w.value = 1#32 <<< slot ∧ (w.memory.headers (aport.header slot)).w = dir.w ∧
    (w.memory.tables (aport.ctba slot)).cfis.Asks dir startSector count

/-- Commands ask for the sectors of the request, and one that cannot be expressed is refused. -/
structure AsksExactly (r : Option (BitVec 8) × AhciState) (dir : Direction) (aport : AhciPort)
    (startSector : BitVec 64) (count : BitVec 32) : Prop where
  exact : ∀ w ∈ r.2.commands, w.Asks dir aport startSector count
  refused : ¬ Expressible startSector count →
    (∃ c, r.1 = some c ∧ c ≠ 0) ∧ r.2.commands = []

theorem one_shiftLeft_inj : ∀ a < 32, ∀ b < 32, 1#32 <<< a = 1#32 <<< b → a = b := by
  decide

section Requests

variable {σ : Type} [AddressSpace σ] {t : σ} {dir : Direction} {fuel : ℕ} {aport : AhciPort}
  {ports : ℕ → AhciPort} {driveNum : BitVec 16} {startSector : BitVec 64}
  {startLow startHigh count buf : BitVec 32} {memory : CommandMemory} {reads : ℕ → BitVec 32}
  {slot : ℕ}

/-- The memory with the command of a request. -/
def requestMemory (t : σ) (dir : Direction) (aport : AhciPort) (slot : ℕ)
    (startSector : BitVec 64) (count buf : BitVec 32) (m : CommandMemory) : CommandMemory :=
  commandMemory t dir aport slot ((startSector &&& 0xFFFFFFFF#64).setWidth 32)
    (((startSector >>> 32) &&& 0xFFFFFFFF#64).setWidth 32) count buf m

/-- The address of the region of a request. -/
def regionAddr (t : σ) (buf : BitVec 32) : BitVec 32 := BitVec.ofNat 32 (getPhysAddr t buf.toNat)

/-- The FIS is stored last, wherever the header lies. -/
theorem cfis_requestMemory : ∃ fis, ((requestMemory t dir aport slot startSector count buf
    memory).tables (aport.ctba slot)).cfis = requestFis dir startSector count fis :=
  ⟨_, by rw [requestMemory, commandMemory, CommandMemory.tables_setFis]; rfl⟩

/-- The header a command finds has the direction of the request when the table keeps it. -/
theorem w_requestMemory_iff : ((requestMemory t dir aport slot startSector count buf
    memory).headers (aport.header slot)).w = dir.w ↔
      aport.KeepsW slot dir startSector count (regionAddr t buf) := by
  have hheader : ((memory.setHeader (aport.header slot) (commandHeader dir
      (memory.headers (aport.header slot)))).bytes (aport.header slot)).extractLsb' 6 1 = dir.w := by
    rw [← headers_w, CommandMemory.headers_setHeader]
    rfl
  generalize hm : memory.setHeader (aport.header slot) (commandHeader dir
    (memory.headers (aport.header slot))) = m at hheader
  have hbit : ((requestMemory t dir aport slot startSector count buf memory).bytes
      (aport.header slot)).getLsbD 6 = (writtenByte dir startSector count (regionAddr t buf)
        (aport.header slot - aport.ctba slot).toNat).elim
          ((m.bytes (aport.header slot)).getLsbD 6) (·.getLsbD 6) := by
    rw [requestMemory, commandMemory, hm]
    exact setTable_bit rfl
  have hone : ∀ b : BitVec 8, ∀ w : BitVec 1,
      b.extractLsb' 6 1 = w ↔ b.getLsbD 6 = w.getLsbD 0 := by decide +kernel
  rw [headers_w, hone, hbit, AhciPort.KeepsW]
  cases writtenByte dir startSector count (regionAddr t buf)
      (aport.header slot - aport.ctba slot).toNat with
  | none => exact iff_of_true ((hone _ _).mp hheader) fun b hb => by cases hb
  | some b =>
    simp only [Option.elim_some, Option.some.injEq, forall_eq']
    exact (hone b dir.w).symm

/-- The one command of a request, in terms of the slot it is put into. -/
theorem requestMemory_asks_iff (hslot : slot < 16) :
    PortWrite.Asks ⟨.ci, 1#32 <<< slot, requestMemory t dir aport slot startSector count buf memory⟩
      dir aport startSector count ↔ Expressible startSector count ∧
        aport.KeepsW slot dir startSector count (regionAddr t buf) := by
  obtain ⟨fis, hfis⟩ := @cfis_requestMemory σ _ t dir aport startSector count buf memory slot
  constructor
  · rintro ⟨i, hi, hvalue, hw, hasks⟩
    obtain rfl := one_shiftLeft_inj slot (by omega) i hi hvalue
    rw [hfis] at hasks
    exact ⟨requestFis_asks_iff.mp hasks, w_requestMemory_iff.mp hw⟩
  · rintro ⟨hfits, hkeeps⟩
    refine ⟨slot, by omega, rfl, w_requestMemory_iff.mpr hkeeps, ?_⟩
    rw [hfis]
    exact requestFis_asks_iff.mpr hfits

/-- What the request can ask for, and the table of the slot that is found keeps its direction. -/
def Answerable (t : σ) (dir : Direction) (aport : AhciPort) (startSector : BitVec 64)
    (count buf : BitVec 32) (reads : ℕ → BitVec 32) : Prop :=
  Expressible startSector count ∧ ∀ slot, freeSlot (reads 0 ||| reads 1) (reads 2) = some slot →
    aport.KeepsW slot dir startSector count (regionAddr t buf)

/-- A request that starts a command asks for its sectors when it can. -/
theorem AsksExactly.answerable (habar : (ports driveNum.toNat).abar ≠ 0) (hslot : SlotFree reads)
    (hidle : PortIdle 1000000 (fun k => reads (k + 3)))
    (h : AsksExactly (ahciSectors t dir fuel ports driveNum startSector count buf
      ⟨memory, reads, []⟩) dir (ports driveNum.toNat) startSector count) :
    Answerable t dir (ports driveNum.toNat) startSector count buf reads := by
  rw [ahciSectors, if_pos habar] at h
  obtain ⟨hnot, -, -⟩ | ⟨slot, hlt, hfree, -, hcommand⟩ :=
    ahciSectorsInternal_refused_or_started t dir fuel (ports driveNum.toNat)
      ((startSector &&& 0xFFFFFFFF#64).setWidth 32)
      (((startSector >>> 32) &&& 0xFFFFFFFF#64).setWidth 32) count buf memory reads
  · cases hfree : freeSlot (reads 0 ||| reads 1) (reads 2) with
    | none => exact absurd hslot (freeSlot_eq_none_iff.mp hfree)
    | some slot => exact absurd hidle (hnot slot hfree)
  · have hasks := h.exact _ (by rw [hcommand]; exact List.mem_singleton_self _)
    obtain ⟨hfits, hkeeps⟩ := (requestMemory_asks_iff hlt).mp hasks
    refine ⟨hfits, fun slot' hfree' => ?_⟩
    obtain rfl := Option.some.inj (hfree.symm.trans hfree')
    exact hkeeps

/-- A request asks for its sectors, or is refused, when it can be expressed and its table keeps its
    direction, or no command is started at all. -/
theorem asksExactly_iff (t : σ) (dir : Direction) (fuel : ℕ) (ports : ℕ → AhciPort)
    (driveNum : BitVec 16) (startSector : BitVec 64) (count buf : BitVec 32)
    (memory : CommandMemory) (reads : ℕ → BitVec 32) :
    AsksExactly (ahciSectors t dir fuel ports driveNum startSector count buf ⟨memory, reads, []⟩)
        dir (ports driveNum.toNat) startSector count ↔
      Answerable t dir (ports driveNum.toNat) startSector count buf reads ∨
        (ports driveNum.toNat).abar = 0 ∨ ¬ SlotFree reads ∨
        ¬ PortIdle 1000000 (fun k => reads (k + 3)) := by
  constructor
  · intro h
    by_cases habar : (ports driveNum.toNat).abar = 0
    · exact .inr (.inl habar)
    by_cases hslot : SlotFree reads
    · by_cases hidle : PortIdle 1000000 (fun k => reads (k + 3))
      · exact .inl (h.answerable habar hslot hidle)
      · exact .inr (.inr (.inr hidle))
    · exact .inr (.inr (.inl hslot))
  intro h
  rw [ahciSectors]
  split_ifs with habar
  · obtain ⟨-, hcode, hnone⟩ | ⟨slot, hlt, hslot, hidle, hcommand⟩ :=
      ahciSectorsInternal_refused_or_started t dir fuel (ports driveNum.toNat)
        ((startSector &&& 0xFFFFFFFF#64).setWidth 32)
        (((startSector >>> 32) &&& 0xFFFFFFFF#64).setWidth 32) count buf memory reads
    · refine ⟨fun w hw => ?_, fun _ => ⟨hcode, hnone⟩⟩
      rw [hnone] at hw
      cases hw
    · have hanswer : Answerable t dir (ports driveNum.toNat) startSector count buf reads := by
        obtain h | h | h | h := h
        · exact h
        · exact absurd h habar
        · exact absurd (slotFree_of_eq_some hslot) h
        · exact absurd hidle h
      refine ⟨fun w hw => ?_, fun hnot => absurd hanswer.1 hnot⟩
      rw [hcommand] at hw
      rw [List.mem_singleton.mp hw]
      exact (requestMemory_asks_iff hlt).mpr ⟨hanswer.1, hanswer.2 slot hslot⟩
  · refine ⟨fun w hw => ?_, fun _ => ⟨⟨4, rfl, by decide⟩, rfl⟩⟩
    cases hw

end Requests

/-- Headers and tables that are all zero. -/
def CommandMemory.zero : CommandMemory := ⟨fun _ => 0⟩

/-- The answers of a port with one slot that is never busy. -/
def idleReads (n : ℕ) : BitVec 32 := if n = 2 then 0x100 else 0

/-- A port with its header and table. -/
def somePort : AhciPort := ⟨0x80000000, 0x80000100, 0x90000000, 0x90001000, fun _ => 0x90002000⟩

theorem slotFree_idleReads : SlotFree idleReads := ⟨0, by decide, by decide⟩

theorem portIdle_idleReads : PortIdle 1000000 (fun k => idleReads (k + 3)) :=
  .inl ⟨0, by omega, fun l hl => absurd hl (Nat.not_lt_zero l), by decide, by decide⟩

theorem slotApart_somePort (slot : ℕ)
    (h : freeSlot (idleReads 0 ||| idleReads 1) (idleReads 2) = some slot) :
    somePort.SlotApart slot := by
  have hzero : freeSlot (idleReads 0 ||| idleReads 1) (idleReads 2) = some 0 := by decide
  obtain rfl := Option.some.inj (hzero.symm.trans h)
  exact apart_of_le (by decide) (by decide)

/-- A port whose table lies over its header. -/
def overlaidPort : AhciPort := { somePort with ctba := fun _ => 0x90000000 }

/-- Three sectors from 0x123456789A on are written, unless the type of the FIS falls on the bit `w`. -/
theorem asksExactly_iff_threeSectors :
    AsksExactly (ahciWriteSectors Flat.fresh 1 (fun _ => somePort) 0
      0x123456789A#64 3#32 0xC0000000#32 ⟨CommandMemory.zero, idleReads, []⟩)
      .write somePort 0x123456789A#64 3#32 ∧
    ¬ AsksExactly (ahciWriteSectors Flat.fresh 1 (fun _ => overlaidPort) 0
      0x123456789A#64 3#32 0xC0000000#32 ⟨CommandMemory.zero, idleReads, []⟩)
      .write overlaidPort 0x123456789A#64 3#32 := by
  refine ⟨(asksExactly_iff Flat.fresh .write 1 (fun _ => somePort) 0 0x123456789A#64 3#32
    0xC0000000#32 CommandMemory.zero idleReads).mpr (.inl ⟨⟨by decide, by decide, by decide⟩,
      fun slot h => (slotApart_somePort slot h).keepsW⟩), fun h => ?_⟩
  obtain ⟨-, hkeeps⟩ := h.answerable (by decide) slotFree_idleReads portIdle_idleReads
  exact absurd (hkeeps 0 (by decide) 0x27 rfl) (by decide)

/-- Sector 2^48 is read as sector 0. -/
theorem not_asksExactly : ¬ AsksExactly (ahciReadSectors Flat.fresh 1 (fun _ => somePort) 0
    0x1000000000000#64 1#32 0xC0000000#32 ⟨CommandMemory.zero, idleReads, []⟩)
    .read somePort 0x1000000000000#64 1#32 := by
  intro h
  obtain ⟨⟨hlba, -⟩, -⟩ := h.answerable (by decide) slotFree_idleReads portIdle_idleReads
  exact absurd hlba (by decide)

-- ════════════════════════════════════════════════════════════════════════
-- Bytes
-- ════════════════════════════════════════════════════════════════════════

/-- The physical addresses of the bytes of a buffer for `count` sectors. -/
def bufferBytes {σ : Type} [AddressSpace σ] (t : σ) (buf count : BitVec 32) : Finset ℕ :=
  (Finset.range (count.toNat * 512)).image fun k => getPhysAddr t (u32 (buf.toNat + k))

/-- The physical addresses a region describes. Its length is one more than `dbc`. -/
def HBAPhysRegionDT.bytes (r : HBAPhysRegionDT) : Finset ℕ :=
  Finset.Icc (r.dbau.toNat * 2 ^ 32 + r.dba.toNat)
    (r.dbau.toNat * 2 ^ 32 + r.dba.toNat + r.dbc.toNat)

/-- The write that starts a command sets the bit of a slot whose region is the buffer. -/
def PortWrite.Touches {σ : Type} [AddressSpace σ] (w : PortWrite) (t : σ) (aport : AhciPort)
    (buf count : BitVec 32) : Prop :=
  ∃ slot < 32, w.value = 1#32 <<< slot ∧
    (w.memory.tables (aport.ctba slot)).prdtEntry.bytes = bufferBytes t buf count

/-- Commands touch the bytes of the buffer, and a buffer that is no region is rejected. -/
structure TouchesBuffer {σ : Type} [AddressSpace σ] (r : Option (BitVec 8) × AhciState) (t : σ)
    (aport : AhciPort) (buf count : BitVec 32) : Prop where
  exact : ∀ w ∈ r.2.commands, w.Touches t aport buf count
  rejected : (∀ region : HBAPhysRegionDT, region.bytes ≠ bufferBytes t buf count) →
    (∃ c, r.1 = some c ∧ c ≠ 0) ∧ r.2.commands = []

/-- The table happens to hold the length of the buffer already, and the bytes of the buffer are the
    ones from its first byte on. -/
structure RightLength {σ : Type} [AddressSpace σ] (t : σ) (table : HBACommandTable)
    (buf count : BitVec 32) : Prop where
  length : table.prdtEntry.dbc.toNat + 1 = (bufferBytes t buf count).card
  run : ∀ a ∈ bufferBytes t buf count, getPhysAddr t buf.toNat ≤ a ∧
    a < getPhysAddr t buf.toNat + (bufferBytes t buf count).card

section Bytes

variable {σ : Type} [AddressSpace σ] {t : σ} {dir : Direction} {fuel : ℕ} {aport : AhciPort}
  {startLow startHigh count buf : BitVec 32} {memory : CommandMemory} {reads : ℕ → BitVec 32}
  {slot : ℕ}

/-- An interval is a set when the set lies behind its start and is as large. -/
theorem icc_eq_iff {b n : ℕ} {D : Finset ℕ} :
    Finset.Icc b (b + n) = D ↔ n + 1 = D.card ∧ ∀ a ∈ D, b ≤ a ∧ a < b + D.card := by
  have hcard : (Finset.Icc b (b + n)).card = n + 1 := by
    rw [Nat.card_Icc]
    omega
  constructor
  · rintro rfl
    refine ⟨hcard.symm, fun a ha => ?_⟩
    obtain ⟨hlow, hhigh⟩ := Finset.mem_Icc.mp ha
    exact ⟨hlow, by omega⟩
  · rintro ⟨hn, hrun⟩
    have hsub : D ⊆ Finset.Icc b (b + n) := by
      intro a ha
      obtain ⟨hlow, hhigh⟩ := hrun a ha
      exact Finset.mem_Icc.mpr ⟨hlow, by omega⟩
    exact (Finset.eq_of_subset_of_card_le hsub (by omega)).symm

theorem getPhysAddr_lt (t : σ) (vaddr : ℕ) : getPhysAddr t vaddr < 2 ^ 32 := by
  have hframe := (entry t (vaddr / 0x1000)).address.isLt
  rw [getPhysAddr]
  omega

/-- The region of a command starts where the buffer does, and is as long as the table says. -/
theorem commandMemory_bytes (hapart : aport.SlotApart slot) :
    ((commandMemory t dir aport slot startLow startHigh count buf memory).tables
      (aport.ctba slot)).prdtEntry.bytes =
    Finset.Icc (getPhysAddr t buf.toNat) (getPhysAddr t buf.toNat +
      (memory.tables (aport.ctba slot)).prdtEntry.dbc.toNat) := by
  have hdba : (BitVec.ofNat 32 (getPhysAddr t buf.toNat)).toNat = getPhysAddr t buf.toNat := by
    rw [BitVec.toNat_ofNat, Nat.mod_eq_of_lt (getPhysAddr_lt t buf.toNat)]
  rw [tables_commandMemory hapart, HBAPhysRegionDT.bytes, commandRegion]
  dsimp only
  have hdbau : (0 : BitVec 32).toNat * 2 ^ 32 = 0 := rfl
  rw [hdba, hdbau, Nat.zero_add]

theorem commandMemory_touches_iff (hslot : slot < 16) (hapart : aport.SlotApart slot) :
    PortWrite.Touches ⟨.ci, 1#32 <<< slot, commandMemory t dir aport slot startLow startHigh count
      buf memory⟩ t aport buf count ↔ RightLength t (memory.tables (aport.ctba slot)) buf count := by
  constructor
  · rintro ⟨i, hi, hvalue, hbytes⟩
    obtain rfl := one_shiftLeft_inj slot (by omega) i hi hvalue
    obtain ⟨hlength, hrun⟩ := icc_eq_iff.mp ((commandMemory_bytes hapart).symm.trans hbytes)
    exact ⟨hlength, hrun⟩
  · intro h
    exact ⟨slot, by omega, rfl,
      (commandMemory_bytes hapart).trans (icc_eq_iff.mpr ⟨h.length, h.run⟩)⟩

/-- For a buffer in one physical run, the right length is its number of bytes. -/
theorem rightLength_iff_of_run {table : HBACommandTable}
    (hrun : ∀ k < count.toNat * 512, getPhysAddr t (u32 (buf.toNat + k)) =
      getPhysAddr t buf.toNat + k) :
    RightLength t table buf count ↔ table.prdtEntry.dbc.toNat + 1 = count.toNat * 512 := by
  have hcard : (bufferBytes t buf count).card = count.toNat * 512 := by
    rw [bufferBytes, Finset.card_image_of_injOn, Finset.card_range]
    intro i hi j hj he
    have hi' := hrun i (Finset.mem_range.mp hi)
    have hj' := hrun j (Finset.mem_range.mp hj)
    dsimp only at he
    omega
  constructor
  · intro h
    rw [h.length, hcard]
  · intro h
    refine ⟨h.trans hcard.symm, fun a ha => ?_⟩
    obtain ⟨k, hk, rfl⟩ := Finset.mem_image.mp ha
    rw [hcard, hrun k (Finset.mem_range.mp hk)]
    exact ⟨Nat.le_add_right _ _, Nat.add_lt_add_left (Finset.mem_range.mp hk) _⟩

/-- A command that touches the buffer was started with the right length in its table. -/
theorem TouchesBuffer.rightLength (hapart : aport.SlotApart slot)
    (hslot : freeSlot (reads 0 ||| reads 1) (reads 2) = some slot)
    (hidle : PortIdle 1000000 (fun k => reads (k + 3)))
    (h : TouchesBuffer (ahciSectorsInternal t dir fuel aport startLow startHigh count buf
      ⟨memory, reads, []⟩) t aport buf count) :
    RightLength t (memory.tables (aport.ctba slot)) buf count := by
  obtain ⟨hnot, -, -⟩ | ⟨i, hlt, hi, -, hcommand⟩ :=
    ahciSectorsInternal_refused_or_started t dir fuel aport startLow startHigh count buf memory
      reads
  · exact absurd hidle (hnot slot hslot)
  · obtain rfl := Option.some.inj (hi.symm.trans hslot)
    have htouches := h.exact _ (by rw [hcommand]; exact List.mem_singleton_self _)
    exact (commandMemory_touches_iff hlt hapart).mp htouches

/-- Where a table does not lie over its header, a command touches the bytes of its buffer when the
    table of the slot it is put into holds the right length before the call. -/
theorem touchesBuffer_iff (t : σ) (dir : Direction) (fuel : ℕ) (aport : AhciPort)
    (startLow startHigh count buf : BitVec 32) (memory : CommandMemory) (reads : ℕ → BitVec 32)
    (hapart : ∀ slot, freeSlot (reads 0 ||| reads 1) (reads 2) = some slot →
      aport.SlotApart slot) :
    TouchesBuffer (ahciSectorsInternal t dir fuel aport startLow startHigh count buf
        ⟨memory, reads, []⟩) t aport buf count ↔
      ∀ slot, freeSlot (reads 0 ||| reads 1) (reads 2) = some slot →
        PortIdle 1000000 (fun k => reads (k + 3)) →
        RightLength t (memory.tables (aport.ctba slot)) buf count := by
  constructor
  · exact fun h slot hslot hidle => h.rightLength (hapart slot hslot) hslot hidle
  intro h
  obtain ⟨-, hcode, hnone⟩ | ⟨slot, hlt, hslot, hidle, hcommand⟩ :=
    ahciSectorsInternal_refused_or_started t dir fuel aport startLow startHigh count buf memory
      reads
  · refine ⟨fun w hw => ?_, fun _ => ⟨hcode, hnone⟩⟩
    rw [hnone] at hw
    cases hw
  · have htouches : PortWrite.Touches ⟨.ci, 1#32 <<< slot, commandMemory t dir aport slot startLow
        startHigh count buf memory⟩ t aport buf count :=
      (commandMemory_touches_iff hlt (hapart slot hslot)).mpr (h slot hslot hidle)
    refine ⟨fun w hw => ?_, fun hno => ?_⟩
    · rw [hcommand] at hw
      rw [List.mem_singleton.mp hw]
      exact htouches
    · obtain ⟨i, -, -, hbytes⟩ := htouches
      exact absurd hbytes (hno _)

end Bytes

/-- One page is mapped, and the frame behind it is at 0x800000. -/
def onePage : Flat := mapAddr Flat.fresh 0xC0000000 0x800000

/-- A table that holds the length of one sector. -/
def sectorTable : CommandMemory :=
  CommandMemory.zero.setRegion 0x90002000 ⟨0, 0, 0, 511, 0, 0⟩

/-- One sector is written from a page, and the table holds its length. -/
theorem touchesBuffer_iff_sectorTable :
    TouchesBuffer (ahciSectorsInternal onePage .write 1 somePort 7 0 1 0xC0000000
      ⟨sectorTable, idleReads, []⟩) onePage somePort 0xC0000000 1 := by
  refine (touchesBuffer_iff onePage .write 1 somePort 7 0 1 0xC0000000 sectorTable idleReads
    slotApart_somePort).mpr fun slot _ _ => ?_
  have htable : (sectorTable.tables (somePort.ctba slot)).prdtEntry.dbc = 511 := by
    rw [sectorTable]
    exact congrArg (·.prdtEntry.dbc) CommandMemory.tables_setRegion
  refine (rightLength_iff_of_run fun k hk => ?_).mpr (by rw [htable]; rfl)
  have hk' : k < 512 := hk
  have hsum : u32 ((0xC0000000#32).toNat + k) = 0xC0000000 + k := by
    change (0xC0000000 + k) % 4294967296 = _
    omega
  have hpage : (0xC0000000 + k) / 0x1000 = 0xC0000 := by omega
  have hoffset : (0xC0000000 + k) % 0x1000 = k := by omega
  change getPhysAddr onePage (u32 ((0xC0000000#32).toNat + k)) = _
  rw [hsum, getPhysAddr, hpage, hoffset]
  rfl

/-- One sector is read into a page, and the table holds the length of one byte. -/
theorem not_touchesBuffer :
    (∀ k < 512, (entry onePage (u32 (0xC0000000 + k) / 0x1000)).present = true) ∧
      ¬ TouchesBuffer (ahciSectorsInternal onePage .read 1 somePort 0 0 1 0xC0000000
        ⟨CommandMemory.zero, idleReads, []⟩) onePage somePort 0xC0000000 1 := by
  constructor
  · intro k hk
    have hpage : u32 (0xC0000000 + k) / 0x1000 = 0xC0000 := by
      simp only [u32]
      omega
    rw [hpage]
    rfl
  · intro h
    have hslot : freeSlot (idleReads 0 ||| idleReads 1) (idleReads 2) = some 0 := by decide
    have hlength := (h.rightLength (slotApart_somePort 0 hslot) hslot portIdle_idleReads).length
    have htwo : 1 < (bufferBytes onePage 0xC0000000 1).card := by
      rw [Finset.one_lt_card]
      exact ⟨0x800000, Finset.mem_image.mpr ⟨0, Finset.mem_range.mpr (by decide), rfl⟩,
        0x800001, Finset.mem_image.mpr ⟨1, Finset.mem_range.mpr (by decide), rfl⟩, by decide⟩
    rw [← hlength] at htwo
    exact absurd htwo (by decide)

end FirstOs
