import FirstOs.Disk.Handlers

/-!
# Requests and disks

A drive number has the id of its driver in the upper 16 bits and a port in the lower ones. The id
is cut down to 8 bits, so that drive numbers that differ in bit 24 or above reach one driver, and no
request is compared with the number of ports the driver has registered. `ahci_read_sectors` then
reads its array of ports wherever the port number points.

## Main definitions

- `NamesDisk` — the drive number is a port of a live driver
- `ReachesDisk` — what a request must not do

## Main results

- `reachesDisk_iff` — the drive numbers that are safe to use, after any calls
-/

namespace FirstOs

/-- The drive number names the id of a live driver and one of its ports. -/
structure NamesDisk (history : List DiskEvent) (driveNum : BitVec 32) (id : BitVec 8)
    (r : DiskRegistration) : Prop where
  named : driveNum.toNat >>> 16 = id.toNat
  live : Live history id r
  port : driveNum.toNat % 2 ^ 16 < r.maxPortCount.toNat

/-- The registration `ahci_init` makes. -/
def ahciRegistration (ahciRead ahciWrite : BitVec 32) : DiskRegistration :=
  ⟨ahciRead, ahciWrite, 255⟩

/-- The elements of `ports`: 16 pages of records, each of 16 bytes and of 32 and 28 pointers. -/
def portsLength : ℕ := 16 * 0x1000 / (16 + 32 * 4 + 28 * 4)

/-- The request goes to the disk its number names, else it is refused. The functions of `ahci_init`
    are called with a port inside `ports`. -/
structure ReachesDisk (history : List DiskEvent) (driveNum : BitVec 32)
    (function : DiskRegistration → BitVec 32) (o : DiskOutcome) : Prop where
  called : ∀ f port startSector count buf, o = .call f port startSector count buf →
    ∃ id r, NamesDisk history driveNum id r ∧ f = function r ∧
      port.toNat = driveNum.toNat % 2 ^ 16
  refused : (∀ id r, ¬ NamesDisk history driveNum id r) → o = .code invalidFilesystem
  ports : ∀ ahciRead ahciWrite f port startSector count buf,
    (∀ id r, Live history id r → function r = function (ahciRegistration ahciRead ahciWrite) →
      r = ahciRegistration ahciRead ahciWrite) →
    o = .call f port startSector count buf → f = function (ahciRegistration ahciRead ahciWrite) →
    port.toNat < portsLength

/-- No bit of the id is lost, and the port is one of the driver. -/
def DriveInRange (history : List DiskEvent) (driveNum : BitVec 32) : Prop :=
  ∀ r, Live history ((driveNum >>> 16).setWidth 8) r →
    driveNum.toNat < 2 ^ 24 ∧ driveNum.toNat % 2 ^ 16 < r.maxPortCount.toNat

section Requests

variable {s : DiskState} {driveNum : BitVec 32} {startSector : BitVec 64} {count buf : BitVec 32}
  {r q : DiskRegistration} {id : BitVec 8} {function : DiskHandler → BitVec 32}

theorem HoldsLive.unique (h : HoldsLive s) (hr : Live s.history id r) (hq : Live s.history id q) :
    r = q := by
  obtain ⟨o, -, hiff⟩ := h id hr.1
  exact Option.some.inj (((hiff r).mp hr).symm.trans ((hiff q).mp hq))

theorem toNat_shiftRight_16 : (driveNum >>> 16).toNat = driveNum.toNat / 2 ^ 16 := by
  rw [BitVec.toNat_ushiftRight, Nat.shiftRight_eq_div_pow]

/-- The id that is looked up is the one that is named, when there is one. -/
theorem NamesDisk.id_eq (h : NamesDisk s.history driveNum id r) :
    id = (driveNum >>> 16).setWidth 8 := by
  apply BitVec.eq_of_toNat_eq
  have hid := h.named
  have hlt := id.isLt
  rw [Nat.shiftRight_eq_div_pow] at hid
  rw [BitVec.toNat_setWidth, toNat_shiftRight_16]
  omega

/-- A drive number in range names the live driver that is looked up. -/
theorem DriveInRange.namesDisk (h : DriveInRange s.history driveNum)
    (hlive : Live s.history ((driveNum >>> 16).setWidth 8) r) :
    NamesDisk s.history driveNum ((driveNum >>> 16).setWidth 8) r := by
  obtain ⟨hid, hport⟩ := h r hlive
  refine ⟨?_, hlive, hport⟩
  rw [BitVec.toNat_setWidth, toNat_shiftRight_16, Nat.shiftRight_eq_div_pow]
  omega

/-- A request that goes to the disk it names has a drive number in range. -/
theorem ReachesDisk.inRange (h : HoldsLive s) {g : DiskRegistration → BitVec 32}
    (hreach : ReachesDisk s.history driveNum g
      (diskSectors function s.handlers driveNum startSector count buf)) :
    DriveInRange s.history driveNum := by
  intro r hlive
  obtain ⟨id, q, hnames, -, -⟩ := hreach.called _ _ _ _ _ (diskSectors_of_live h hlive)
  obtain rfl := hnames.id_eq
  obtain rfl := h.unique hlive hnames.live
  have hid := hnames.named
  have hlt := ((driveNum >>> 16).setWidth 8).isLt
  rw [Nat.shiftRight_eq_div_pow] at hid
  exact ⟨by omega, hnames.port⟩

/-- A drive number in range is safe to use. -/
theorem DriveInRange.reachesDisk (h : HoldsLive s) {g : DiskRegistration → BitVec 32}
    (hg : ∀ r, function (.slot (some r)) = g r) (hrange : DriveInRange s.history driveNum) :
    ReachesDisk s.history driveNum g
      (diskSectors function s.handlers driveNum startSector count buf) := by
  by_cases hlive : ∃ r, Live s.history ((driveNum >>> 16).setWidth 8) r
  · obtain ⟨r, hlive⟩ := hlive
    have hnames := hrange.namesDisk hlive
    have hport : (driveNum.setWidth 16).toNat = driveNum.toNat % 2 ^ 16 := BitVec.toNat_setWidth ..
    rw [diskSectors_of_live h hlive, hg]
    refine ⟨fun f port _ _ _ he => ?_, fun hno => absurd hnames (hno _ r),
      fun ahciRead ahciWrite f port _ _ _ honly he hf => ?_⟩
    · obtain ⟨rfl, rfl, -, -, -⟩ := DiskOutcome.call.inj he
      exact ⟨_, r, hnames, rfl, hport⟩
    · obtain ⟨rfl, rfl, -, -, -⟩ := DiskOutcome.call.inj he
      have hmax : driveNum.toNat % 2 ^ 16 < r.maxPortCount.toNat := hnames.port
      rw [honly _ r hlive hf] at hmax
      have hcount : (ahciRegistration ahciRead ahciWrite).maxPortCount.toNat < portsLength := by
        change (255#32).toNat < portsLength
        decide
      rw [hport]
      exact hmax.trans hcount
  · rw [diskSectors_of_not_live h (not_exists.mp hlive)]
    exact ⟨fun _ _ _ _ _ he => DiskOutcome.noConfusion he, fun _ => rfl,
      fun _ _ _ _ _ _ _ _ he => DiskOutcome.noConfusion he⟩

end Requests

/-- After any calls, requests for a drive go to the disk that is named, or are refused, when the
    drive number is in range. -/
theorem reachesDisk_iff (cs : List DiskCall) (driveNum : BitVec 32) (startSector : BitVec 64)
    (count buf : BitVec 32) :
    let s := runDiskCalls cs
    (ReachesDisk s.history driveNum DiskRegistration.readFunction
        (diskReadSectors s.handlers driveNum startSector count buf) ∧
      ReachesDisk s.history driveNum DiskRegistration.writeFunction
        (diskWriteSectors s.handlers driveNum startSector count buf)) ↔
      DriveInRange s.history driveNum := by
  intro s
  have h : HoldsLive s := holdsLive_runDiskCalls cs
  constructor
  · rintro ⟨hread, -⟩
    exact hread.inRange h
  · intro hrange
    exact ⟨hrange.reachesDisk h fun _ => rfl, hrange.reachesDisk h fun _ => rfl⟩

/-- With the driver of `ahci_init` only, drive number 0xFFFF reads port 65535. -/
theorem not_reachesDisk : ¬ ReachesDisk (runDiskCalls [.register (ahciRegistration 1 2)]).history
    0xFFFF#32 DiskRegistration.readFunction
    (diskReadSectors (runDiskCalls [.register (ahciRegistration 1 2)]).handlers
      0xFFFF#32 0 1 0) := by
  intro h
  have hrange := h.inRange (holdsLive_runDiskCalls _)
  have hlive : Live (runDiskCalls [.register (ahciRegistration 1 2)]).history
      ((0xFFFF#32 >>> 16).setWidth 8) (ahciRegistration 1 2) :=
    ⟨by decide, [], [], rfl, fun e he => absurd he List.not_mem_nil⟩
  exact absurd (hrange _ hlive).2 (by decide)

end FirstOs
