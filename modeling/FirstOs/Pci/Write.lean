import FirstOs.Pci.Config

/-!
# Writing PCI configuration space

`pci_write_config_byte` reads the dword that holds the byte, clears the byte, puts the value
in its place and writes the dword back. It shifts the value by the bits of the bytes below,
but the mask by their number only, so that the mask clears other bits than those of the byte.

## Main definitions

- `pciWriteConfigByte` — the write
- `spliceByte` — a dword with one byte replaced
- `MaskFits` — clearing the wrong bits does no harm

## Main results

- `changesByte_iff` — when the write changes one byte
-/

namespace FirstOs

/-- A dword written to port `0xCFC` while an address is in port `0xCF8`. -/
def ConfigSpace.setData (cfg : ConfigSpace) (addr value : BitVec 32) : ConfigSpace :=
  fun bus d f o =>
    if addr.getLsbD 31 ∧ bus = addr.extractLsb' 16 8 ∧ d = addr.extractLsb' 11 5 ∧
        f = addr.extractLsb' 8 3 ∧ o = addr.extractLsb' 2 6 then value
    else cfg bus d f o

/-- The dword `pci_write_config_byte` writes where it has read `old`. -/
def maskedDword (old : BitVec 32) (offset value : BitVec 8) : BitVec 32 :=
  (old &&& ~~~(0xff#32 <<< (offset.toNat &&& 3))) |||
    (value.setWidth 32 <<< ((offset.toNat &&& 3) * 8))

/-- `pci_write_config_byte`. -/
def pciWriteConfigByte (cfg : ConfigSpace) (bus num function offset value : BitVec 8) :
    ConfigSpace :=
  let addr := configAddr bus num function offset
  cfg.setData addr (maskedDword (cfg.data addr) offset value)

/-- The byte of a function at an offset. -/
def ConfigSpace.byte (cfg : ConfigSpace) (bus : BitVec 8) (d : BitVec 5) (f : BitVec 3)
    (offset : BitVec 8) : BitVec 8 :=
  (cfg bus d f (offset.extractLsb' 2 6)).extractLsb' (8 * (offset.toNat % 4)) 8

/-- From `cfg` to `cfg'` the byte at one place has become `value` and no other byte has
    changed, nor any word but in that byte. -/
structure ChangesByte (cfg cfg' : ConfigSpace) (bus : BitVec 8) (d : BitVec 5) (f : BitVec 3)
    (offset value : BitVec 8) : Prop where
  byte : cfg'.byte bus d f offset = value
  others : ∀ bus' d' f' o, (bus', d', f', o) ≠ (bus, d, f, offset) →
    cfg'.byte bus' d' f' o = cfg.byte bus' d' f' o
  words : ∀ bus' (d' : BitVec 5) (f' : BitVec 3) (o : BitVec 8), o.toNat % 2 = 0 →
    pciReadConfigWord cfg' bus' (d'.setWidth 8) (f'.setWidth 8) o =
      (if (bus', d', f', o + 1) = (bus, d, f, offset) then value
        else (pciReadConfigWord cfg bus' (d'.setWidth 8) (f'.setWidth 8) o).extractLsb' 8 8) ++
      (if (bus', d', f', o) = (bus, d, f, offset) then value
        else (pciReadConfigWord cfg bus' (d'.setWidth 8) (f'.setWidth 8) o).extractLsb' 0 8)

/-- The mask of byte `lane` clears no set bit of another byte, and a set bit of the byte it leaves
    is one of the value. -/
def MaskFits (old : BitVec 32) (lane : ℕ) (value : BitVec 8) : Prop :=
  ∀ i < 32, old.getLsbD i = true →
    if i / 8 = lane then (lane ≤ i ∧ i < lane + 8) ∨ value.getLsbD (i % 8) = true
    else ¬ (lane ≤ i ∧ i < lane + 8)

/-- The dword with byte `lane` replaced. -/
def spliceByte (old : BitVec 32) (lane : ℕ) (value : BitVec 8) : BitVec 32 :=
  (old &&& ~~~(0xff#32 <<< (8 * lane))) ||| (value.setWidth 32 <<< (8 * lane))

section Bytes

variable {old : BitVec 32} {lane i k : ℕ} {value offset : BitVec 8}

/-- A shifted value takes the eight bits of its byte. -/
theorem getLsbD_shiftedByte (hi : i < 32) :
    (value.setWidth 32 <<< (8 * lane)).getLsbD i =
      (decide (i / 8 = lane) && value.getLsbD (i % 8)) := by
  rw [BitVec.getLsbD_shiftLeft, BitVec.getLsbD_setWidth, decide_eq_true hi, Bool.true_and]
  by_cases hlane : i / 8 = lane
  · rw [decide_eq_true hlane, decide_eq_false (show ¬ i < 8 * lane by omega),
      decide_eq_true (show i - 8 * lane < 32 by omega), show i - 8 * lane = i % 8 by omega]
    rfl
  · rw [decide_eq_false hlane, Bool.false_and]
    by_cases hlow : i < 8 * lane
    · rw [decide_eq_true hlow]
      rfl
    · rw [BitVec.getLsbD_of_ge value (i - 8 * lane) (by omega)]
      simp only [Bool.and_false]

/-- A mask of eight bits. -/
theorem getLsbD_mask (hi : i < 32) :
    (~~~(0xff#32 <<< k)).getLsbD i = !decide (k ≤ i ∧ i < k + 8) := by
  have hones : ∀ j < 32, (0xff#32).getLsbD j = decide (j < 8) := by decide
  rw [BitVec.getLsbD_not, BitVec.getLsbD_shiftLeft, decide_eq_true hi, Bool.true_and,
    Bool.true_and, hones (i - k) (by omega)]
  by_cases hk : i < k
  · simp only [hk, Nat.not_le.mpr hk, decide_true, Bool.not_true, Bool.false_and, false_and,
      decide_false]
  · simp only [hk, Nat.le_of_not_lt hk, decide_false, Bool.not_false, Bool.true_and, true_and,
      show i - k < 8 ↔ i < k + 8 by omega]

theorem getLsbD_spliceByte (hi : i < 32) : (spliceByte old lane value).getLsbD i =
    if i / 8 = lane then value.getLsbD (i % 8) else old.getLsbD i := by
  have hmask : 8 * lane ≤ i ∧ i < 8 * lane + 8 ↔ i / 8 = lane := by omega
  rw [spliceByte, BitVec.getLsbD_or, BitVec.getLsbD_and, getLsbD_mask hi, getLsbD_shiftedByte hi]
  simp only [hmask]
  by_cases hlane : i / 8 = lane <;> simp [hlane]

theorem getLsbD_maskedDword (hi : i < 32) : (maskedDword old offset value).getLsbD i =
    (old.getLsbD i && !decide (offset.toNat % 4 ≤ i ∧ i < offset.toNat % 4 + 8) ||
      (decide (i / 8 = offset.toNat % 4) && value.getLsbD (i % 8))) := by
  have hlane : offset.toNat &&& 3 = offset.toNat % 4 := Nat.and_two_pow_sub_one_eq_mod _ 2
  rw [maskedDword, hlane, Nat.mul_comm, BitVec.getLsbD_or, BitVec.getLsbD_and, getLsbD_mask hi,
    getLsbD_shiftedByte hi]

/-- The dword written is the one meant if and only if the mask does no harm. -/
theorem maskedDword_eq_iff : maskedDword old offset value =
    spliceByte old (offset.toNat % 4) value ↔ MaskFits old (offset.toNat % 4) value := by
  have hbit : ∀ i < 32, (maskedDword old offset value).getLsbD i =
      (spliceByte old (offset.toNat % 4) value).getLsbD i ↔ (old.getLsbD i = true →
        if i / 8 = offset.toNat % 4 then
          (offset.toNat % 4 ≤ i ∧ i < offset.toNat % 4 + 8) ∨ value.getLsbD (i % 8) = true
        else ¬ (offset.toNat % 4 ≤ i ∧ i < offset.toNat % 4 + 8)) := by
    intro i hi
    rw [getLsbD_maskedDword hi, getLsbD_spliceByte hi]
    by_cases hlane : i / 8 = offset.toNat % 4 <;>
      by_cases hmask : offset.toNat % 4 ≤ i ∧ i < offset.toNat % 4 + 8 <;>
      cases old.getLsbD i <;> cases value.getLsbD (i % 8) <;> simp [hlane, hmask]
  constructor
  · intro heq i hi
    exact (hbit i hi).mp (by rw [heq])
  · intro hfits
    apply BitVec.eq_of_getLsbD_eq
    intro i hi
    exact (hbit i hi).mpr (hfits i hi)

theorem extractLsb'_spliceByte (hk : k < 4) : (spliceByte old lane value).extractLsb' (8 * k) 8 =
    if k = lane then value else old.extractLsb' (8 * k) 8 := by
  apply BitVec.eq_of_getLsbD_eq
  intro i hi
  rw [BitVec.getLsbD_extractLsb', decide_eq_true hi, Bool.true_and,
    getLsbD_spliceByte (by omega), show (8 * k + i) / 8 = k by omega,
    show (8 * k + i) % 8 = i by omega]
  split_ifs
  · rfl
  · rw [BitVec.getLsbD_extractLsb', decide_eq_true hi, Bool.true_and]

/-- A dword is its four bytes. -/
theorem eq_of_bytes {x y : BitVec 32}
    (h : ∀ k < 4, x.extractLsb' (8 * k) 8 = y.extractLsb' (8 * k) 8) : x = y := by
  apply BitVec.eq_of_getLsbD_eq
  intro i hi
  have hbyte := congrArg (BitVec.getLsbD · (i % 8)) (h (i / 8) (by omega))
  simpa only [BitVec.getLsbD_extractLsb', decide_eq_true (Nat.mod_lt i (by decide : 0 < 8)),
    Bool.true_and, Nat.div_add_mod] using hbyte

end Bytes

section Write

variable {cfg cfg' : ConfigSpace} {bus : BitVec 8} {d : BitVec 5} {f : BitVec 3}
  {offset value : BitVec 8}

/-- The write changes one dword. -/
theorem pciWriteConfigByte_apply (bus' : BitVec 8) (d' : BitVec 5) (f' : BitVec 3)
    (o : BitVec 6) :
    pciWriteConfigByte cfg bus (d.setWidth 8) (f.setWidth 8) offset value bus' d' f' o =
      if bus' = bus ∧ d' = d ∧ f' = f ∧ o = offset.extractLsb' 2 6 then
        maskedDword (cfg bus d f (offset.extractLsb' 2 6)) offset value
      else cfg bus' d' f' o := by
  simp only [pciWriteConfigByte, ConfigSpace.setData, configAddr_enabled, configAddr_bus,
    configAddr_device, configAddr_function, configAddr_offset, data_configAddr, true_and]

/-- Two offsets are the same if they name the same byte of the same dword. -/
theorem offset_eq_iff (o : BitVec 8) : o = offset ↔
    o.extractLsb' 2 6 = offset.extractLsb' 2 6 ∧ o.toNat % 4 = offset.toNat % 4 := by
  constructor
  · rintro rfl
    exact ⟨rfl, rfl⟩
  · rintro ⟨hdword, hlane⟩
    have hnat := congrArg BitVec.toNat hdword
    simp only [BitVec.extractLsb'_toNat, Nat.shiftRight_eq_div_pow] at hnat
    apply BitVec.eq_of_toNat_eq
    have ho := o.isLt
    have hoffset := offset.isLt
    omega

/-- A word at an even offset is two bytes. -/
theorem pciReadConfigWord_bytes (cfg : ConfigSpace) (bus : BitVec 8) (d : BitVec 5)
    (f : BitVec 3) {o : BitVec 8} (ho : o.toNat % 2 = 0) :
    pciReadConfigWord cfg bus (d.setWidth 8) (f.setWidth 8) o =
      cfg.byte bus d f (o + 1) ++ cfg.byte bus d f o := by
  have hnext : (o + 1).toNat = o.toNat + 1 := by
    have := o.isLt
    rw [BitVec.toNat_add_of_lt (show o.toNat + (1 : BitVec 8).toNat < 2 ^ 8 from ?_)]
    · rfl
    · show o.toNat + 1 < 256
      omega
  have hdword : (o + 1).extractLsb' 2 6 = o.extractLsb' 2 6 := by
    apply BitVec.eq_of_toNat_eq
    simp only [BitVec.extractLsb'_toNat, Nat.shiftRight_eq_div_pow, hnext]
    omega
  have hshift : (o.toNat &&& 2) * 8 = 8 * (o.toNat % 4) := by
    have hcases : ∀ o : BitVec 8, o.toNat % 2 = 0 → (o.toNat &&& 2) * 8 = 8 * (o.toNat % 4) := by
      decide +kernel
    exact hcases o ho
  rw [pciReadConfigWord, data_configAddr, setWidth_shift_and_mask, hshift, ConfigSpace.byte,
    ConfigSpace.byte, hdword, hnext]
  have hhigh : 8 * ((o.toNat + 1) % 4) = 8 * (o.toNat % 4) + 8 := by omega
  exact (BitVec.extractLsb'_append_extractLsb'_eq_extractLsb' hhigh).symm

/-- The byte at an offset after the write. -/
theorem byte_pciWriteConfigByte (cfg : ConfigSpace) (bus : BitVec 8) (d : BitVec 5)
    (f : BitVec 3) (offset value bus' : BitVec 8) (d' : BitVec 5) (f' : BitVec 3) (o : BitVec 8) :
    (pciWriteConfigByte cfg bus (d.setWidth 8) (f.setWidth 8) offset value).byte bus' d' f' o =
      if bus' = bus ∧ d' = d ∧ f' = f ∧ o.extractLsb' 2 6 = offset.extractLsb' 2 6 then
        (maskedDword (cfg bus d f (offset.extractLsb' 2 6)) offset value).extractLsb'
          (8 * (o.toNat % 4)) 8
      else cfg.byte bus' d' f' o := by
  rw [ConfigSpace.byte, pciWriteConfigByte_apply]
  split_ifs <;> rfl

/-- Every byte of a dword has an offset. -/
theorem exists_offset (w : BitVec 6) {k : ℕ} (hk : k < 4) :
    ∃ o : BitVec 8, o.extractLsb' 2 6 = w ∧ o.toNat % 4 = k := by
  refine ⟨w ++ BitVec.ofNat 2 k, BitVec.extractLsb'_append_eq_left, ?_⟩
  rw [BitVec.toNat_append, BitVec.toNat_ofNat,
    ← Nat.shiftLeft_add_eq_or_of_lt (show k % 2 ^ 2 < 2 ^ 2 by omega), Nat.shiftLeft_eq]
  omega

/-- If one byte is changed, the dword written is the one meant. -/
theorem ChangesByte.dword_eq (h : ChangesByte cfg
      (pciWriteConfigByte cfg bus (d.setWidth 8) (f.setWidth 8) offset value)
      bus d f offset value) :
    maskedDword (cfg bus d f (offset.extractLsb' 2 6)) offset value =
      spliceByte (cfg bus d f (offset.extractLsb' 2 6)) (offset.toNat % 4) value := by
  apply eq_of_bytes
  intro k hk
  obtain ⟨o, hdword, hlane⟩ := exists_offset (offset.extractLsb' 2 6) hk
  have hbyte := byte_pciWriteConfigByte cfg bus d f offset value bus d f o
  rw [if_pos ⟨rfl, rfl, rfl, hdword⟩, hlane] at hbyte
  rw [← hbyte, extractLsb'_spliceByte hk]
  split_ifs with hk'
  · rw [(offset_eq_iff o).mpr ⟨hdword, hlane.trans hk'⟩]
    exact h.byte
  · have hne : (bus, d, f, o) ≠ (bus, d, f, offset) := by
      intro heq
      simp only [Prod.mk.injEq, true_and, offset_eq_iff o] at heq
      exact hk' (hlane.symm.trans heq.2)
    rw [h.others bus d f o hne, ConfigSpace.byte, hdword, hlane]

/-- If the dword written is the one meant, each byte is the one meant. -/
theorem byte_of_dword_eq
    (heq : maskedDword (cfg bus d f (offset.extractLsb' 2 6)) offset value =
      spliceByte (cfg bus d f (offset.extractLsb' 2 6)) (offset.toNat % 4) value)
    (bus' : BitVec 8) (d' : BitVec 5) (f' : BitVec 3) (o : BitVec 8) :
    (pciWriteConfigByte cfg bus (d.setWidth 8) (f.setWidth 8) offset value).byte bus' d' f' o =
      if (bus', d', f', o) = (bus, d, f, offset) then value else cfg.byte bus' d' f' o := by
  rw [byte_pciWriteConfigByte, heq, extractLsb'_spliceByte (Nat.mod_lt _ (by decide))]
  simp only [Prod.mk.injEq, offset_eq_iff o]
  split_ifs with hdword hlane hall hall hall
  · rfl
  · exact absurd ⟨hdword.1, hdword.2.1, hdword.2.2.1, hdword.2.2.2, hlane⟩ hall
  · exact absurd hall.2.2.2.2 hlane
  · obtain ⟨rfl, rfl, rfl, hdword⟩ := hdword
    rw [ConfigSpace.byte, hdword]
  · exact absurd ⟨hall.1, hall.2.1, hall.2.2.1, hall.2.2.2.1⟩ hdword
  · rfl

/-- The write changes one byte if and only if the dword written is the one meant. -/
theorem changesByte_iff_eq :
    ChangesByte cfg (pciWriteConfigByte cfg bus (d.setWidth 8) (f.setWidth 8) offset value)
        bus d f offset value ↔
      maskedDword (cfg bus d f (offset.extractLsb' 2 6)) offset value =
        spliceByte (cfg bus d f (offset.extractLsb' 2 6)) (offset.toNat % 4) value := by
  refine ⟨ChangesByte.dword_eq, fun heq => ⟨?_, fun bus' d' f' o hne => ?_,
    fun bus' d' f' o ho => ?_⟩⟩
  · rw [byte_of_dword_eq heq, if_pos rfl]
  · rw [byte_of_dword_eq heq, if_neg hne]
  · have hword := pciReadConfigWord_bytes cfg bus' d' f' ho
    rw [pciReadConfigWord_bytes _ _ _ _ ho, byte_of_dword_eq heq, byte_of_dword_eq heq, hword]
    congr 1
    · congr 1
      exact (BitVec.extractLsb'_append_eq_left).symm
    · congr 1
      exact (BitVec.extractLsb'_append_eq_right).symm

/-- `pci_write_config_byte` changes the byte and no other if and only if its mask does no harm. -/
theorem changesByte_iff (cfg : ConfigSpace) (bus : BitVec 8) (d : BitVec 5) (f : BitVec 3)
    (offset value : BitVec 8) :
    ChangesByte cfg (pciWriteConfigByte cfg bus (d.setWidth 8) (f.setWidth 8) offset value)
        bus d f offset value ↔
      MaskFits (cfg bus d f (offset.extractLsb' 2 6)) (offset.toNat % 4) value :=
  changesByte_iff_eq.trans maskedDword_eq_iff

/-- The first byte of a dword is always written right. -/
theorem maskFits_first (old : BitVec 32) (value : BitVec 8) : MaskFits old 0 value := by
  intro i hi _
  split_ifs <;> omega

/-- The high byte of a command register that holds `0x107` set to 0: the mask takes bits 1 to 8. -/
theorem not_changesByte : ¬ ∀ (cfg : ConfigSpace) (bus : BitVec 8) (d : BitVec 5) (f : BitVec 3)
    (offset value : BitVec 8),
    ChangesByte cfg (pciWriteConfigByte cfg bus (d.setWidth 8) (f.setWidth 8) offset value)
      bus d f offset value := by
  intro hall
  have hlow := (hall (fun _ _ _ _ => 0x107#32) 0 0 0 5 0).others 0 0 0 4 (by decide)
  exact absurd hlow (by decide +kernel)

end Write

end FirstOs
