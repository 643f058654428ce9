import FirstOs.Library.Flags

/-!
# Requests to the ATA driver

`ata_read` is written after the assembly routine `read_ata_st`: it checks the range of a
request, resets the drive when it is busy, and chooses between the commands with 28 and
with 48 address bits. The bounds are not those of the routine, and the command is chosen by a
comparison of the addresses with 28 itself.

What the status port gives is arbitrary: `reads` is the stream of all values read from now on.

## Main definitions

- `ataRead` — the function
- `readAtaStChecks`, `readAtaSt28` — the checks and the choice of the routine
- `AtaWindow` — what is asked of the function

## Main results

- `readAtaStChecks_carry_iff`, `readAtaSt28_iff` — what the routine refuses and chooses
- `ataWindow_iff` — the requests for which the function does what is asked of it
-/

namespace FirstOs

/-- `driver_data`. -/
structure DriverData where
  dcr : BitVec 16
  stLBA : BitVec 32
  prtlen : BitVec 32

/-- The values read from the ports from now on, and the writes so far. -/
structure AtaPorts where
  reads : ℕ → BitVec 8
  writes : List (BitVec 16 × BitVec 8)

namespace AtaPorts

/-- `in_port_b`. -/
def inB (p : AtaPorts) : BitVec 8 × AtaPorts :=
  (p.reads 0, { p with reads := fun n => p.reads (n + 1) })

/-- `out_port_b`. -/
def outB (p : AtaPorts) (port : BitVec 16) (value : BitVec 8) : AtaPorts :=
  { p with writes := p.writes ++ [(port, value)] }

end AtaPorts

-- ════════════════════════════════════════════════════════════════════════
-- The function
-- ════════════════════════════════════════════════════════════════════════

/-- The loop of `ata_reset`. It has no bound in the source; here it has no result when the fuel
    runs out. -/
def ataResetLoop : ℕ → AtaPorts → Option AtaPorts
  | 0, _ => none
  | fuel + 1, p =>
    let (status, p) := p.inB
    if status &&& 0xc0 ≠ 0x40 then ataResetLoop fuel p else some p

/-- `ata_reset`. The values of the four reads in front of the loop are not used. -/
def ataReset (fuel : ℕ) (dcr : BitVec 16) (p : AtaPorts) : Option AtaPorts :=
  let p := p.outB dcr 4
  let p := p.outB dcr 0
  let (_, p) := p.inB
  let (_, p) := p.inB
  let (_, p) := p.inB
  let (_, p) := p.inB
  ataResetLoop fuel p

/-- How `ata_read` leaves: it returns false, or goes on to one of the two commands. -/
inductive AtaExit where
  | refused
  | pio28
  | pio48
deriving DecidableEq

section Read

variable (n lba : BitVec 32) (dd : DriverData)

/-- The range checks of `ata_read`. -/
def ataRefuses : Bool :=
  decide (n > 0x3fffff) || decide (dd.prtlen < n) || decide (dd.prtlen < lba) ||
    decide (lba > dd.prtlen - n + 1)

/-- The choice of the command. -/
def ataPath : AtaExit :=
  if lba > 28 ∨ dd.stLBA > 28 ∨ dd.stLBA + lba > 28 ∨ dd.stLBA + lba + n > 28 then .pio48
  else .pio28

/-- `ata_read`. The number `n` is unsigned, so that it is never less than 0. -/
def ataRead (fuel : ℕ) (p : AtaPorts) : Option (AtaExit × AtaPorts) :=
  (if n < 0 then ataReset fuel dd.dcr p else some p).bind fun p =>
    if ataRefuses n lba dd then some (.refused, p)
    else
      let (status, p) := p.inB
      (if status &&& 0x88 ≠ 0 then ataReset fuel dd.dcr p else some p).bind fun p =>
        some (ataPath n lba dd, p)

end Read

-- ════════════════════════════════════════════════════════════════════════
-- The assembly routine
-- ════════════════════════════════════════════════════════════════════════

/-- How the checks of `read_ata_st` end: the routine leaves, or goes on to the status port. -/
inductive ChecksExit where
  | done (carry : Bool)
  | status
deriving DecidableEq

section Routine

variable (n lba : BitVec 32) (dd : DriverData)

/-- The checks of `read_ata_st`, with `n` in `ebx` and `lba` in `ebp`. A negative `n` leads to a
    reset, and then the routine leaves behind an `xor` that clears the carry flag. -/
def readAtaStChecks : ChecksExit :=
  if (Flags.test n n).sign then .done false
  else
    let flags := (Flags.cmp n 0x3fffff).stc
    if flags.greater then .done flags.carry
    else
      let edx := dd.prtlen - 1
      let flags := Flags.cmp edx lba
      if flags.below then .done flags.carry
      else
        let flags := Flags.cmp edx n
        if flags.below then .done flags.carry
        else
          let edx := edx - n + 1
          let flags := Flags.cmp edx lba
          if flags.below then .done flags.carry else .status

/-- The flags of the first comparison behind `.stat_ok` that finds a number above `0xfffffff`, or
    of the last one. -/
def setregFlags : Flags :=
  let flags := Flags.cmp lba 0xfffffff
  if flags.greater then flags
  else
    let eax := dd.stLBA
    let flags := Flags.cmp eax 0xfffffff
    if flags.greater then flags
    else
      let eax := eax + lba
      let flags := Flags.cmp eax 0xfffffff
      if flags.greater then flags else Flags.cmp (eax + n) 0xfffffff

/-- The jump to `.read28` is taken. -/
def readAtaSt28 : Bool := !(setregFlags n lba dd).greater

end Routine

-- ════════════════════════════════════════════════════════════════════════
-- What is asked of the function
-- ════════════════════════════════════════════════════════════════════════

/-- A request that gets past the checks lies in the partition, the function refuses what the
    routine leaves for with the carry flag set, and it takes the command with 28 bits for the
    addresses the routine takes it for. -/
structure AtaWindow (n lba : BitVec 32) (dd : DriverData) : Prop where
  within : ∀ fuel p exit p', ataRead n lba dd fuel p = some (exit, p') → exit ≠ .refused →
    lba.toNat + n.toNat ≤ dd.prtlen.toNat
  refuses : readAtaStChecks n lba dd = .done true →
    ∀ fuel p, ∃ p', ataRead n lba dd fuel p = some (.refused, p')
  path : ∀ fuel p exit p', ataRead n lba dd fuel p = some (exit, p') → exit ≠ .refused →
    (exit = .pio28 ↔ dd.stLBA.toNat + lba.toNat + n.toNat ≤ 0xfffffff)

/-- The range checks fail. The last bound is 0 for an empty request to the longest partition. -/
def OutOfRange (n lba prtlen : ℕ) : Prop :=
  0x3fffff < n ∨ prtlen < n ∨ prtlen < lba ∨ (prtlen - n + 1) % 2 ^ 32 < lba

/-- A request in the partition, before its last sector, for which 28 and the largest address of 28
    bits give the same answer. -/
structure InsideBounds (n lba stLBA prtlen : ℕ) : Prop where
  count : n < prtlen
  first : lba < prtlen
  last : lba + n ≤ prtlen
  address : stLBA + lba + n ≤ 28 ∨ 0xfffffff < stLBA + lba + n

/-! ### The function -/

section Spec

variable {n lba : BitVec 32} {dd : DriverData} {fuel : ℕ} {p p' : AtaPorts} {exit : AtaExit}

theorem ataRefuses_iff :
    ataRefuses n lba dd = true ↔ OutOfRange n.toNat lba.toNat dd.prtlen.toNat := by
  have hn := n.isLt
  have hp := dd.prtlen.isLt
  have hbound : n.toNat ≤ dd.prtlen.toNat →
      (dd.prtlen - n + 1).toNat = (dd.prtlen.toNat - n.toNat + 1) % 2 ^ 32 := fun hle => by
    have hone : (1 : BitVec 32).toNat = 1 := rfl
    rw [BitVec.toNat_add, BitVec.toNat_sub_of_le (BitVec.le_def.mpr hle), hone]
  have hmax : (0x3fffff : BitVec 32).toNat = 0x3fffff := rfl
  simp only [ataRefuses, Bool.or_eq_true, decide_eq_true_iff, gt_iff_lt, BitVec.lt_def, OutOfRange,
    hmax, or_assoc]
  by_cases hle : n.toNat ≤ dd.prtlen.toNat
  · rw [hbound hle]
  · exact iff_of_true (.inr (.inl (by omega))) (.inr (.inl (by omega)))

/-- For a number of sectors that passes the checks the sums do not wrap. -/
theorem ataPath_iff (hn : n.toNat ≤ 0x3fffff) :
    ataPath n lba dd = .pio28 ↔ dd.stLBA.toNat + lba.toNat + n.toNat ≤ 28 := by
  have hsmall : (28 : BitVec 32).toNat = 28 := rfl
  rw [ataPath]
  simp only [gt_iff_lt, BitVec.lt_def, hsmall, BitVec.toNat_add]
  split_ifs with h
  · refine iff_of_false (by decide) ?_
    omega
  · refine iff_of_true rfl ?_
    omega

/-- What the function returns. -/
theorem ataRead_exit (h : ataRead n lba dd fuel p = some (exit, p')) :
    exit = if ataRefuses n lba dd then .refused else ataPath n lba dd := by
  have hneg : ¬ n < 0 := fun hlt => Nat.not_lt_zero _ hlt
  rw [ataRead, if_neg hneg, Option.bind_some] at h
  by_cases hr : ataRefuses n lba dd = true
  · rw [if_pos hr] at h ⊢
    rw [Option.some_inj, Prod.mk.injEq] at h
    exact h.1.symm
  · rw [if_neg hr] at h ⊢
    obtain ⟨q, -, hq⟩ := Option.bind_eq_some_iff.mp h
    rw [Option.some_inj, Prod.mk.injEq] at hq
    exact hq.1.symm

theorem ataRead_refused (h : ataRefuses n lba dd = true) (fuel : ℕ) (p : AtaPorts) :
    ataRead n lba dd fuel p = some (.refused, p) := by
  have hneg : ¬ n < 0 := fun hlt => Nat.not_lt_zero _ hlt
  rw [ataRead, if_neg hneg, Option.bind_some, if_pos h]

/-- A drive that is not busy. -/
def idlePorts : AtaPorts := ⟨fun _ => 0x40, []⟩

theorem ataRead_idle (h : ataRefuses n lba dd = false) :
    ∃ p', ataRead n lba dd 0 idlePorts = some (ataPath n lba dd, p') := by
  have hneg : ¬ n < 0 := fun hlt => Nat.not_lt_zero _ hlt
  have hidle : ¬ (idlePorts.inB.1 &&& 0x88 ≠ 0) := by decide
  rw [ataRead, if_neg hneg, Option.bind_some, if_neg (by simp [h])]
  dsimp only
  rw [if_neg hidle, Option.bind_some]
  exact ⟨_, rfl⟩

theorem ataPath_ne_refused : ataPath n lba dd ≠ .refused := by
  rw [ataPath]
  split_ifs <;> decide

/-! ### The routine -/

/-- A number with the sign bit leads to the reset; the other ways out set the carry flag. -/
theorem readAtaStChecks_eq : readAtaStChecks n lba dd =
    if n.msb then .done false
    else if (Flags.cmp n 0x3fffff).greater ∨ (Flags.cmp (dd.prtlen - 1) lba).below ∨
        (Flags.cmp (dd.prtlen - 1) n).below ∨ (Flags.cmp (dd.prtlen - 1 - n + 1) lba).below
      then .done true
    else .status := by
  rw [readAtaStChecks, Flags.sign_test_self]
  dsimp only
  rw [Flags.greater_stc, Flags.carry_stc]
  by_cases hsign : n.msb = true
  · rw [if_pos hsign, if_pos hsign]
  rw [if_neg hsign, if_neg hsign]
  by_cases hmany : (Flags.cmp n 0x3fffff).greater = true
  · rw [if_pos hmany, if_pos (.inl hmany)]
  by_cases hlba : (Flags.cmp (dd.prtlen - 1) lba).below = true
  · rw [if_neg hmany, if_pos hlba, if_pos (.inr (.inl hlba))]
    exact congrArg ChecksExit.done hlba
  by_cases hn : (Flags.cmp (dd.prtlen - 1) n).below = true
  · rw [if_neg hmany, if_neg hlba, if_pos hn, if_pos (.inr (.inr (.inl hn)))]
    exact congrArg ChecksExit.done hn
  by_cases hfit : (Flags.cmp (dd.prtlen - 1 - n + 1) lba).below = true
  · rw [if_neg hmany, if_neg hlba, if_neg hn, if_pos hfit, if_pos (.inr (.inr (.inr hfit)))]
    exact congrArg ChecksExit.done hfit
  · rw [if_neg hmany, if_neg hlba, if_neg hn, if_neg hfit,
      if_neg (not_or.mpr ⟨hmany, not_or.mpr ⟨hlba, not_or.mpr ⟨hn, hfit⟩⟩⟩)]

/-- The routine leaves with the carry flag set for the numbers it counts as positive and too
    large, and for what does not lie before the last sector. -/
theorem readAtaStChecks_carry_iff (hp : 1 ≤ dd.prtlen.toNat) :
    readAtaStChecks n lba dd = .done true ↔ n.toNat < 2 ^ 31 ∧
      (0x3fffff < n.toNat ∨ dd.prtlen.toNat - 1 < lba.toNat ∨ dd.prtlen.toNat - 1 < n.toNat ∨
        dd.prtlen.toNat - n.toNat < lba.toNat) := by
  have hmax : (0x3fffff : BitVec 32).toNat = 0x3fffff := rfl
  have hone : (1 : BitVec 32).toNat = 1 := rfl
  have hlast : (dd.prtlen - 1).toNat = dd.prtlen.toNat - 1 :=
    BitVec.toNat_sub_of_le (BitVec.le_def.mpr hp)
  rw [readAtaStChecks_eq]
  by_cases hsign : n.msb = true
  · rw [if_pos hsign]
    rw [BitVec.msb_eq_true_iff_two_mul_ge] at hsign
    exact iff_of_false (by decide) (by omega)
  rw [if_neg hsign]
  rw [Bool.not_eq_true, BitVec.msb_eq_false_iff_two_mul_lt] at hsign
  have hgreater := Flags.cmp_greater_nat n 0x3fffff (by omega) (by decide)
  rw [hmax] at hgreater
  -- the last comparison is only made when the subtraction does not wrap
  have hrest : ¬ dd.prtlen.toNat - 1 < n.toNat →
      (dd.prtlen - 1 - n + 1).toNat = dd.prtlen.toNat - n.toNat := fun hn => by
    rw [BitVec.toNat_add, BitVec.toNat_sub_of_le (BitVec.le_def.mpr (by omega)), hlast, hone]
    omega
  split_ifs with hleave <;>
    rw [hgreater, Flags.cmp_below, Flags.cmp_below, Flags.cmp_below, hlast] at hleave
  · refine iff_of_true rfl ⟨by omega, ?_⟩
    by_cases hn : dd.prtlen.toNat - 1 < n.toNat
    · exact .inr (.inr (.inl hn))
    · rwa [hrest hn] at hleave
  · refine iff_of_false (by decide) fun h => hleave ?_
    by_cases hn : dd.prtlen.toNat - 1 < n.toNat
    · exact .inr (.inr (.inl hn))
    · rw [hrest hn]
      exact h.2

/-- The routine chooses by the last address, where the addresses are not negative numbers. -/
theorem readAtaSt28_iff (hsum : dd.stLBA.toNat + lba.toNat + n.toNat < 2 ^ 31) :
    readAtaSt28 n lba dd = true ↔ dd.stLBA.toNat + lba.toNat + n.toNat ≤ 0xfffffff := by
  have hmax : (0xfffffff : BitVec 32).toNat = 0xfffffff := rfl
  have hfirst : (dd.stLBA + lba).toNat = dd.stLBA.toNat + lba.toNat := by
    rw [BitVec.toNat_add, Nat.mod_eq_of_lt (by omega)]
  have hlast : (dd.stLBA + lba + n).toNat = dd.stLBA.toNat + lba.toNat + n.toNat := by
    rw [BitVec.toNat_add, hfirst, Nat.mod_eq_of_lt (by omega)]
  have hgreater : ∀ x : BitVec 32, x.toNat < 2 ^ 31 →
      ((Flags.cmp x 0xfffffff).greater = true ↔ 0xfffffff < x.toNat) := fun x hx =>
    Flags.cmp_greater_nat _ _ hx (by decide)
  rw [readAtaSt28, Bool.not_eq_true', Bool.eq_false_iff, ne_eq, setregFlags]
  dsimp only
  by_cases hlba : (Flags.cmp lba 0xfffffff).greater = true
  · rw [if_pos hlba]
    exact iff_of_false (not_not.mpr hlba) (by rw [hgreater lba (by omega)] at hlba; omega)
  rw [if_neg hlba]
  by_cases hst : (Flags.cmp dd.stLBA 0xfffffff).greater = true
  · rw [if_pos hst]
    exact iff_of_false (not_not.mpr hst) (by rw [hgreater dd.stLBA (by omega)] at hst; omega)
  rw [if_neg hst]
  by_cases hmid : (Flags.cmp (dd.stLBA + lba) 0xfffffff).greater = true
  · rw [if_pos hmid]
    exact iff_of_false (not_not.mpr hmid) (by rw [hgreater _ (by omega), hfirst] at hmid; omega)
  · rw [if_neg hmid, hgreater _ (by omega), hlast]
    omega

/-! ### The window -/

/-- A request that is refused touches no sector. -/
theorem ataWindow_of_refuses (h : ataRefuses n lba dd = true) : AtaWindow n lba dd := by
  have hexit : ∀ {fuel p exit p'}, ataRead n lba dd fuel p = some (exit, p') →
      exit = .refused := fun hrun => by
    rw [ataRead_exit hrun, if_pos h]
  exact ⟨fun _ _ _ _ hrun hne => absurd (hexit hrun) hne,
    fun _ fuel p => ⟨p, ataRead_refused h fuel p⟩,
    fun _ _ _ _ hrun hne => absurd (hexit hrun) hne⟩

/-- A request that passes the checks. -/
theorem ataWindow_iff_inside (hp : 1 ≤ dd.prtlen.toNat) (h : ataRefuses n lba dd = false) :
    AtaWindow n lba dd ↔ InsideBounds n.toNat lba.toNat dd.stLBA.toNat dd.prtlen.toNat := by
  have hrange : ¬ OutOfRange n.toNat lba.toNat dd.prtlen.toNat := fun hout => by
    rw [ataRefuses_iff.mpr hout] at h
    exact Bool.false_ne_true h.symm
  have hmany : n.toNat ≤ 0x3fffff := Nat.le_of_not_lt fun hlt => hrange (.inl hlt)
  constructor
  · intro hw
    obtain ⟨p', hidle⟩ := ataRead_idle h
    have hcarry : ¬ readAtaStChecks n lba dd = .done true := fun hc => by
      obtain ⟨q, hq⟩ := hw.refuses hc 0 idlePorts
      rw [hidle, Option.some_inj, Prod.mk.injEq] at hq
      exact ataPath_ne_refused hq.1
    rw [readAtaStChecks_carry_iff hp] at hcarry
    have hpath := hw.path 0 idlePorts _ p' hidle ataPath_ne_refused
    rw [ataPath_iff hmany] at hpath
    have hlast := hw.within 0 idlePorts _ p' hidle ataPath_ne_refused
    exact ⟨by omega, by omega, hlast, by omega⟩
  · rintro ⟨hcount, hfirst, hlast, haddress⟩
    refine ⟨fun _ _ _ _ _ _ => hlast, fun hc => ?_, fun _ _ _ _ hrun _ => ?_⟩
    · rw [readAtaStChecks_carry_iff hp] at hc
      omega
    · rw [ataRead_exit hrun, h, if_neg Bool.false_ne_true, ataPath_iff hmany]
      omega

/-- The function does what is asked of it exactly for the requests its checks refuse, and for
    those in front of the last sector whose addresses are above 28 bits or not above 28. -/
theorem ataWindow_iff (n lba : BitVec 32) (dd : DriverData) (hp : 1 ≤ dd.prtlen.toNat) :
    AtaWindow n lba dd ↔ OutOfRange n.toNat lba.toNat dd.prtlen.toNat ∨
      InsideBounds n.toNat lba.toNat dd.stLBA.toNat dd.prtlen.toNat := by
  rw [← ataRefuses_iff]
  cases hr : ataRefuses n lba dd with
  | true => exact iff_of_true (ataWindow_of_refuses hr) (.inl rfl)
  | false => rw [ataWindow_iff_inside hp hr, or_iff_right Bool.false_ne_true]

/-- The last sector but one of a partition that begins behind the addresses of 28 bits. -/
theorem ataWindow_inside : AtaWindow 1 62 ⟨0x3F6, 0x10000000, 64⟩ :=
  (ataWindow_iff 1 62 ⟨0x3F6, 0x10000000, 64⟩ (by decide)).mpr
    (.inr ⟨by decide, by decide, by decide, .inr (by decide)⟩)

/-- The sector behind a partition of one sector is read. -/
theorem not_ataWindow_behind_end : ¬ AtaWindow 1 1 ⟨0x3F6, 0, 1⟩ := by
  intro h
  obtain ⟨p', hidle⟩ := @ataRead_idle 1 1 ⟨0x3F6, 0, 1⟩ (by decide)
  have hlast := h.within 0 idlePorts _ p' hidle ataPath_ne_refused
  exact absurd hlast (by decide)

end Spec

end FirstOs
