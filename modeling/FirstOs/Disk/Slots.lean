import FirstOs.Disk.Ahci
import Mathlib.Order.Lattice.Nat

/-!
# The free command slot

`find_cmd_slot` shifts the word of the busy slots to the right until a clear bit comes to the
end. The controller has slots `0` to `cap[12:8]`; the loop runs below `cap[11:8]`, so it passes
over the last slot and over those the fifth bit stands for.

## Main definitions

- `cmdSlot` — what `find_cmd_slot` makes of the three registers
- `freeSlots`, `LowestFreeSlot` — the free slots of the controller, and what is asked for

## Main results

- `cmdSlot_eq_freeSlot` — shifting the word tests its bits in order
- `cmdSlot_lowest_iff` — when the lowest free slot is found
-/

namespace FirstOs

/-- The loop of `find_cmd_slot` from slot `i` on, with `slots` shifted that far. -/
def cmdSlotLoop (cmdSlots : BitVec 32) (i : ℕ) (slots : BitVec 32) : BitVec 32 :=
  if i < cmdSlots.toNat then
    if slots &&& 1 = 0 then BitVec.ofNat 32 i
    else cmdSlotLoop cmdSlots (i + 1) (slots >>> 1)
  else 0xFFFFFFFF#32
termination_by cmdSlots.toNat - i

/-- `find_cmd_slot` on the values of `sact`, `ci` and `cap`. -/
def cmdSlot (sact ci cap : BitVec 32) : BitVec 32 :=
  let slots := sact ||| ci
  let cmdSlots := (cap &&& 0x0F00#32) >>> 8
  cmdSlotLoop cmdSlots 0 slots

/-- The number of the last slot the controller has, `cap[12:8]`. -/
def lastSlot (cap : BitVec 32) : ℕ := ((cap >>> 8) &&& 0x1F#32).toNat

/-- The bound of the loop, `cap[11:8]`. -/
def slotBound (cap : BitVec 32) : ℕ := ((cap >>> 8) &&& 0xF#32).toNat

/-- The slot has no command in either register. -/
def SlotIdle (sact ci : BitVec 32) (i : ℕ) : Prop := sact.getLsbD i = false ∧ ci.getLsbD i = false

/-- The free slots of the controller. -/
def freeSlots (sact ci cap : BitVec 32) : Set ℕ := {i | i ≤ lastSlot cap ∧ SlotIdle sact ci i}

/-- `slot` is the lowest free slot, or all ones exactly when there is none. -/
structure LowestFreeSlot (sact ci cap slot : BitVec 32) : Prop where
  least : ∀ i, IsLeast (freeSlots sact ci cap) i → slot = BitVec.ofNat 32 i
  refused : slot = 0xFFFFFFFF#32 ↔ freeSlots sact ci cap = ∅

section Registers

variable (sact ci cap : BitVec 32)

theorem slotBound_eq_mod : slotBound cap = lastSlot cap % 16 := by
  have hmod : ∀ x : ℕ, (x &&& 0xF) = (x &&& 0x1F) % 16 := fun x => by
    rw [show (0xF : ℕ) = 2 ^ 4 - 1 from rfl, show (0x1F : ℕ) = 2 ^ 5 - 1 from rfl,
      Nat.and_two_pow_sub_one_eq_mod, Nat.and_two_pow_sub_one_eq_mod]
    omega
  rw [slotBound, lastSlot, BitVec.toNat_and, BitVec.toNat_and]
  exact hmod _

theorem lastSlot_lt : lastSlot cap < 32 := by
  rw [lastSlot, BitVec.toNat_and]
  exact lt_of_le_of_lt Nat.and_le_right (by decide)

theorem loopBound_eq : ((cap &&& 0x0F00#32) >>> 8).toNat = slotBound cap := by
  rw [slotBound, BitVec.ushiftRight_and_distrib]
  rfl

theorem bit_eq_zero_iff (slots : BitVec 32) (i : ℕ) :
    slots >>> i &&& 1 = 0 ↔ slots.getLsbD i = false := by
  rw [show (1 : BitVec 32) = 1#32 from rfl, BitVec.and_one_eq_setWidth_ofBool_getLsbD,
    BitVec.getLsbD_ushiftRight, Nat.add_zero]
  cases slots.getLsbD i <;> decide

theorem slotIdle_iff (i : ℕ) :
    ((sact ||| ci) >>> i &&& 1 == 0) = true ↔ SlotIdle sact ci i := by
  rw [beq_iff_eq, bit_eq_zero_iff, BitVec.getLsbD_or, Bool.or_eq_false_iff, SlotIdle]

end Registers

-- ════════════════════════════════════════════════════════════════════════
-- The loop
-- ════════════════════════════════════════════════════════════════════════

/-- The value `find_cmd_slot` has for what was found. -/
def slotValue : Option ℕ → BitVec 32
  | some i => BitVec.ofNat 32 i
  | none => 0xFFFFFFFF#32

/-- The loop at slot `i` looks at bit `i` of the word it was entered with. -/
theorem cmdSlotLoop_eq_first (cmdSlots slots : BitVec 32) (k i : ℕ) (hk : i + k = cmdSlots.toNat) :
    cmdSlotLoop cmdSlots i (slots >>> i) =
      slotValue (Search.first (fun j => slots >>> j &&& 1 == 0) i k) := by
  induction k generalizing i with
  | zero =>
    rw [cmdSlotLoop, if_neg (by omega)]
    rfl
  | succ k ih =>
    rw [cmdSlotLoop, if_pos (by omega), Search.first]
    by_cases hbit : slots >>> i &&& 1 = 0
    · rw [if_pos hbit, if_pos (beq_iff_eq.mpr hbit)]
      rfl
    · rw [if_neg hbit, if_neg (fun h => hbit (beq_iff_eq.mp h)), ← BitVec.shiftRight_add]
      exact ih (i + 1) (by omega)

theorem cmdSlot_eq_freeSlot (sact ci cap : BitVec 32) :
    cmdSlot sact ci cap = slotValue (freeSlot (sact ||| ci) cap) := by
  have h := cmdSlotLoop_eq_first ((cap &&& 0x0F00#32) >>> 8) (sact ||| ci)
    ((cap &&& 0x0F00#32) >>> 8).toNat 0 (Nat.zero_add _)
  rwa [BitVec.ushiftRight_zero] at h

/-- The slot a command is given is what `find_cmd_slot` returns on the registers it reads. -/
theorem findCmdSlot_eq_cmdSlot (s : AhciState) :
    slotValue (findCmdSlot s).1 = cmdSlot (s.reads 0) (s.reads 1) (s.reads 2) :=
  (cmdSlot_eq_freeSlot _ _ _).symm

section Lowest

variable {sact ci cap slot : BitVec 32} {i : ℕ}

theorem slotValue_ne_of_lt (hi : i < 32) : slotValue (some i) ≠ 0xFFFFFFFF#32 := by
  intro h
  have hnat := congrArg BitVec.toNat h
  rw [slotValue, BitVec.toNat_ofNat, Nat.mod_eq_of_lt (by omega)] at hnat
  rw [hnat] at hi
  exact absurd hi (by decide)

/-- A command is placed in a slot that the controller has and that is not busy. -/
theorem LowestFreeSlot.placed (h : LowestFreeSlot sact ci cap slot)
    (hslot : slot ≠ 0xFFFFFFFF#32) : slot.toNat ∈ freeSlots sact ci cap := by
  have hne : (freeSlots sact ci cap).Nonempty := by
    rw [Set.nonempty_iff_ne_empty]
    exact fun he => hslot (h.refused.mpr he)
  have hleast : IsLeast (freeSlots sact ci cap) (sInf (freeSlots sact ci cap)) :=
    ⟨Nat.sInf_mem hne, fun i hi => Nat.sInf_le hi⟩
  have hlt : sInf (freeSlots sact ci cap) < 32 := lt_of_le_of_lt hleast.1.1 (lastSlot_lt cap)
  rw [h.least _ hleast, BitVec.toNat_ofNat, Nat.mod_eq_of_lt (by omega)]
  exact hleast.1

/-- What the loop finds is the lowest free slot. -/
theorem lowestFreeSlot_of_some (h : freeSlot (sact ||| ci) cap = some i) :
    i < slotBound cap ∧ SlotIdle sact ci i ∧
      LowestFreeSlot sact ci cap (slotValue (some i)) := by
  obtain ⟨-, hi, hidle, hmin⟩ := Search.first_eq_some_iff.mp h
  rw [Nat.zero_add, loopBound_eq] at hi
  rw [slotIdle_iff] at hidle
  have hlast : i ≤ lastSlot cap := by
    rw [slotBound_eq_mod] at hi
    omega
  have hleast : IsLeast (freeSlots sact ci cap) i := by
    refine ⟨⟨hlast, hidle⟩, fun j hj => ?_⟩
    by_contra hlt
    have hbusy := hmin j (Nat.zero_le j) (by omega)
    rw [(slotIdle_iff sact ci j).mpr hj.2] at hbusy
    exact Bool.false_ne_true hbusy.symm
  refine ⟨hi, hidle, fun j hj => ?_, ?_⟩
  · rw [hj.unique hleast]
    rfl
  · refine iff_of_false (slotValue_ne_of_lt (lt_of_le_of_lt hlast (lastSlot_lt cap))) fun he => ?_
    have hmem : i ∈ freeSlots sact ci cap := hleast.1
    rw [he] at hmem
    exact hmem

/-- `find_cmd_slot` gives the lowest free slot when one of those below `cap[11:8]` is free, and
    when every slot is busy. -/
theorem cmdSlot_lowest_iff (sact ci cap : BitVec 32) :
    LowestFreeSlot sact ci cap (cmdSlot sact ci cap) ↔
      (∃ i < slotBound cap, SlotIdle sact ci i) ∨ ∀ i ≤ lastSlot cap, ¬ SlotIdle sact ci i := by
  rw [cmdSlot_eq_freeSlot]
  cases h : freeSlot (sact ||| ci) cap with
  | some i =>
    obtain ⟨hi, hidle, hlowest⟩ := lowestFreeSlot_of_some h
    exact iff_of_true hlowest (.inl ⟨i, hi, hidle⟩)
  | none =>
    rw [freeSlot, Search.first_eq_none_iff, loopBound_eq] at h
    have hbusy : ∀ i < slotBound cap, ¬ SlotIdle sact ci i := by
      intro i hi hidle
      have hbit := h i (Nat.zero_le i) (by omega)
      rw [(slotIdle_iff sact ci i).mpr hidle] at hbit
      exact Bool.false_ne_true hbit.symm
    constructor
    · intro hlowest
      refine .inr fun i hi hidle => ?_
      have hmem : i ∈ freeSlots sact ci cap := ⟨hi, hidle⟩
      rw [hlowest.refused.mp rfl] at hmem
      exact hmem
    · rintro (⟨i, hi, hidle⟩ | hall)
      · exact absurd hidle (hbusy i hi)
      · have hnone : freeSlots sact ci cap = ∅ :=
          Set.eq_empty_of_forall_notMem fun i hi => hall i hi.1 hi.2
        refine ⟨fun i hi => ?_, fun _ => hnone, fun _ => rfl⟩
        have hmem : i ∈ freeSlots sact ci cap := hi.1
        rw [hnone] at hmem
        exact absurd hmem (Set.notMem_empty i)

/-- On a controller with one slot, and that slot free, no slot is found. -/
theorem cmdSlot_single_refused : ¬ LowestFreeSlot 0 0 0 (cmdSlot 0 0 0) := by
  intro h
  have hvalue : cmdSlot 0 0 0 = 0xFFFFFFFF#32 := by
    rw [cmdSlot_eq_freeSlot]
    rfl
  have hmem : 0 ∈ freeSlots 0 0 0 := ⟨by decide, by decide, by decide⟩
  rw [h.refused.mp hvalue] at hmem
  exact hmem

end Lowest

end FirstOs
