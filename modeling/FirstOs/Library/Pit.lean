import Mathlib.Data.BitVec

/-!
# Interval timers

The first channel of an 8254. A word at the control port selects the channel, which bytes of the
count are sent, and the mode. The count is then sent to the port of the channel; where both bytes
are sent, the low one comes first.

## Main results

- `Pit.out_both` — both bytes of a count
-/

/-- The first channel: how its count is sent, its mode, the low byte when the high one comes next,
    and the count. -/
structure Pit where
  access : BitVec 2
  mode : BitVec 3
  low : Option (BitVec 8)
  count : BitVec 16

namespace Pit

/-- A byte is sent to a port. The words that latch a count or select another channel change nothing
    here. -/
def out (port : BitVec 16) (v : BitVec 8) (p : Pit) : Pit :=
  if port = 0x43 then
    if v.extractLsb' 6 2 = 0 ∧ v.extractLsb' 4 2 ≠ 0 then
      { p with access := v.extractLsb' 4 2, mode := v.extractLsb' 1 3, low := none }
    else p
  else if port = 0x40 then
    if p.access = 1 then { p with count := 0#8 ++ v }
    else if p.access = 2 then { p with count := v ++ 0#8 }
    else
      match p.low with
      | none => { p with low := some v }
      | some low => { p with low := none, count := v ++ low }
  else p

/-- The bytes are sent one after the other. -/
def outs (writes : List (BitVec 16 × BitVec 8)) (p : Pit) : Pit :=
  writes.foldl (fun p w => p.out w.1 w.2) p

/-- A control word for mode 3 with both bytes, and the bytes. -/
theorem out_both (low high : BitVec 8) (p : Pit) :
    p.outs [(0x43, 0x36), (0x40, low), (0x40, high)] = ⟨3, 3, none, high ++ low⟩ := rfl

end Pit
