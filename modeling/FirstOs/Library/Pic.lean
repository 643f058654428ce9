import FirstOs.Library.Arbiter
import Mathlib.Data.BitVec
import Mathlib.Data.Fintype.Basic
import Mathlib.Data.Fintype.Sum

/-!
# Interrupt controllers

The two 8259 controllers of a PC. Each has a command port and a data port. A word with bit 4 at the
command port starts an initialization, in which the data port takes the vectors, the cascade and
the mode; after it the data port takes the mask. The output of the second controller, the slave, is
line 2 of the first.

Requests are kept at their edges. The processor acknowledges in the mode of the 8086 only, without
automatic end of interrupt. Of the commands, those that end the service of a line that is not named
are here; the others do nothing.

## Main definitions

- `Pic.Chip`, `Pic.Pair` — the controllers
- `Pic.Pair.out` — a byte is sent to a port
- `Pic.Pair.acknowledge` — the processor takes an interrupt
- `Pic.Pair.Takes` — what is known of the line taken

## Main results

- `Pic.Pair.takes_of_nextLine` — the line taken waits, and nothing above it is served
- `Pic.Pair.exists_nextLine` — something is taken
-/

namespace Pic

/-- What a data port takes next. -/
inductive Stage where
  | icw2
  | icw3
  | icw4
  | ready
deriving DecidableEq

/-- A controller. -/
structure Chip where
  lines : Arbiter (Fin 8)
  stage : Stage
  icw1 : BitVec 8
  icw2 : BitVec 8
  icw3 : BitVec 8
  icw4 : BitVec 8
deriving DecidableEq

namespace Chip

/-- A byte at the command port. -/
def outCommand (v : BitVec 8) (c : Chip) : Chip :=
  if v.getLsbD 4 then { c with lines := .clear, stage := .icw2, icw1 := v, icw4 := 0 }
  -- with bit 3, it selects what is read
  else if v.getLsbD 3 then c
  else if v.extractLsb' 5 3 = 1 then { c with lines := c.lines.endService }
  else c

/-- The lines a byte names. -/
def linesOf (v : BitVec 8) : Finset (Fin 8) := Finset.univ.filter fun i => v.getLsbD i

theorem linesOf_zero : linesOf 0#8 = ∅ := by decide

/-- A byte at the data port. -/
def outData (v : BitVec 8) (c : Chip) : Chip :=
  let last := if c.icw1.getLsbD 0 then Stage.icw4 else .ready
  match c.stage with
  | .icw2 => { c with icw2 := v, stage := if c.icw1.getLsbD 1 then last else .icw3 }
  | .icw3 => { c with icw3 := v, stage := last }
  | .icw4 => { c with icw4 := v, stage := .ready }
  | .ready => { c with lines := { c.lines with mask := linesOf v } }

/-- The vector of a line. -/
def vector (i : Fin 8) (c : Chip) : BitVec 8 := c.icw2.extractLsb' 3 5 ++ BitVec.ofNat 3 i

end Chip

/-- The two controllers. -/
structure Pair where
  master : Chip
  slave : Chip
deriving DecidableEq

theorem two_lt_eight : 2 < 8 := by omega

/-- The line of the master that the slave is at. -/
def cascade : Fin 8 := ⟨2, two_lt_eight⟩

/-- A line of the master or of the slave. -/
abbrev Line := Fin 8 ⊕ Fin 8

theorem zero_lt_eight : 0 < 8 := by omega

theorem one_lt_eight : 1 < 8 := by omega

/-- The line of the timer. -/
def timerLine : Line := .inl ⟨0, zero_lt_eight⟩

/-- The line of the keyboard. -/
def keyboardLine : Line := .inl ⟨1, one_lt_eight⟩

namespace Line

/-- The line of the slave, if it is one. -/
def slaveLine : Line → Option (Fin 8)
  | .inl _ => none
  | .inr j => some j

/-- What number the line has. -/
def number : Line → ℕ
  | .inl i => i
  | .inr j => 8 + j

/-- The line of the master an interrupt comes in on. -/
def masterLine : Line → Fin 8
  | .inl i => i
  | .inr _ => cascade

theorem number_lt (l : Line) : l.number < 16 := by
  cases l with
  | inl i =>
    rw [number]
    omega
  | inr j =>
    rw [number]
    omega

theorem number_injective : Function.Injective number := by
  intro l m h
  cases l <;> cases m <;> simp only [number] at h
  · exact congrArg _ (Fin.ext h)
  · omega
  · omega
  · exact congrArg _ (Fin.ext (by omega))

end Line

namespace Pair

variable {p : Pair} {l : Line} {i j : Fin 8} {ms ss : List (Fin 8)}

/-- A byte is sent to a port. -/
def out (port : BitVec 16) (v : BitVec 8) (p : Pair) : Pair :=
  if port = 0x20 then { p with master := p.master.outCommand v }
  else if port = 0x21 then { p with master := p.master.outData v }
  else if port = 0xA0 then { p with slave := p.slave.outCommand v }
  else if port = 0xA1 then { p with slave := p.slave.outData v }
  else p

/-- A device requests an interrupt. -/
def request (p : Pair) : Line → Pair
  | .inl i => { p with master := { p.master with lines := p.master.lines.request i } }
  | .inr j => { p with slave := { p.slave with lines := p.slave.lines.request j } }

/-- The lines whose requests wait. -/
def pending (p : Pair) : Finset Line :=
  (p.master.lines.requests.erase cascade).disjSum p.slave.lines.requests

/-- The lines of the master, with the output of the slave on line 2. -/
def masterLines (p : Pair) : Arbiter (Fin 8) :=
  { p.master.lines with
    requests := if p.slave.lines.next.isSome then insert cascade p.master.lines.requests
      else p.master.lines.requests.erase cascade }

/-- The line that is taken next. -/
def nextLine (p : Pair) : Option Line :=
  p.masterLines.next.bind fun i =>
    if i = cascade then p.slave.lines.next.map .inr else some (.inl i)

/-- A line is taken. -/
def accept (p : Pair) : Line → Pair
  | .inl i => { p with master := { p.master with lines := p.master.lines.accept i } }
  | .inr j =>
    { master := { p.master with lines := p.master.lines.accept cascade }
      slave := { p.slave with lines := p.slave.lines.accept j } }

/-- The vector the processor is given. -/
def vector (p : Pair) : Line → BitVec 8
  | .inl i => p.master.vector i
  | .inr j => p.slave.vector j

/-- Initialized for the 8086, and the slave at line 2. -/
structure Ready (p : Pair) : Prop where
  master : p.master.stage = .ready
  slave : p.slave.stage = .ready
  masterMode : p.master.icw4 = 0x01
  slaveMode : p.slave.icw4 = 0x01
  cascade : p.master.icw3 = 0x04
  identity : p.slave.icw3 = 0x02

instance (p : Pair) : Decidable p.Ready :=
  decidable_of_iff (p.master.stage = .ready ∧ p.slave.stage = .ready ∧ p.master.icw4 = 0x01 ∧
      p.slave.icw4 = 0x01 ∧ p.master.icw3 = 0x04 ∧ p.slave.icw3 = 0x02)
    ⟨fun ⟨h₁, h₂, h₃, h₄, h₅, h₆⟩ => ⟨h₁, h₂, h₃, h₄, h₅, h₆⟩,
      fun ⟨h₁, h₂, h₃, h₄, h₅, h₆⟩ => ⟨h₁, h₂, h₃, h₄, h₅, h₆⟩⟩

/-- The processor takes an interrupt, and is given its vector. -/
def acknowledge (p : Pair) : Option (BitVec 8 × Pair) :=
  if p.Ready then p.nextLine.map fun l => (p.vector l, p.accept l) else none

/-- The end of a service is signalled to the master. -/
def endMaster (p : Pair) : Pair :=
  { p with master := { p.master with lines := p.master.lines.endService } }

/-- The end of a service is signalled to the slave. -/
def endSlave (p : Pair) : Pair :=
  { p with slave := { p.slave with lines := p.slave.lines.endService } }

theorem out_master_end (p : Pair) : p.out 0x20 0x20 = p.endMaster := by
  simp [out, Chip.outCommand, endMaster]

theorem out_slave_end (p : Pair) : p.out 0xA0 0x20 = p.endSlave := by
  simp [out, Chip.outCommand, endSlave]

theorem pending_endMaster (p : Pair) : p.endMaster.pending = p.pending := by
  rw [pending, pending, endMaster, Arbiter.endService_requests]

theorem pending_endSlave (p : Pair) : p.endSlave.pending = p.pending := by
  rw [pending, pending, endSlave, Arbiter.endService_requests]

theorem Ready.acknowledge (h : p.Ready) :
    p.acknowledge = p.nextLine.map fun l => (p.vector l, p.accept l) := if_pos h

theorem inl_mem_pending : Sum.inl i ∈ p.pending ↔ i ≠ cascade ∧ i ∈ p.master.lines.requests := by
  rw [pending, Finset.inl_mem_disjSum, Finset.mem_erase]

theorem inr_mem_pending : Sum.inr j ∈ p.pending ↔ j ∈ p.slave.lines.requests := by
  rw [pending, Finset.inr_mem_disjSum]

theorem pending_request (hl : l ≠ .inl cascade) : (p.request l).pending = insert l p.pending := by
  ext m
  cases l with
  | inl i =>
    have hi : i ≠ cascade := fun h => hl (congrArg _ h)
    cases m with
    | inl k =>
      have hsplit : k ≠ cascade ∧ (k = i ∨ k ∈ p.master.lines.requests) ↔
          k = i ∨ k ≠ cascade ∧ k ∈ p.master.lines.requests := by
        constructor
        · rintro ⟨h2, rfl | hk⟩
          · exact .inl rfl
          · exact .inr ⟨h2, hk⟩
        · rintro (rfl | ⟨h2, hk⟩)
          · exact ⟨hi, .inl rfl⟩
          · exact ⟨h2, .inr hk⟩
      simpa [request, pending, Arbiter.request] using hsplit
    | inr k => simp [request, pending]
  | inr j => cases m <;> simp [request, pending, Arbiter.request]

theorem pending_accept (p : Pair) (l : Line) : (p.accept l).pending = p.pending.erase l := by
  ext m
  cases l <;> cases m <;> simp [accept, pending, Arbiter.accept, and_left_comm]

-- ════════════════════════════════════════════════════════════════════════
-- The line that is taken
-- ════════════════════════════════════════════════════════════════════════

/-- What is known of the line that is taken. -/
structure Takes (p : Pair) (l : Line) : Prop where
  pending : l ∈ p.pending
  below : ∀ i ∈ p.master.lines.service, l.masterLine < i
  slaveBelow : ∀ j, l = .inr j → ∀ k ∈ p.slave.lines.service, j < k

theorem takes_of_nextLine (h : p.nextLine = some l) : p.Takes l := by
  obtain ⟨i, hi, hl⟩ := Option.bind_eq_some_iff.mp h
  obtain ⟨hrequested, -, hbelow⟩ :=
    Arbiter.mem_eligible.mp (Arbiter.next_eq_some_iff.mp hi).1
  split_ifs at hl with h2
  · subst h2
    obtain ⟨j, hj, rfl⟩ := Option.map_eq_some_iff.mp hl
    obtain ⟨hslave, -, hslaveBelow⟩ :=
      Arbiter.mem_eligible.mp (Arbiter.next_eq_some_iff.mp hj).1
    refine ⟨inr_mem_pending.mpr hslave, hbelow, ?_⟩
    rintro k ⟨⟩
    exact hslaveBelow
  · cases hl
    refine ⟨inl_mem_pending.mpr ⟨h2, ?_⟩, hbelow, fun j hj => nomatch hj⟩
    rw [masterLines] at hrequested
    split_ifs at hrequested
    · exact (Finset.mem_insert.mp hrequested).resolve_left h2
    · exact Finset.mem_of_mem_erase hrequested

/-- With nothing masked and nothing in service, something is taken if a request waits. -/
theorem exists_nextLine (hmaster : p.master.lines.Serves []) (hslave : p.slave.lines.Serves [])
    (hmask : p.master.lines.mask = ∅) (hslaveMask : p.slave.lines.mask = ∅) (h : l ∈ p.pending) :
    ∃ m, p.nextLine = some m := by
  have hnext : ∃ i, p.masterLines.next = some i := by
    have hservice : p.masterLines.service = ∅ := hmaster.service_eq_empty
    cases l with
    | inl i =>
      obtain ⟨h2, hi⟩ := inl_mem_pending.mp h
      refine Arbiter.exists_next hservice hmask (i := i) ?_
      rw [masterLines]
      split_ifs
      · exact Finset.mem_insert_of_mem hi
      · exact Finset.mem_erase.mpr ⟨h2, hi⟩
    | inr j =>
      obtain ⟨k, hk⟩ :=
        Arbiter.exists_next hslave.service_eq_empty hslaveMask (inr_mem_pending.mp h)
      refine Arbiter.exists_next hservice hmask (i := cascade) ?_
      rw [masterLines, hk]
      exact Finset.mem_insert_self _ _
  obtain ⟨i, hi⟩ := hnext
  by_cases h2 : i = cascade
  · subst h2
    -- the master takes line 2 only when the slave has a line
    obtain ⟨hrequested, -⟩ := Arbiter.mem_eligible.mp (Arbiter.next_eq_some_iff.mp hi).1
    rw [masterLines] at hrequested
    split_ifs at hrequested with hsome
    · obtain ⟨j, hj⟩ := Option.isSome_iff_exists.mp hsome
      exact ⟨.inr j, by rw [nextLine, hi, Option.bind_some, if_pos rfl, hj, Option.map_some]⟩
    · exact absurd hrequested (Finset.notMem_erase _ _)
  · exact ⟨.inl i, by rw [nextLine, hi, Option.bind_some, if_neg h2]⟩

end Pair

end Pic
