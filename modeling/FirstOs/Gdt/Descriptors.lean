import FirstOs.Library.Run
import Mathlib.Data.BitVec
import Mathlib.Logic.Function.Basic
import Mathlib.Tactic.IntervalCases

/-!
# Segment and gate descriptors

`set_gdt_gate` and `set_idt_gate` scatter a base, a limit and flags over the fields of an
entry. The processor reads the eight bytes of the entry as one word and collects them again.

The index of an entry is one of the table: `set_gdt_gate` does not check it, and `gdt_entries` has
six entries.

## Main definitions

- `setGdtGate`, `setIdtGate` — the two functions
- `segmentOf`, `gateOf` — a descriptor as the processor reads it
- `GateCall` — a call of one of them

## Main results

- `gates_decode` — what the processor reads after a call, and after any calls
-/

namespace FirstOs

/-- `gdt_enrty`. -/
structure GdtEntry where
  limit : BitVec 16
  baseLow : BitVec 16
  baseMid : BitVec 8
  access : BitVec 8
  limitFlags : BitVec 8
  baseHigh : BitVec 8

/-- `idt_entry`. -/
structure IdtEntry where
  baseLow : BitVec 16
  sel : BitVec 16
  zero : BitVec 8
  flags : BitVec 8
  baseHigh : BitVec 16

/-- `gdt_entries`. -/
abbrev GdtEntries := Fin 6 → GdtEntry

/-- `idt_entries`. -/
abbrev IdtEntries := BitVec 8 → IdtEntry

/-- The assignments of `set_gdt_gate` to the fields of an entry. -/
def GdtEntry.fill (base limit : BitVec 32) (access gran : BitVec 8) (e : GdtEntry) : GdtEntry :=
  let e := { e with baseLow := (base &&& 0xFFFF#32).setWidth 16 }
  let e := { e with baseMid := ((base >>> 16) &&& 0xFF#32).setWidth 8 }
  let e := { e with baseHigh := ((base >>> 24) &&& 0xFF#32).setWidth 8 }
  let e := { e with limit := (limit &&& 0xFFFF#32).setWidth 16 }
  let e := { e with limitFlags := ((limit >>> 16) &&& 0x0F#32).setWidth 8 }
  let e := { e with limitFlags := e.limitFlags ||| (gran &&& 0xF0#8) }
  { e with access := access }

/-- `set_gdt_gate`. -/
def setGdtGate (gdtEntries : GdtEntries) (num : Fin 6) (base limit : BitVec 32)
    (access gran : BitVec 8) : GdtEntries :=
  Function.update gdtEntries num ((gdtEntries num).fill base limit access gran)

/-- The assignments of `set_idt_gate` to the fields of an entry. -/
def IdtEntry.fill (base : BitVec 32) (sel : BitVec 16) (flags : BitVec 8) (e : IdtEntry) :
    IdtEntry :=
  let e := { e with baseLow := (base &&& 0xFFFF#32).setWidth 16 }
  let e := { e with baseHigh := ((base >>> 16) &&& 0xFFFF#32).setWidth 16 }
  let e := { e with sel := sel }
  let e := { e with zero := 0 }
  { e with flags := flags ||| 0x60#8 }

/-- `set_idt_gate`. -/
def setIdtGate (idtEntries : IdtEntries) (num : BitVec 8) (base : BitVec 32) (sel : BitVec 16)
    (flags : BitVec 8) : IdtEntries :=
  Function.update idtEntries num ((idtEntries num).fill base sel flags)

-- ════════════════════════════════════════════════════════════════════════
-- What the processor reads
-- ════════════════════════════════════════════════════════════════════════

/-- The eight bytes of an entry, the first field in the low bits. -/
def GdtEntry.word (e : GdtEntry) : BitVec 64 :=
  e.baseHigh ++ e.limitFlags ++ e.access ++ e.baseMid ++ e.baseLow ++ e.limit

def IdtEntry.word (e : IdtEntry) : BitVec 64 :=
  e.baseHigh ++ e.flags ++ e.zero ++ e.sel ++ e.baseLow

/-- A segment: `flags` has the granularity in its high bit. -/
@[ext]
structure Segment where
  base : BitVec 32
  limit : BitVec 20
  access : BitVec 8
  flags : BitVec 4

/-- A segment descriptor: the base is in bits 63 to 56 and 39 to 16, the limit in bits 51 to 48
    and 15 to 0. -/
def segmentOf (word : BitVec 64) : Segment where
  base := word.extractLsb' 56 8 ++ word.extractLsb' 16 24
  limit := word.extractLsb' 48 4 ++ word.extractLsb' 0 16
  access := word.extractLsb' 40 8
  flags := word.extractLsb' 52 4

/-- A gate: `attributes` has the type, the privilege level and the present bit. -/
@[ext]
structure Gate where
  offset : BitVec 32
  selector : BitVec 16
  reserved : BitVec 8
  attributes : BitVec 8

/-- A gate descriptor: the offset is in bits 63 to 48 and 15 to 0. -/
def gateOf (word : BitVec 64) : Gate where
  offset := word.extractLsb' 48 16 ++ word.extractLsb' 0 16
  selector := word.extractLsb' 16 16
  reserved := word.extractLsb' 32 8
  attributes := word.extractLsb' 40 8

/-- The segment that is asked for. The limit has 20 bits. -/
def askedSegment (base limit : BitVec 32) (access gran : BitVec 8) : Segment where
  base := base
  limit := limit.setWidth 20
  access := access
  flags := gran.extractLsb' 4 4

/-- The gate that is asked for. -/
def askedGate (base : BitVec 32) (sel : BitVec 16) (flags : BitVec 8) : Gate where
  offset := base
  selector := sel
  reserved := 0
  attributes := flags ||| 0x60#8

-- ════════════════════════════════════════════════════════════════════════
-- One call
-- ════════════════════════════════════════════════════════════════════════

/-- The processor collects the fields of an entry. -/
theorem segmentOf_word (e : GdtEntry) : segmentOf e.word =
    ⟨e.baseHigh ++ (e.baseMid ++ e.baseLow), e.limitFlags.extractLsb' 0 4 ++ e.limit, e.access,
      e.limitFlags.extractLsb' 4 4⟩ := by
  apply Segment.ext <;> apply BitVec.eq_of_getLsbD_eq <;> intro i hi <;>
    simp only [segmentOf, GdtEntry.word, BitVec.getLsbD_append, BitVec.getLsbD_extractLsb'] <;>
    interval_cases i <;> simp

theorem gateOf_word (e : IdtEntry) :
    gateOf e.word = ⟨e.baseHigh ++ e.baseLow, e.sel, e.zero, e.flags⟩ := by
  apply Gate.ext <;> apply BitVec.eq_of_getLsbD_eq <;> intro i hi <;>
    simp only [gateOf, IdtEntry.word, BitVec.getLsbD_append, BitVec.getLsbD_extractLsb'] <;>
    interval_cases i <;> simp

section Fields

variable (base limit : BitVec 32) (sel : BitVec 16) (access gran flags : BitVec 8)

/-- The base in three parts. -/
theorem base_parts : ((base >>> 24) &&& 0xFF#32).setWidth 8 ++
    (((base >>> 16) &&& 0xFF#32).setWidth 8 ++ (base &&& 0xFFFF#32).setWidth 16) = base := by
  apply BitVec.eq_of_getLsbD_eq
  intro i hi
  simp only [BitVec.getLsbD_append]
  interval_cases i <;> simp

/-- The offset in two parts. -/
theorem offset_parts : ((base >>> 16) &&& 0xFFFF#32).setWidth 16 ++
    (base &&& 0xFFFF#32).setWidth 16 = base := by
  apply BitVec.eq_of_getLsbD_eq
  intro i hi
  simp only [BitVec.getLsbD_append]
  interval_cases i <;> simp

/-- The low 20 bits of the limit in two parts, the high one beside the flags. -/
theorem limit_parts :
    (((limit >>> 16) &&& 0x0F#32).setWidth 8 ||| (gran &&& 0xF0#8)).extractLsb' 0 4 ++
      (limit &&& 0xFFFF#32).setWidth 16 = limit.setWidth 20 := by
  apply BitVec.eq_of_getLsbD_eq
  intro i hi
  simp only [BitVec.getLsbD_append, BitVec.getLsbD_extractLsb']
  interval_cases i <;> simp

theorem flags_part :
    (((limit >>> 16) &&& 0x0F#32).setWidth 8 ||| (gran &&& 0xF0#8)).extractLsb' 4 4 =
      gran.extractLsb' 4 4 := by
  apply BitVec.eq_of_getLsbD_eq
  intro i hi
  simp only [BitVec.getLsbD_extractLsb']
  interval_cases i <;> simp

/-- The old fields of the entry do not matter: the assignment to `limit_flags` is before the one
    that adds to it. -/
theorem segmentOf_fill (e : GdtEntry) :
    segmentOf (e.fill base limit access gran).word = askedSegment base limit access gran := by
  rw [segmentOf_word, askedSegment, Segment.mk.injEq]
  exact ⟨base_parts base, limit_parts limit gran, rfl, flags_part limit gran⟩

theorem gateOf_fill (e : IdtEntry) :
    gateOf (e.fill base sel flags).word = askedGate base sel flags := by
  rw [gateOf_word, askedGate, Gate.mk.injEq]
  exact ⟨offset_parts base, rfl, rfl, rfl⟩

end Fields

-- ════════════════════════════════════════════════════════════════════════
-- Any calls
-- ════════════════════════════════════════════════════════════════════════

/-- The two tables. -/
structure DescriptorTables where
  gdtEntries : GdtEntries
  idtEntries : IdtEntries

/-- A call of one of the functions. -/
inductive GateCall where
  | setGdtGate (num : Fin 6) (base limit : BitVec 32) (access gran : BitVec 8)
  | setIdtGate (num : BitVec 8) (base : BitVec 32) (sel : BitVec 16) (flags : BitVec 8)

namespace GateCall

def exec (t : DescriptorTables) : GateCall → DescriptorTables
  | setGdtGate num base limit access gran =>
    { t with gdtEntries := FirstOs.setGdtGate t.gdtEntries num base limit access gran }
  | setIdtGate num base sel flags =>
    { t with idtEntries := FirstOs.setIdtGate t.idtEntries num base sel flags }

/-- The segment that is asked for as entry `k` of the segment table. -/
def segmentAt (k : Fin 6) : GateCall → Option Segment
  | setGdtGate num base limit access gran =>
    if num = k then some (askedSegment base limit access gran) else none
  | setIdtGate .. => none

/-- The gate that is asked for as entry `k` of the interrupt table. -/
def gateAt (k : BitVec 8) : GateCall → Option Gate
  | setGdtGate .. => none
  | setIdtGate num base sel flags => if num = k then some (askedGate base sel flags) else none

end GateCall

/-- Entry `k` of the segment table as the processor reads it. -/
def DescriptorTables.segment (k : Fin 6) (t : DescriptorTables) : Segment :=
  segmentOf (t.gdtEntries k).word

/-- Entry `k` of the interrupt table as the processor reads it. -/
def DescriptorTables.gate (k : BitVec 8) (t : DescriptorTables) : Gate :=
  gateOf (t.idtEntries k).word

theorem segment_exec (k : Fin 6) (t : DescriptorTables) (c : GateCall) :
    (c.exec t).segment k = (c.segmentAt k).getD (t.segment k) := by
  cases c with
  | setGdtGate num base limit access gran =>
    rw [GateCall.segmentAt]
    by_cases hk : num = k
    · subst hk
      rw [if_pos rfl, Option.getD_some, ← segmentOf_fill _ _ _ _ (t.gdtEntries num)]
      change segmentOf (setGdtGate t.gdtEntries num base limit access gran num).word = _
      rw [setGdtGate, Function.update_self]
    · rw [if_neg hk, Option.getD_none]
      change segmentOf (setGdtGate t.gdtEntries num base limit access gran k).word = _
      rw [setGdtGate, Function.update_of_ne (Ne.symm hk), DescriptorTables.segment]
  | setIdtGate num base sel flags => rfl

theorem gate_exec (k : BitVec 8) (t : DescriptorTables) (c : GateCall) :
    (c.exec t).gate k = (c.gateAt k).getD (t.gate k) := by
  cases c with
  | setGdtGate num base limit access gran => rfl
  | setIdtGate num base sel flags =>
    rw [GateCall.gateAt]
    by_cases hk : num = k
    · subst hk
      rw [if_pos rfl, Option.getD_some, ← gateOf_fill _ _ _ (t.idtEntries num)]
      change gateOf (setIdtGate t.idtEntries num base sel flags num).word = _
      rw [setIdtGate, Function.update_self]
    · rw [if_neg hk, Option.getD_none]
      change gateOf (setIdtGate t.idtEntries num base sel flags k).word = _
      rw [setIdtGate, Function.update_of_ne (Ne.symm hk), DescriptorTables.gate]

/-- After a call the processor reads what was asked for, and after any calls it reads for every
    index what was asked for last. -/
theorem gates_decode :
    (∀ (t : GdtEntries) (num : Fin 6) (base limit : BitVec 32) (access gran : BitVec 8),
      let segment := segmentOf (setGdtGate t num base limit access gran num).word
      segment.base = base ∧ segment.limit.toNat = limit.toNat % 2 ^ 20 ∧
        segment.access = access ∧ segment.flags = gran.extractLsb' 4 4) ∧
      (∀ (t : IdtEntries) (num : BitVec 8) (base : BitVec 32) (sel : BitVec 16) (flags : BitVec 8),
        let gate := gateOf (setIdtGate t num base sel flags num).word
        gate.offset = base ∧ gate.selector = sel ∧ gate.attributes = flags ||| 0x60#8) ∧
      ∀ (calls : List GateCall) (t : DescriptorTables),
        (∀ k, (calls.foldl (fun t c => c.exec t) t).segment k =
          (calls.filterMap (GateCall.segmentAt k)).getLast?.getD (t.segment k)) ∧
        ∀ k, (calls.foldl (fun t c => c.exec t) t).gate k =
          (calls.filterMap (GateCall.gateAt k)).getLast?.getD (t.gate k) := by
  refine ⟨fun t num base limit access gran => ?_, fun t num base sel flags => ?_,
    fun calls t => ⟨fun k => ?_, fun k => ?_⟩⟩
  · rw [setGdtGate, Function.update_self, segmentOf_fill]
    exact ⟨rfl, BitVec.toNat_setWidth 20 limit, rfl, rfl⟩
  · rw [setIdtGate, Function.update_self, gateOf_fill]
    exact ⟨rfl, rfl, rfl⟩
  · exact Run.foldl_last (DescriptorTables.segment k) (segment_exec k) calls t
  · exact Run.foldl_last (DescriptorTables.gate k) (gate_exec k) calls t

end FirstOs
