import FirstOs.Gdt.Descriptors
import FirstOs.Idt.Stubs
import FirstOs.Library.Pic
import Mathlib.Data.List.FinRange

/-!
# The interrupt table and the controllers

`idt_init`. It clears the table, starts the two controllers with vectors from 0x20 and 0x28 on, and
makes a gate for every stub. Where the linker has put the stubs is not known here.

## Main definitions

- `Stub.all` — the stubs in the order of their gates
- `idtInit` — the function

## Main results

- `idtInit_routes` — the gates, and the way from a line of the controllers to its stub
-/

namespace FirstOs

open Pic

/-- `idt_ptr`. -/
structure IdtPtr where
  limit : BitVec 16
  base : BitVec 32

/-- What `idt_init` changes: the table, the pointer that is loaded, the controllers and the flag
    that lets interrupts in. -/
structure Interrupts where
  idtEntries : IdtEntries
  idtPtr : IdtPtr
  pics : Pair
  enabled : Bool

namespace Stub

/-- The stubs in the order of the calls of `set_idt_gate`. -/
def all : List Stub :=
  (List.finRange 32).map isr ++ (List.finRange 16).map irq ++ [syscall]

theorem mem_all (stub : Stub) : stub ∈ all := by
  cases stub with
  | isr n => simp [all]
  | irq n => simp [all]
  | syscall => simp [all]

theorem vector_le (stub : Stub) : stub.vector ≤ 0x80 := by
  cases stub with
  | isr n =>
    rw [vector]
    omega
  | irq n =>
    rw [vector]
    omega
  | syscall => exact le_rfl

theorem vector_injective : Function.Injective vector := by
  intro stub stub' h
  cases stub <;> cases stub' <;> simp only [vector] at h
  · exact congrArg _ (Fin.ext h)
  · omega
  · omega
  · omega
  · exact congrArg _ (Fin.ext (by omega))
  · omega
  · omega
  · omega
  · rfl

/-- The number of the gate of a stub. -/
def gate (stub : Stub) : BitVec 8 := BitVec.ofNat 8 stub.vector

theorem toNat_gate (stub : Stub) : stub.gate.toNat = stub.vector := by
  rw [gate, BitVec.toNat_ofNat]
  exact Nat.mod_eq_of_lt (by have := stub.vector_le; omega)

theorem gate_injective : Function.Injective gate := by
  intro stub stub' h
  apply vector_injective
  rw [← toNat_gate, h, toNat_gate]

/-- The vectors that have a stub. -/
theorem exists_gate_iff (v : BitVec 8) :
    (∃ stub : Stub, stub.gate = v) ↔ v.toNat < 48 ∨ v = 0x80 := by
  constructor
  · rintro ⟨stub, rfl⟩
    cases stub with
    | isr n =>
      rw [toNat_gate, vector]
      omega
    | irq n =>
      rw [toNat_gate, vector]
      omega
    | syscall => exact .inr rfl
  · rintro (hlt | rfl)
    · by_cases h32 : v.toNat < 32
      · refine ⟨.isr ⟨v.toNat, h32⟩, BitVec.eq_of_toNat_eq ?_⟩
        rw [toNat_gate, vector]
      · refine ⟨.irq ⟨v.toNat - 32, by omega⟩, BitVec.eq_of_toNat_eq ?_⟩
        rw [toNat_gate, vector]
        exact Nat.add_sub_cancel' (by omega)
    · exact ⟨.syscall, rfl⟩

end Stub

/-- The calls of `set_idt_gate`; `symbol` has the addresses of the stubs. -/
def setIdtGates (symbol : Stub → BitVec 32) (idtEntries : IdtEntries) : IdtEntries :=
  Stub.all.foldl (fun t stub => setIdtGate t stub.gate (symbol stub) 0x08 0x8E) idtEntries

/-- The bytes `idt_init` sends to the ports of the controllers. -/
def picWrites : List (BitVec 16 × BitVec 8) :=
  [(0x20, 0x11), (0xA0, 0x11), (0x21, 0x20), (0xA1, 0x28), (0x21, 0x04), (0xA1, 0x02), (0x21, 0x01),
    (0xA1, 0x01), (0x21, 0x00), (0xA1, 0x00)]

/-- Bytes are sent one after the other. -/
def outPorts (writes : List (BitVec 16 × BitVec 8)) (pics : Pair) : Pair :=
  writes.foldl (fun p w => p.out w.1 w.2) pics

/-- `idt_init`, with `idt_entries` at an address. `idt_flush` loads the pointer and lets interrupts
    in. -/
def idtInit (symbol : Stub → BitVec 32) (address : BitVec 32) (s : Interrupts) : Interrupts where
  idtPtr := ⟨8 * 256 - 1, address⟩
  pics := outPorts picWrites s.pics
  -- after `memset`
  idtEntries := setIdtGates symbol fun _ => ⟨0, 0, 0, 0, 0⟩
  enabled := true

-- ════════════════════════════════════════════════════════════════════════
-- The gates
-- ════════════════════════════════════════════════════════════════════════

section Gates

variable (symbol : Stub → BitVec 32) (t : IdtEntries)

/-- The gate of a stub after the calls. -/
theorem gate_setIdtGates (stub : Stub) :
    gateOf (setIdtGates symbol t stub.gate).word = askedGate (symbol stub) 0x08 0x8E := by
  refine Run.foldl_of_mem (fun t : IdtEntries => gateOf (t stub.gate).word) (fun t => ?_)
    (fun stub' hne t => ?_) stub.mem_all t
  · rw [setIdtGate, Function.update_self, gateOf_fill]
  · rw [setIdtGate, Function.update_of_ne]
    exact fun heq => hne (Stub.gate_injective heq.symm)

/-- The entry of a vector without a stub. -/
theorem setIdtGates_of_ne {v : BitVec 8} (hv : ∀ stub : Stub, stub.gate ≠ v) :
    setIdtGates symbol t v = t v := by
  refine Run.foldl_keeps (fun t : IdtEntries => t v) (fun stub _ t => ?_) t
  rw [setIdtGate, Function.update_of_ne (hv stub).symm]

/-- The gates that are present. -/
theorem present_setIdtGates_iff (v : BitVec 8) :
    (gateOf (setIdtGates symbol (fun _ => ⟨0, 0, 0, 0, 0⟩) v).word).attributes.getLsbD 7 = true ↔
      v.toNat < 48 ∨ v = 0x80 := by
  rw [← Stub.exists_gate_iff]
  constructor
  · intro hpresent
    by_contra hne
    rw [setIdtGates_of_ne symbol _ fun stub heq => hne ⟨stub, heq⟩] at hpresent
    exact absurd hpresent (by decide)
  · rintro ⟨stub, rfl⟩
    rw [gate_setIdtGates]
    change (0x8E#8 ||| 0x60#8).getLsbD 7 = true
    decide

end Gates

-- ════════════════════════════════════════════════════════════════════════
-- The controllers
-- ════════════════════════════════════════════════════════════════════════

/-- A controller that is ready, with these vectors and this word for the cascade. -/
def startedChip (icw2 icw3 : BitVec 8) : Chip where
  lines := .clear
  stage := .ready
  icw1 := 0x11
  icw2 := icw2
  icw3 := icw3
  icw4 := 0x01

/-- The controllers after `idt_init`. -/
def startedPics : Pair := ⟨startedChip 0x20 0x04, startedChip 0x28 0x02⟩

theorem startedPics_ready : startedPics.Ready := ⟨rfl, rfl, rfl, rfl, rfl, rfl⟩

/-- Whatever state they were in. -/
theorem outPorts_picWrites (p : Pair) : outPorts picWrites p = startedPics := by
  simp [outPorts, picWrites, Pair.out, Chip.outCommand, Chip.outData, startedPics, startedChip,
    Chip.linesOf_zero, Arbiter.clear]

theorem vector_startedPics (l : Line) : (startedPics.vector l).toNat = 32 + l.number := by
  cases l with
  | inl i =>
    revert i
    decide
  | inr j =>
    revert j
    decide

-- ════════════════════════════════════════════════════════════════════════
-- The way of an interrupt
-- ════════════════════════════════════════════════════════════════════════

/-- A request that comes alone is taken. -/
theorem nextLine_request {l : Line} (hl : l ≠ .inl cascade) :
    (startedPics.request l).nextLine = some l := by
  cases l with
  | inl i =>
    revert i
    decide
  | inr j =>
    revert j
    decide

/-- The stub of a line. -/
def lineStub (l : Line) : Stub := .irq ⟨l.number, l.number_lt⟩

theorem gate_lineStub (l : Line) : (lineStub l).gate = startedPics.vector l := by
  apply BitVec.eq_of_toNat_eq
  rw [Stub.toNat_gate, vector_startedPics]
  rfl

/-- What a stub calls, and the number it hands over. -/
theorem Stub.calls_handler (stub : Stub) (h : stub.vector ≠ 17) (env : Handler → X86.State → X86.State)
    (offset ret e : BitVec 32) (s : X86.State) :
    ∃ t, X86.firstCall env (stub.code ret) (stub.entered offset e s) = some (stub.handler, t) ∧
      (readIntRegs t.mem (argument t)).intNo = BitVec.ofNat 32 stub.vector := by
  obtain ⟨a₀, flags, hentered, hlen, hexec⟩ := Stub.exec_prelude offset e s h
  have hpre : stub.prelude.length ≤ 3 := by
    rw [Stub.prelude]
    split_ifs <;> simp
  obtain ⟨t, hfirst, -, -, -, -, hwords⟩ :=
    commonStub_call env stub.handler ret hentered hlen hpre (by simp) hexec
  refine ⟨t, by rw [Stub.code_eq]; exact hfirst, ?_⟩
  simp only [IntRegs.words, savedWords, List.cons_append, List.nil_append, List.cons.injEq,
    and_true] at hwords
  simp only [hwords]

/-- After `idt_init` the gates of 49 vectors are present, each with the stub of its vector, and the
    pointer covers all. The controllers are ready and let every line through. An interrupt of any
    line ends up in `irq_handler`, whatever it interrupts, with the number of its line behind 32. -/
theorem idtInit_routes (symbol : Stub → BitVec 32) (address : BitVec 32) (s : Interrupts) :
    let t := idtInit symbol address s
    (∀ v, (gateOf (t.idtEntries v).word).attributes.getLsbD 7 = true ↔ v.toNat < 48 ∨ v = 0x80) ∧
      (∀ stub : Stub, gateOf (t.idtEntries (BitVec.ofNat 8 stub.vector)).word =
        ⟨symbol stub, 0x08, 0, 0xEE⟩) ∧
      (∀ v : BitVec 8, 8 * v.toNat + 7 ≤ t.idtPtr.limit.toNat) ∧
      t.pics.Ready ∧ t.pics.pending = ∅ ∧
      (∀ l, l ≠ .inl cascade → (t.pics.request l).acknowledge = some
        (t.pics.vector l, (t.pics.request l).accept l)) ∧
      ∀ l, ∃ stub : Stub,
        (gateOf (t.idtEntries (t.pics.vector l)).word).offset = symbol stub ∧
        ∀ env offset ret e cpu, ∃ u,
          X86.firstCall env (stub.code ret) (stub.entered offset e cpu) = some (.irqHandler, u) ∧
          (readIntRegs u.mem (argument u)).intNo = BitVec.ofNat 32 (32 + l.number) := by
  have hpics : (idtInit symbol address s).pics = startedPics := outPorts_picWrites s.pics
  refine ⟨present_setIdtGates_iff symbol, fun stub => ?_, fun v => ?_, ?_, ?_, fun l hl => ?_,
    fun l => ⟨lineStub l, ?_, fun env offset ret e cpu => ?_⟩⟩
  · exact gate_setIdtGates symbol _ stub
  · change 8 * v.toNat + 7 ≤ 2047
    omega
  · rw [hpics]
    exact startedPics_ready
  · rw [hpics]
    rfl
  · have hready : (startedPics.request l).Ready := by
      cases l <;> exact ⟨rfl, rfl, rfl, rfl, rfl, rfl⟩
    rw [hpics, hready.acknowledge, nextLine_request hl]
    cases l <;> rfl
  · rw [hpics, ← gate_lineStub]
    exact congrArg Gate.offset (gate_setIdtGates symbol _ (lineStub l))
  · refine Stub.calls_handler (lineStub l) ?_ env offset ret e cpu
    change 32 + l.number ≠ 17
    omega

end FirstOs
