import FirstOs.Disk.Slots
import FirstOs.Library.SlotTable

/-!
# Commands in flight

The driver and the controller run side by side. The driver goes through
`ahci_read_sectors_internal` or `ahci_write_sectors_internal` one access to a register at a time;
between any two of them the controller may complete commands that were started, change the status
of the port, raise interrupt bits, and clear bits of `sact`. A bit of `ci` is set by the driver
alone and cleared by the controller alone. A request that fails with 3 leaves its command behind,
so that several may be in flight.

The controller finds a command through the header of its slot, which names the table by its
physical address; nothing under `src/` writes these addresses or says where headers and tables lie,
so that they are taken as set up before (`PortSetUp`). The controller leaves the headers and tables
alone: `prdbc`, where it may count bytes, is read by nothing under `src/`, and the data of a command
are taken to lie elsewhere.

## Main definitions

- `Hba`, `PortSystem` — the registers, and the driver beside them
- `driverStep`, `PortEvent.act` — what the driver does next, and what happens
- `PortInv` — the invariant

## Main results

- `fetch_prepared`, `fetch_prepared_of_ne` — a request writes its own slot, and no other one
- `portInv_driverStep`, `portInv_act` — what every step keeps
-/

namespace FirstOs

open AddressSpace

-- ════════════════════════════════════════════════════════════════════════
-- The controller and the driver
-- ════════════════════════════════════════════════════════════════════════

/-- The registers the driver uses. -/
structure Hba where
  is : BitVec 32
  ci : BitVec 32
  sact : BitVec 32
  tfd : BitVec 32
  cap : BitVec 32

/-- A request: the mapping it is made under, and the arguments. -/
structure AhciRequest (σ : Type) where
  space : σ
  dir : Direction
  startLow : BitVec 32
  startHigh : BitVec 32
  count : BitVec 32
  buf : BitVec 32

/-- A command as the controller finds it. -/
structure HbaCommand where
  header : HBACommandHeader
  table : HBACommandTable

/-- Where the driver is, and the locals it has set. -/
inductive AhciPc where
  | clearIs
  | readSact
  | readCi (sact : BitVec 32)
  | readCap (slots : BitVec 32)
  | prepare (slot : ℕ)
  | spin (left slot : ℕ)
  | test (slot : ℕ)
  | issue (slot : ℕ)
  | pollCi (slot : ℕ)
  | pollIs (slot : ℕ) (done : Bool)
  | returned (code : BitVec 8)

/-- The registers, the headers and tables, the driver with its request, the values it has read since
    it was called, the requests whose commands were started, and what was started and completed in
    which slot. -/
structure PortSystem (σ : Type) where
  hba : Hba
  memory : CommandMemory
  pc : AhciPc
  request : AhciRequest σ
  reads : List (BitVec 32)
  asked : List (AhciRequest σ)
  issued : List (ℕ × HbaCommand)
  completed : List (ℕ × HbaCommand)

section Port

variable {σ : Type} [AddressSpace σ] (bus : BitVec 32 → BitVec 32 → BitVec 32) (aport : AhciPort)

namespace PortSystem

variable (s : PortSystem σ)

/-- The command in a slot: the header, and the table behind the address it holds. -/
def fetch (slot : ℕ) : HbaCommand :=
  let header := s.memory.headers (aport.header slot)
  ⟨header, s.memory.tables (bus header.ctba header.ctbau)⟩

/-- The driver has read a value and goes on. -/
def goOn (value : BitVec 32) (pc : AhciPc) : PortSystem σ :=
  { s with reads := s.reads ++ [value], pc := pc }

/-- The memory with the header and the table of the request. -/
def prepared (slot : ℕ) : CommandMemory :=
  commandMemory s.request.space s.request.dir aport slot s.request.startLow s.request.startHigh
    s.request.count s.request.buf s.memory

end PortSystem

/-- One access of the driver. Writing ones to `is` clears these bits, writing ones to `ci` sets
    them. -/
def driverStep (s : PortSystem σ) : PortSystem σ :=
  match s.pc with
  | .clearIs => { s with hba := { s.hba with is := s.hba.is &&& ~~~0xFFFFFFFF#32 }, pc := .readSact }
  | .readSact => s.goOn s.hba.sact (.readCi s.hba.sact)
  | .readCi sact => s.goOn s.hba.ci (.readCap (sact ||| s.hba.ci))
  | .readCap slots =>
    match freeSlot slots s.hba.cap with
    | none => s.goOn s.hba.cap (.returned 1)
    | some slot => s.goOn s.hba.cap (.prepare slot)
  | .prepare slot => { s with memory := s.prepared aport slot, pc := .spin 1000000 slot }
  | .spin 0 slot => { s with pc := .test slot }
  | .spin (n + 1) slot => s.goOn s.hba.tfd (if busy s.hba.tfd then .spin n slot else .test slot)
  | .test slot => s.goOn s.hba.tfd (if busy s.hba.tfd then .returned 2 else .issue slot)
  | .issue slot =>
    { s with
      hba := { s.hba with ci := s.hba.ci ||| 1#32 <<< slot }
      asked := s.asked ++ [s.request]
      issued := s.issued ++ [(slot, s.fetch bus aport slot)]
      pc := .pollCi slot }
  | .pollCi slot => s.goOn s.hba.ci (.pollIs slot (decide (s.hba.ci &&& (1#32 <<< slot) = 0)))
  | .pollIs slot done =>
    s.goOn s.hba.is
      (if s.hba.is &&& (1#32 <<< 30) ≠ 0 then .returned 3
        else if done then .returned 0 else .pollCi slot)
  | .returned _ => s

/-- A call of the driver, one access of it, the completion of a command, and any other change the
    controller makes to its registers. -/
inductive PortEvent (σ : Type) where
  | call (q : AhciRequest σ)
  | step
  | complete (slot : ℕ)
  | device (tfd raised kept : BitVec 32)

/-- What happens. The driver is called again when it has returned. -/
def PortEvent.act : PortEvent σ → PortSystem σ → Option (PortSystem σ)
  | .call q, s =>
    match s.pc with
    | .returned _ => some { s with pc := .clearIs, request := q, reads := [] }
    | _ => none
  | .step, s =>
    match s.pc with
    | .returned _ => none
    | _ => some (driverStep bus aport s)
  | .complete slot, s =>
    if s.hba.ci.getLsbD slot then
      some { s with
        hba := { s.hba with ci := s.hba.ci &&& ~~~(1#32 <<< slot) }
        completed := s.completed ++ [(slot, s.fetch bus aport slot)] }
    else none
  | .device tfd raised kept, s =>
    some { s with
      hba := { s.hba with tfd := tfd, is := s.hba.is ||| raised, sact := s.hba.sact &&& kept } }

/-- The headers name the tables the driver has for the slots. No table overlaps another one or a
    header. -/
structure PortSetUp (memory : CommandMemory) : Prop where
  tables : ∀ slot < 16, bus (memory.headers (aport.header slot)).ctba
    (memory.headers (aport.header slot)).ctbau = aport.ctba slot
  apart : ∀ i < 16, ∀ j < 16, i ≠ j → Apart (aport.ctba i) 0x90 (aport.ctba j) 0x90
  headers : ∀ i < 16, ∀ j < 16, Apart (aport.header i) 32 (aport.ctba j) 0x90

/-- The fields of a command that a request sets are set to what it asks for. -/
structure Encodes (q : AhciRequest σ) (c : HbaCommand) : Prop where
  header : c.header = commandHeader q.dir c.header
  fis : c.table.cfis = commandFis q.dir q.startLow q.startHigh q.count c.table.cfis
  region : c.table.prdtEntry = commandRegion q.space q.buf c.table.prdtEntry

/-- A slot the driver may use: the controller has no command in it. -/
structure FreeIn (hba : Hba) (slot : ℕ) : Prop where
  lt : slot < 16
  ci : hba.ci.getLsbD slot = false
  sact : hba.sact.getLsbD slot = false

/-- What the driver knows where it is. -/
def PcOk (s : PortSystem σ) : AhciPc → Prop
  | .clearIs | .readSact | .returned _ => True
  | .readCi sact => ∀ i, s.hba.sact.getLsbD i = true → sact.getLsbD i = true
  | .readCap slots =>
    ∀ i, s.hba.sact.getLsbD i = true ∨ s.hba.ci.getLsbD i = true → slots.getLsbD i = true
  | .prepare slot => FreeIn s.hba slot
  | .spin _ slot | .test slot | .issue slot =>
    FreeIn s.hba slot ∧ Encodes s.request (s.fetch bus aport slot)
  | .pollCi slot => slot < 16
  | .pollIs slot done => slot < 16 ∧ (done = true → s.hba.ci.getLsbD slot = false)

/-- The invariant. -/
structure PortInv (s : PortSystem σ) : Prop where
  setUp : PortSetUp bus aport s.memory
  low : ∀ i, s.hba.ci.getLsbD i = true → i < 16
  pc : PcOk bus aport s s.pc
  encodes : List.Forall₂ (fun q x => Encodes q x.2) s.asked s.issued

/-- The slots of the controller: what it finds where a command was started. -/
def PortSystem.slots (s : PortSystem σ) : SlotTable ℕ HbaCommand where
  content i := if s.hba.ci.getLsbD i then some (s.fetch bus aport i) else none
  posted := s.issued
  taken := s.completed

-- ════════════════════════════════════════════════════════════════════════
-- Bits and slots
-- ════════════════════════════════════════════════════════════════════════

section Bits

variable {x y : BitVec 32} {slot i : ℕ}

theorem getLsbD_slot (slot : ℕ) (hi : i < 32) :
    (1#32 <<< slot).getLsbD i = decide (i = slot) := by
  rw [BitVec.getLsbD_shiftLeft, BitVec.getLsbD_one]
  by_cases hlt : i < slot
  · simp [hlt, hlt.ne]
  · by_cases heq : i = slot
    · subst heq
      simp [hi]
    · have hsub : i - slot ≠ 0 := by omega
      simp [heq, hsub]

theorem getLsbD_or_slot (hslot : slot < 32) :
    (x ||| 1#32 <<< slot).getLsbD i = (x.getLsbD i || decide (i = slot)) := by
  rw [BitVec.getLsbD_or]
  by_cases hi : i < 32
  · rw [getLsbD_slot slot hi]
  · have hne : i ≠ slot := by omega
    rw [BitVec.getLsbD_of_ge (1#32 <<< slot) i (by omega), decide_eq_false hne]

theorem getLsbD_clear_slot :
    (x &&& ~~~(1#32 <<< slot)).getLsbD i = (x.getLsbD i && !decide (i = slot)) := by
  rw [BitVec.getLsbD_and]
  by_cases hi : i < 32
  · rw [BitVec.getLsbD_not, getLsbD_slot slot hi, decide_eq_true hi, Bool.true_and]
  · rw [BitVec.getLsbD_of_ge x i (by omega), Bool.false_and, Bool.false_and]

theorem getLsbD_of_and (h : (x &&& y).getLsbD i = true) : x.getLsbD i = true := by
  rw [BitVec.getLsbD_and, Bool.and_eq_true] at h
  exact h.1

theorem and_slot_eq_zero_iff (hslot : slot < 32) :
    x &&& (1#32 <<< slot) = 0 ↔ x.getLsbD slot = false := by
  constructor
  · intro h
    have hbit := congrArg (fun w => w.getLsbD slot) h
    simpa [BitVec.getLsbD_and, getLsbD_slot slot hslot] using hbit
  · intro h
    apply BitVec.eq_of_getLsbD_eq
    intro i hi
    rw [BitVec.getLsbD_and, getLsbD_slot slot hi]
    by_cases heq : i = slot
    · simp [heq, h]
    · simp [heq]

/-- The headers of two slots do not overlap. -/
theorem header_apart {i j : ℕ} (hi : i < 16) (hj : j < 16) (hne : i ≠ j) :
    Apart (aport.header i) 32 (aport.header j) 32 := by
  have hdiff : ∀ i j : ℕ, aport.header j - aport.header i =
      BitVec.ofNat 32 (32 * j) - BitVec.ofNat 32 (32 * i) := fun i j => by
    rw [AhciPort.header, AhciPort.header, add_sub_add_left_eq_sub]
  refine apart_of_le ?_ ?_
  · rw [hdiff, BitVec.toNat_sub, BitVec.toNat_ofNat, BitVec.toNat_ofNat]
    omega
  · rw [hdiff, BitVec.toNat_sub, BitVec.toNat_ofNat, BitVec.toNat_ofNat]
    omega

end Bits

section Steps

variable {bus aport}
variable {s s' : PortSystem σ} {slot i : ℕ} {e : PortEvent σ}

omit [AddressSpace σ] in
/-- What the controller finds is a matter of the memory. -/
theorem fetch_congr {t : PortSystem σ} (h : t.memory = s.memory) :
    t.fetch bus aport i = s.fetch bus aport i := by
  rw [PortSystem.fetch, PortSystem.fetch, h]

/-- What the driver writes in a slot does not touch the headers of the other slots. -/
theorem headers_prepared_of_ne (hset : PortSetUp bus aport s.memory) (hslot : slot < 16)
    (hi : i < 16) (hne : i ≠ slot) :
    (s.prepared aport slot).headers (aport.header i) = s.memory.headers (aport.header i) :=
  headers_commandMemory_of_apart (header_apart aport hi hslot hne) (hset.headers i hi slot hslot)

/-- It does not touch the commands of the other slots. -/
theorem fetch_prepared_of_ne (hset : PortSetUp bus aport s.memory) (hslot : slot < 16)
    (hi : i < 16) (hne : i ≠ slot) :
    { s with memory := s.prepared aport slot }.fetch bus aport i = s.fetch bus aport i := by
  have htable : (s.prepared aport slot).tables (aport.ctba i) = s.memory.tables (aport.ctba i) :=
    tables_commandMemory_of_apart (hset.headers slot hslot i hi)
      (hset.apart slot hslot i hi hne.symm)
  rw [PortSystem.fetch, PortSystem.fetch]
  dsimp only
  rw [headers_prepared_of_ne hset hslot hi hne, hset.tables i hi, htable]

/-- The controller finds what the driver has written. -/
theorem fetch_prepared (hset : PortSetUp bus aport s.memory) (hslot : slot < 16) :
    { s with memory := s.prepared aport slot }.fetch bus aport slot =
      ⟨commandHeader s.request.dir (s.memory.headers (aport.header slot)),
        { cfis := commandFis s.request.dir s.request.startLow s.request.startHigh s.request.count
            (s.memory.tables (aport.ctba slot)).cfis
          prdtEntry := commandRegion s.request.space s.request.buf
            (s.memory.tables (aport.ctba slot)).prdtEntry }⟩ := by
  have hapart : aport.SlotApart slot := hset.headers slot hslot slot hslot
  rw [PortSystem.fetch, PortSystem.prepared]
  dsimp only
  rw [headers_commandMemory hapart]
  dsimp only [commandHeader]
  rw [hset.tables slot hslot, tables_commandMemory hapart]

theorem setUp_prepared (hset : PortSetUp bus aport s.memory) (hslot : slot < 16) :
    PortSetUp bus aport (s.prepared aport slot) := by
  refine ⟨fun i hi => ?_, hset.apart, hset.headers⟩
  by_cases hne : i = slot
  · subst hne
    rw [PortSystem.prepared, headers_commandMemory (hset.headers i hi i hi)]
    exact hset.tables i hi
  · rw [headers_prepared_of_ne hset hslot hi hne]
    exact hset.tables i hi

theorem encodes_prepared (hset : PortSetUp bus aport s.memory) (hslot : slot < 16) :
    Encodes s.request ({ s with memory := s.prepared aport slot }.fetch bus aport slot) := by
  rw [fetch_prepared hset hslot]
  exact ⟨rfl, rfl, rfl⟩

omit [AddressSpace σ] in
/-- A slot the driver has found is free. -/
theorem freeIn_of_some {slots cap : BitVec 32}
    (hbusy : ∀ i, s.hba.sact.getLsbD i = true ∨ s.hba.ci.getLsbD i = true →
      slots.getLsbD i = true)
    (h : freeSlot slots cap = some slot) : FreeIn s.hba slot := by
  have hlt := freeSlot_lt h
  obtain ⟨-, -, hbit, -⟩ := Search.first_eq_some_iff.mp h
  have hclear : slots.getLsbD slot = false := (bit_eq_zero_iff slots slot).mp (beq_iff_eq.mp hbit)
  refine ⟨hlt, ?_, ?_⟩
  · by_contra hset
    rw [hbusy slot (.inr (Bool.eq_true_of_not_eq_false hset))] at hclear
    exact Bool.noConfusion hclear
  · by_contra hset
    rw [hbusy slot (.inl (Bool.eq_true_of_not_eq_false hset))] at hclear
    exact Bool.noConfusion hclear

/-- The controller only clears bits of `ci` and `sact`, and leaves the memory alone: what the
    driver knows stays true. -/
theorem PcOk.of_device {pc : AhciPc} (h : PcOk bus aport s pc) (hba : Hba)
    (completed : List (ℕ × HbaCommand)) (hci : ∀ i, hba.ci.getLsbD i = true → s.hba.ci.getLsbD i = true)
    (hsact : ∀ i, hba.sact.getLsbD i = true → s.hba.sact.getLsbD i = true) :
    PcOk bus aport { s with hba := hba, completed := completed } pc := by
  have hfree : ∀ {slot}, FreeIn s.hba slot → FreeIn hba slot := fun {slot} hf =>
    ⟨hf.lt, Bool.eq_false_iff.mpr fun hc => Bool.eq_false_iff.mp hf.ci (hci slot hc),
      Bool.eq_false_iff.mpr fun hs => Bool.eq_false_iff.mp hf.sact (hsact slot hs)⟩
  cases pc with
  | clearIs => trivial
  | readSact => trivial
  | returned code => trivial
  | readCi sact => exact fun i hi => h i (hsact i hi)
  | readCap slots => exact fun i hi => h i (hi.imp (hsact i) (hci i))
  | prepare slot => exact hfree h
  | spin left slot => exact ⟨hfree h.1, h.2⟩
  | test slot => exact ⟨hfree h.1, h.2⟩
  | issue slot => exact ⟨hfree h.1, h.2⟩
  | pollCi slot => exact h
  | pollIs slot done =>
    exact ⟨h.1, fun hd => Bool.eq_false_iff.mpr fun hc =>
      Bool.eq_false_iff.mp (h.2 hd) (hci slot hc)⟩

/-- What the driver knows is about registers, memory and request. -/
theorem PcOk.congr {t : PortSystem σ} {pc : AhciPc} (h : PcOk bus aport s pc)
    (hhba : t.hba = s.hba) (hmem : t.memory = s.memory) (hreq : t.request = s.request) :
    PcOk bus aport t pc := by
  obtain ⟨hba, memory, _, request, _, _, _, _⟩ := s
  obtain ⟨_, _, _, _, _, _, _, _⟩ := t
  obtain rfl : _ = hba := hhba
  obtain rfl : _ = memory := hmem
  obtain rfl : _ = request := hreq
  cases pc <;> exact h

/-- Reading a register leaves all but the place alone. -/
theorem PortInv.goOn (hI : PortInv bus aport s) (value : BitVec 32) (pc : AhciPc)
    (h : PcOk bus aport s pc) : PortInv bus aport (s.goOn value pc) :=
  ⟨hI.setUp, hI.low, h.congr rfl rfl rfl, hI.encodes⟩

omit [AddressSpace σ] in
theorem FreeIn.content (h : FreeIn s.hba slot) : (s.slots bus aport).content slot = none :=
  if_neg (Bool.eq_false_iff.mp h.ci)

/-- The header and the table are written in a free slot. -/
theorem PortInv.prepare (hI : PortInv bus aport s) (hfree : FreeIn s.hba slot) :
    PortInv bus aport { s with memory := s.prepared aport slot, pc := .spin 1000000 slot } ∧
      PortSystem.slots bus aport
        { s with memory := s.prepared aport slot, pc := .spin 1000000 slot } =
          s.slots bus aport := by
  have hfetch : ∀ i, PortSystem.fetch bus aport
      { s with memory := s.prepared aport slot, pc := .spin 1000000 slot } i =
        { s with memory := s.prepared aport slot }.fetch bus aport i := fun i => fetch_congr rfl
  refine ⟨⟨setUp_prepared hI.setUp hfree.lt, hI.low, ⟨hfree, ?_⟩, hI.encodes⟩, ?_⟩
  · have hencodes := encodes_prepared hI.setUp hfree.lt
    rwa [← hfetch] at hencodes
  · have hcontent : (PortSystem.slots bus aport
        { s with memory := s.prepared aport slot, pc := .spin 1000000 slot }).content =
          (s.slots bus aport).content := by
      funext i
      change (if s.hba.ci.getLsbD i = true then _ else none) =
        if s.hba.ci.getLsbD i = true then _ else none
      split_ifs with hi
      · have hne : i ≠ slot := by
          rintro rfl
          rw [hfree.ci] at hi
          exact Bool.noConfusion hi
        rw [hfetch]
        exact congrArg some (fetch_prepared_of_ne hI.setUp hfree.lt (hI.low i hi) hne)
      · rfl
    exact congrArg (fun c => SlotTable.mk c s.issued s.completed) hcontent

/-- The command is started: it is posted in its slot. -/
theorem PortInv.issue (hI : PortInv bus aport s) (hpc : PcOk bus aport s (.issue slot)) :
    PortInv bus aport
        { s with
          hba := { s.hba with ci := s.hba.ci ||| 1#32 <<< slot }
          asked := s.asked ++ [s.request]
          issued := s.issued ++ [(slot, s.fetch bus aport slot)]
          pc := .pollCi slot } ∧
      SlotTable.act (.post slot (s.fetch bus aport slot)) (s.slots bus aport) =
        some (PortSystem.slots bus aport
          { s with
            hba := { s.hba with ci := s.hba.ci ||| 1#32 <<< slot }
            asked := s.asked ++ [s.request]
            issued := s.issued ++ [(slot, s.fetch bus aport slot)]
            pc := .pollCi slot }) := by
  obtain ⟨hfree, henc⟩ := hpc
  have hlt : slot < 32 := hfree.lt.trans (by decide)
  refine ⟨⟨hI.setUp, fun i hi => ?_, hfree.lt, ?_⟩, ?_⟩
  · dsimp only at hi
    rw [getLsbD_or_slot hlt, Bool.or_eq_true, decide_eq_true_iff] at hi
    obtain hi | rfl := hi
    · exact hI.low i hi
    · exact hfree.lt
  · exact List.rel_append hI.encodes (List.Forall₂.cons henc List.Forall₂.nil)
  · rw [SlotTable.act_post hfree.content]
    refine congrArg some (congrArg (fun c => SlotTable.mk c _ s.completed) ?_)
    funext i
    change _ = if (s.hba.ci ||| 1#32 <<< slot).getLsbD i = true then
      some (s.fetch bus aport i) else none
    rw [getLsbD_or_slot hlt]
    by_cases hi : i = slot
    · subst hi
      rw [Function.update_self, decide_eq_true rfl, Bool.or_true, if_pos rfl]
    · rw [Function.update_of_ne hi, decide_eq_false hi, Bool.or_false]
      rfl

/-- One access of the driver: its slots change as a slot table does, or not at all. -/
theorem portInv_driverStep (hI : PortInv bus aport s) :
    PortInv bus aport (driverStep bus aport s) ∧
      ∃ es, Run.events SlotTable.act es (s.slots bus aport) =
        some ((driverStep bus aport s).slots bus aport) := by
  have hpc := hI.pc
  rw [driverStep]
  cases hs : s.pc with
  | clearIs =>
    exact ⟨⟨hI.setUp, hI.low, trivial, hI.encodes⟩, [], rfl⟩
  | readSact => exact ⟨hI.goOn _ (.readCi s.hba.sact) fun _ hi => hi, [], rfl⟩
  | readCi sact =>
    rw [hs] at hpc
    refine ⟨hI.goOn _ (.readCap (sact ||| s.hba.ci)) fun i hi => ?_, [], rfl⟩
    rw [BitVec.getLsbD_or, Bool.or_eq_true]
    exact hi.imp_left (hpc i)
  | readCap slots =>
    rw [hs] at hpc
    dsimp only
    cases hslot : freeSlot slots s.hba.cap with
    | none => exact ⟨hI.goOn _ (.returned 1) trivial, [], rfl⟩
    | some slot => exact ⟨hI.goOn _ (.prepare slot) (freeIn_of_some hpc hslot), [], rfl⟩
  | prepare slot =>
    rw [hs] at hpc
    obtain ⟨hI', hslots⟩ := hI.prepare hpc
    exact ⟨hI', [], congrArg some hslots.symm⟩
  | spin left slot =>
    rw [hs] at hpc
    cases left with
    | zero => exact ⟨⟨hI.setUp, hI.low, hpc, hI.encodes⟩, [], rfl⟩
    | succ n =>
      refine ⟨hI.goOn _ _ ?_, [], rfl⟩
      split_ifs
      · exact hpc
      · exact hpc
  | test slot =>
    rw [hs] at hpc
    refine ⟨hI.goOn _ _ ?_, [], rfl⟩
    split_ifs
    · trivial
    · exact hpc
  | issue slot =>
    rw [hs] at hpc
    obtain ⟨hI', hpost⟩ := hI.issue hpc
    exact ⟨hI', [.post slot (s.fetch bus aport slot)], (Run.events_cons hpost).trans Run.events_nil⟩
  | pollCi slot =>
    rw [hs] at hpc
    refine ⟨hI.goOn _ (.pollIs slot _) ⟨hpc, fun hd => ?_⟩, [], rfl⟩
    exact (and_slot_eq_zero_iff (lt_trans hpc (by decide))).mp (of_decide_eq_true hd)
  | pollIs slot done =>
    rw [hs] at hpc
    refine ⟨hI.goOn _ _ ?_, [], rfl⟩
    split_ifs
    · trivial
    · trivial
    · exact hpc.1
  | returned code => exact ⟨hI, [], rfl⟩

/-- The driver takes a step when it has not returned. -/
theorem act_step (h : PortEvent.act bus aport .step s = some s') :
    (∀ code, s.pc ≠ .returned code) ∧ s' = driverStep bus aport s := by
  rw [PortEvent.act] at h
  split at h
  · cases h
  · exact ⟨‹_›, (Option.some.inj h).symm⟩

/-- A call is made when the driver has returned. -/
theorem act_call {q : AhciRequest σ} (h : PortEvent.act bus aport (.call q) s = some s') :
    (∃ code, s.pc = .returned code) ∧
      s' = { s with pc := .clearIs, request := q, reads := [] } := by
  rw [PortEvent.act] at h
  split at h
  · exact ⟨⟨_, ‹_›⟩, (Option.some.inj h).symm⟩
  · cases h

/-- A completed command is one that was in flight. -/
theorem act_complete (h : PortEvent.act bus aport (.complete slot) s = some s') :
    s.hba.ci.getLsbD slot = true ∧
      s' = { s with
        hba := { s.hba with ci := s.hba.ci &&& ~~~(1#32 <<< slot) }
        completed := s.completed ++ [(slot, s.fetch bus aport slot)] } := by
  rw [PortEvent.act] at h
  split_ifs at h with hci
  exact ⟨hci, (Option.some.inj h).symm⟩

/-- **One event**: the invariant, and what it does to the slots. -/
theorem portInv_act (hI : PortInv bus aport s) (h : e.act bus aport s = some s') :
    PortInv bus aport s' ∧
      ∃ es, Run.events SlotTable.act es (s.slots bus aport) = some (s'.slots bus aport) := by
  cases e with
  | call q =>
    obtain ⟨-, rfl⟩ := act_call h
    exact ⟨⟨hI.setUp, hI.low, trivial, hI.encodes⟩, [], rfl⟩
  | step =>
    obtain ⟨-, rfl⟩ := act_step h
    exact portInv_driverStep hI
  | complete slot =>
    obtain ⟨hci, rfl⟩ := act_complete h
    have hclear : ∀ i, (s.hba.ci &&& ~~~(1#32 <<< slot)).getLsbD i = true →
        s.hba.ci.getLsbD i = true := fun i hi => getLsbD_of_and hi
    refine ⟨⟨hI.setUp, fun i hi => hI.low i (hclear i hi), ?_, hI.encodes⟩, [.take slot], ?_⟩
    · exact hI.pc.of_device _ _ hclear fun _ hi => hi
    · have hfull : (s.slots bus aport).content slot = some (s.fetch bus aport slot) := if_pos hci
      rw [Run.events_cons (SlotTable.act_take hfull), Run.events_nil]
      refine congrArg some (congrArg (fun c => SlotTable.mk c s.issued _) ?_)
      funext i
      change _ = if (s.hba.ci &&& ~~~(1#32 <<< slot)).getLsbD i = true then
        some (s.fetch bus aport i) else none
      rw [getLsbD_clear_slot]
      by_cases hi : i = slot
      · subst hi
        rw [Function.update_self, decide_eq_true rfl, Bool.not_true, Bool.and_false,
          if_neg Bool.false_ne_true]
      · rw [Function.update_of_ne hi, decide_eq_false hi, Bool.not_false, Bool.and_true]
        rfl
  | device tfd raised kept =>
    obtain rfl := Option.some.inj h
    refine ⟨⟨hI.setUp, hI.low, ?_, hI.encodes⟩, [], rfl⟩
    exact hI.pc.of_device _ s.completed (fun _ hi => hi) fun i hi => getLsbD_of_and hi

end Steps

end Port

end FirstOs
