import FirstOs.Idt.Init
import FirstOs.Library.Mailbox

/-!
# Interrupts of devices

`irq_handler` and `irq_routines`, with the controllers and the flag of the processor around them.
Devices request interrupts at any time. The processor takes one when the flag is set; the gate
clears it, and `iret` sets it again. The handler that is installed runs first, then the end of the
interrupt is signalled to the slave, if it is one of its lines, and to the master.

A handler may install others, and may set the flag. Then another interrupt comes in before the end
of the first one is signalled, and its frame is put on top. What else a handler does is left out;
it does not touch the controllers. Handlers are installed for the sixteen lines; the functions do not
check the index.

The state also records which interrupts were taken with which handler, which the code does not.

## Main definitions

- `irqHandler`, `irqInstallHandler`, `irqUninstallHandler` — the functions
- `IrqSystem`, `IrqEvent.act` — the system and what happens to it
- `IrqSystem.InService` — the controllers serve the frames

## Main results

- `inService_act` — what every event keeps
- `inService_of_run` — the lines in service are those of the interrupts that are not over
-/

namespace FirstOs

open Pic

/-- `irq_routines`; the null pointer is `none`. -/
abbrev IrqRoutines (H : Type*) := Fin 16 → Option H

/-- What is read at an index of 32 bits, if there is such an entry. The records of the stubs for
    devices ask for no other. -/
def IrqRoutines.entry {H : Type*} (irqRoutines : IrqRoutines H) (i : BitVec 32) : Option H :=
  if h : i.toNat < 16 then irqRoutines ⟨i.toNat, h⟩ else none

/-- `irq_install_handler`. -/
def irqInstallHandler {H : Type*} (irq : Fin 16) (handler : H) (irqRoutines : IrqRoutines H) :
    IrqRoutines H :=
  Function.update irqRoutines irq (some handler)

/-- `irq_uninstall_handler`. -/
def irqUninstallHandler {H : Type*} (irq : Fin 16) (irqRoutines : IrqRoutines H) :
    IrqRoutines H :=
  Function.update irqRoutines irq none

/-- The lines of the timer and of the keyboard. -/
def irq0 : Fin 16 := ⟨0, by decide⟩

def irq1 : Fin 16 := ⟨1, by decide⟩

/-- The bytes `irq_handler` sends to ports. -/
def irqWrites (intNo : BitVec 32) : List (BitVec 16 × BitVec 8) :=
  (if intNo ≥ 40 then [(0xA0, 0x20)] else []) ++ [(0x20, 0x20)]

/-- `irq_handler`: the handler it calls, and what it sends after that. -/
def irqHandler {H : Type*} (irqRoutines : IrqRoutines H) (intNo : BitVec 32) :
    Option H × List (BitVec 16 × BitVec 8) :=
  let handler := irqRoutines.entry (intNo - 32)
  (handler, irqWrites intNo)

/-- An interrupt that is not over: the field `int_no` of its record, and the bytes that
    `irq_handler` still has to send. -/
structure Frame where
  intNo : BitVec 32
  writes : List (BitVec 16 × BitVec 8)

/-- The controllers, the table, the handlers, the interrupts that are not over, the last one first,
    the flag, and what was taken with which handler. -/
structure IrqSystem (H : Type*) where
  pics : Pair
  idtEntries : IdtEntries
  irqRoutines : IrqRoutines H
  frames : List Frame
  enabled : Bool
  taken : List (BitVec 32 × Option H)

/-- The system after `idt_init`. -/
def IrqSystem.booted (H : Type*) (symbol : Stub → BitVec 32) (address : BitVec 32)
    (s : Interrupts) : IrqSystem H :=
  let t := idtInit symbol address s
  { pics := t.pics, idtEntries := t.idtEntries, irqRoutines := fun _ => none, frames := []
    enabled := t.enabled, taken := [] }

/-- The stub at an address. -/
def stubAt (symbol : Stub → BitVec 32) (offset : BitVec 32) : Option Stub :=
  Stub.all.find? fun stub => symbol stub = offset

/-- What happens to the system. -/
inductive IrqEvent (H : Type*) where
  | request (l : Line)
  | interrupt
  | send
  | iret
  | install (irq : Fin 16) (handler : H)
  | uninstall (irq : Fin 16)
  | setFlag (enabled : Bool)

namespace IrqEvent

variable {H : Type*}

/-- No device is at line 2. An interrupt goes to the stub at the offset of its gate. -/
def act (symbol : Stub → BitVec 32) : IrqEvent H → IrqSystem H → Option (IrqSystem H)
  | request l, s => if l = .inl cascade then none else some { s with pics := s.pics.request l }
  | interrupt, s =>
    if s.enabled then
      s.pics.acknowledge.bind fun (v, pics) =>
        (stubAt symbol (gateOf (s.idtEntries v).word).offset).bind fun stub =>
          let intNo := BitVec.ofNat 32 stub.vector
          let (handler, writes) := irqHandler s.irqRoutines intNo
          if stub.handler = .irqHandler then
            some { s with
              pics := pics
              frames := ⟨intNo, writes⟩ :: s.frames
              enabled := false
              taken := (intNo, handler) :: s.taken }
          else none
    else none
  | send, s =>
    match s.frames with
    | ⟨intNo, (port, value) :: writes⟩ :: frames =>
      some { s with pics := s.pics.out port value, frames := ⟨intNo, writes⟩ :: frames }
    | _ => none
  | iret, s =>
    match s.frames with
    | ⟨_, []⟩ :: frames => some { s with frames := frames, enabled := true }
    | _ => none
  | install irq handler, s =>
    some { s with irqRoutines := irqInstallHandler irq handler s.irqRoutines }
  | uninstall irq, s => some { s with irqRoutines := irqUninstallHandler irq s.irqRoutines }
  | setFlag enabled, s => some { s with enabled := enabled }

end IrqEvent

-- ════════════════════════════════════════════════════════════════════════
-- Taking an interrupt
-- ════════════════════════════════════════════════════════════════════════

/-- The field `int_no` for a line. -/
def intNoOf (l : Line) : BitVec 32 := BitVec.ofNat 32 (32 + l.number)

/-- The controllers after `idt_init`, whatever has been requested, taken and signalled since. -/
structure Started (p : Pair) : Prop where
  ready : p.Ready
  vectors : p.master.icw2 = 0x20 ∧ p.slave.icw2 = 0x28
  unmasked : p.master.lines.mask = ∅ ∧ p.slave.lines.mask = ∅

namespace Started

variable {p : Pair} {l : Line}

theorem startedPics : Started startedPics := ⟨startedPics_ready, ⟨rfl, rfl⟩, ⟨rfl, rfl⟩⟩

theorem request (h : Started p) (l : Line) : Started (p.request l) := by
  obtain ⟨⟨h₁, h₂, h₃, h₄, h₅, h₆⟩, hv, hm⟩ := h
  cases l <;> exact ⟨⟨h₁, h₂, h₃, h₄, h₅, h₆⟩, hv, hm⟩

theorem accept (h : Started p) (l : Line) : Started (p.accept l) := by
  obtain ⟨⟨h₁, h₂, h₃, h₄, h₅, h₆⟩, hv, hm⟩ := h
  cases l <;> exact ⟨⟨h₁, h₂, h₃, h₄, h₅, h₆⟩, hv, hm⟩

theorem endMaster (h : Started p) : Started p.endMaster := by
  obtain ⟨⟨h₁, h₂, h₃, h₄, h₅, h₆⟩, hv, hm⟩ := h
  exact ⟨⟨h₁, h₂, h₃, h₄, h₅, h₆⟩, hv, (Arbiter.endService_mask _).trans hm.1, hm.2⟩

theorem endSlave (h : Started p) : Started p.endSlave := by
  obtain ⟨⟨h₁, h₂, h₃, h₄, h₅, h₆⟩, hv, hm⟩ := h
  exact ⟨⟨h₁, h₂, h₃, h₄, h₅, h₆⟩, hv, hm.1, (Arbiter.endService_mask _).trans hm.2⟩

/-- The vectors are those of `idt_init`. -/
theorem vector (h : Started p) (l : Line) : p.vector l = FirstOs.startedPics.vector l := by
  cases l with
  | inl i =>
    change Chip.vector i p.master = Chip.vector i FirstOs.startedPics.master
    rw [Chip.vector, h.vectors.1]
    rfl
  | inr j =>
    change Chip.vector j p.slave = Chip.vector j FirstOs.startedPics.slave
    rw [Chip.vector, h.vectors.2]
    rfl

end Started

section Taking

variable {H : Type*} {symbol : Stub → BitVec 32} {s s' : IrqSystem H} {l : Line}

/-- The table after `idt_init`. -/
def bootGates (symbol : Stub → BitVec 32) : IdtEntries :=
  setIdtGates symbol fun _ => ⟨0, 0, 0, 0, 0⟩

/-- The system after an interrupt of a line has been taken. -/
def IrqSystem.enter (l : Line) (s : IrqSystem H) : IrqSystem H :=
  { s with
    pics := s.pics.accept l
    frames := ⟨intNoOf l, irqWrites (intNoOf l)⟩ :: s.frames
    enabled := false
    taken := (intNoOf l, s.irqRoutines.entry (intNoOf l - 32)) :: s.taken }

theorem stubAt_symbol (hsymbol : Function.Injective symbol) (stub : Stub) :
    stubAt symbol (symbol stub) = some stub := by
  cases hfind : stubAt symbol (symbol stub) with
  | none =>
    have hnot := List.find?_eq_none.mp hfind stub stub.mem_all
    simp at hnot
  | some stub' =>
    have heq := List.find?_some hfind
    exact congrArg some (hsymbol (by simpa using heq))

/-- An interrupt is that of the line the controllers take next. -/
theorem act_interrupt (hsymbol : Function.Injective symbol) (hstarted : Started s.pics)
    (hgates : s.idtEntries = bootGates symbol) :
    IrqEvent.act symbol .interrupt s =
      if s.enabled then s.pics.nextLine.map fun l => s.enter l else none := by
  rw [IrqEvent.act]
  by_cases he : s.enabled
  · rw [if_pos he, if_pos he, hstarted.ready.acknowledge]
    cases hnext : s.pics.nextLine with
    | none => rfl
    | some l =>
      have hgate : (gateOf (s.idtEntries (s.pics.vector l)).word).offset = symbol (lineStub l) := by
        rw [hgates, hstarted.vector, ← gate_lineStub]
        exact congrArg Gate.offset (gate_setIdtGates symbol _ (lineStub l))
      simp only [Option.map_some, Option.bind_some, hgate, stubAt_symbol hsymbol]
      rfl
  · rw [if_neg he, if_neg he]

theorem request_inv (hact : IrqEvent.act symbol (.request l) s = some s') :
    l ≠ .inl cascade ∧ s' = { s with pics := s.pics.request l } := by
  rw [IrqEvent.act] at hact
  split_ifs at hact with hl
  exact ⟨hl, (Option.some.inj hact).symm⟩

theorem interrupt_inv (hsymbol : Function.Injective symbol) (hstarted : Started s.pics)
    (hgates : s.idtEntries = bootGates symbol)
    (hact : IrqEvent.act symbol .interrupt s = some s') :
    s.enabled = true ∧ ∃ l, s.pics.nextLine = some l ∧ s' = s.enter l := by
  rw [act_interrupt hsymbol hstarted hgates] at hact
  split_ifs at hact with henabled
  obtain ⟨l, hnext, rfl⟩ := Option.map_eq_some_iff.mp hact
  exact ⟨henabled, l, hnext, rfl⟩

theorem send_inv (hact : IrqEvent.act symbol .send s = some s') : ∃ n w ws fs,
    s.frames = ⟨n, w :: ws⟩ :: fs ∧
      s' = { s with pics := s.pics.out w.1 w.2, frames := ⟨n, ws⟩ :: fs } := by
  rw [IrqEvent.act] at hact
  split at hact
  next n port value ws fs hframes =>
    exact ⟨n, (port, value), ws, fs, hframes, (Option.some.inj hact).symm⟩
  next => exact absurd hact (by simp)

theorem iret_inv (hact : IrqEvent.act symbol .iret s = some s') : ∃ n fs,
    s.frames = ⟨n, []⟩ :: fs ∧ s' = { s with frames := fs, enabled := true } := by
  rw [IrqEvent.act] at hact
  split at hact
  next n fs hframes => exact ⟨n, fs, hframes, (Option.some.inj hact).symm⟩
  next => exact absurd hact (by simp)

end Taking

-- ════════════════════════════════════════════════════════════════════════
-- The frames and the controllers
-- ════════════════════════════════════════════════════════════════════════

/-- The line of a field `int_no`. -/
def lineOf (intNo : BitVec 32) : Line :=
  -- the vectors of each controller begin at a multiple of 8
  let i : Fin (2 ^ 3) := (intNo.setWidth 3).toFin
  if intNo < 40 then .inl i else .inr i

theorem lineOf_intNoOf (l : Line) : lineOf (intNoOf l) = l := by
  cases l with
  | inl i =>
    revert i
    decide
  | inr j =>
    revert j
    decide

/-- The lines of the master whose end is not signalled yet. -/
def masterStack (frames : List Frame) : List (Fin 8) :=
  (frames.filter fun f => (0x20, 0x20) ∈ f.writes).map fun f => (lineOf f.intNo).masterLine

/-- The lines of the slave whose end is not signalled yet. -/
def slaveStack (frames : List Frame) : List (Fin 8) :=
  (frames.filter fun f => (0xA0, 0x20) ∈ f.writes).filterMap fun f => (lineOf f.intNo).slaveLine

/-- A frame in the middle of `irq_handler`. -/
def Frame.Running (f : Frame) : Prop := ∃ l, f.intNo = intNoOf l ∧ f.writes <:+ irqWrites (intNoOf l)

/-- The controllers serve the frames. -/
structure IrqSystem.InService {H : Type*} (symbol : Stub → BitVec 32) (s : IrqSystem H) :
    Prop where
  started : Started s.pics
  gates : s.idtEntries = bootGates symbol
  running : ∀ f ∈ s.frames, f.Running
  master : s.pics.master.lines.Serves (masterStack s.frames)
  slave : s.pics.slave.lines.Serves (slaveStack s.frames)

section Service

variable {H : Type*} {symbol : Stub → BitVec 32} {s s' : IrqSystem H} {l : Line} {n : BitVec 32}
  {w : BitVec 16 × BitVec 8} {ws : List (BitVec 16 × BitVec 8)} {fs : List Frame}

theorem irqWrites_inl (i : Fin 8) : irqWrites (intNoOf (.inl i)) = [(0x20, 0x20)] := by
  revert i
  decide

theorem irqWrites_inr (j : Fin 8) :
    irqWrites (intNoOf (.inr j)) = [(0xA0, 0x20), (0x20, 0x20)] := by
  revert j
  decide

/-- What a frame sends next. -/
theorem Frame.Running.send (h : Frame.Running ⟨n, w :: ws⟩) :
    w = (0x20, 0x20) ∧ ws = [] ∨
      (∃ j, n = intNoOf (.inr j)) ∧ w = (0xA0, 0x20) ∧ ws = [(0x20, 0x20)] := by
  obtain ⟨l, rfl, hsuffix⟩ := h
  cases l with
  | inl i =>
    rw [irqWrites_inl, List.suffix_cons_iff] at hsuffix
    obtain heq | hnil := hsuffix
    · cases heq
      exact .inl ⟨rfl, rfl⟩
    · exact absurd (List.suffix_nil.mp hnil) (List.cons_ne_nil _ _)
  | inr j =>
    rw [irqWrites_inr, List.suffix_cons_iff, List.suffix_cons_iff] at hsuffix
    obtain heq | heq | hnil := hsuffix
    · cases heq
      exact .inr ⟨⟨j, rfl⟩, rfl, rfl⟩
    · cases heq
      exact .inl ⟨rfl, rfl⟩
    · exact absurd (List.suffix_nil.mp hnil) (List.cons_ne_nil _ _)

/-- A frame that is entered. -/
theorem running_enter (l : Line) : Frame.Running ⟨intNoOf l, irqWrites (intNoOf l)⟩ :=
  ⟨l, rfl, List.suffix_rfl⟩

theorem masterStack_enter (l : Line) (fs : List Frame) :
    masterStack (⟨intNoOf l, irqWrites (intNoOf l)⟩ :: fs) = l.masterLine :: masterStack fs := by
  have hmem : ((0x20, 0x20) : BitVec 16 × BitVec 8) ∈ irqWrites (intNoOf l) :=
    List.mem_append_right _ (List.mem_singleton_self _)
  simp only [masterStack, List.filter_cons, hmem, decide_true, if_true, List.map_cons,
    lineOf_intNoOf]

theorem slaveStack_enter (l : Line) (fs : List Frame) :
    slaveStack (⟨intNoOf l, irqWrites (intNoOf l)⟩ :: fs) =
      l.slaveLine.toList ++ slaveStack fs := by
  cases l with
  | inl i =>
    rw [irqWrites_inl]
    rfl
  | inr j =>
    simp [slaveStack, irqWrites_inr, lineOf_intNoOf, Line.slaveLine]

/-- Taking a line keeps the controllers and the frames in step. -/
theorem IrqSystem.InService.enter (h : s.InService symbol) (hnext : s.pics.nextLine = some l) :
    (s.enter l).InService symbol := by
  have htakes := Pair.takes_of_nextLine hnext
  refine ⟨h.started.accept l, h.gates, ?_, ?_, ?_⟩
  · exact List.forall_mem_cons.mpr ⟨running_enter l, h.running⟩
  · change (s.pics.accept l).master.lines.Serves (masterStack (_ :: s.frames))
    rw [masterStack_enter]
    cases l <;> exact h.master.accept htakes.below
  · change (s.pics.accept l).slave.lines.Serves (slaveStack (_ :: s.frames))
    rw [slaveStack_enter]
    cases l with
    | inl i => exact h.slave
    | inr j => exact h.slave.accept (htakes.slaveBelow j rfl)

/-- A byte of `irq_handler` ends the service of its own line. -/
theorem IrqSystem.InService.send (h : s.InService symbol) (hframes : s.frames = ⟨n, w :: ws⟩ :: fs) :
    ({ s with pics := s.pics.out w.1 w.2, frames := ⟨n, ws⟩ :: fs } : IrqSystem H).InService
      symbol := by
  have hrunning := h.running
  have hmaster := h.master
  have hslave := h.slave
  rw [hframes] at hrunning hmaster hslave
  obtain ⟨hframe, hrest⟩ := List.forall_mem_cons.mp hrunning
  have hlater : Frame.Running ⟨n, ws⟩ := by
    obtain ⟨l, hn, hsuffix⟩ := hframe
    exact ⟨l, hn, (List.suffix_cons w ws).trans hsuffix⟩
  obtain ⟨rfl, rfl⟩ | ⟨⟨j, rfl⟩, rfl, rfl⟩ := hframe.send
  · rw [Pair.out_master_end]
    refine ⟨h.started.endMaster, h.gates, List.forall_mem_cons.mpr ⟨hlater, hrest⟩, ?_, ?_⟩
    · exact hmaster.endService
    · exact hslave
  · rw [Pair.out_slave_end]
    refine ⟨h.started.endSlave, h.gates, List.forall_mem_cons.mpr ⟨hlater, hrest⟩, ?_, ?_⟩
    · exact hmaster
    · have hpushed : slaveStack (⟨intNoOf (.inr j), [(0xA0, 0x20), (0x20, 0x20)]⟩ :: fs) =
          j :: slaveStack fs := by
        rw [← irqWrites_inr, slaveStack_enter]
        rfl
      rw [hpushed] at hslave
      exact hslave.endService

/-- Every event keeps the controllers and the frames in step. -/
theorem inService_act (hsymbol : Function.Injective symbol) {e : IrqEvent H}
    (h : s.InService symbol) (hact : e.act symbol s = some s') : s'.InService symbol := by
  cases e with
  | request l =>
    obtain ⟨-, rfl⟩ := request_inv hact
    refine ⟨h.started.request l, h.gates, h.running, ?_, ?_⟩
    · cases l with
      | inl i => exact h.master.request
      | inr j => exact h.master
    · cases l with
      | inl i => exact h.slave
      | inr j => exact h.slave.request
  | interrupt =>
    obtain ⟨-, l, hnext, rfl⟩ := interrupt_inv hsymbol h.started h.gates hact
    exact h.enter hnext
  | send =>
    obtain ⟨n, w, ws, fs, hframes, rfl⟩ := send_inv hact
    exact h.send hframes
  | iret =>
    obtain ⟨n, fs, hframes, rfl⟩ := iret_inv hact
    obtain ⟨hstarted, hgates, hrunning, hmaster, hslave⟩ := h
    rw [hframes] at hrunning hmaster hslave
    exact ⟨hstarted, hgates, (List.forall_mem_cons.mp hrunning).2, hmaster, hslave⟩
  | install irq handler =>
    obtain rfl := Option.some.inj hact
    exact ⟨h.started, h.gates, h.running, h.master, h.slave⟩
  | uninstall irq =>
    obtain rfl := Option.some.inj hact
    exact ⟨h.started, h.gates, h.running, h.master, h.slave⟩
  | setFlag enabled =>
    obtain rfl := Option.some.inj hact
    exact ⟨h.started, h.gates, h.running, h.master, h.slave⟩

theorem inService_booted (symbol : Stub → BitVec 32) (address : BitVec 32) (boot : Interrupts) :
    (IrqSystem.booted H symbol address boot).InService symbol := by
  have hpics : (IrqSystem.booted H symbol address boot).pics = startedPics :=
    outPorts_picWrites boot.pics
  refine ⟨hpics ▸ Started.startedPics, rfl, fun f hf => absurd hf List.not_mem_nil, ?_, ?_⟩
  · rw [hpics]
    exact Arbiter.Serves.clear
  · rw [hpics]
    exact Arbiter.Serves.clear

theorem inService_events (hsymbol : Function.Injective symbol) {es : List (IrqEvent H)}
    (h : s.InService symbol) (hrun : Run.events (IrqEvent.act symbol) es s = some s') :
    s'.InService symbol :=
  Run.events_invariant (fun _ _ _ hI _ hact => inService_act hsymbol hI hact) h hrun

/-- When no interrupt is being handled and the flag is set, one that waits can be taken. -/
theorem IrqSystem.InService.exists_interrupt (hsymbol : Function.Injective symbol)
    (h : s.InService symbol) (hframes : s.frames = []) (hflag : s.enabled = true)
    (hl : l ∈ s.pics.pending) : ∃ s', IrqEvent.act symbol .interrupt s = some s' := by
  have hmaster := h.master
  have hslave := h.slave
  rw [hframes] at hmaster hslave
  obtain ⟨m, hm⟩ := Pair.exists_nextLine hmaster hslave h.started.unmasked.1
    h.started.unmasked.2 hl
  rw [act_interrupt hsymbol h.started h.gates, if_pos hflag, hm]
  exact ⟨s.enter m, rfl⟩

end Service

/-- After any events after `idt_init`, handlers that let other interrupts in included, the lines in
    service at the two controllers are those of the interrupts whose end `irq_handler` has not
    signalled yet, and each of these has a higher priority than those under it. When none is being
    handled, none is in service, and with the flag set what waits is taken. -/
theorem inService_of_run {H : Type*} {symbol : Stub → BitVec 32}
    (hsymbol : Function.Injective symbol) (address : BitVec 32) (boot : Interrupts)
    (es : List (IrqEvent H)) (s : IrqSystem H)
    (hrun : Run.events (IrqEvent.act symbol) es (.booted H symbol address boot) = some s) :
    s.pics.master.lines.Serves (masterStack s.frames) ∧
      s.pics.slave.lines.Serves (slaveStack s.frames) ∧
      (s.frames = [] → s.pics.master.lines.service = ∅ ∧ s.pics.slave.lines.service = ∅ ∧
        (s.enabled = true → s.pics.pending ≠ ∅ →
          ∃ s', IrqEvent.act symbol .interrupt s = some s')) := by
  have h := inService_events hsymbol (inService_booted symbol address boot) hrun
  refine ⟨h.master, h.slave, fun hframes => ⟨?_, ?_, fun hflag hpending => ?_⟩⟩
  · have hmaster := h.master
    rw [hframes] at hmaster
    exact hmaster.service_eq_empty
  · have hslave := h.slave
    rw [hframes] at hslave
    exact hslave.service_eq_empty
  · obtain ⟨l, hl⟩ := Finset.nonempty_iff_ne_empty.mpr hpending
    exact h.exists_interrupt hsymbol hframes hflag hl

/-- Stubs sixteen bytes apart. -/
def spacedStubs (stub : Stub) : BitVec 32 := BitVec.ofNat 32 (0xC0100000 + 16 * stub.vector)

theorem spacedStubs_injective : Function.Injective spacedStubs := by
  intro stub stub' h
  apply Stub.vector_injective
  have hle := stub.vector_le
  have hle' := stub'.vector_le
  have hnat := congrArg BitVec.toNat h
  simp only [spacedStubs, BitVec.toNat_ofNat] at hnat
  omega

/-- Controllers that were never initialized, and an empty table. -/
def coldInterrupts : Interrupts where
  idtEntries _ := ⟨0, 0, 0, 0, 0⟩
  idtPtr := ⟨0, 0⟩
  pics := ⟨⟨.clear, .ready, 0, 0, 0, 0⟩, ⟨.clear, .ready, 0, 0, 0, 0⟩⟩
  enabled := false

/-- A key comes in, and while its handler lets others in, the timer. -/
def nestedInterrupts : List (IrqEvent ℕ) :=
  [.install irq1 7, .request keyboardLine, .interrupt, .setFlag true, .request timerLine, .interrupt]

theorem inService_of_run_nested :
    ∃ s, Run.events (IrqEvent.act spacedStubs) nestedInterrupts
        (.booted ℕ spacedStubs 0xC0200000 coldInterrupts) = some s ∧
      s.pics.master.lines.Serves (masterStack s.frames) := by
  have hsome : (Run.events (IrqEvent.act spacedStubs) nestedInterrupts
      (.booted ℕ spacedStubs 0xC0200000 coldInterrupts)).isSome = true := by decide +kernel
  obtain ⟨s, hs⟩ := Option.isSome_iff_exists.mp hsome
  exact ⟨s, hs, (inService_of_run spacedStubs_injective _ _ _ s hs).1⟩

end FirstOs
