import FirstOs.Disk.Hba
import FirstOs.Memory.Exclusive

/-!
# Runs of the driver beside the controller

From a port without commands on, whatever the driver and the controller do in turn: the commands
completed in a slot are those started there, in order and as they were started, all but the one in
flight. What a call returns says whether its command was started and whether it is done. And a
call does what `ahciSectorsInternal` does on the values it happens to read.

## Main definitions

- `PortStart` — a port without commands
- `resume` — the rest of `ahciSectorsInternal` from a place on

## Main results

- `commandsInFlight_of_run` — no command in flight is lost or overwritten
- `codes_of_call` — what the code returned says
- `refines_of_call` — the call as a run of `ahciSectorsInternal`
-/

namespace FirstOs

open AddressSpace

section Runs

variable {σ : Type} [AddressSpace σ] (bus : BitVec 32 → BitVec 32 → BitVec 32) (aport : AhciPort)

/-- No command was started, and the driver is not at work. -/
structure PortStart (s : PortSystem σ) : Prop where
  idle : ∃ code, s.pc = .returned code
  ci : s.hba.ci = 0
  logs : s.asked = [] ∧ s.issued = [] ∧ s.completed = []
  setUp : PortSetUp bus aport s.memory

/-- The requests of the calls. -/
def callsOf (es : List (PortEvent σ)) : List (AhciRequest σ) :=
  es.filterMap fun
    | .call q => some q
    | _ => none

/-- The driver is at work and has not started the command yet. -/
def AhciPc.Pending : AhciPc → Bool
  | .pollCi _ | .pollIs _ _ | .returned _ => false
  | _ => true

/-- The requests whose commands were started or may still be. -/
def PortSystem.open (s : PortSystem σ) : List (AhciRequest σ) :=
  s.asked ++ if s.pc.Pending then [s.request] else []

variable {bus aport} {s s₀ s₁ : PortSystem σ} {e : PortEvent σ} {es : List (PortEvent σ)}
  {q : AhciRequest σ}

theorem portInv_start (h : PortStart bus aport s) : PortInv bus aport s := by
  obtain ⟨⟨code, hpc⟩, hci, ⟨hasked, hissued, -⟩, hset⟩ := h
  refine ⟨hset, fun i hi => ?_, ?_, ?_⟩
  · rw [hci] at hi
    exact absurd hi (by simp)
  · rw [hpc]
    trivial
  · rw [hasked, hissued]
    exact List.Forall₂.nil

theorem portInv_of_run (hI : PortInv bus aport s) (h : Run.events (PortEvent.act bus aport) es s =
    some s₁) : PortInv bus aport s₁ :=
  Run.events_invariant (fun _ _ _ hI _ h => (portInv_act hI h).1) hI h

/-- The driver starts the command of the request it was called with, at most. -/
theorem open_driverStep (bus : BitVec 32 → BitVec 32 → BitVec 32) (aport : AhciPort)
    (s : PortSystem σ) : (driverStep bus aport s).open.Sublist s.open := by
  have hstay : ∀ t : PortSystem σ, t.asked = s.asked → t.request = s.request →
      (t.pc.Pending = true → s.pc.Pending = true) → t.open.Sublist s.open := by
    intro t hasked hreq hp
    rw [PortSystem.open, PortSystem.open, hasked, hreq]
    cases ht : t.pc.Pending with
    | true => rw [hp ht]
    | false => exact (List.nil_sublist _).append_left _
  rw [driverStep]
  cases hs : s.pc with
  | clearIs => exact hstay _ rfl rfl fun _ => by rw [hs]; rfl
  | readSact => exact hstay _ rfl rfl fun _ => by rw [hs]; rfl
  | readCi sact => exact hstay _ rfl rfl fun _ => by rw [hs]; rfl
  | readCap slots =>
    dsimp only
    cases freeSlot slots s.hba.cap with
    | none => exact hstay _ rfl rfl fun _ => by rw [hs]; rfl
    | some slot => exact hstay _ rfl rfl fun _ => by rw [hs]; rfl
  | prepare slot => exact hstay _ rfl rfl fun _ => by rw [hs]; rfl
  | spin left slot =>
    cases left with
    | zero => exact hstay _ rfl rfl fun _ => by rw [hs]; rfl
    | succ n => exact hstay _ rfl rfl fun _ => by rw [hs]; rfl
  | test slot => exact hstay _ rfl rfl fun _ => by rw [hs]; rfl
  | issue slot =>
    rw [PortSystem.open, PortSystem.open, hs]
    exact (List.append_nil _).symm ▸ List.Sublist.refl _
  | pollCi slot => exact hstay _ rfl rfl fun hp => Bool.noConfusion hp
  | pollIs slot done =>
    refine hstay _ rfl rfl fun hp => ?_
    change (if s.hba.is &&& (1#32 <<< 30) ≠ 0 then AhciPc.returned 3
      else if done then .returned 0 else .pollCi slot).Pending = true at hp
    split_ifs at hp <;> exact Bool.noConfusion hp
  | returned code => exact List.Sublist.refl _

/-- A run starts commands of the calls only, in their order, one for a call at most. -/
theorem open_of_run (h : Run.events (PortEvent.act bus aport) es s = some s₁) :
    s₁.open.Sublist (s.open ++ callsOf es) := by
  induction es generalizing s with
  | nil =>
    obtain rfl := Option.some.inj h
    exact (List.append_nil _).symm ▸ List.Sublist.refl _
  | cons e es ih =>
    obtain ⟨t, ht, h⟩ := Option.bind_eq_some_iff.mp h
    have hone : t.open.Sublist (s.open ++ callsOf [e]) := by
      cases e with
      | call q =>
        obtain ⟨⟨code, hpc⟩, rfl⟩ := act_call ht
        simp [PortSystem.open, hpc, AhciPc.Pending, callsOf]
      | step =>
        obtain ⟨-, rfl⟩ := act_step ht
        exact (open_driverStep bus aport s).trans (List.sublist_append_left _ _)
      | complete slot =>
        obtain ⟨-, rfl⟩ := act_complete ht
        exact List.sublist_append_left _ _
      | device tfd raised kept =>
        obtain rfl := Option.some.inj ht
        exact List.sublist_append_left _ _
    have hsplit : callsOf (e :: es) = callsOf [e] ++ callsOf es := by
      rw [callsOf, ← List.singleton_append, List.filterMap_append]
      rfl
    rw [hsplit, ← List.append_assoc]
    exact (ih h).trans (hone.append_right _)

/-- The slots go through a run of a slot table. -/
theorem slots_simulate (hI : PortInv bus aport s)
    (h : Run.events (PortEvent.act bus aport) es s = some s₁) : ∃ fs,
      Run.events SlotTable.act fs (s.slots bus aport) = some (s₁.slots bus aport) := by
  obtain ⟨ess, -, hslots⟩ : ∃ ess, List.Forall₂ (fun _ _ => True) es ess ∧
      Run.events SlotTable.act ess.flatten (s.slots bus aport) = some (s₁.slots bus aport) := by
    refine Run.events_simulate (I := PortInv bus aport) (fun e a b ha hab => ?_) hI h
    obtain ⟨hb, fs, hfs⟩ := portInv_act ha hab
    exact ⟨hb, fs, trivial, hfs⟩
  exact ⟨ess.flatten, hslots⟩

/-- What was started in a slot was completed there, but for the command in flight. -/
theorem commandsInFlight_slots (hstart : PortStart bus aport s)
    (h : Run.events (PortEvent.act bus aport) es s = some s₁) (slot : ℕ) :
    SlotTable.itemsAt slot s₁.issued = SlotTable.itemsAt slot s₁.completed ++
      if s₁.hba.ci.getLsbD slot then [s₁.fetch bus aport slot] else [] := by
  obtain ⟨-, hci, ⟨-, hissued, hcompleted⟩, -⟩ := id hstart
  have hbalanced : (s.slots bus aport).Balanced := by
    intro i
    change SlotTable.itemsAt i s.issued = SlotTable.itemsAt i s.completed ++
      (if s.hba.ci.getLsbD i = true then some (s.fetch bus aport i) else none).toList
    rw [hissued, hcompleted, hci]
    simp
  obtain ⟨fs, hslots⟩ := slots_simulate (portInv_start hstart) h
  refine (SlotTable.balanced_of_run hbalanced hslots slot).trans (congrArg _ ?_)
  change (if s₁.hba.ci.getLsbD slot = true then some (s₁.fetch bus aport slot) else none).toList = _
  split_ifs <;> rfl

/-- **No command in flight is lost or overwritten.** -/
theorem commandsInFlight_of_run (hstart : PortStart bus aport s)
    (h : Run.events (PortEvent.act bus aport) es s = some s₁) :
    (∀ slot, SlotTable.itemsAt slot s₁.issued = SlotTable.itemsAt slot s₁.completed ++
        if s₁.hba.ci.getLsbD slot then [s₁.fetch bus aport slot] else []) ∧
      List.Forall₂ (fun q x => Encodes q x.2) s₁.asked s₁.issued ∧
      s₁.asked.Sublist (callsOf es) := by
  refine ⟨commandsInFlight_slots hstart h, (portInv_of_run (portInv_start hstart) h).encodes, ?_⟩
  obtain ⟨⟨code, hpc⟩, -, ⟨hasked, -⟩, -⟩ := hstart
  have hopen := open_of_run h
  have hnone : s.open = [] := by
    rw [PortSystem.open, hpc, hasked]
    rfl
  rw [hnone, List.nil_append] at hopen
  exact (List.sublist_append_left _ _).trans hopen

-- ════════════════════════════════════════════════════════════════════════
-- What a call returns
-- ════════════════════════════════════════════════════════════════════════

/-- The command of `q` was started in `slot`, behind what was started before. -/
def StartedIn (before : List (ℕ × HbaCommand)) (q : AhciRequest σ) (s : PortSystem σ) (slot : ℕ) :
    Prop :=
  slot < 16 ∧ ∃ c, Encodes q c ∧ s.issued = before ++ [(slot, c)]

/-- What a call has done so far. -/
def CallOk (before : List (ℕ × HbaCommand)) (q : AhciRequest σ) (s : PortSystem σ) : AhciPc → Prop
  | .pollCi slot | .pollIs slot false => StartedIn before q s slot
  | .pollIs slot true => StartedIn before q s slot ∧ s.hba.ci.getLsbD slot = false
  | .returned code =>
    (code = 1 ∨ code = 2) ∧ s.issued = before ∨
      ∃ slot, StartedIn before q s slot ∧
        (code = 3 ∨ code = 0 ∧ s.hba.ci.getLsbD slot = false)
  | _ => s.issued = before

variable (bus aport) in
/-- The invariant of a call. -/
structure CallInv (before : List (ℕ × HbaCommand)) (q : AhciRequest σ) (s : PortSystem σ) :
    Prop where
  port : PortInv bus aport s
  request : s.request = q
  call : CallOk before q s s.pc

variable {before : List (ℕ × HbaCommand)}

/-- The controller clears bits only, and starts nothing. -/
theorem CallOk.of_device {pc : AhciPc} (h : CallOk before q s pc) (hba : Hba)
    (completed : List (ℕ × HbaCommand))
    (hci : ∀ i, hba.ci.getLsbD i = true → s.hba.ci.getLsbD i = true) :
    CallOk before q { s with hba := hba, completed := completed } pc := by
  have hclear : ∀ {slot}, s.hba.ci.getLsbD slot = false → hba.ci.getLsbD slot = false :=
    fun {slot} hs => Bool.eq_false_iff.mpr fun hc => Bool.eq_false_iff.mp hs (hci slot hc)
  cases pc with
  | pollIs slot done =>
    cases done with
    | true => exact h.imp_right hclear
    | false => exact h
  | returned code =>
    refine h.imp_right fun ⟨slot, hstarted, hcode⟩ => ⟨slot, hstarted, ?_⟩
    exact hcode.imp_right fun hc => hc.imp_right hclear
  | _ => exact h

/-- One access of the driver in a call. -/
theorem callInv_driverStep (hI : CallInv bus aport before q s)
    (hpc : ∀ code, s.pc ≠ .returned code) : CallOk before q (driverStep bus aport s)
      (driverStep bus aport s).pc := by
  obtain ⟨hport, hreq, hcall⟩ := hI
  have hpcOk := hport.pc
  rw [driverStep]
  cases hs : s.pc with
  | readCap slots =>
    rw [hs] at hcall
    dsimp only
    cases freeSlot slots s.hba.cap with
    | none => exact .inl ⟨.inl rfl, hcall⟩
    | some slot => exact hcall
  | spin left slot =>
    rw [hs] at hcall
    cases left with
    | zero => exact hcall
    | succ n =>
      dsimp only [PortSystem.goOn]
      split_ifs <;> exact hcall
  | test slot =>
    rw [hs] at hcall
    dsimp only [PortSystem.goOn]
    split_ifs
    · exact .inl ⟨.inr rfl, hcall⟩
    · exact hcall
  | issue slot =>
    rw [hs] at hcall hpcOk
    obtain ⟨hfree, henc⟩ := hpcOk
    refine ⟨hfree.lt, s.fetch bus aport slot, hreq ▸ henc, ?_⟩
    exact congrArg (· ++ [(slot, s.fetch bus aport slot)]) hcall
  | pollCi slot =>
    rw [hs] at hcall
    dsimp only [PortSystem.goOn]
    by_cases hbit : s.hba.ci &&& (1#32 <<< slot) = 0
    · rw [decide_eq_true hbit]
      exact ⟨hcall, (and_slot_eq_zero_iff (hcall.1.trans (by decide))).mp hbit⟩
    · rw [decide_eq_false hbit]
      exact hcall
  | pollIs slot done =>
    rw [hs] at hcall
    dsimp only [PortSystem.goOn]
    have hstarted : StartedIn before q s slot := by
      cases done with
      | true => exact hcall.1
      | false => exact hcall
    split_ifs with his hdone
    · exact .inr ⟨slot, hstarted, .inl rfl⟩
    · subst hdone
      exact .inr ⟨slot, hstarted, .inr ⟨rfl, hcall.2⟩⟩
    · exact hstarted
  | returned code => exact absurd hs (hpc code)
  | _ =>
    rw [hs] at hcall
    exact hcall

theorem request_driverStep (bus : BitVec 32 → BitVec 32 → BitVec 32) (aport : AhciPort)
    (s : PortSystem σ) : (driverStep bus aport s).request = s.request := by
  rw [driverStep]
  cases s.pc with
  | readCap slots =>
    dsimp only
    cases freeSlot slots s.hba.cap <;> rfl
  | spin left slot => cases left <;> rfl
  | _ => rfl

/-- One event of a call, which is no other call. -/
theorem callInv_act (hI : CallInv bus aport before q s) (he : callsOf [e] = [])
    (h : e.act bus aport s = some s₁) : CallInv bus aport before q s₁ := by
  refine ⟨(portInv_act hI.port h).1, ?_, ?_⟩
  all_goals cases e with
  | call q' => exact absurd he (by simp [callsOf])
  | step => ?_
  | complete slot => ?_
  | device tfd raised kept => ?_
  · obtain ⟨-, rfl⟩ := act_step h
    exact (request_driverStep bus aport s).trans hI.request
  · obtain ⟨-, rfl⟩ := act_complete h
    exact hI.request
  · obtain rfl := Option.some.inj h
    exact hI.request
  · obtain ⟨hpc, rfl⟩ := act_step h
    exact callInv_driverStep hI hpc
  · obtain ⟨-, rfl⟩ := act_complete h
    exact hI.call.of_device _ _ fun i hi => getLsbD_of_and hi
  · obtain rfl := Option.some.inj h
    exact hI.call.of_device _ s.completed fun _ hi => hi

omit [AddressSpace σ] in
theorem callsOf_of_mem (h : callsOf es = []) (he : e ∈ es) : callsOf [e] = [] := by
  rw [callsOf, List.filterMap_eq_nil_iff] at h ⊢
  exact List.forall_mem_singleton.mpr (h e he)

/-- **What the code says.** With 1 and 2 nothing was started; with 0 and 3 one command was, that of
    the request, and with 0 it is done. -/
theorem codes_of_call {es₀ : List (PortEvent σ)} {t : PortSystem σ} {code : BitVec 8}
    (hstart : PortStart bus aport s₀)
    (h₀ : Run.events (PortEvent.act bus aport) es₀ s₀ = some s)
    (hcall : PortEvent.act bus aport (.call q) s = some t)
    (h : Run.events (PortEvent.act bus aport) es t = some s₁) (hown : callsOf es = [])
    (hcode : s₁.pc = .returned code) :
    (code = 1 ∨ code = 2) ∧ s₁.issued = s.issued ∨
      ∃ slot c, slot < 16 ∧ Encodes q c ∧ s₁.issued = s.issued ++ [(slot, c)] ∧
        (code = 3 ∨
          code = 0 ∧ SlotTable.itemsAt slot s₁.completed = SlotTable.itemsAt slot s.issued ++ [c]) := by
  have hrun : Run.events (PortEvent.act bus aport) (es₀ ++ .call q :: es) s₀ = some s₁ := by
    rw [Run.events_append_of h₀, Run.events_cons hcall, h]
  have hlogs := (commandsInFlight_slots hstart hrun)
  have hport := portInv_of_run (portInv_start hstart) h₀
  have hI : CallInv bus aport s.issued q t := by
    refine ⟨(portInv_act hport hcall).1, ?_, ?_⟩
    all_goals
      obtain ⟨-, rfl⟩ := act_call hcall
      rfl
  have hI₁ : CallInv bus aport s.issued q s₁ :=
    Run.events_invariant (fun _ he _ hI _ hact => callInv_act hI (callsOf_of_mem hown he) hact) hI h
  have hok := hI₁.call
  rw [hcode] at hok
  obtain hnone | ⟨slot, ⟨hlt, c, henc, hissued⟩, hdone⟩ := hok
  · exact .inl hnone
  · refine .inr ⟨slot, c, hlt, henc, hissued, hdone.imp_right fun ⟨hzero, hci⟩ => ⟨hzero, ?_⟩⟩
    have hslot := hlogs slot
    rw [hissued, SlotTable.itemsAt_append, SlotTable.itemsAt_self, hci, if_neg Bool.false_ne_true,
      List.append_nil] at hslot
    exact hslot.symm

-- ════════════════════════════════════════════════════════════════════════
-- A call on the values it reads
-- ════════════════════════════════════════════════════════════════════════

/-- The values of a list, and then those of a stream. -/
def feed : List (BitVec 32) → (ℕ → BitVec 32) → ℕ → BitVec 32
  | [], rest => rest
  | v :: vs, rest => fun
    | 0 => v
    | n + 1 => feed vs rest n

theorem feed_append (vs ws : List (BitVec 32)) (rest : ℕ → BitVec 32) :
    feed (vs ++ ws) rest = feed vs (feed ws rest) := by
  induction vs with
  | nil => rfl
  | cons v vs ih =>
    funext n
    cases n with
    | zero => rfl
    | succ n => exact congrFun ih n

/-- What is left of `ahciSectorsInternal` at a place, with `fuel` rounds of waiting. -/
def resume (aport : AhciPort) (q : AhciRequest σ) (fuel : ℕ) :
    AhciPc → AhciState → Option (BitVec 8) × AhciState
  | .clearIs, a =>
    ahciSectorsInternal q.space q.dir fuel aport q.startLow q.startHigh q.count q.buf a
  | .readSact, a => atSlot (findCmdSlot a)
  | .readCi sact, a =>
    let (ci, a) := a.read
    let (cap, a) := a.read
    atSlot (freeSlot (sact ||| ci) cap, a)
  | .readCap slots, a =>
    let (cap, a) := a.read
    atSlot (freeSlot slots cap, a)
  | .prepare slot, a => atSlot (some slot, a)
  | .spin left slot, a => startCommand slot fuel (spin left a)
  | .test slot, a => startCommand slot fuel a
  | .issue slot, a => waitCommand slot fuel (a.write .ci (1#32 <<< slot))
  | .pollCi slot, a => waitCommand slot fuel a
  | .pollIs slot done, a =>
    let (is, a) := a.read
    if is &&& (1#32 <<< 30) ≠ 0 then (some 3, a)
    else if done then (some 0, a) else waitCommand slot fuel a
  | .returned code, a => (some code, a)
where
  /-- What follows `find_cmd_slot`. -/
  atSlot : Option ℕ × AhciState → Option (BitVec 8) × AhciState
    | (none, a) => (some 1, a)
    | (some slot, a) =>
      startCommand slot fuel (spin 1000000
        { a with
          memory := commandMemory q.space q.dir aport slot q.startLow q.startHigh q.count q.buf
            a.memory })

/-- The state of the code at a place of the driver, with the values it will read. -/
def PortSystem.view (s : PortSystem σ) (reads : ℕ → BitVec 32) (writes : List PortWrite) :
    AhciState := ⟨s.memory, reads, writes⟩

/-- The rounds of waiting that are left before the driver looks at `ci`. -/
def AhciPc.fuelAt (fuel : ℕ) : AhciPc → ℕ
  | .pollCi _ => fuel + 1
  | _ => fuel

/-- One access of the driver is one step of the code, on the value that is read. -/
theorem resume_driverStep (bus : BitVec 32 → BitVec 32 → BitVec 32) (aport : AhciPort)
    (hpc : ∀ code, s.pc ≠ .returned code) (fuel : ℕ) :
    ∃ vs, (driverStep bus aport s).reads = s.reads ++ vs ∧ ∀ rest writes, ∃ writes',
        resume aport s.request (s.pc.fuelAt fuel) s.pc (s.view (feed vs rest) writes) =
          resume aport s.request fuel (driverStep bus aport s).pc
            ((driverStep bus aport s).view rest writes') := by
  rw [driverStep]
  cases hs : s.pc with
  | clearIs => exact ⟨[], (List.append_nil _).symm, fun rest writes => ⟨_, rfl⟩⟩
  | readSact => exact ⟨[_], rfl, fun rest writes => ⟨writes, rfl⟩⟩
  | readCi sact => exact ⟨[_], rfl, fun rest writes => ⟨writes, rfl⟩⟩
  | readCap slots =>
    refine ⟨[s.hba.cap], ?_, fun rest writes => ⟨writes, ?_⟩⟩
    all_goals
      dsimp only
      cases hslot : freeSlot slots s.hba.cap with
      | none => ?_
      | some slot => ?_
    · rfl
    · rfl
    · change resume.atSlot aport s.request _ (freeSlot slots s.hba.cap, _) = _
      rw [hslot]
      rfl
    · change resume.atSlot aport s.request _ (freeSlot slots s.hba.cap, _) = _
      rw [hslot]
      rfl
  | prepare slot => exact ⟨[], (List.append_nil _).symm, fun rest writes => ⟨writes, rfl⟩⟩
  | spin left slot =>
    cases left with
    | zero => exact ⟨[], (List.append_nil _).symm, fun rest writes => ⟨writes, rfl⟩⟩
    | succ n =>
      refine ⟨[s.hba.tfd], rfl, fun rest writes => ⟨writes, ?_⟩⟩
      change startCommand slot _ (if busy s.hba.tfd = true then spin n _ else _) = _
      dsimp only [PortSystem.goOn]
      split_ifs <;> rfl
  | test slot =>
    refine ⟨[s.hba.tfd], rfl, fun rest writes => ⟨writes, ?_⟩⟩
    change (if busy s.hba.tfd = true then (some 2, _) else _) = _
    dsimp only [PortSystem.goOn]
    split_ifs <;> rfl
  | issue slot => exact ⟨[], (List.append_nil _).symm, fun rest writes => ⟨_, rfl⟩⟩
  | pollCi slot =>
    refine ⟨[s.hba.ci], rfl, fun rest writes => ⟨writes, ?_⟩⟩
    change waitCommand slot (fuel + 1) _ = _
    rw [waitCommand]
    dsimp only [AhciState.read, PortSystem.view, feed, PortSystem.goOn]
    by_cases hbit : s.hba.ci &&& (1#32 <<< slot) = 0
    · rw [if_pos hbit, decide_eq_true hbit]
      rfl
    · rw [if_neg hbit, decide_eq_false hbit]
      rfl
  | pollIs slot done =>
    refine ⟨[s.hba.is], rfl, fun rest writes => ⟨writes, ?_⟩⟩
    change (if s.hba.is &&& (1#32 <<< 30) ≠ 0 then (some 3, _) else _) = _
    dsimp only [PortSystem.goOn]
    split_ifs <;> rfl
  | returned code => exact absurd hs (hpc code)

variable (aport) in
/-- The code, run on the values the driver has read since the call, has come where the driver is. -/
def ReadsSo (q : AhciRequest σ) (memory : CommandMemory) (s : PortSystem σ) : Prop :=
  s.request = q ∧ ∀ k, ∃ fuel, ∀ rest writes, ∃ writes',
    resume aport q fuel .clearIs ⟨memory, feed s.reads rest, writes⟩ =
      resume aport q k s.pc (s.view rest writes')

theorem readsSo_act {memory : CommandMemory} (hs : ReadsSo aport q memory s)
    (he : callsOf [e] = []) (h : e.act bus aport s = some s₁) : ReadsSo aport q memory s₁ := by
  obtain ⟨rfl, hreads⟩ := hs
  cases e with
  | call q' => exact absurd he (by simp [callsOf])
  | complete slot =>
    obtain ⟨-, rfl⟩ := act_complete h
    exact ⟨rfl, hreads⟩
  | device tfd raised kept =>
    obtain rfl := Option.some.inj h
    exact ⟨rfl, hreads⟩
  | step =>
    obtain ⟨hpc, rfl⟩ := act_step h
    refine ⟨request_driverStep bus aport s, fun k => ?_⟩
    obtain ⟨vs, hvs, hstep⟩ := resume_driverStep bus aport hpc k
    obtain ⟨fuel, hfuel⟩ := hreads (s.pc.fuelAt k)
    refine ⟨fuel, fun rest writes => ?_⟩
    obtain ⟨writes₁, h₁⟩ := hfuel (feed vs rest) writes
    obtain ⟨writes₂, h₂⟩ := hstep rest writes₁
    exact ⟨writes₂, by rw [hvs, feed_append, h₁, h₂]⟩

/-- **A call is a run of the code** on the values it reads, whatever the controller does beside. -/
theorem refines_of_call {t : PortSystem σ} {code : BitVec 8}
    (hcall : PortEvent.act bus aport (.call q) s = some t)
    (h : Run.events (PortEvent.act bus aport) es t = some s₁) (hown : callsOf es = [])
    (hcode : s₁.pc = .returned code) :
    ∃ fuel, ∀ rest writes, ∃ writes',
      ahciSectorsInternal q.space q.dir fuel aport q.startLow q.startHigh q.count q.buf
        ⟨s.memory, feed s₁.reads rest, writes⟩ = (some code, ⟨s₁.memory, rest, writes'⟩) := by
  have ht : ReadsSo aport q s.memory t := by
    obtain ⟨-, rfl⟩ := act_call hcall
    exact ⟨rfl, fun k => ⟨k, fun rest writes => ⟨writes, rfl⟩⟩⟩
  obtain ⟨-, hreads⟩ := Run.events_invariant
    (fun _ he _ hI _ hact => readsSo_act hI (callsOf_of_mem hown he) hact) ht h
  obtain ⟨fuel, hfuel⟩ := hreads 0
  refine ⟨fuel, fun rest writes => ?_⟩
  obtain ⟨writes', hres⟩ := hfuel rest writes
  rw [hcode] at hres
  exact ⟨writes', hres⟩

end Runs

-- ════════════════════════════════════════════════════════════════════════
-- One command
-- ════════════════════════════════════════════════════════════════════════

/-- A port with its headers at 0 and its tables from 0x1000 on. -/
def onePort : AhciPort := ⟨1, 1, 0, 0, fun slot => BitVec.ofNat 32 (0x1000 + 256 * slot)⟩

/-- Headers that name these tables, and empty tables: the second byte of `ctba` is all they hold. -/
def namedTables : CommandMemory where
  bytes a := if a.toNat < 0x200 ∧ a.toNat % 32 = 9 then BitVec.ofNat 8 (0x10 + a.toNat / 32) else 0

/-- A read of one sector. -/
def oneSector : AhciRequest Flat := ⟨Flat.fresh, .read, 7, 0, 1, 0x100000⟩

/-- A controller with 16 slots, all of them free. -/
def idlePort : PortSystem Flat :=
  ⟨⟨0, 0, 0, 0, 0x0F00⟩, namedTables, .returned 0, oneSector, [], [], [], []⟩

/-- The driver goes as far as the command, the controller completes it, and the driver sees it. -/
def oneRead : List (PortEvent Flat) :=
  List.replicate 8 .step ++ [.complete 0] ++ List.replicate 2 .step

theorem setUp_namedTables : PortSetUp (fun ctba _ => ctba) onePort namedTables := by
  refine ⟨by decide +kernel, fun i hi j hj hne => ?_, fun i hi j hj => ?_⟩
  · have hstart : ∀ i < 16, ∀ j < 16, i ≠ j → 0x90 ≤ (onePort.ctba j - onePort.ctba i).toNat := by
      decide
    exact apart_of_le (hstart i hi j hj hne) (hstart j hj i hi hne.symm)
  · have hstart : ∀ i < 16, ∀ j < 16, 32 ≤ (onePort.ctba j - onePort.header i).toNat ∧
        0x90 ≤ (onePort.header i - onePort.ctba j).toNat := by
      decide
    exact apart_of_le (hstart i hi j hj).1 (hstart i hi j hj).2

theorem portStart_idlePort : PortStart (fun ctba _ => ctba) onePort idlePort :=
  ⟨⟨0, rfl⟩, rfl, ⟨rfl, rfl, rfl⟩, setUp_namedTables⟩

theorem oneRead_returns : ∃ t s₁,
    PortEvent.act (fun ctba _ => ctba) onePort (.call oneSector) idlePort = some t ∧
      Run.events (PortEvent.act (fun ctba _ => ctba) onePort) oneRead t = some s₁ ∧
      s₁.pc = .returned 0 := by
  refine ⟨_, _, rfl, rfl, ?_⟩
  rfl

/-- A write of two sectors. -/
def twoSectors : AhciRequest Flat := ⟨Flat.fresh, .write, 9, 0, 2, 0x200000⟩

/-- A read is started, and the controller reports an error. -/
def failedRead : List (PortEvent Flat) :=
  .call oneSector :: List.replicate 8 .step ++ [.device 0 (1#32 <<< 30) 0xFFFFFFFF, .step, .step]

/-- The write is started while the command of the read is still there, and completed. -/
def laterWrite : List (PortEvent Flat) :=
  List.replicate 8 .step ++ [.complete 1] ++ List.replicate 2 .step

theorem laterWrite_returns : ∃ s t s₁,
    Run.events (PortEvent.act (fun ctba _ => ctba) onePort) failedRead idlePort = some s ∧
      s.pc = .returned 3 ∧
      PortEvent.act (fun ctba _ => ctba) onePort (.call twoSectors) s = some t ∧
      Run.events (PortEvent.act (fun ctba _ => ctba) onePort) laterWrite t = some s₁ ∧
      s₁.pc = .returned 0 ∧ s₁.asked = [oneSector, twoSectors] ∧ s₁.hba.ci = 1#32 := by
  refine ⟨_, _, _, rfl, rfl, rfl, rfl, ?_, rfl, ?_⟩
  · rfl
  · rfl

/-- The read stays in its slot as it was started, and the write has been completed. -/
theorem commandsInFlight_of_run_laterWrite : ∃ s : PortSystem Flat, s.pc = .returned 0 ∧
    SlotTable.itemsAt 0 s.issued =
      SlotTable.itemsAt 0 s.completed ++ [s.fetch (fun ctba _ => ctba) onePort 0] ∧
    SlotTable.itemsAt 1 s.issued = SlotTable.itemsAt 1 s.completed ∧
    List.Forall₂ (fun q x => Encodes q x.2) [oneSector, twoSectors] s.issued := by
  obtain ⟨s, t, s₁, hfirst, -, hcall, hrun, hpc, hasked, hci⟩ := laterWrite_returns
  obtain ⟨hslots, henc, -⟩ := commandsInFlight_of_run portStart_idlePort
    ((Run.events_append_of hfirst).trans ((Run.events_cons hcall).trans hrun))
  have hzero := hslots 0
  have hone := hslots 1
  rw [hci] at hzero hone
  rw [hasked] at henc
  exact ⟨s₁, hpc, hzero, hone.trans (List.append_nil _), henc⟩

theorem codes_of_call_laterWrite : ∃ s s₁ : PortSystem Flat, s.pc = .returned 3 ∧
    s₁.pc = .returned 0 ∧ ∃ slot c, slot < 16 ∧ Encodes twoSectors c ∧
      s₁.issued = s.issued ++ [(slot, c)] ∧
      SlotTable.itemsAt slot s₁.completed = SlotTable.itemsAt slot s.issued ++ [c] := by
  obtain ⟨s, t, s₁, hfirst, hfailed, hcall, hrun, hpc, -, -⟩ := laterWrite_returns
  obtain ⟨hcode, -⟩ | ⟨slot, c, hlt, henc, hissued, hdone⟩ :=
    codes_of_call portStart_idlePort hfirst hcall hrun rfl hpc
  · exact absurd hcode (by decide)
  · obtain hcode | ⟨-, hcompleted⟩ := hdone
    · exact absurd hcode (by decide)
    · exact ⟨s, s₁, hfailed, hpc, slot, c, hlt, henc, hissued, hcompleted⟩

theorem refines_of_call_oneRead : ∃ fuel reads, ∀ rest writes, ∃ memory writes',
    ahciSectorsInternal Flat.fresh .read fuel onePort 7 0 1 0x100000
      ⟨namedTables, feed reads rest, writes⟩ = (some 0, ⟨memory, rest, writes'⟩) := by
  obtain ⟨t, s₁, hcall, hrun, hpc⟩ := oneRead_returns
  obtain ⟨fuel, hfuel⟩ := refines_of_call hcall hrun rfl hpc
  refine ⟨fuel, s₁.reads, fun rest writes => ?_⟩
  obtain ⟨writes', hres⟩ := hfuel rest writes
  exact ⟨s₁.memory, writes', hres⟩

end FirstOs
