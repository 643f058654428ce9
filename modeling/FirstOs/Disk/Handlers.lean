import FirstOs.Library.Search
import Mathlib.Data.BitVec
import Mathlib.Data.List.Induction
import Mathlib.Logic.Function.Iterate
import Mathlib.Tactic.IntervalCases

/-!
# Disk handlers

A table of 255 slots holds the registered disk drivers. A driver gets the lowest slot not in use as
its id; a drive number has the id above bit 16 and the port of the driver below. 255 stands for no
id. `Live` says which registration an id stands for after a history of calls: the last one that
returned the id, if the id has not been given back since.

## Main definitions

- `registerDiskHandler`, `unregisterDiskHandler`, `nextDiskHandler` — the table
- `diskReadSectors`, `diskWriteSectors` — the requests
- `Live` — the registration an id stands for

## Main results

- `holdsLive_runDiskCalls` — the table holds the live registrations, and nothing else
- `handlers_map` — the operations in terms of the live registrations
-/

namespace FirstOs

-- ════════════════════════════════════════════════════════════════════════
-- The table
-- ════════════════════════════════════════════════════════════════════════

/-- `disk_handler`. The functions are given by their addresses. -/
structure DiskHandler where
  used : Bool
  maxPortCount : BitVec 32
  readFunction : BitVec 32
  writeFunction : BitVec 32
deriving DecidableEq

/-- `handlers`. -/
abbrev DiskHandlers := ℕ → DiskHandler

/-- The arguments of a `register_disk_handler` call. -/
structure DiskRegistration where
  readFunction : BitVec 32
  writeFunction : BitVec 32
  maxPortCount : BitVec 32
deriving DecidableEq

/-- A slot with a registration, or without one. -/
def DiskHandler.slot : Option DiskRegistration → DiskHandler
  | some r => ⟨true, r.maxPortCount, r.readFunction, r.writeFunction⟩
  | none => ⟨false, 0, 0, 0⟩

/-- The table at the start. -/
def DiskHandlers.empty : DiskHandlers := fun _ => .slot none

/-- `register_disk_handler`. -/
def registerDiskHandler (handlers : DiskHandlers) (r : DiskRegistration) :
    BitVec 8 × DiskHandlers :=
  match Search.first (fun i => !(handlers i).used) 0 255 with
  | some i => (BitVec.ofNat 8 i, Function.update handlers i (.slot (some r)))
  | none => (255, handlers)

/-- `unregister_disk_handler`. -/
def unregisterDiskHandler (handlers : DiskHandlers) (handlerId : BitVec 8) : DiskHandlers :=
  if handlerId = 255 then handlers
  else Function.update handlers handlerId.toNat (.slot none)

/-- `next_disk_handler`. -/
def nextDiskHandler (handlers : DiskHandlers) (handlerId : BitVec 8) : BitVec 8 :=
  match Search.first (fun i => (handlers i).used) (handlerId.toNat + 1)
    (255 - (handlerId.toNat + 1)) with
  | some i => BitVec.ofNat 8 i
  | none => 255

-- ════════════════════════════════════════════════════════════════════════
-- Requests
-- ════════════════════════════════════════════════════════════════════════

/-- `INVALID_FILESYSTEM`. -/
def invalidFilesystem : BitVec 8 := 5

/-- How a request ends: with a code, or with what a driver function returns for its arguments. -/
inductive DiskOutcome where
  | code (c : BitVec 8)
  | call (function : BitVec 32) (driveNum : BitVec 16) (startSector : BitVec 64)
      (count buf : BitVec 32)
deriving DecidableEq

/-- The body that `disk_read_sectors` and `disk_write_sectors` share. The handler id is cut down to
    8 bits, and the argument of the driver to 16 bits. -/
def diskSectors (function : DiskHandler → BitVec 32) (handlers : DiskHandlers)
    (driveNum : BitVec 32) (startSector : BitVec 64) (count buf : BitVec 32) : DiskOutcome :=
  let handler : BitVec 8 := (driveNum >>> 16).setWidth 8
  if handler = 255 then .code invalidFilesystem
  else if !(handlers handler.toNat).used then .code invalidFilesystem
  else .call (function (handlers handler.toNat)) (driveNum.setWidth 16) startSector count buf

/-- `disk_read_sectors`. -/
def diskReadSectors := diskSectors DiskHandler.readFunction

/-- `disk_write_sectors`. -/
def diskWriteSectors := diskSectors DiskHandler.writeFunction

-- ════════════════════════════════════════════════════════════════════════
-- Histories
-- ════════════════════════════════════════════════════════════════════════

/-- A call that changes the table. -/
inductive DiskCall where
  | register (r : DiskRegistration)
  | unregister (id : BitVec 8)

/-- A call that has been made, with the id it is about. -/
inductive DiskEvent where
  | registered (r : DiskRegistration) (id : BitVec 8)
  | unregistered (id : BitVec 8)

def DiskEvent.id : DiskEvent → BitVec 8
  | registered _ id => id
  | unregistered id => id

/-- The table and the calls made so far. -/
structure DiskState where
  handlers : DiskHandlers
  history : List DiskEvent

namespace DiskCall

def exec (c : DiskCall) (s : DiskState) : DiskState :=
  match c with
  | register r =>
    { handlers := (registerDiskHandler s.handlers r).2
      history := s.history ++ [.registered r (registerDiskHandler s.handlers r).1] }
  | unregister id =>
    { handlers := unregisterDiskHandler s.handlers id
      history := s.history ++ [.unregistered id] }

end DiskCall

/-- The state after some calls on the empty table. -/
def runDiskCalls (cs : List DiskCall) : DiskState :=
  cs.foldl (fun s c => c.exec s) ⟨DiskHandlers.empty, []⟩

/-- The id stands for the registration: it was the last one to return the id, which has not been
    given back since. -/
def Live (history : List DiskEvent) (id : BitVec 8) (r : DiskRegistration) : Prop :=
  id ≠ 255 ∧ ∃ p q, history = p ++ .registered r id :: q ∧ ∀ e ∈ q, e.id ≠ id

/-- The table holds the live registrations. -/
def HoldsLive (s : DiskState) : Prop :=
  ∀ id : BitVec 8, id ≠ 255 → ∃ o, s.handlers id.toNat = .slot o ∧
    ∀ r, Live s.history id r ↔ o = some r

section Step

variable {s : DiskState} {history : List DiskEvent} {e : DiskEvent} {r q : DiskRegistration}
  {id j : BitVec 8} {i : ℕ}

/-- The last call decides about its own id, and changes nothing for the others. -/
theorem live_concat : Live (history ++ [e]) id r ↔
    (id ≠ 255 ∧ e = .registered r id) ∨ (e.id ≠ id ∧ Live history id r) := by
  constructor
  · rintro ⟨hid, p, q, he, hq⟩
    obtain rfl | ⟨q, e', rfl⟩ := List.eq_nil_or_concat q
    · obtain ⟨-, he⟩ := List.append_inj' he rfl
      exact .inl ⟨hid, (List.cons.inj he).1⟩
    · rw [List.concat_eq_append, ← List.cons_append, ← List.append_assoc] at he
      obtain ⟨hp, he⟩ := List.append_inj' he rfl
      obtain rfl := (List.cons.inj he).1
      refine .inr ⟨hq e (by simp), hid, p, q, hp, fun x hx => hq x (by simp [hx])⟩
  · rintro (⟨hid, rfl⟩ | ⟨hne, hid, p, q, rfl, hq⟩)
    · exact ⟨hid, history, [], rfl, fun x hx => absurd hx List.not_mem_nil⟩
    · refine ⟨hid, p, q ++ [e], by simp, fun x hx => ?_⟩
      obtain hx | hx := List.mem_append.mp hx
      · exact hq x hx
      · exact List.mem_singleton.mp hx ▸ hne

theorem slot_used (o : Option DiskRegistration) : (DiskHandler.slot o).used = o.isSome := by
  cases o <;> rfl

theorem HoldsLive.used_iff (h : HoldsLive s) (hid : id ≠ 255) :
    (s.handlers id.toNat).used = true ↔ ∃ r, Live s.history id r := by
  obtain ⟨o, hslot, hlive⟩ := h id hid
  rw [hslot, slot_used, Option.isSome_iff_exists]
  exact exists_congr fun r => (hlive r).symm

theorem HoldsLive.handlers_eq (h : HoldsLive s) (hlive : Live s.history id r) :
    s.handlers id.toNat = .slot (some r) := by
  obtain ⟨o, hslot, hiff⟩ := h id hlive.1
  rw [hslot, (hiff r).mp hlive]

theorem lt_of_ne_max (hid : id ≠ 255) : id.toNat < 255 := by
  have hne : id.toNat ≠ 255 := fun h => hid (BitVec.eq_of_toNat_eq h)
  omega

theorem ofNat_ne_max (hi : i < 255) : BitVec.ofNat 8 i ≠ 255 ∧ (BitVec.ofNat 8 i).toNat = i := by
  have hnat : (BitVec.ofNat 8 i).toNat = i := by
    rw [BitVec.toNat_ofNat, Nat.mod_eq_of_lt (by omega)]
  refine ⟨fun h => ?_, hnat⟩
  rw [h] at hnat
  exact absurd hnat (by simp; omega)

/-- What `register_disk_handler` does, when there is a slot and when there is none. -/
theorem registerDiskHandler_cases (handlers : DiskHandlers) (r : DiskRegistration) :
    (∃ i < 255, (handlers i).used = false ∧ (∀ j < i, (handlers j).used = true) ∧
      registerDiskHandler handlers r =
        (BitVec.ofNat 8 i, Function.update handlers i (.slot (some r)))) ∨
    (∀ i < 255, (handlers i).used = true) ∧ registerDiskHandler handlers r = (255, handlers) := by
  simp only [registerDiskHandler]
  cases hfirst : Search.first (fun i => !(handlers i).used) 0 255 with
  | none =>
    refine .inr ⟨fun i hi => ?_, rfl⟩
    simpa using Search.first_eq_none_iff.mp hfirst i (Nat.zero_le i) (by omega)
  | some i =>
    obtain ⟨-, hi, hfree, hlow⟩ := Search.first_eq_some_iff.mp hfirst
    refine .inl ⟨i, by omega, by simpa using hfree, fun j hj => ?_, rfl⟩
    simpa using hlow j (Nat.zero_le j) hj

/-- A call about another id changes nothing for this one. -/
theorem live_concat_of_ne (hne : e.id ≠ id) : Live (history ++ [e]) id r ↔ Live history id r := by
  rw [live_concat]
  constructor
  · rintro (⟨-, rfl⟩ | ⟨-, h⟩)
    · exact absurd rfl hne
    · exact h
  · exact fun h => .inr ⟨hne, h⟩

/-- A call that returns or gives back no id leaves the table as it is. -/
theorem HoldsLive.same (h : HoldsLive s) (he : e.id = 255) :
    HoldsLive ⟨s.handlers, s.history ++ [e]⟩ := by
  intro id hid
  obtain ⟨o, hslot, hlive⟩ := h id hid
  refine ⟨o, hslot, fun r => ?_⟩
  rw [live_concat_of_ne fun hsame => hid (hsame.symm.trans he)]
  exact hlive r

/-- A call that puts what it is about into the slot of its id. -/
theorem HoldsLive.update (h : HoldsLive s) (hj : j ≠ 255) (he : e.id = j)
    {o : Option DiskRegistration} (ho : ∀ r, e = .registered r j ↔ o = some r) :
    HoldsLive ⟨Function.update s.handlers j.toNat (.slot o), s.history ++ [e]⟩ := by
  intro id hid
  by_cases hid' : id = j
  · refine ⟨o, ?_, fun r => ?_⟩
    · rw [hid']
      exact Function.update_self _ _ _
    · rw [live_concat, hid', ← ho r]
      constructor
      · rintro (⟨-, hr⟩ | ⟨hne, -⟩)
        · exact hr
        · exact absurd he hne
      · exact fun hr => .inl ⟨hj, hr⟩
  · obtain ⟨o', hslot, hlive⟩ := h id hid
    refine ⟨o', (Function.update_of_ne ?_ _ _).trans hslot, fun r => ?_⟩
    · exact fun hsame => hid' (BitVec.eq_of_toNat_eq hsame)
    · rw [live_concat_of_ne fun hsame => hid' (hsame.symm.trans he)]
      exact hlive r

theorem HoldsLive.exec (h : HoldsLive s) (c : DiskCall) : HoldsLive (c.exec s) := by
  cases c with
  | register r =>
    rw [DiskCall.exec]
    obtain ⟨i, hi, -, -, he⟩ | ⟨-, he⟩ := registerDiskHandler_cases s.handlers r
    · obtain ⟨hmax, hnat⟩ := ofNat_ne_max hi
      have hupdate := h.update hmax (e := .registered r (BitVec.ofNat 8 i)) (o := some r) rfl
        fun q => by simp
      rw [hnat] at hupdate
      rw [he]
      exact hupdate
    · rw [he]
      exact h.same rfl
  | unregister j =>
    rw [DiskCall.exec, unregisterDiskHandler]
    split_ifs with hj
    · exact h.same hj
    · exact h.update hj rfl fun q => by simp

end Step

/-- The table holds the live registrations after any calls. -/
theorem holdsLive_runDiskCalls (cs : List DiskCall) : HoldsLive (runDiskCalls cs) := by
  induction cs using List.reverseRecOn with
  | nil =>
    refine fun id hid => ⟨none, rfl, fun r => iff_of_false ?_ (by simp)⟩
    rintro ⟨-, p, q, he, -⟩
    exact absurd he (by simp [runDiskCalls])
  | append_singleton cs c ih =>
    rw [runDiskCalls, List.foldl_concat]
    exact ih.exec c

-- ════════════════════════════════════════════════════════════════════════
-- Requests and iteration
-- ════════════════════════════════════════════════════════════════════════

/-- The drive number of a port of a driver. -/
def driveNumber (id : BitVec 8) (port : BitVec 16) : BitVec 32 :=
  (id.setWidth 32 <<< 16) ||| port.setWidth 32

theorem driveNumber_id (id : BitVec 8) (port : BitVec 16) :
    ((driveNumber id port) >>> 16).setWidth 8 = id := by
  apply BitVec.eq_of_getLsbD_eq
  intro i hi
  simp only [driveNumber]
  interval_cases i <;> simp

theorem driveNumber_port (id : BitVec 8) (port : BitVec 16) :
    (driveNumber id port).setWidth 16 = port := by
  apply BitVec.eq_of_getLsbD_eq
  intro i hi
  simp only [driveNumber]
  interval_cases i <;> simp

section Requests

variable {s : DiskState} {function : DiskHandler → BitVec 32} {driveNum : BitVec 32}
  {startSector : BitVec 64} {count buf : BitVec 32} {r : DiskRegistration} {id : BitVec 8}

/-- A request to a live driver. -/
theorem diskSectors_of_live (h : HoldsLive s)
    (hlive : Live s.history ((driveNum >>> 16).setWidth 8) r) :
    diskSectors function s.handlers driveNum startSector count buf =
      .call (function (.slot (some r))) (driveNum.setWidth 16) startSector count buf := by
  rw [diskSectors, if_neg hlive.1, h.handlers_eq hlive]
  rfl

/-- A request to no live driver. -/
theorem diskSectors_of_not_live (h : HoldsLive s)
    (hnone : ∀ r, ¬ Live s.history ((driveNum >>> 16).setWidth 8) r) :
    diskSectors function s.handlers driveNum startSector count buf = .code invalidFilesystem := by
  unfold diskSectors
  dsimp only
  split_ifs with hmax hunused
  · rfl
  · rfl
  · obtain ⟨r, hr⟩ := (h.used_iff hmax).mp (by simpa using hunused)
    exact absurd hr (hnone r)

/-- The positions behind an id that are in use, in increasing order. -/
def usedAfter (handlers : DiskHandlers) (id : ℕ) : List ℕ :=
  (List.range' (id + 1) (255 - (id + 1))).filter fun i => (handlers i).used

/-- Going on from an id lists what is in use behind it. -/
theorem iterate_nextDiskHandler (handlers : DiskHandlers) (id : BitVec 8) (k : ℕ) :
    (nextDiskHandler handlers)^[k + 1] id =
      ((usedAfter handlers id.toNat).map (BitVec.ofNat 8)).getD k 255 := by
  induction k generalizing id with
  | zero =>
    rw [Function.iterate_one, nextDiskHandler, usedAfter]
    cases hfirst : Search.first (fun i => (handlers i).used) (id.toNat + 1)
        (255 - (id.toNat + 1)) with
    | none => rw [Search.filter_range'_of_none hfirst]; rfl
    | some i => rw [Search.filter_range'_of_some hfirst]; rfl
  | succ k ih =>
    rw [Function.iterate_succ_apply, ih, nextDiskHandler]
    cases hfirst : Search.first (fun i => (handlers i).used) (id.toNat + 1)
        (255 - (id.toNat + 1)) with
    | none =>
      have hmax : usedAfter handlers (255#8).toNat = [] := rfl
      have hnone : usedAfter handlers id.toNat = [] := Search.filter_range'_of_none hfirst
      rw [hnone]
      exact congrArg (fun l => (l.map (BitVec.ofNat 8)).getD k 255) hmax
    | some i =>
      obtain ⟨hlow, hi, -, -⟩ := Search.first_eq_some_iff.mp hfirst
      have hnat : (BitVec.ofNat 8 i).toNat = i := (ofNat_ne_max (by omega)).2
      have hend : id.toNat + 1 + (255 - (id.toNat + 1)) = 255 := by omega
      dsimp only
      rw [hnat, usedAfter, usedAfter, Search.filter_range'_of_some hfirst, hend, List.map_cons,
        List.getD_cons_succ]

theorem mem_usedAfter {handlers : DiskHandlers} {i j : ℕ} :
    j ∈ usedAfter handlers i ↔ i < j ∧ j < 255 ∧ (handlers j).used = true := by
  rw [usedAfter, List.mem_filter, List.mem_range'_1]
  constructor
  · rintro ⟨⟨hlow, hhigh⟩, hused⟩
    exact ⟨by omega, by omega, hused⟩
  · rintro ⟨hlow, hhigh, hused⟩
    exact ⟨⟨by omega, by omega⟩, hused⟩

/-- The live ids behind an id, in increasing order. -/
theorem HoldsLive.liveAfter (h : HoldsLive s) (id : BitVec 8) :
    ((usedAfter s.handlers id.toNat).map (BitVec.ofNat 8)).Pairwise (· < ·) ∧
      ∀ j, j ∈ (usedAfter s.handlers id.toNat).map (BitVec.ofNat 8) ↔
        id < j ∧ ∃ r, Live s.history j r := by
  constructor
  · rw [List.pairwise_map]
    have hsorted : (usedAfter s.handlers id.toNat).Pairwise (· < ·) :=
      List.Pairwise.filter _ List.pairwise_lt_range'
    refine hsorted.imp_of_mem fun {i j} hi hj hlt => ?_
    rw [BitVec.lt_def, (ofNat_ne_max (mem_usedAfter.mp hi).2.1).2,
      (ofNat_ne_max (mem_usedAfter.mp hj).2.1).2]
    exact hlt
  · intro j
    rw [List.mem_map]
    constructor
    · rintro ⟨i, hi, rfl⟩
      obtain ⟨hlow, hhigh, hused⟩ := mem_usedAfter.mp hi
      obtain ⟨hmax, hnat⟩ := ofNat_ne_max hhigh
      rw [← hnat] at hused
      refine ⟨?_, (h.used_iff hmax).mp hused⟩
      rw [BitVec.lt_def, hnat]
      exact hlow
    · rintro ⟨hlow, r, hr⟩
      have hused := (h.used_iff hr.1).mpr ⟨r, hr⟩
      exact ⟨j.toNat, mem_usedAfter.mpr ⟨hlow, lt_of_ne_max hr.1, hused⟩,
        by rw [BitVec.ofNat_toNat, BitVec.setWidth_eq]⟩

end Requests

/-- The table as a partial map from ids to registrations. -/
structure HandlersMap (s : DiskState) : Prop where
  lowest : ∀ r, (registerDiskHandler s.handlers r).1 ≠ 255 →
    (∀ q, ¬ Live s.history (registerDiskHandler s.handlers r).1 q) ∧
      ∀ j < (registerDiskHandler s.handlers r).1, ∃ q, Live s.history j q
  full : ∀ r, (registerDiskHandler s.handlers r).1 = 255 ↔ ∀ id ≠ 255, ∃ q, Live s.history id q
  fullKeeps : ∀ r, (registerDiskHandler s.handlers r).1 = 255 →
    (registerDiskHandler s.handlers r).2 = s.handlers
  read : ∀ id r port startSector count buf, Live s.history id r →
    diskReadSectors s.handlers (driveNumber id port) startSector count buf =
      .call r.readFunction port startSector count buf
  write : ∀ id r port startSector count buf, Live s.history id r →
    diskWriteSectors s.handlers (driveNumber id port) startSector count buf =
      .call r.writeFunction port startSector count buf
  invalid : ∀ id port startSector count buf, (∀ r, ¬ Live s.history id r) →
    diskReadSectors s.handlers (driveNumber id port) startSector count buf =
        .code invalidFilesystem ∧
      diskWriteSectors s.handlers (driveNumber id port) startSector count buf =
        .code invalidFilesystem
  next : ∀ id, ∃ ids : List (BitVec 8), ids.Pairwise (· < ·) ∧
    (∀ j, j ∈ ids ↔ id < j ∧ ∃ r, Live s.history j r) ∧
      ∀ k, (nextDiskHandler s.handlers)^[k + 1] id = ids.getD k 255

theorem HoldsLive.handlersMap {s : DiskState} (h : HoldsLive s) : HandlersMap s := by
  refine ⟨fun r hne => ?_, fun r => ?_, fun r hmax => ?_, fun id r port _ _ _ hlive => ?_,
    fun id r port _ _ _ hlive => ?_, fun id port _ _ _ hnone => ?_, fun id => ?_⟩
  · obtain ⟨i, hi, hfree, hlow, he⟩ | ⟨-, he⟩ := registerDiskHandler_cases s.handlers r
    · obtain ⟨hmax, hnat⟩ := ofNat_ne_max hi
      rw [he]
      refine ⟨fun q hq => ?_, fun j hj => ?_⟩
      · have hused := (h.used_iff hmax).mpr ⟨q, hq⟩
        rw [hnat, hfree] at hused
        exact Bool.false_ne_true hused
      · have hlt : j.toNat < i := by
          rw [← hnat]
          exact hj
        refine (h.used_iff ?_).mp (hlow j.toNat hlt)
        rintro rfl
        exact absurd hlt (by simp; omega)
    · rw [he] at hne
      exact absurd rfl hne
  · obtain ⟨i, hi, hfree, hlow, he⟩ | ⟨hall, he⟩ := registerDiskHandler_cases s.handlers r
    · obtain ⟨hmax, hnat⟩ := ofNat_ne_max hi
      rw [he]
      refine iff_of_false hmax fun hlive => ?_
      have hused := (h.used_iff hmax).mpr (hlive _ hmax)
      rw [hnat, hfree] at hused
      exact Bool.false_ne_true hused
    · rw [he]
      exact iff_of_true rfl fun id hid => (h.used_iff hid).mp (hall _ (lt_of_ne_max hid))
  · obtain ⟨i, hi, -, -, he⟩ | ⟨-, he⟩ := registerDiskHandler_cases s.handlers r
    · rw [he] at hmax
      exact absurd hmax (ofNat_ne_max hi).1
    · rw [he]
  · rw [← driveNumber_id id port] at hlive
    rw [diskReadSectors, diskSectors_of_live h hlive, driveNumber_port]
    rfl
  · rw [← driveNumber_id id port] at hlive
    rw [diskWriteSectors, diskSectors_of_live h hlive, driveNumber_port]
    rfl
  · rw [← driveNumber_id id port] at hnone
    exact ⟨diskSectors_of_not_live h hnone, diskSectors_of_not_live h hnone⟩
  · obtain ⟨hsorted, hmem⟩ := h.liveAfter id
    exact ⟨_, hsorted, hmem, iterate_nextDiskHandler s.handlers id⟩

/-- After any calls on the empty table, the table is a partial map with fresh ids. -/
theorem handlers_map (cs : List DiskCall) : HandlersMap (runDiskCalls cs) :=
  (holdsLive_runDiskCalls cs).handlersMap

end FirstOs
