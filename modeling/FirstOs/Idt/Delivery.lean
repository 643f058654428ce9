import FirstOs.Idt.Irq
import Mathlib.Algebra.BigOperators.Group.List.Basic

/-!
# Delivery of interrupts

For the devices, the controllers, the stubs and `irq_handler` together are a mailbox: a request is
posted, and served once by the handler that is installed when it is taken. When no more requests
come in and the handlers return, everything that was posted has been served after a bounded number
of steps.

## Main definitions

- `IrqSystem.mailbox` — the system as a mailbox
- `Posted` — what an event is for the mailbox
- `IrqEvent.Inner` — the events of the processor

## Main results

- `mailbox_simulates` — every run is one of the mailbox
- `requests_delivered` — nothing is lost, made up or delivered twice
- `drains` — everything is served in the end
-/

namespace FirstOs

open Pic

variable {H : Type*} {symbol : Stub → BitVec 32} {s s' : IrqSystem H} {e : IrqEvent H} {l : Line}

/-- The number of a line. -/
def irqOf (l : Line) : BitVec 32 := BitVec.ofNat 32 l.number

theorem irqOf_injective : Function.Injective irqOf := by
  intro l l' h
  apply Line.number_injective
  have hlt := l.number_lt
  have hlt' := l'.number_lt
  have hnat := congrArg BitVec.toNat h
  simp only [irqOf, BitVec.toNat_ofNat] at hnat
  omega

theorem intNoOf_sub (l : Line) : intNoOf l - 32 = irqOf l := by
  cases l with
  | inl i =>
    revert i
    decide
  | inr j =>
    revert j
    decide

/-- The system as a mailbox. -/
def IrqSystem.mailbox (s : IrqSystem H) : Mailbox (BitVec 32) H where
  waiting := s.pics.pending.map ⟨irqOf, irqOf_injective⟩
  handler := s.irqRoutines.entry
  served := s.taken.map fun x => (x.1 - 32, x.2)

theorem mem_waiting : irqOf l ∈ s.mailbox.waiting ↔ l ∈ s.pics.pending :=
  Finset.mem_map' ⟨irqOf, irqOf_injective⟩

/-- What an event is for the mailbox. -/
inductive Posted : IrqEvent H → List (Mailbox.Event (BitVec 32) H) → Prop
  | request (l : Line) : Posted (.request l) [.post (irqOf l)]
  | interrupt (irq : BitVec 32) : Posted .interrupt [.serve irq]
  | send : Posted .send []
  | iret : Posted .iret []
  | install (irq : Fin 16) (handler : H) :
    Posted (.install irq handler) [.install (BitVec.ofNat 32 irq) (some handler)]
  | uninstall (irq : Fin 16) : Posted (.uninstall irq) [.install (BitVec.ofNat 32 irq) none]
  | setFlag (enabled : Bool) : Posted (.setFlag enabled) []

/-- One request more that waits. -/
theorem mailbox_request (hl : l ≠ .inl cascade) :
    Mailbox.act (.post (irqOf l)) s.mailbox =
      some ({ s with pics := s.pics.request l } : IrqSystem H).mailbox := by
  rw [Mailbox.act, IrqSystem.mailbox, IrqSystem.mailbox, Pair.pending_request hl,
    Finset.map_insert]
  rfl

/-- Taking a line serves its request. -/
theorem mailbox_enter (hl : l ∈ s.pics.pending) :
    Mailbox.act (.serve (irqOf l)) s.mailbox = some (s.enter l).mailbox := by
  rw [Mailbox.act, if_pos (mem_waiting.mpr hl)]
  simp only [IrqSystem.mailbox, IrqSystem.enter, Pair.pending_accept, Finset.map_erase,
    List.map_cons, intNoOf_sub]
  rfl

theorem entry_none : IrqRoutines.entry (fun _ => none : IrqRoutines H) = fun _ => none := by
  funext i
  rw [IrqRoutines.entry]
  split_ifs <;> rfl

/-- An entry that is set. -/
theorem entry_update (irqRoutines : IrqRoutines H) (irq : Fin 16) (handler : Option H) :
    IrqRoutines.entry (Function.update irqRoutines irq handler) =
      Function.update irqRoutines.entry (BitVec.ofNat 32 irq) handler := by
  have hlt := irq.isLt
  have hirq : (BitVec.ofNat 32 irq.val).toNat = irq.val := by
    rw [BitVec.toNat_ofNat]
    omega
  funext i
  rw [IrqRoutines.entry]
  obtain rfl | hne := eq_or_ne i (BitVec.ofNat 32 irq)
  · simp only [hirq, hlt, dif_pos, Fin.eta, Function.update_self]
  · rw [Function.update_of_ne hne, IrqRoutines.entry]
    split_ifs with hi
    · refine Function.update_of_ne (fun heq => hne ?_) ..
      rw [← heq, BitVec.ofNat_toNat, BitVec.setWidth_eq]
    · rfl

/-- A byte of `irq_handler` leaves the requests alone. -/
theorem pending_out {n : BitVec 32} {w : BitVec 16 × BitVec 8}
    {ws : List (BitVec 16 × BitVec 8)} {fs : List Frame} (h : s.InService symbol)
    (hframes : s.frames = ⟨n, w :: ws⟩ :: fs) :
    (s.pics.out w.1 w.2).pending = s.pics.pending := by
  have hframe := h.running
  rw [hframes] at hframe
  obtain ⟨heq, -⟩ | ⟨-, heq, -⟩ := (List.forall_mem_cons.mp hframe).1.send
  · cases heq
    rw [Pair.out_master_end, Pair.pending_endMaster]
  · cases heq
    rw [Pair.out_slave_end, Pair.pending_endSlave]

theorem mailbox_act (hsymbol : Function.Injective symbol) (h : s.InService symbol)
    (hact : e.act symbol s = some s') :
    ∃ as, Posted e as ∧ Run.events Mailbox.act as s.mailbox = some s'.mailbox := by
  cases e with
  | request l =>
    obtain ⟨hl, rfl⟩ := request_inv hact
    exact ⟨_, .request l, Run.events_cons (mailbox_request hl)⟩
  | interrupt =>
    obtain ⟨-, l, hnext, rfl⟩ := interrupt_inv hsymbol h.started h.gates hact
    exact ⟨_, .interrupt (irqOf l),
      Run.events_cons (mailbox_enter (Pair.takes_of_nextLine hnext).pending)⟩
  | send =>
    obtain ⟨n, w, ws, fs, hframes, rfl⟩ := send_inv hact
    refine ⟨[], .send, ?_⟩
    rw [Run.events_nil, IrqSystem.mailbox, IrqSystem.mailbox, pending_out h hframes]
  | iret =>
    obtain ⟨n, fs, hframes, rfl⟩ := iret_inv hact
    exact ⟨[], .iret, rfl⟩
  | install irq handler =>
    obtain rfl := Option.some.inj hact
    refine ⟨_, .install irq handler, Run.events_cons ?_⟩
    rw [Mailbox.act, IrqSystem.mailbox, IrqSystem.mailbox, irqInstallHandler, entry_update]
  | uninstall irq =>
    obtain rfl := Option.some.inj hact
    refine ⟨_, .uninstall irq, Run.events_cons ?_⟩
    rw [Mailbox.act, IrqSystem.mailbox, IrqSystem.mailbox, irqUninstallHandler, entry_update]
  | setFlag enabled =>
    obtain rfl := Option.some.inj hact
    exact ⟨[], .setFlag enabled, rfl⟩

theorem mailbox_events (hsymbol : Function.Injective symbol) {es : List (IrqEvent H)}
    (h : s.InService symbol) (hrun : Run.events (IrqEvent.act symbol) es s = some s') :
    ∃ ass, List.Forall₂ Posted es ass ∧
      Run.events Mailbox.act ass.flatten s.mailbox = some s'.mailbox :=
  Run.events_simulate
    (fun _ _ _ hI hact => ⟨inService_act hsymbol hI hact, mailbox_act hsymbol hI hact⟩) h hrun

/-- After `idt_init` the system is an empty mailbox, and every run of it is one of the mailbox. -/
theorem mailbox_simulates (hsymbol : Function.Injective symbol) (address : BitVec 32)
    (boot : Interrupts) (es : List (IrqEvent H)) (s : IrqSystem H)
    (hrun : Run.events (IrqEvent.act symbol) es (.booted H symbol address boot) = some s) :
    ∃ ass, List.Forall₂ Posted es ass ∧
      Run.events Mailbox.act ass.flatten ⟨∅, fun _ => none, []⟩ = some s.mailbox := by
  have hpics : (IrqSystem.booted H symbol address boot).pics = startedPics :=
    outPorts_picWrites boot.pics
  have hempty : (IrqSystem.booted H symbol address boot).mailbox = ⟨∅, fun _ => none, []⟩ := by
    rw [IrqSystem.mailbox, hpics]
    exact congrArg (Mailbox.mk ∅ · []) entry_none
  rw [← hempty]
  exact mailbox_events hsymbol (inService_booted symbol address boot) hrun

-- ════════════════════════════════════════════════════════════════════════
-- Requests
-- ════════════════════════════════════════════════════════════════════════

/-- How often an interrupt of a line has been taken. -/
def IrqSystem.timesTaken (l : Line) (s : IrqSystem H) : ℕ :=
  s.taken.countP fun x => x.1 = intNoOf l

theorem timesServed_mailbox (l : Line) (s : IrqSystem H) :
    s.mailbox.timesServed (irqOf l) = s.timesTaken l := by
  rw [Mailbox.timesServed, IrqSystem.mailbox, List.countP_map, IrqSystem.timesTaken]
  refine List.countP_congr fun x _ => ?_
  simp only [Function.comp_apply, decide_eq_true_iff, ← intNoOf_sub]
  exact sub_left_inj

theorem waits_mailbox (l : Line) (s : IrqSystem H) :
    s.mailbox.waits (irqOf l) = if l ∈ s.pics.pending then 1 else 0 := by
  simp only [Mailbox.waits, mem_waiting]

/-- How often a line is requested. -/
def timesRequested (l : Line) (es : List (IrqEvent H)) : ℕ :=
  es.countP fun
    | .request m => m = l
    | _ => false

/-- The handler an event installs for a line. -/
def IrqEvent.installs (irq : BitVec 32) : IrqEvent H → Option (Option H)
  | .install j handler => if BitVec.ofNat 32 j = irq then some (some handler) else none
  | .uninstall j => if BitVec.ofNat 32 j = irq then some none else none
  | _ => none

/-- The handler of a line after some events. -/
def lastInstalled (irq : BitVec 32) (es : List (IrqEvent H)) : Option H :=
  (es.filterMap (IrqEvent.installs irq)).getLast?.getD none

section Traces

variable {as : List (Mailbox.Event (BitVec 32) H)} {es : List (IrqEvent H)}
  {ass : List (List (Mailbox.Event (BitVec 32) H))}

theorem Posted.timesPosted (h : Posted e as) (l : Line) :
    Mailbox.timesPosted (irqOf l) as = timesRequested l [e] := by
  cases h with
  | request m => simp [Mailbox.timesPosted, timesRequested, irqOf_injective.eq_iff]
  | _ => rfl

theorem Posted.installed (h : Posted e as) (irq : BitVec 32) :
    as.filterMap (Mailbox.installed irq) = (IrqEvent.installs irq e).toList := by
  cases h with
  | install j handler =>
    simp only [IrqEvent.installs, List.filterMap_cons, List.filterMap_nil, Mailbox.installed]
    split_ifs <;> rfl
  | uninstall j =>
    simp only [IrqEvent.installs, List.filterMap_cons, List.filterMap_nil, Mailbox.installed]
    split_ifs <;> rfl
  | _ => rfl

theorem timesPosted_flatten (h : List.Forall₂ Posted es ass) (l : Line) :
    Mailbox.timesPosted (irqOf l) ass.flatten = timesRequested l es := by
  induction h with
  | nil => rfl
  | @cons e as es ass hone _ ih =>
    have hsplit : timesRequested l (e :: es) = timesRequested l [e] + timesRequested l es := by
      rw [timesRequested, ← List.singleton_append, List.countP_append]
      rfl
    rw [hsplit, ← hone.timesPosted, ← ih, List.flatten_cons, Mailbox.timesPosted,
      List.countP_append]
    rfl

theorem installed_flatten (h : List.Forall₂ Posted es ass) (irq : BitVec 32) :
    ass.flatten.filterMap (Mailbox.installed irq) = es.filterMap (IrqEvent.installs irq) := by
  induction h with
  | nil => rfl
  | @cons e as es ass hone _ ih =>
    rw [List.flatten_cons, List.filterMap_append, hone.installed, ih, List.filterMap_cons]
    cases IrqEvent.installs irq e <;> rfl

end Traces

/-- Requests of a line, taken or waiting. -/
theorem taken_add_waiting (hsymbol : Function.Injective symbol) {es : List (IrqEvent H)}
    (h : s.InService symbol) (hrun : Run.events (IrqEvent.act symbol) es s = some s') (l : Line) :
    s.timesTaken l + (if l ∈ s.pics.pending then 1 else 0) ≤
        s'.timesTaken l + (if l ∈ s'.pics.pending then 1 else 0) ∧
      s'.timesTaken l + (if l ∈ s'.pics.pending then 1 else 0) ≤
        s.timesTaken l + (if l ∈ s.pics.pending then 1 else 0) + timesRequested l es := by
  obtain ⟨ass, hposted, hmailbox⟩ := mailbox_events hsymbol h hrun
  have hle := Mailbox.served_add_waiting_le (irqOf l) hmailbox
  have hge := Mailbox.le_served_add_waiting (irqOf l) hmailbox
  rw [timesPosted_flatten hposted] at hle
  simp only [timesServed_mailbox, waits_mailbox] at hle hge
  exact ⟨hge, hle⟩

section Boot

variable (hsymbol : Function.Injective symbol) (address : BitVec 32) (boot : Interrupts)
  (es : List (IrqEvent H)) (s : IrqSystem H)

include hsymbol

theorem irqRoutines_of_run
    (hrun : Run.events (IrqEvent.act symbol) es (.booted H symbol address boot) = some s)
    (irq : BitVec 32) : s.irqRoutines.entry irq = lastInstalled irq es := by
  obtain ⟨ass, hposted, hmailbox⟩ := mailbox_simulates hsymbol address boot es s hrun
  have hhandler := Mailbox.events_handler irq hmailbox
  rw [installed_flatten hposted] at hhandler
  exact hhandler

/-- In every run after `idt_init`: a line that is requested waits, or is taken afterwards; a line is
    not taken more often than it is requested; and the interrupt taken next is one that waits, for
    which `irq_handler` calls the handler installed last. -/
theorem requests_delivered
    (hrun : Run.events (IrqEvent.act symbol) es (.booted H symbol address boot) = some s) :
    (∀ p q l s₁, es = p ++ .request l :: q →
        Run.events (IrqEvent.act symbol) p (.booted H symbol address boot) = some s₁ →
        l ∈ s.pics.pending ∨ s₁.timesTaken l < s.timesTaken l) ∧
      (∀ l, s.timesTaken l + (if l ∈ s.pics.pending then 1 else 0) ≤ timesRequested l es) ∧
      ∀ s', IrqEvent.act symbol .interrupt s = some s' → ∃ l ∈ s.pics.pending,
        s'.taken = (intNoOf l, lastInstalled (irqOf l) es) :: s.taken := by
  have hboot : (IrqSystem.booted H symbol address boot).InService symbol :=
    inService_booted symbol address boot
  refine ⟨?_, fun l => ?_, fun s' hact => ?_⟩
  · rintro p q l s₁ rfl hp
    rw [Run.events_append_of hp] at hrun
    obtain ⟨ass, hposted, hmailbox⟩ :=
      mailbox_events hsymbol (inService_events hsymbol hboot hp) hrun
    obtain ⟨as, ass, hone, -, rfl⟩ := List.forall₂_cons_left_iff.mp hposted
    cases hone
    obtain hwaits | hserved := Mailbox.waits_or_served hmailbox
    · exact .inl (mem_waiting.mp hwaits)
    · rw [timesServed_mailbox, timesServed_mailbox] at hserved
      exact .inr hserved
  · have hle := (taken_add_waiting hsymbol hboot hrun l).2
    have hpending : (IrqSystem.booted H symbol address boot).pics.pending = ∅ := by
      change (outPorts picWrites boot.pics).pending = ∅
      rw [outPorts_picWrites]
      rfl
    rw [hpending, if_neg (Finset.notMem_empty l)] at hle
    have hzero : (IrqSystem.booted H symbol address boot).timesTaken l = 0 := rfl
    omega
  · have h := inService_events hsymbol hboot hrun
    obtain ⟨-, l, hnext, rfl⟩ := interrupt_inv hsymbol h.started h.gates hact
    refine ⟨l, (Pair.takes_of_nextLine hnext).pending, ?_⟩
    rw [← irqRoutines_of_run hsymbol address boot es s hrun, ← intNoOf_sub]
    rfl

end Boot

theorem requests_delivered_nested :
    ∃ s, Run.events (IrqEvent.act spacedStubs) nestedInterrupts
        (.booted ℕ spacedStubs 0xC0200000 coldInterrupts) = some s ∧
      ∀ l, s.timesTaken l + (if l ∈ s.pics.pending then 1 else 0) ≤
        timesRequested l nestedInterrupts := by
  have hsome : (Run.events (IrqEvent.act spacedStubs) nestedInterrupts
      (.booted ℕ spacedStubs 0xC0200000 coldInterrupts)).isSome = true := by decide +kernel
  obtain ⟨s, hs⟩ := Option.isSome_iff_exists.mp hsome
  exact ⟨s, hs, (requests_delivered spacedStubs_injective _ _ _ s hs).2.1⟩

-- ════════════════════════════════════════════════════════════════════════
-- The end of the requests
-- ════════════════════════════════════════════════════════════════════════

/-- The events of the processor: an interrupt is taken, `irq_handler` goes on, or returns. -/
def IrqEvent.Inner : IrqEvent H → Prop
  | .interrupt => True
  | .send => True
  | .iret => True
  | _ => False

/-- The processor takes what waits, now or when the interrupts that it handles are over. -/
def IrqSystem.Open (s : IrqSystem H) : Prop := s.enabled = true ∨ s.frames ≠ []

/-- A bound for what is left to do. -/
def IrqSystem.left (s : IrqSystem H) : ℕ :=
  4 * s.pics.pending.card + (s.frames.map fun f => f.writes.length + 1).sum

theorem length_irqWrites (n : BitVec 32) : (irqWrites n).length ≤ 2 := by
  rw [irqWrites]
  split_ifs <;> simp

/-- The processor gets on. -/
theorem inner_act (hsymbol : Function.Injective symbol) (h : s.InService symbol) (he : e.Inner)
    (hact : e.act symbol s = some s') : s'.Open ∧ s'.left < s.left := by
  cases e with
  | interrupt =>
    obtain ⟨-, l, hnext, rfl⟩ := interrupt_inv hsymbol h.started h.gates hact
    have hpending := (Pair.takes_of_nextLine hnext).pending
    have hcard : (s.pics.pending.erase l).card + 1 = s.pics.pending.card :=
      Finset.card_erase_add_one hpending
    have hlength := length_irqWrites (intNoOf l)
    refine ⟨.inr (List.cons_ne_nil _ _), ?_⟩
    simp only [IrqSystem.left, IrqSystem.enter, Pair.pending_accept, List.map_cons, List.sum_cons]
    omega
  | send =>
    obtain ⟨n, w, ws, fs, hframes, rfl⟩ := send_inv hact
    refine ⟨.inr (List.cons_ne_nil _ _), ?_⟩
    simp only [IrqSystem.left, pending_out h hframes, hframes, List.map_cons, List.sum_cons,
      List.length_cons]
    omega
  | iret =>
    obtain ⟨n, fs, hframes, rfl⟩ := iret_inv hact
    refine ⟨.inl rfl, ?_⟩
    simp only [IrqSystem.left, hframes, List.map_cons, List.sum_cons, List.length_nil]
    omega
  | _ => exact absurd he id

/-- When the processor cannot get on, nothing is being handled and nothing waits. -/
theorem idle_of_stuck (hsymbol : Function.Injective symbol) (h : s.InService symbol)
    (hopen : s.Open) (hstuck : ∀ e : IrqEvent H, e.Inner → e.act symbol s = none) :
    s.frames = [] ∧ s.pics.pending = ∅ := by
  have hframes : s.frames = [] := by
    match hall : s.frames with
    | [] => rfl
    | ⟨n, []⟩ :: fs =>
      have hiret := hstuck .iret trivial
      rw [IrqEvent.act, hall] at hiret
      exact absurd hiret (by simp)
    | ⟨n, w :: ws⟩ :: fs =>
      have hsend := hstuck .send trivial
      rw [IrqEvent.act, hall] at hsend
      exact absurd hsend (by simp)
  refine ⟨hframes, Finset.eq_empty_of_forall_notMem fun l hl => ?_⟩
  obtain ⟨s', hs'⟩ := h.exists_interrupt hsymbol hframes (hopen.resolve_right (absurd hframes)) hl
  rw [hstuck .interrupt trivial] at hs'
  exact absurd hs' (by simp)

theorem timesRequested_inner {es : List (IrqEvent H)} (hinner : ∀ e ∈ es, e.Inner) (l : Line) :
    timesRequested l es = 0 := by
  rw [timesRequested, List.countP_eq_zero]
  intro e he
  have hone := hinner e he
  cases e with
  | request m => exact absurd hone id
  | _ => simp

/-- From every state that a run after `idt_init` reaches, and in which interrupts are let in or some
    are being handled: when no more requests come and the handlers do no more than return, the
    processor takes a bounded number of steps, in whatever order, and when it cannot get on nothing
    is being handled, nothing waits, and what waited has been taken once, and nothing else. -/
theorem drains (hsymbol : Function.Injective symbol) (address : BitVec 32) (boot : Interrupts)
    (es inner : List (IrqEvent H)) (s s' : IrqSystem H)
    (hrun : Run.events (IrqEvent.act symbol) es (.booted H symbol address boot) = some s)
    (hopen : s.Open) (hinner : ∀ e ∈ inner, e.Inner)
    (hrun' : Run.events (IrqEvent.act symbol) inner s = some s') :
    inner.length ≤ s.left ∧
      ((∀ e : IrqEvent H, e.Inner → e.act symbol s' = none) →
        s'.frames = [] ∧ s'.pics.pending = ∅ ∧
        ∀ l, s'.timesTaken l = s.timesTaken l + if l ∈ s.pics.pending then 1 else 0) := by
  have h := inService_events hsymbol (inService_booted symbol address boot) hrun
  have hstep : ∀ e ∈ inner, ∀ a b, (a.InService symbol ∧ a.Open) → e.act symbol a = some b →
      (b.InService symbol ∧ b.Open) ∧ b.left < a.left := by
    rintro e he a b ⟨ha, -⟩ hact
    obtain ⟨hbopen, hlt⟩ := inner_act hsymbol ha (hinner e he) hact
    exact ⟨⟨inService_act hsymbol ha hact, hbopen⟩, hlt⟩
  have hbound := Run.events_length_le hstep ⟨h, hopen⟩ hrun'
  refine ⟨by omega, fun hstuck => ?_⟩
  obtain ⟨h', hopen'⟩ := Run.events_invariant
    (fun e he a hI b hact => (hstep e he a b hI hact).1) ⟨h, hopen⟩ hrun'
  obtain ⟨hframes, hpending⟩ := idle_of_stuck hsymbol h' hopen' hstuck
  refine ⟨hframes, hpending, fun l => ?_⟩
  obtain ⟨hge, hle⟩ := taken_add_waiting hsymbol h hrun' l
  rw [hpending, if_neg (Finset.notMem_empty l), timesRequested_inner hinner] at hle
  rw [hpending, if_neg (Finset.notMem_empty l)] at hge
  omega

/-- Both interrupts end, the timer first. -/
def endings : List (IrqEvent ℕ) := [.send, .iret, .send, .iret]

theorem drains_nested :
    ∃ s s', Run.events (IrqEvent.act spacedStubs) nestedInterrupts
        (.booted ℕ spacedStubs 0xC0200000 coldInterrupts) = some s ∧
      Run.events (IrqEvent.act spacedStubs) endings s = some s' ∧ endings.length ≤ s.left := by
  have hsome : ((Run.events (IrqEvent.act spacedStubs) nestedInterrupts
      (.booted ℕ spacedStubs 0xC0200000 coldInterrupts)).any fun s =>
        s.frames.length = 2 ∧
          (Run.events (IrqEvent.act spacedStubs) endings s).isSome) = true := by
    decide +kernel
  obtain ⟨s, hs, hrest⟩ := (Option.any_eq_true _ _).mp hsome
  obtain ⟨hframes, hsome'⟩ := of_decide_eq_true hrest
  obtain ⟨s', hs'⟩ := Option.isSome_iff_exists.mp hsome'
  have hopen : s.Open := .inr fun hnil => by simp [hnil] at hframes
  have hinner : ∀ e ∈ endings, e.Inner := by simp [endings, IrqEvent.Inner]
  exact ⟨s, s', hs, hs', (drains spacedStubs_injective _ _ _ _ s s' hs hopen hinner hs').1⟩

end FirstOs
