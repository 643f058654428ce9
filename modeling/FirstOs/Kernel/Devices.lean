import FirstOs.Console.Ring
import FirstOs.Idt.Delivery
import FirstOs.Kernel.Loop
import FirstOs.Library.Pit

/-!
# The timer and the keyboard

The kernel after `pit_init` and `keyboard_init`: the timer and the keyboard request interrupts, the
handlers of `pit.c` and `keyboard.c` run, and the terminal loop goes on whenever no interrupt is
being handled.

The controller of the keyboard holds one byte. It requests an interrupt when it gets one, and takes
no other until the byte is read from its port; a port that is read again gives the byte that came
last. `keyboard_handler` reads the port twice, the scan code from the first byte and `press` from the
second, and another byte may come in between. It does not read the port while `input` is clear;
there is no interrupt for that byte again, so the keyboard is dead from then on.

What is said of keys and ticks is said of runs in which the ring of characters stays in its range:
behind `buffer.buffer[-1]` are other variables of the kernel, `ticks` among them.

## Main definitions

- `pitInit` — what `pit_init` does
- `Kernel`, `KernelEvent.act` — the kernel and what happens to it
- `KernelRun` — the runs in which the ring stays in its range
- `KernelEvent.Whole` — no byte comes between the two reads
- `Kernel.Dead` — a byte that nobody reads

## Main results

- `keys_handled_once` — every byte is handled once and in order, but for one that is not read yet,
  where none comes between the two reads
- `kernelRun_of_no_backspace` — the ring stays in its range without the backspace key
- `dead_iff` — when the keyboard is dead
- `dead_forever` — and that it stays so
- `ticks_of_run` — what `ticks` counts
-/

namespace FirstOs

open Pic

-- ════════════════════════════════════════════════════════════════════════
-- The kernel
-- ════════════════════════════════════════════════════════════════════════

/-- The handlers that are installed. -/
inductive KernelHandler where
  | onIrq0
  | keyboardHandler
deriving DecidableEq

/-- The interrupts, the variable of `pit.c`, the byte in the controller of the keyboard and whether
    it is still to be read, and the terminal loop. -/
structure Kernel where
  irq : IrqSystem KernelHandler
  ticks : BitVec 64
  data : BitVec 8
  full : Bool
  loop : LoopPoint × Terminal

/-- `freq`. -/
def freq : BitVec 32 := 100

/-- `pit_init`: the handler, and the bytes it sends to the ports of the timer. -/
def pitInit (irqRoutines : IrqRoutines KernelHandler) :
    IrqRoutines KernelHandler × List (BitVec 16 × BitVec 8) :=
  let divisor : BitVec 32 := 1193180 / freq
  (irqInstallHandler irq0 .onIrq0 irqRoutines,
    [(0x43, 0x36), (0x40, (divisor &&& 0xFF).setWidth 8),
      (0x40, ((divisor >>> 8) &&& 0xFF).setWidth 8)])

/-- The timer counts down from 11931, whatever it did before. -/
theorem outs_pitInit (irqRoutines : IrqRoutines KernelHandler) (p : Pit) :
    p.outs (pitInit irqRoutines).2 = ⟨3, 3, none, 11931⟩ := Pit.out_both _ _ p

/-- The kernel when `terminal_init` begins, with nothing requested before. -/
def Kernel.started (symbol : Stub → BitVec 32) (address : BitVec 32) (boot : Interrupts)
    (t₀ : Terminal) : Kernel :=
  let irq := IrqSystem.booted KernelHandler symbol address boot
  { irq := { irq with
      irqRoutines := irqInstallHandler irq1 .keyboardHandler (pitInit irq.irqRoutines).1 }
    ticks := 0
    data := 0
    full := false
    loop := loopStart t₀ }

/-- What happens to the kernel: the timer, a key, another device, the processor, and the terminal
    loop. While an interrupt is handled a byte may come from the keyboard before the handler reads
    its port, and one after that: between the two reads of `keyboard_handler` if it reads it. -/
inductive KernelEvent where
  | tick
  | press (data : BitVec 8)
  | other (l : Line)
  | interrupt (early between : Option (BitVec 8))
  | send
  | iret
  | step

namespace KernelEvent

/-- A device requests an interrupt, or the processor goes on. -/
def irq (symbol : Stub → BitVec 32) (e : IrqEvent KernelHandler) (s : Kernel) : Option Kernel :=
  (e.act symbol s.irq).map fun irq => { s with irq := irq }

/-- A byte comes from the keyboard, which sends none while one is to be read. -/
def arrive (symbol : Stub → BitVec 32) (data : BitVec 8) (s : Kernel) : Option Kernel :=
  if s.full then none else irq symbol (.request keyboardLine) { s with data := data, full := true }

/-- A byte may come. -/
def arriveAny (symbol : Stub → BitVec 32) : Option (BitVec 8) → Kernel → Option Kernel
  | none, s => some s
  | some data, s => arrive symbol data s

end KernelEvent

/-- `in_port_b(0x60)`: the byte that came last, and that it has been read. -/
def Kernel.readPort (s : Kernel) : BitVec 8 × Kernel := (s.data, { s with full := false })

/-- The byte `keyboard_handler` acts on: its scan code is that of the first byte read, and it is
    that of a press or a release as the second one. -/
def scanned (first second : BitVec 8) : BitVec 8 := (first &&& 0x7F) ||| (second &&& 0x80)

theorem scanned_self (data : BitVec 8) : scanned data data = data := by
  revert data
  decide +kernel

theorem scanned_code (first second : BitVec 8) : scanned first second &&& 0x7F = first &&& 0x7F := by
  have hcode : (0x7F : BitVec 8) &&& 0x7F = 0x7F := by decide
  have hpress : (0x80 : BitVec 8) &&& 0x7F = 0 := by decide
  rw [scanned, BitVec.and_or_distrib_right, BitVec.and_assoc, BitVec.and_assoc, hcode, hpress]
  exact (congrArg _ BitVec.and_zero).trans BitVec.or_zero

-- the press of a key whose release comes between the two reads is lost
example : scanned 0x1E 0x9E = 0x9E := by decide

/-- The handlers: `on_irq0`, and `keyboard_handler`, which reads the port only if `input` is set. -/
def KernelHandler.run (symbol : Stub → BitVec 32) (between : Option (BitVec 8)) :
    KernelHandler → Kernel → Option Kernel
  | onIrq0, s => KernelEvent.arriveAny symbol between { s with ticks := s.ticks + 1 }
  | keyboardHandler, s =>
    if s.loop.2.keyboard.input = false then KernelEvent.arriveAny symbol between s
    else
      let (first, s) := s.readPort
      (KernelEvent.arriveAny symbol between s).bind fun s =>
        let (second, s) := s.readPort
        (FirstOs.keyboardHandler (scanned first second) s.loop.2).map fun t =>
          { s with loop := (s.loop.1, t) }

namespace KernelEvent

/-- The handlers run when the interrupt is taken; they do not let others in. -/
def act (symbol : Stub → BitVec 32) (prompt : List (BitVec 8)) :
    KernelEvent → Kernel → Option Kernel
  | tick, s => irq symbol (.request timerLine) s
  | press data, s => arrive symbol data s
  | other l, s => if l = timerLine ∨ l = keyboardLine then none else irq symbol (.request l) s
  | interrupt early between, s =>
    ((irq symbol .interrupt s).bind (arriveAny symbol early)).bind fun s =>
      match s.irq.taken.head? with
      | some (_, some handler) => handler.run symbol between s
      | _ => arriveAny symbol between s
  | send, s => irq symbol .send s
  | iret, s => irq symbol .iret s
  | step, s =>
    if s.irq.frames.isEmpty then
      (loopStep prompt s.loop.1 s.loop.2).map fun loop => { s with loop := loop }
    else none

/-- No byte comes between the two reads of a handler. -/
def Whole : KernelEvent → Prop
  | interrupt _ between => between = none
  | _ => True

instance : (e : KernelEvent) → Decidable e.Whole
  | interrupt _ between => inferInstanceAs (Decidable (between = none))
  | tick | press _ | other _ | send | iret | step => .isTrue trivial

end KernelEvent

/-- A run in which the ring of characters stays in its range. -/
structure KernelRun (symbol : Stub → BitVec 32) (prompt : List (BitVec 8)) (es : List KernelEvent)
    (s s' : Kernel) : Prop where
  run : Run.events (KernelEvent.act symbol prompt) es s = some s'
  ring : ∀ p, p <+: es → ∀ c, Run.events (KernelEvent.act symbol prompt) p s = some c →
    c.loop.2.keyboard.InRange

-- ════════════════════════════════════════════════════════════════════════
-- One event
-- ════════════════════════════════════════════════════════════════════════

/-- What holds of the kernel: the interrupts and the handlers. -/
structure Kernel.Works (symbol : Stub → BitVec 32) (s : Kernel) : Prop where
  service : s.irq.InService symbol
  routines : s.irq.irqRoutines =
    irqInstallHandler irq1 .keyboardHandler (irqInstallHandler irq0 .onIrq0 fun _ => none)

/-- The byte that is still to be read. -/
def Kernel.unread (s : Kernel) : List (BitVec 8) := if s.full then [s.data] else []

/-- The keyboard requests an interrupt only for a byte that is still to be read. -/
def Kernel.Requested (s : Kernel) : Prop := keyboardLine ∈ s.irq.pics.pending → s.full = true

/-- A byte is to be read, and no interrupt for it waits. -/
def Kernel.Dead (s : Kernel) : Prop := s.full = true ∧ keyboardLine ∉ s.irq.pics.pending

/-- Other lines leave the request of a line alone. -/
theorem mem_pending_request {p : Pair} {k l : Line} (h2 : l ≠ .inl cascade) (hne : l ≠ k) :
    k ∈ (p.request l).pending ↔ k ∈ p.pending := by
  rw [Pair.pending_request h2, Finset.mem_insert, or_iff_right hne.symm]

theorem mem_pending_accept {p : Pair} {k l : Line} (hne : l ≠ k) :
    k ∈ (p.accept l).pending ↔ k ∈ p.pending := by
  rw [Pair.pending_accept, Finset.mem_erase, and_iff_right hne.symm]

section Taking

variable {symbol : Stub → BitVec 32} {prompt : List (BitVec 8)} {s s' : Kernel} {e : KernelEvent}
  {l : Line} {b : Option (BitVec 8)}

/-- The handler of a line. -/
theorem Kernel.Works.handler (h : s.Works symbol) (l : Line) :
    s.irq.irqRoutines.entry (intNoOf l - 32) =
      if l = timerLine then some .onIrq0 else if l = keyboardLine then some .keyboardHandler else none := by
  rw [h.routines, intNoOf_sub]
  cases l with
  | inl i =>
    revert i
    decide
  | inr j =>
    revert j
    decide

theorem request_cases {l : Line} (hact : KernelEvent.irq symbol (.request l) s = some s') :
    l ≠ .inl cascade ∧ s' = { s with irq := { s.irq with pics := s.irq.pics.request l } } := by
  obtain ⟨irq, hirq, rfl⟩ := Option.map_eq_some_iff.mp hact
  obtain ⟨hl, rfl⟩ := request_inv hirq
  exact ⟨hl, rfl⟩

theorem arrive_cases {data : BitVec 8} (hact : KernelEvent.arrive symbol data s = some s') :
    s.full = false ∧ s' = { s with
      data := data
      full := true
      irq := { s.irq with pics := s.irq.pics.request keyboardLine } } := by
  rw [KernelEvent.arrive] at hact
  split_ifs at hact with hfull
  obtain ⟨-, rfl⟩ := request_cases hact
  exact ⟨Bool.eq_false_iff.mpr hfull, rfl⟩

/-- What a byte that may come leaves alone, and what becomes of it. -/
structure Kernel.Arrived (b : Option (BitVec 8)) (s s' : Kernel) : Prop where
  ticks : s'.ticks = s.ticks
  loop : s'.loop = s.loop
  routines : s'.irq.irqRoutines = s.irq.irqRoutines
  taken : s'.irq.taken = s.irq.taken
  timer : timerLine ∈ s'.irq.pics.pending ↔ timerLine ∈ s.irq.pics.pending
  data : s'.data = s.data ∨ s'.data ∈ b.toList
  unread : s'.unread = s.unread ++ b.toList
  requested : s.Requested → s'.Requested
  dead : s'.Dead ↔ s.Dead

theorem Kernel.Arrived.timesTaken (h : s.Arrived b s') (l : Line) :
    s'.irq.timesTaken l = s.irq.timesTaken l := congrArg (List.countP _) h.taken

theorem arrived_arriveAny (hact : KernelEvent.arriveAny symbol b s = some s') :
    s.Arrived b s' := by
  cases b with
  | none =>
    obtain rfl := Option.some.inj hact
    exact ⟨rfl, rfl, rfl, rfl, Iff.rfl, .inl rfl, (List.append_nil _).symm, id, Iff.rfl⟩
  | some data =>
    obtain ⟨hfull, rfl⟩ := arrive_cases hact
    have hin : keyboardLine ∈ (s.irq.pics.request keyboardLine).pending := by
      rw [Pair.pending_request (by decide)]
      exact Finset.mem_insert_self _ _
    refine ⟨rfl, rfl, rfl, rfl, mem_pending_request (by decide) (by decide), .inr (by simp), ?_,
      fun _ _ => rfl, iff_of_false (fun hdead => hdead.2 hin) fun hdead => ?_⟩
    · rw [Kernel.unread, Kernel.unread, if_pos rfl, hfull]
      rfl
    · exact absurd (hfull.symm.trans hdead.1) (by decide)

/-- An event of the devices or of the processor keeps the kernel in order. -/
theorem works_irq (hsymbol : Function.Injective symbol) {e' : IrqEvent KernelHandler}
    (h : s.Works symbol) (hact : KernelEvent.irq symbol e' s = some s')
    (hroutines : s'.irq.irqRoutines = s.irq.irqRoutines) : s'.Works symbol := by
  obtain ⟨irq, hirq, rfl⟩ := Option.map_eq_some_iff.mp hact
  exact ⟨inService_act hsymbol h.service hirq, hroutines.trans h.routines⟩

theorem works_arriveAny (hsymbol : Function.Injective symbol) (h : s.Works symbol)
    (hact : KernelEvent.arriveAny symbol b s = some s') : s'.Works symbol := by
  have harrived := arrived_arriveAny hact
  cases b with
  | none => exact Option.some.inj hact ▸ h
  | some data =>
    rw [KernelEvent.arriveAny, KernelEvent.arrive] at hact
    split_ifs at hact
    exact works_irq hsymbol (s := { s with data := data, full := true }) ⟨h.service, h.routines⟩
      hact harrived.routines

/-- What taking an interrupt does, when `s₁` is the kernel the handler finds: it counts, or leaves
    the byte in the controller, or hands one to the terminal, or does nothing. -/
theorem act_interrupt_cases (hsymbol : Function.Injective symbol) (h : s.Works symbol)
    {early between : Option (BitVec 8)}
    (hact : KernelEvent.act symbol prompt (.interrupt early between) s = some s') :
    ∃ l s₁, s.irq.pics.nextLine = some l ∧
      KernelEvent.arriveAny symbol early { s with irq := s.irq.enter l } = some s₁ ∧
      (l = timerLine ∧
          KernelEvent.arriveAny symbol between { s₁ with ticks := s₁.ticks + 1 } = some s' ∨
        l = keyboardLine ∧ s.loop.2.keyboard.input = false ∧
          KernelEvent.arriveAny symbol between s₁ = some s' ∨
        l = keyboardLine ∧ s.loop.2.keyboard.input = true ∧
          (∃ s₂ t, KernelEvent.arriveAny symbol between { s₁ with full := false } = some s₂ ∧
            keyboardHandler (scanned s₁.data s₂.data) s₂.loop.2 = some t ∧
            s' = { s₂ with full := false, loop := (s₂.loop.1, t) }) ∨
        l ≠ timerLine ∧ l ≠ keyboardLine ∧
          KernelEvent.arriveAny symbol between s₁ = some s') := by
  obtain ⟨s₁, hs₁, hrun⟩ := Option.bind_eq_some_iff.mp hact
  obtain ⟨c, hc, hearly⟩ := Option.bind_eq_some_iff.mp hs₁
  obtain ⟨irq, hirq, rfl⟩ := Option.map_eq_some_iff.mp hc
  obtain ⟨-, l, hnext, rfl⟩ := interrupt_inv hsymbol h.service.started h.service.gates hirq
  refine ⟨l, s₁, hnext, hearly, ?_⟩
  have harrived := arrived_arriveAny hearly
  have hhead : s₁.irq.taken.head? =
      some (intNoOf l, s.irq.irqRoutines.entry (intNoOf l - 32)) := congrArg List.head? harrived.taken
  have hclear : s₁.loop.2.keyboard.input = s.loop.2.keyboard.input := by rw [harrived.loop]
  rw [hhead, h.handler l] at hrun
  by_cases h0 : l = timerLine
  · rw [if_pos h0] at hrun
    exact .inl ⟨h0, hrun⟩
  · rw [if_neg h0] at hrun
    by_cases h1 : l = keyboardLine
    · rw [if_pos h1] at hrun
      change (if s₁.loop.2.keyboard.input = false then _ else _) = some s' at hrun
      rw [hclear] at hrun
      split_ifs at hrun with hinput
      · exact .inr (.inl ⟨h1, hinput, hrun⟩)
      · obtain ⟨s₂, hs₂, hrun⟩ := Option.bind_eq_some_iff.mp hrun
        obtain ⟨t, ht, rfl⟩ := Option.map_eq_some_iff.mp hrun
        exact .inr (.inr (.inl ⟨h1, by simpa using hinput, s₂, t, hs₂, ht, rfl⟩))
    · rw [if_neg h1] at hrun
      exact .inr (.inr (.inr ⟨h0, h1, hrun⟩))

/-- The bytes of `irq_handler` and its return. -/
theorem inner_cases (h : s.Works symbol) {e' : IrqEvent KernelHandler}
    (he : e' = .send ∨ e' = .iret) (hact : KernelEvent.irq symbol e' s = some s') :
    ∃ irq, s' = { s with irq := irq } ∧ irq.irqRoutines = s.irq.irqRoutines ∧
      irq.pics.pending = s.irq.pics.pending ∧ irq.taken = s.irq.taken := by
  obtain ⟨irq, hirq, rfl⟩ := Option.map_eq_some_iff.mp hact
  refine ⟨irq, rfl, ?_⟩
  obtain rfl | rfl := he
  · obtain ⟨n, w, ws, fs, hframes, rfl⟩ := send_inv hirq
    exact ⟨rfl, pending_out h.service hframes, rfl⟩
  · obtain ⟨n, fs, hframes, rfl⟩ := iret_inv hirq
    exact ⟨rfl, rfl, rfl⟩

theorem works_act (hsymbol : Function.Injective symbol) (h : s.Works symbol)
    (hact : e.act symbol prompt s = some s') : s'.Works symbol := by
  cases e with
  | tick =>
    obtain ⟨-, rfl⟩ := request_cases hact
    exact works_irq hsymbol h hact rfl
  | press data => exact works_arriveAny (b := some data) hsymbol h hact
  | other l =>
    rw [KernelEvent.act] at hact
    split_ifs at hact
    obtain ⟨-, rfl⟩ := request_cases hact
    exact works_irq hsymbol h hact rfl
  | interrupt early between =>
    obtain ⟨l, s₁, hnext, hearly, hcase⟩ := act_interrupt_cases hsymbol h hact
    have henter : Kernel.Works symbol { s with irq := s.irq.enter l } :=
      ⟨h.service.enter hnext, h.routines⟩
    have h₁ := works_arriveAny hsymbol henter hearly
    obtain ⟨-, hs⟩ | ⟨-, -, hs⟩ | ⟨-, -, s₂, t, hs, -, rfl⟩ | ⟨-, -, hs⟩ := hcase
    · exact works_arriveAny hsymbol (s := { s₁ with ticks := s₁.ticks + 1 })
        ⟨h₁.service, h₁.routines⟩ hs
    · exact works_arriveAny hsymbol h₁ hs
    · have h₂ := works_arriveAny hsymbol (s := { s₁ with full := false })
        ⟨h₁.service, h₁.routines⟩ hs
      exact ⟨h₂.service, h₂.routines⟩
    · exact works_arriveAny hsymbol h₁ hs
  | send =>
    obtain ⟨irq, rfl, hroutines, -, -⟩ := inner_cases h (.inl rfl) hact
    exact works_irq hsymbol h hact hroutines
  | iret =>
    obtain ⟨irq, rfl, hroutines, -, -⟩ := inner_cases h (.inr rfl) hact
    exact works_irq hsymbol h hact hroutines
  | step =>
    rw [KernelEvent.act] at hact
    split_ifs at hact
    obtain ⟨loop, -, rfl⟩ := Option.map_eq_some_iff.mp hact
    exact ⟨h.service, h.routines⟩

/-- Nothing is requested of a kernel that begins. -/
theorem pending_started (address : BitVec 32) (boot : Interrupts) (t₀ : Terminal) (l : Line) :
    l ∉ (Kernel.started symbol address boot t₀).irq.pics.pending := by
  intro hin
  change l ∈ (outPorts picWrites boot.pics).pending at hin
  rw [outPorts_picWrites] at hin
  revert l
  decide

theorem works_started (symbol : Stub → BitVec 32) (address : BitVec 32) (boot : Interrupts)
    (t₀ : Terminal) : (Kernel.started symbol address boot t₀).Works symbol := by
  have hboot : (IrqSystem.booted KernelHandler symbol address boot).InService symbol :=
    inService_booted symbol address boot
  exact ⟨⟨hboot.started, hboot.gates, hboot.running, hboot.master, hboot.slave⟩, rfl⟩

theorem works_events (hsymbol : Function.Injective symbol) {es : List KernelEvent}
    (h : s.Works symbol) (hrun : Run.events (KernelEvent.act symbol prompt) es s = some s') :
    s'.Works symbol :=
  Run.events_invariant (fun _ _ _ hI _ hact => works_act hsymbol hI hact) h hrun

end Taking

-- ════════════════════════════════════════════════════════════════════════
-- Keys
-- ════════════════════════════════════════════════════════════════════════

/-- The bytes the keyboard sends. -/
def KernelEvent.pressed (es : List KernelEvent) : List (BitVec 8) :=
  es.flatMap fun
    | .press data => [data]
    | .interrupt early between => early.toList ++ between.toList
    | _ => []

section Keys

variable {symbol : Stub → BitVec 32} {prompt : List (BitVec 8)} {s s' : Kernel} {e : KernelEvent}
  {es : List KernelEvent} {ls : List LoopEvent}

/-- What an event is for the terminal loop, and what becomes of the bytes. A byte is handed over only
    while `input` is set, and none by a dead keyboard. -/
structure LoopPart (prompt : List (BitVec 8)) (e : KernelEvent) (s s' : Kernel)
    (ls : List LoopEvent) : Prop where
  run : Run.events (LoopEvent.act prompt) ls s.loop = some s'.loop
  short : ls.length ≤ 1
  silent : s.loop.2.keyboard.input = false → LoopEvent.keys ls = []
  dead : s.Dead → LoopEvent.keys ls = []
  codes : ∀ k ∈ LoopEvent.keys ls, ∃ first ∈ s.data :: KernelEvent.pressed [e],
    k &&& 0x7F = first &&& 0x7F
  data : s'.data ∈ s.data :: KernelEvent.pressed [e]
  bytes : e.Whole → s.Requested → s'.Requested ∧
    s.unread ++ KernelEvent.pressed [e] = LoopEvent.keys ls ++ s'.unread

/-- An event that is none of the loop. -/
theorem LoopPart.idle (hloop : s'.loop = s.loop)
    (hdata : s'.data ∈ s.data :: KernelEvent.pressed [e])
    (hbytes : e.Whole → s.Requested → s'.Requested ∧
      s.unread ++ KernelEvent.pressed [e] = s'.unread) : LoopPart prompt e s s' [] where
  run := congrArg some hloop.symm
  short := Nat.zero_le 1
  silent _ := rfl
  dead _ := rfl
  codes _ hk := absurd hk List.not_mem_nil
  data := hdata
  bytes := hbytes

/-- A byte that may come before the handler and one that may come while it runs. -/
theorem LoopPart.of_arrived {s₀ s₁ s₂ : Kernel} {early between : Option (BitVec 8)}
    (hearly : s₀.Arrived early s₁) (hbetween : s₂.Arrived between s')
    (hloop : s₀.loop = s.loop) (hdata : s₀.data = s.data) (hfull : s₀.full = s.full)
    (hreq : s.Requested → s₀.Requested) (hsame : s₂.loop = s₁.loop ∧ s₂.data = s₁.data ∧
      s₂.full = s₁.full ∧ (s₁.Requested → s₂.Requested)) :
    LoopPart prompt (.interrupt early between) s s' [] := by
  obtain ⟨hloop₂, hdata₂, hfull₂, hreq₂⟩ := hsame
  have hpressed : KernelEvent.pressed [.interrupt early between] =
      early.toList ++ between.toList := List.append_nil _
  refine .idle ?_ ?_ fun _ hs => ⟨hbetween.requested (hreq₂ (hearly.requested (hreq hs))), ?_⟩
  · rw [hbetween.loop, hloop₂, hearly.loop, hloop]
  · rw [hpressed, List.mem_cons, List.mem_append]
    obtain hb | hb := hbetween.data
    · rw [hb, hdata₂]
      obtain hd | hd := hearly.data
      · exact .inl (hd.trans hdata)
      · exact .inr (.inl hd)
    · exact .inr (.inr hb)
  · have hunread : s₂.unread = s₁.unread := by rw [Kernel.unread, Kernel.unread, hfull₂, hdata₂]
    have hunread₀ : s₀.unread = s.unread := by rw [Kernel.unread, Kernel.unread, hfull, hdata]
    rw [hpressed, hbetween.unread, hunread, hearly.unread, hunread₀, List.append_assoc]

/-- Accepting the request of a line. -/
theorem requested_enter {l : Line} (h : s.Requested) :
    Kernel.Requested { s with irq := s.irq.enter l } := fun hin =>
  h (Finset.mem_of_mem_erase (Pair.pending_accept s.irq.pics l ▸ hin))

/-- A byte that `keyboard_handler` reads is handed over. -/
theorem LoopPart.of_read {early between : Option (BitVec 8)} {s₁ s₂ : Kernel} {t : Terminal}
    (hnext : s.irq.pics.nextLine = some keyboardLine)
    (hs₁ : KernelEvent.arriveAny symbol early { s with irq := s.irq.enter keyboardLine } = some s₁)
    (hinput : s.loop.2.keyboard.input = true)
    (hs₂ : KernelEvent.arriveAny symbol between { s₁ with full := false } = some s₂)
    (ht : keyboardHandler (scanned s₁.data s₂.data) s₂.loop.2 = some t) :
    LoopPart prompt (.interrupt early between) s { s₂ with full := false, loop := (s₂.loop.1, t) }
      [.key (scanned s₁.data s₂.data)] := by
  have hin := (Pair.takes_of_nextLine hnext).pending
  have hearly := arrived_arriveAny hs₁
  have hbetween := arrived_arriveAny hs₂
  have hloop : s₂.loop = s.loop := hbetween.loop.trans hearly.loop
  have hpressed : KernelEvent.pressed [.interrupt early between] =
      early.toList ++ between.toList := List.append_nil _
  have hfirst : s₁.data ∈ s.data :: KernelEvent.pressed [.interrupt early between] := by
    rw [hpressed, List.mem_cons, List.mem_append]
    exact hearly.data.imp_right .inl
  rw [hloop] at ht ⊢
  refine ⟨Run.events_cons (congrArg (Option.map _) ht), le_rfl, fun hclear => ?_,
    fun hdead => absurd hin hdead.2, fun k hk => ⟨s₁.data, hfirst, ?_⟩, ?_, fun hwhole hs => ?_⟩
  · exact absurd (hinput.symm.trans hclear) (by decide)
  · rw [List.mem_singleton.mp hk, scanned_code]
  · obtain hdata | hdata := hbetween.data
    · exact hdata ▸ hfirst
    · rw [hpressed, List.mem_cons, List.mem_append]
      exact .inr (.inr hdata)
  · -- the controller holds a byte, so none has come before the handler reads it
    obtain rfl : between = none := hwhole
    obtain rfl := Option.some.inj hs₂
    cases early with
    | some data =>
      obtain ⟨hempty, -⟩ := arrive_cases hs₁
      exact absurd ((hs hin).symm.trans hempty) (by decide)
    | none =>
      obtain rfl := Option.some.inj hs₁
      constructor
      · intro hstill
        change keyboardLine ∈ (s.irq.pics.accept keyboardLine).pending at hstill
        rw [Pair.pending_accept] at hstill
        exact absurd hstill (Finset.notMem_erase _ _)
      · rw [Kernel.unread, if_pos (hs hin), scanned_self]
        rfl

theorem loop_act (hsymbol : Function.Injective symbol) (h : s.Works symbol)
    (hact : e.act symbol prompt s = some s') : ∃ ls, LoopPart prompt e s s' ls := by
  cases e with
  | tick =>
    obtain ⟨h2, rfl⟩ := request_cases hact
    refine ⟨[], .idle rfl List.mem_cons_self fun _ hs => ⟨fun hin => hs ?_, List.append_nil _⟩⟩
    exact (mem_pending_request h2 (by decide)).mp hin
  | press data =>
    have harrived := arrived_arriveAny (b := some data) hact
    refine ⟨[], .idle harrived.loop ?_ fun _ hs => ⟨harrived.requested hs, harrived.unread.symm⟩⟩
    exact List.mem_cons.mpr harrived.data
  | other l =>
    rw [KernelEvent.act] at hact
    split_ifs at hact with hl
    obtain ⟨h2, rfl⟩ := request_cases hact
    refine ⟨[], .idle rfl List.mem_cons_self fun _ hs => ⟨fun hin => hs ?_, List.append_nil _⟩⟩
    exact (mem_pending_request h2 fun heq => hl (.inr heq)).mp hin
  | interrupt early between =>
    obtain ⟨l, s₁, hnext, hs₁, hcase⟩ := act_interrupt_cases hsymbol h hact
    have hearly := arrived_arriveAny hs₁
    obtain ⟨-, hs⟩ | ⟨-, -, hs⟩ | ⟨rfl, hinput, s₂, t, hs, ht, rfl⟩ | ⟨-, -, hs⟩ := hcase
    · exact ⟨[], .of_arrived hearly (arrived_arriveAny hs) rfl rfl rfl requested_enter
        ⟨rfl, rfl, rfl, id⟩⟩
    · exact ⟨[], .of_arrived hearly (arrived_arriveAny hs) rfl rfl rfl requested_enter
        ⟨rfl, rfl, rfl, id⟩⟩
    · exact ⟨_, .of_read hnext hs₁ hinput hs ht⟩
    · exact ⟨[], .of_arrived hearly (arrived_arriveAny hs) rfl rfl rfl requested_enter
        ⟨rfl, rfl, rfl, id⟩⟩
  | send =>
    obtain ⟨irq, rfl, -, hpending, -⟩ := inner_cases h (.inl rfl) hact
    exact ⟨[], .idle rfl List.mem_cons_self fun _ hs =>
      ⟨fun hin => hs (hpending ▸ hin), List.append_nil _⟩⟩
  | iret =>
    obtain ⟨irq, rfl, -, hpending, -⟩ := inner_cases h (.inr rfl) hact
    exact ⟨[], .idle rfl List.mem_cons_self fun _ hs =>
      ⟨fun hin => hs (hpending ▸ hin), List.append_nil _⟩⟩
  | step =>
    rw [KernelEvent.act] at hact
    split_ifs at hact
    obtain ⟨loop, hloop, rfl⟩ := Option.map_eq_some_iff.mp hact
    exact ⟨[.step], Run.events_cons hloop, le_rfl, fun _ => rfl, fun _ => rfl,
      fun _ hk => absurd hk List.not_mem_nil, List.mem_cons_self,
      fun _ hs => ⟨hs, List.append_nil _⟩⟩

theorem pressed_cons (e : KernelEvent) (es : List KernelEvent) :
    KernelEvent.pressed (e :: es) = KernelEvent.pressed [e] ++ KernelEvent.pressed es := by
  rw [KernelEvent.pressed, KernelEvent.pressed, KernelEvent.pressed, List.flatMap_cons,
    List.flatMap_singleton]

/-- Bytes and the session they are typed in: before the first wait there are none. -/
def Typed (prompt : List (BitVec 8)) (t₀ : Terminal) (keys : List (BitVec 8))
    (loop : LoopPoint × Terminal) : Prop :=
  keys = [] ∧ Starting prompt t₀ loop ∨
    ∃ es, TerminalEvent.keys es = keys ∧ Behind prompt t₀ es loop

/-- One event of the loop goes on with the session, if it is not a key before the first wait. -/
theorem typed_act {t₀ : Terminal} {keys : List (BitVec 8)} {loop loop' : LoopPoint × Terminal}
    {l : LoopEvent} (h : Typed prompt t₀ keys loop) (hact : l.act prompt loop = some loop')
    (hkey : loop.2.keyboard.input = false → LoopEvent.keys [l] = []) :
    Typed prompt t₀ (keys ++ LoopEvent.keys [l]) loop' := by
  obtain ⟨rfl, hstart⟩ | ⟨es, rfl, hbehind⟩ := h
  · rw [hkey hstart.2.1]
    obtain hstart' | ⟨hwait, hsession⟩ := starting_act hstart hact
    · exact .inl ⟨rfl, hstart'⟩
    · refine .inr ⟨[], rfl, ?_⟩
      rw [Behind, if_pos hwait]
      exact hsession
  · obtain ⟨es', hkeys, hbehind'⟩ := behind_act hbehind hact
    refine .inr ⟨es ++ es', ?_, hbehind'⟩
    rw [← hkeys]
    exact List.filterMap_append

/-- One event of the kernel goes on with it. -/
theorem LoopPart.typed {t₀ : Terminal} {keys : List (BitVec 8)} (h : LoopPart prompt e s s' ls)
    (htyped : Typed prompt t₀ keys s.loop) :
    Typed prompt t₀ (keys ++ LoopEvent.keys ls) s'.loop := by
  have hrun := h.run
  match ls, h.short, h.silent with
  | [], _, _ =>
    rw [← Option.some.inj hrun]
    change Typed prompt t₀ (keys ++ []) s.loop
    rw [List.append_nil]
    exact htyped
  | [l], _, hsilent =>
    obtain ⟨d, hd, hrun⟩ := Option.bind_eq_some_iff.mp hrun
    obtain rfl := Option.some.inj hrun
    exact typed_act htyped hd hsilent
  | _ :: _ :: _, hlength, _ => exact absurd hlength (by simp)

theorem typed_events (hsymbol : Function.Injective symbol) {t₀ : Terminal}
    {keys : List (BitVec 8)} (h : s.Works symbol) (hs : s.Requested)
    (htyped : Typed prompt t₀ keys s.loop) (hwhole : ∀ e ∈ es, e.Whole)
    (hrun : Run.events (KernelEvent.act symbol prompt) es s = some s') :
    ∃ keys', s.unread ++ KernelEvent.pressed es = keys' ++ s'.unread ∧
      Typed prompt t₀ (keys ++ keys') s'.loop := by
  induction es generalizing s keys with
  | nil =>
    obtain rfl := Option.some.inj hrun
    exact ⟨[], List.append_nil _, by rw [List.append_nil]; exact htyped⟩
  | cons e es ih =>
    obtain ⟨c, hc, hrun⟩ := Option.bind_eq_some_iff.mp hrun
    obtain ⟨he, hes⟩ := List.forall_mem_cons.mp hwhole
    obtain ⟨ls, hls⟩ := loop_act hsymbol h hc
    obtain ⟨hc', hbytes⟩ := hls.bytes he hs
    obtain ⟨keys', hrest, htyped'⟩ := ih (works_act hsymbol h hc) hc' (hls.typed htyped) hes hrun
    refine ⟨LoopEvent.keys ls ++ keys', ?_, by rw [← List.append_assoc]; exact htyped'⟩
    rw [pressed_cons, ← List.append_assoc, hbytes, List.append_assoc, hrest, List.append_assoc]

end Keys

/-- However timer, keyboard, other devices, the processor and the terminal loop take turns, if no
    byte comes between the two reads of a handler: the bytes the keyboard has sent are those of a
    session, in their order, and the one that is not read yet; and whenever the loop waits, the
    terminal is that of the session. -/
theorem keys_handled_once {symbol : Stub → BitVec 32} (hsymbol : Function.Injective symbol)
    (address : BitVec 32) (boot : Interrupts) (prompt : List (BitVec 8)) (t₀ : Terminal)
    (es : List KernelEvent) (s : Kernel) (hwhole : ∀ e ∈ es, e.Whole)
    (hrun : KernelRun symbol prompt es (.started symbol address boot t₀) s) :
    ∃ ts, KernelEvent.pressed es = TerminalEvent.keys ts ++ s.unread ∧
      (s.loop.1 = .wait → session prompt t₀ ts = some s.loop.2) := by
  have hstarted : Typed prompt t₀ [] (loopStart t₀) := .inl ⟨rfl, starting_loopStart prompt t₀⟩
  obtain ⟨keys, hbytes, htyped⟩ :=
    typed_events hsymbol (works_started symbol address boot t₀)
      (fun hin => absurd hin (pending_started address boot t₀ _)) hstarted hwhole hrun.run
  rw [List.nil_append] at htyped
  change KernelEvent.pressed es = keys ++ s.unread at hbytes
  obtain ⟨rfl, hstart⟩ | ⟨ts, rfl, hbehind⟩ := htyped
  · exact ⟨[], hbytes, fun hwait => absurd hwait hstart.1⟩
  · refine ⟨ts, hbytes, fun hwait => ?_⟩
    rw [Behind, if_pos hwait] at hbehind
    exact hbehind

-- ════════════════════════════════════════════════════════════════════════
-- The range of the ring
-- ════════════════════════════════════════════════════════════════════════

section Range

variable {symbol : Stub → BitVec 32} {prompt : List (BitVec 8)} {s s' : Kernel} {e : KernelEvent}
  {es : List KernelEvent} {loop loop' : LoopPoint × Terminal}

theorem printStep_keyboard {color : BitVec 8} {here : List (BitVec 8) → LoopPoint}
    {next : LoopPoint} {str : List (BitVec 8)} {t : Terminal}
    (h : printStep color here next str t = some loop') : loop'.2.keyboard = t.keyboard := by
  obtain ⟨point, t'⟩ := loop'
  obtain ⟨-, -, rfl⟩ | ⟨ch, rest, vga, -, -, -, -, rfl⟩ := printStep_cases h
  · rfl
  · rfl

/-- The loop leaves the ring in its range. -/
theorem loopStep_inRange {point : LoopPoint} {t : Terminal} (h : t.keyboard.InRange)
    (hstep : loopStep prompt point t = some loop') : loop'.2.keyboard.InRange := by
  cases point with
  | newline str | prompt str | command str => exact printStep_keyboard hstep ▸ h
  | stopDelete => exact Option.some.inj hstep ▸ h
  | input => exact Option.some.inj hstep ▸ ⟨h.head, h.tail, h.accessed⟩
  | wait =>
    rw [loopStep] at hstep
    split_ifs at hstep <;> exact Option.some.inj hstep ▸ h
  | copy size i =>
    rw [loopStep] at hstep
    split_ifs at hstep
    · refine Option.some.inj hstep ▸ ⟨h.head, h.tail, fun j hj => ?_⟩
      obtain rfl | hj := List.mem_cons.mp hj
      · exact tmod_inRange (by have hhead := h.head.1; omega)
      · exact h.accessed j hj
    · exact Option.some.inj hstep ▸ h
  | head => exact Option.some.inj hstep ▸ ⟨tmod_inRange h.tail.1, h.tail, h.accessed⟩

/-- So does every key but the backspace. -/
theorem loopEvent_inRange {l : LoopEvent} (h : loop.2.keyboard.InRange)
    (hkey : ∀ data, l = .key data → data ≠ 14) (hact : l.act prompt loop = some loop') :
    loop'.2.keyboard.InRange := by
  obtain ⟨point, t⟩ := loop
  cases l with
  | key data =>
    obtain ⟨t', ht', rfl⟩ := Option.map_eq_some_iff.mp hact
    exact (keyboardHandler_inRange h data).mpr (fun _ hdata => absurd hdata (hkey data rfl)) t' ht'
  | step => exact loopStep_inRange h hact

/-- The byte is that of the backspace key, pressed or released. -/
def BackspaceCode (data : BitVec 8) : Prop := data &&& 0x7F = 14

instance (data : BitVec 8) : Decidable (BackspaceCode data) := inferInstanceAs (Decidable (_ = _))

/-- The ring is in its range, and the byte in the controller is none of the backspace key. -/
def Kernel.RangeKept (s : Kernel) : Prop := s.loop.2.keyboard.InRange ∧ ¬ BackspaceCode s.data

theorem LoopPart.rangeKept {ls : List LoopEvent} (h : LoopPart prompt e s s' ls) (hs : s.RangeKept)
    (hno : ∀ b ∈ KernelEvent.pressed [e], ¬ BackspaceCode b) : s'.RangeKept := by
  have hall : ∀ b ∈ s.data :: KernelEvent.pressed [e], ¬ BackspaceCode b :=
    List.forall_mem_cons.mpr ⟨hs.2, hno⟩
  refine ⟨?_, hall _ h.data⟩
  refine Run.events_invariant (I := fun loop => loop.2.keyboard.InRange)
    (fun l hl loop hloop loop' hact => loopEvent_inRange hloop ?_ hact) hs.1 h.run
  rintro data rfl rfl
  obtain ⟨first, hfirst, hcode⟩ := h.codes 14 (List.mem_filterMap.mpr ⟨_, hl, rfl⟩)
  exact hall first hfirst hcode.symm

/-- Without the backspace key the ring stays in its range. -/
theorem kernelRun_of_no_backspace (hsymbol : Function.Injective symbol) (h : s.Works symbol)
    (hs : s.RangeKept) (hno : ∀ b ∈ KernelEvent.pressed es, ¬ BackspaceCode b)
    (hrun : Run.events (KernelEvent.act symbol prompt) es s = some s') :
    KernelRun symbol prompt es s s' := by
  refine ⟨hrun, fun p hp c hc => ?_⟩
  have hkept : c.Works symbol ∧ c.RangeKept := by
    refine Run.events_invariant (I := fun s => s.Works symbol ∧ s.RangeKept)
      (fun e he s hI s' hact => ?_) ⟨h, hs⟩ hc
    obtain ⟨ls, hls⟩ := loop_act hsymbol hI.1 hact
    refine ⟨works_act hsymbol hI.1 hact, hls.rangeKept hI.2 fun b hb => hno b ?_⟩
    rw [KernelEvent.pressed, List.flatMap_singleton] at hb
    exact List.mem_flatMap.mpr ⟨e, hp.subset he, hb⟩
  exact hkept.2.1

end Range

-- ════════════════════════════════════════════════════════════════════════
-- A byte that nobody reads
-- ════════════════════════════════════════════════════════════════════════

/-- The interrupt of the keyboard is taken while `input` is clear and a byte is to be read. -/
def KernelEvent.Misses (e : KernelEvent) (s : Kernel) : Prop :=
  (∃ early between, e = .interrupt early between) ∧
    s.irq.pics.nextLine = some keyboardLine ∧ s.loop.2.keyboard.input = false ∧ s.full = true

section Dead

variable {symbol : Stub → BitVec 32} {prompt : List (BitVec 8)} {s s' : Kernel} {e : KernelEvent}
  {es : List KernelEvent}

/-- The keyboard is dead after an event when it was, or when the event misses a byte. -/
theorem dead_act (hsymbol : Function.Injective symbol) (h : s.Works symbol)
    (hact : e.act symbol prompt s = some s') : s'.Dead ↔ s.Dead ∨ e.Misses s := by
  -- most events neither revive the keyboard nor miss a byte
  have hsame : (s'.Dead ↔ s.Dead) → ¬ e.Misses s → (s'.Dead ↔ s.Dead ∨ e.Misses s) :=
    fun hiff hnot => hiff.trans (or_iff_left hnot).symm
  have hno : ∀ {e' : KernelEvent}, (∀ early between, e' ≠ .interrupt early between) →
      ¬ e'.Misses s := fun hne ⟨⟨early, between, heq⟩, _⟩ => hne early between heq
  cases e with
  | tick =>
    obtain ⟨h2, rfl⟩ := request_cases hact
    refine hsame ?_ (hno fun _ _ heq => nomatch heq)
    exact and_congr_right fun _ => not_congr (mem_pending_request h2 (by decide))
  | press data =>
    exact hsame (arrived_arriveAny (b := some data) hact).dead (hno fun _ _ heq => nomatch heq)
  | other l =>
    rw [KernelEvent.act] at hact
    split_ifs at hact with hl
    obtain ⟨h2, rfl⟩ := request_cases hact
    refine hsame ?_ (hno fun _ _ heq => nomatch heq)
    exact and_congr_right fun _ => not_congr (mem_pending_request h2 fun heq => hl (.inr heq))
  | interrupt early between =>
    obtain ⟨l, s₁, hnext, hs₁, hcase⟩ := act_interrupt_cases hsymbol h hact
    have hin := (Pair.takes_of_nextLine hnext).pending
    have hentered : Kernel.Dead { s with irq := s.irq.enter l } ↔
        s.full = true ∧ keyboardLine ∉ (s.irq.pics.accept l).pending := Iff.rfl
    have hearly := (arrived_arriveAny hs₁).dead
    obtain ⟨rfl, hs⟩ | ⟨rfl, hinput, hs⟩ | ⟨rfl, hinput, s₂, t, hs, -, rfl⟩ | ⟨-, h1, hs⟩ := hcase
    · refine hsame ((arrived_arriveAny hs).dead.trans (hearly.trans ?_)) fun hmiss => ?_
      · exact and_congr_right fun _ => not_congr (mem_pending_accept (by decide))
      · exact absurd (Option.some.inj (hnext.symm.trans hmiss.2.1)) (by decide)
    · rw [(arrived_arriveAny hs).dead, hearly, hentered, Pair.pending_accept]
      constructor
      · exact fun hdead => .inr ⟨⟨early, between, rfl⟩, hnext, hinput, hdead.1⟩
      · rintro (hdead | hmiss)
        · exact absurd hin hdead.2
        · exact ⟨hmiss.2.2.2, Finset.notMem_erase _ _⟩
    · refine hsame (iff_of_false (fun hdead => nomatch hdead.1) fun hdead => hdead.2 hin)
        fun hmiss => ?_
      exact absurd (hinput.symm.trans hmiss.2.2.1) (by decide)
    · refine hsame ((arrived_arriveAny hs).dead.trans (hearly.trans ?_)) fun hmiss => ?_
      · exact and_congr_right fun _ => not_congr (mem_pending_accept h1)
      · exact h1 (Option.some.inj (hnext.symm.trans hmiss.2.1))
  | send =>
    obtain ⟨irq, rfl, -, hpending, -⟩ := inner_cases h (.inl rfl) hact
    refine hsame ?_ (hno fun _ _ heq => nomatch heq)
    exact and_congr_right fun _ => by rw [hpending]
  | iret =>
    obtain ⟨irq, rfl, -, hpending, -⟩ := inner_cases h (.inr rfl) hact
    refine hsame ?_ (hno fun _ _ heq => nomatch heq)
    exact and_congr_right fun _ => by rw [hpending]
  | step =>
    rw [KernelEvent.act] at hact
    split_ifs at hact
    obtain ⟨loop, -, rfl⟩ := Option.map_eq_some_iff.mp hact
    exact hsame Iff.rfl (hno fun _ _ heq => nomatch heq)

/-- No byte comes while one is to be read. -/
theorem arriveAny_of_full {b : Option (BitVec 8)} (hfull : s.full = true)
    (hact : KernelEvent.arriveAny symbol b s = some s') : b = none ∧ s' = s := by
  cases b with
  | none => exact ⟨rfl, (Option.some.inj hact).symm⟩
  | some data => exact absurd ((arrive_cases hact).1.symm.trans hfull) (by decide)

/-- A dead keyboard sends nothing. -/
theorem pressed_of_dead (hsymbol : Function.Injective symbol) (h : s.Works symbol) (hdead : s.Dead)
    (hact : e.act symbol prompt s = some s') : KernelEvent.pressed [e] = [] := by
  cases e with
  | press data =>
    exact absurd (arriveAny_of_full (b := some data) hdead.1 hact).1 (Option.some_ne_none data)
  | interrupt early between =>
    obtain ⟨l, s₁, hnext, hs₁, hcase⟩ := act_interrupt_cases hsymbol h hact
    have hin := (Pair.takes_of_nextLine hnext).pending
    obtain ⟨rfl, rfl⟩ := arriveAny_of_full (s := { s with irq := s.irq.enter l }) hdead.1 hs₁
    obtain ⟨-, hs⟩ | ⟨rfl, -⟩ | ⟨rfl, -⟩ | ⟨-, -, hs⟩ := hcase
    · obtain ⟨rfl, -⟩ := arriveAny_of_full
        (s := { s with irq := s.irq.enter l, ticks := s.ticks + 1 }) hdead.1 hs
      rfl
    · exact absurd hin hdead.2
    · exact absurd hin hdead.2
    · obtain ⟨rfl, -⟩ := arriveAny_of_full (s := { s with irq := s.irq.enter l }) hdead.1 hs
      rfl
  | _ => rfl

/-- A dead keyboard takes no byte and hands none over. -/
theorem dead_events (hsymbol : Function.Injective symbol) (h : s.Works symbol) (hdead : s.Dead)
    (hrun : Run.events (KernelEvent.act symbol prompt) es s = some s') :
    s'.Dead ∧ KernelEvent.pressed es = [] ∧ ∃ ls, LoopEvent.keys ls = [] ∧
      Run.events (LoopEvent.act prompt) ls s.loop = some s'.loop := by
  induction es generalizing s with
  | nil =>
    obtain rfl := Option.some.inj hrun
    exact ⟨hdead, rfl, [], rfl, rfl⟩
  | cons e es ih =>
    obtain ⟨c, hc, hrun⟩ := Option.bind_eq_some_iff.mp hrun
    obtain ⟨ls, hls⟩ := loop_act hsymbol h hc
    obtain ⟨hdead', hpressed, ls', hkeys, hls'⟩ :=
      ih (works_act hsymbol h hc) ((dead_act hsymbol h hc).mpr (.inl hdead)) hrun
    refine ⟨hdead', ?_, ls ++ ls', ?_, (Run.events_append_of hls.run).trans hls'⟩
    · rw [pressed_cons, pressed_of_dead hsymbol h hdead hc, hpressed, List.append_nil]
    · have hnone := hls.dead hdead
      rw [LoopEvent.keys] at hnone hkeys ⊢
      rw [List.filterMap_append, hnone, hkeys, List.append_nil]

/-- At the wait, with `input` set, the loop stays where it is without keys. -/
theorem waits_without_keys {ls : List LoopEvent} {t : Terminal} {loop : LoopPoint × Terminal}
    (hinput : t.keyboard.input = true) (hkeys : LoopEvent.keys ls = [])
    (hrun : Run.events (LoopEvent.act prompt) ls (.wait, t) = some loop) : loop = (.wait, t) := by
  induction ls with
  | nil => exact (Option.some.inj hrun).symm
  | cons l ls ih =>
    cases l with
    | key data => exact absurd hkeys (by simp [LoopEvent.keys])
    | step =>
      have hstay : LoopEvent.act prompt .step (.wait, t) = some (.wait, t) := by
        change loopStep prompt .wait t = _
        rw [loopStep, if_pos hinput]
      rw [Run.events_cons hstay] at hrun
      exact ih hkeys hrun

end Dead

section Boot

variable {symbol : Stub → BitVec 32} (address : BitVec 32) (boot : Interrupts)
  (prompt : List (BitVec 8)) (t₀ : Terminal) (es : List KernelEvent) (s : Kernel)

/-- The keyboard is dead if and only if its interrupt was taken once while `input` was clear and the
    byte was not read yet. -/
theorem dead_iff (hsymbol : Function.Injective symbol)
    (hrun : KernelRun symbol prompt es (.started symbol address boot t₀) s) :
    s.Dead ↔ ∃ p early between c, p ++ [.interrupt early between] <+: es ∧
      Run.events (KernelEvent.act symbol prompt) p (.started symbol address boot t₀) = some c ∧
      c.irq.pics.nextLine = some keyboardLine ∧ c.loop.2.keyboard.input = false ∧
      c.full = true := by
  have hlive : ¬ (Kernel.started symbol address boot t₀).Dead := fun hdead => nomatch hdead.1
  rw [Run.events_becomes_iff (I := Kernel.Works symbol) (M := KernelEvent.Misses)
    (fun e a b hI hact => ⟨works_act hsymbol hI hact, dead_act hsymbol hI hact⟩)
    (works_started symbol address boot t₀) hlive hrun.run]
  constructor
  · rintro ⟨p, e, c, hp, hc, ⟨early, between, rfl⟩, hmiss⟩
    exact ⟨p, early, between, c, hp, hc, hmiss⟩
  · rintro ⟨p, early, between, c, hp, hc, hmiss⟩
    exact ⟨p, .interrupt early between, c, hp, hc, ⟨early, between, rfl⟩, hmiss⟩

/-- Once the keyboard is dead it stays so: whatever comes after, it sends no byte, none is handed to
    the terminal, and a loop that waits for a line waits for ever. -/
theorem dead_forever (hsymbol : Function.Injective symbol)
    (hrun : Run.events (KernelEvent.act symbol prompt) es (.started symbol address boot t₀) =
      some s) (hdead : s.Dead) (later : List KernelEvent) (s' : Kernel)
    (hlater : Run.events (KernelEvent.act symbol prompt) later s = some s') :
    s'.Dead ∧ KernelEvent.pressed later = [] ∧
      (∃ ls, LoopEvent.keys ls = [] ∧
        Run.events (LoopEvent.act prompt) ls s.loop = some s'.loop) ∧
      (s.loop.1 = .wait → s.loop.2.keyboard.input = true → s'.loop = s.loop) := by
  have h := works_events hsymbol (works_started symbol address boot t₀) hrun
  obtain ⟨hdead', hpressed, ls, hkeys, hls⟩ := dead_events hsymbol h hdead hlater
  refine ⟨hdead', hpressed, ⟨ls, hkeys, hls⟩, fun hwait hinput => ?_⟩
  have hloop : s.loop = (.wait, s.loop.2) := Prod.ext hwait rfl
  rw [hloop] at hls
  exact (waits_without_keys hinput hkeys hls).trans hloop.symm

end Boot

-- ════════════════════════════════════════════════════════════════════════
-- The timer
-- ════════════════════════════════════════════════════════════════════════

/-- How often the timer ticks in a run. -/
def KernelEvent.ticks (es : List KernelEvent) : ℕ :=
  es.countP fun
    | .tick => true
    | _ => false

/-- How often it ticks in a run while a tick already waits. -/
def lostTicks (symbol : Stub → BitVec 32) (prompt : List (BitVec 8)) :
    List KernelEvent → Kernel → ℕ
  | [], _ => 0
  | e :: es, s =>
    (if KernelEvent.ticks [e] = 1 ∧ timerLine ∈ s.irq.pics.pending then 1 else 0) +
      ((e.act symbol prompt s).elim 0 fun s => lostTicks symbol prompt es s)

/-- One for a tick that waits. -/
def Kernel.waitingTicks (s : Kernel) : ℕ := if timerLine ∈ s.irq.pics.pending then 1 else 0

section Ticks

variable {symbol : Stub → BitVec 32} {prompt : List (BitVec 8)} {s s' : Kernel} {e : KernelEvent}
  {es : List KernelEvent}

theorem timesTaken_enter (l m : Line) (s : IrqSystem KernelHandler) :
    (s.enter l).timesTaken m = s.timesTaken m + if l = m then 1 else 0 := by
  have hiff : intNoOf l = intNoOf m ↔ l = m := by
    constructor
    · intro heq
      rw [← lineOf_intNoOf l, heq, lineOf_intNoOf]
    · exact congrArg _
  rw [IrqSystem.timesTaken, IrqSystem.enter, List.countP_cons]
  simp only [hiff, decide_eq_true_iff]
  rfl

/-- An event counts `n` ticks, and what waits afterwards is what waited or ticked and was neither
    counted nor lost. -/
structure Counts (e : KernelEvent) (s s' : Kernel) (n : ℕ) : Prop where
  ticks : s'.ticks = s.ticks + BitVec.ofNat 64 n
  taken : s'.irq.timesTaken timerLine = s.irq.timesTaken timerLine + n
  balance : n + s'.waitingTicks +
      (if KernelEvent.ticks [e] = 1 ∧ timerLine ∈ s.irq.pics.pending then 1 else 0) =
    s.waitingTicks + KernelEvent.ticks [e]

/-- An event that leaves the ticks alone. -/
theorem counts_zero (hticks : s'.ticks = s.ticks)
    (htaken : s'.irq.timesTaken timerLine = s.irq.timesTaken timerLine)
    (hpending : timerLine ∈ s'.irq.pics.pending ↔ timerLine ∈ s.irq.pics.pending)
    (hzero : KernelEvent.ticks [e] = 0) : Counts e s s' 0 := by
  refine ⟨hticks.trans (BitVec.add_zero _).symm, htaken, ?_⟩
  simp only [Kernel.waitingTicks, hpending, hzero]
  simp

/-- A byte that may come leaves them alone. -/
theorem counts_arrived {b : Option (BitVec 8)} (h : s.Arrived b s')
    (hzero : KernelEvent.ticks [e] = 0) : Counts e s s' 0 :=
  counts_zero h.ticks (congrArg (List.countP _) h.taken) h.timer hzero

/-- What an event does to the ticks. -/
theorem ticks_act (hsymbol : Function.Injective symbol) (h : s.Works symbol)
    (hact : e.act symbol prompt s = some s') : ∃ n, Counts e s s' n := by
  cases e with
  | tick =>
    obtain ⟨h2, rfl⟩ := request_cases hact
    refine ⟨0, (BitVec.add_zero _).symm, rfl, ?_⟩
    have hin : timerLine ∈ (s.irq.pics.request timerLine).pending := by
      rw [Pair.pending_request h2]
      exact Finset.mem_insert_self _ _
    have hone : KernelEvent.ticks [.tick] = 1 := rfl
    simp only [Kernel.waitingTicks, hin, hone]
    by_cases hwaits : timerLine ∈ s.irq.pics.pending <;> simp [hwaits]
  | press data => exact ⟨0, counts_arrived (arrived_arriveAny (b := some data) hact) rfl⟩
  | other l =>
    rw [KernelEvent.act] at hact
    split_ifs at hact with hl
    obtain ⟨h2, rfl⟩ := request_cases hact
    exact ⟨0, counts_zero rfl rfl (mem_pending_request h2 fun heq => hl (.inl heq)) rfl⟩
  | interrupt early between =>
    have hzero : KernelEvent.ticks [.interrupt early between] = 0 := rfl
    obtain ⟨l, s₁, hnext, hs₁, hcase⟩ := act_interrupt_cases hsymbol h hact
    have hearly := arrived_arriveAny hs₁
    have htaken : s₁.irq.timesTaken timerLine = (s.irq.enter l).timesTaken timerLine :=
      hearly.timesTaken timerLine
    -- the handlers of the other lines
    have hkeep : l ≠ timerLine → ∀ {s₂ s₃ u : Kernel}, s₂.ticks = s₁.ticks → s₂.irq = s₁.irq →
        s₂.Arrived between s₃ → u.ticks = s₃.ticks → u.irq = s₃.irq →
        Counts (.interrupt early between) s u 0 := by
      intro h0 s₂ s₃ u hticks hirq hbetween hticks' hirq'
      refine counts_zero ?_ ?_ ?_ hzero
      · rw [hticks', hbetween.ticks, hticks, hearly.ticks]
      · rw [hirq', hbetween.timesTaken, hirq, htaken, timesTaken_enter, if_neg h0, Nat.add_zero]
      · rw [hirq', hbetween.timer, hirq, hearly.timer]
        exact mem_pending_accept h0
    obtain ⟨rfl, hs⟩ | ⟨rfl, -, hs⟩ | ⟨rfl, -, s₂, t, hs, -, rfl⟩ | ⟨h0, -, hs⟩ := hcase
    · have hbetween := arrived_arriveAny hs
      have hin := (Pair.takes_of_nextLine hnext).pending
      have hout : timerLine ∉ s'.irq.pics.pending := by
        rw [hbetween.timer, hearly.timer]
        change timerLine ∉ (s.irq.pics.accept timerLine).pending
        rw [Pair.pending_accept]
        exact Finset.notMem_erase _ _
      refine ⟨1, ?_, ?_, ?_⟩
      · rw [hbetween.ticks, hearly.ticks]
        rfl
      · rw [hbetween.timesTaken, htaken, timesTaken_enter, if_pos rfl]
      · simp only [Kernel.waitingTicks, hin, hout, hzero]
        simp
    · exact ⟨0, hkeep (by decide) rfl rfl (arrived_arriveAny hs) rfl rfl⟩
    · have hbetween := arrived_arriveAny hs
      refine ⟨0, hkeep (by decide) ?_ ?_ hbetween ?_ ?_⟩ <;> rfl
    · exact ⟨0, hkeep h0 rfl rfl (arrived_arriveAny hs) rfl rfl⟩
  | send =>
    obtain ⟨irq, rfl, -, hpending, htaken⟩ := inner_cases h (.inl rfl) hact
    exact ⟨0, counts_zero rfl (congrArg (List.countP _) htaken) (by rw [hpending]) rfl⟩
  | iret =>
    obtain ⟨irq, rfl, -, hpending, htaken⟩ := inner_cases h (.inr rfl) hact
    exact ⟨0, counts_zero rfl (congrArg (List.countP _) htaken) (by rw [hpending]) rfl⟩
  | step =>
    rw [KernelEvent.act] at hact
    split_ifs at hact
    obtain ⟨loop, -, rfl⟩ := Option.map_eq_some_iff.mp hact
    exact ⟨0, counts_zero rfl rfl Iff.rfl rfl⟩

theorem ticks_events (hsymbol : Function.Injective symbol) (h : s.Works symbol)
    (hrun : Run.events (KernelEvent.act symbol prompt) es s = some s') :
    ∃ n, s'.ticks = s.ticks + BitVec.ofNat 64 n ∧
      s'.irq.timesTaken timerLine = s.irq.timesTaken timerLine + n ∧
      n + s'.waitingTicks + lostTicks symbol prompt es s =
        s.waitingTicks + KernelEvent.ticks es := by
  induction es generalizing s with
  | nil =>
    obtain rfl := Option.some.inj hrun
    exact ⟨0, (BitVec.add_zero _).symm, rfl, by rw [lostTicks, Nat.zero_add]; rfl⟩
  | cons e es ih =>
    obtain ⟨c, hc, hrun⟩ := Option.bind_eq_some_iff.mp hrun
    obtain ⟨n, hone⟩ := ticks_act hsymbol h hc
    obtain ⟨m, hticks, htaken, hbalance⟩ := ih (works_act hsymbol h hc) hrun
    have hsplit : KernelEvent.ticks (e :: es) = KernelEvent.ticks [e] + KernelEvent.ticks es := by
      rw [KernelEvent.ticks, ← List.singleton_append, List.countP_append]
      rfl
    have hlost : lostTicks symbol prompt (e :: es) s =
        (if KernelEvent.ticks [e] = 1 ∧ timerLine ∈ s.irq.pics.pending then 1 else 0) +
          lostTicks symbol prompt es c := by
      rw [lostTicks, hc, Option.elim_some]
    have hbalance' := hone.balance
    refine ⟨n + m, ?_, ?_, ?_⟩
    · rw [hticks, hone.ticks, BitVec.add_assoc, BitVec.ofNat_add]
    · rw [htaken, hone.taken, Nat.add_assoc]
    · rw [hlost, hsplit]
      omega

end Ticks

/-- `ticks` is the number of interrupts of the timer that were taken, modulo 2 ^ 64. Of the ticks of
    the timer, those are not counted that come while one waits, and the one that waits. -/
theorem ticks_of_run {symbol : Stub → BitVec 32} (hsymbol : Function.Injective symbol)
    (address : BitVec 32) (boot : Interrupts) (prompt : List (BitVec 8)) (t₀ : Terminal)
    (es : List KernelEvent) (s : Kernel)
    (hrun : KernelRun symbol prompt es (.started symbol address boot t₀) s) :
    s.ticks = BitVec.ofNat 64 (s.irq.timesTaken timerLine) ∧
      s.irq.timesTaken timerLine + s.waitingTicks +
        lostTicks symbol prompt es (.started symbol address boot t₀) = KernelEvent.ticks es := by
  obtain ⟨n, hticks, htaken, hbalance⟩ :=
    ticks_events hsymbol (works_started symbol address boot t₀) hrun.run
  have hzero : (Kernel.started symbol address boot t₀).irq.timesTaken timerLine = 0 := rfl
  have hpending : (Kernel.started symbol address boot t₀).waitingTicks = 0 :=
    if_neg (pending_started address boot t₀ timerLine)
  rw [hzero, Nat.zero_add] at htaken
  rw [hpending, Nat.zero_add] at hbalance
  rw [htaken]
  refine ⟨?_, hbalance⟩
  rw [hticks]
  exact BitVec.zero_add _

-- ════════════════════════════════════════════════════════════════════════
-- A key that comes too early, and one in time
-- ════════════════════════════════════════════════════════════════════════

/-- The kernel in front of some events. -/
def startedKernel : Kernel :=
  .started spacedStubs 0xC0200000 coldInterrupts bootedTerminal

theorem works_startedKernel : startedKernel.Works spacedStubs :=
  works_started spacedStubs 0xC0200000 coldInterrupts bootedTerminal

theorem kernelRun_startedKernel {prompt : List (BitVec 8)} {es : List KernelEvent} {s : Kernel}
    (hno : ∀ b ∈ KernelEvent.pressed es, ¬ BackspaceCode b)
    (hrun : Run.events (KernelEvent.act spacedStubs prompt) es startedKernel = some s) :
    KernelRun spacedStubs prompt es startedKernel s :=
  kernelRun_of_no_backspace spacedStubs_injective works_startedKernel
    ⟨keyboardInit_inRange _, by decide⟩ hno hrun

/-- Two ticks and a key before the first prompt. -/
def earlyPress : List KernelEvent :=
  [.tick, .press 30, .tick, .interrupt none none, .send, .iret, .interrupt none none, .send, .iret,
    .step]

theorem exists_earlyPress :
    ∃ s, Run.events (KernelEvent.act spacedStubs [36]) earlyPress startedKernel = some s ∧
      s.Dead := by
  have hdead : ((Run.events (KernelEvent.act spacedStubs [36]) earlyPress startedKernel).any
      fun s => s.full && decide (keyboardLine ∉ s.irq.pics.pending)) = true := by decide +kernel
  obtain ⟨s, hs, hrest⟩ := (Option.any_eq_true _ _).mp hdead
  obtain ⟨hfull, hpending⟩ := Bool.and_eq_true_iff.mp hrest
  exact ⟨s, hs, hfull, of_decide_eq_true hpending⟩

theorem kernelRun_earlyPress : ∃ s, KernelRun spacedStubs [36] earlyPress startedKernel s ∧ s.Dead := by
  obtain ⟨s, hs, hdead⟩ := exists_earlyPress
  exact ⟨s, kernelRun_startedKernel (by decide) hs, hdead⟩

/-- A letter is typed at the first prompt, while the timer ticks, and a byte comes while the
    interrupt of the timer is handled. -/
def promptPress : List KernelEvent :=
  List.replicate 7 .step ++ [.tick, .press 30, .interrupt none none, .send, .iret,
    .interrupt none none, .send, .iret, .tick, .interrupt (some 158) none, .send, .iret,
    .interrupt none none, .send, .iret, .step]

theorem kernelRun_promptPress : ∃ s, KernelRun spacedStubs [36] promptPress startedKernel s ∧
    s.loop.1 = .wait ∧ s.full = false := by
  have hwait : ((Run.events (KernelEvent.act spacedStubs [36]) promptPress startedKernel).any
      fun s => decide (s.loop.1 = .wait) && !s.full) = true := by decide +kernel
  obtain ⟨s, hs, hrest⟩ := (Option.any_eq_true _ _).mp hwait
  obtain ⟨hpoint, hfull⟩ := Bool.and_eq_true_iff.mp hrest
  exact ⟨s, kernelRun_startedKernel (by decide) hs, of_decide_eq_true hpoint, by simpa using hfull⟩

/-- The key pressed and released there is in the session. -/
theorem keys_handled_once_promptPress :
    ∃ s ts, KernelRun spacedStubs [36] promptPress startedKernel s ∧
      TerminalEvent.keys ts = [30, 158] ∧ session [36] bootedTerminal ts = some s.loop.2 := by
  obtain ⟨s, hs, hwait, hfull⟩ := kernelRun_promptPress
  obtain ⟨ts, hts, hsession⟩ := keys_handled_once spacedStubs_injective _ _ _ _ promptPress s
    (by decide) hs
  have hpressed : KernelEvent.pressed promptPress = [30, 158] := rfl
  rw [hpressed, Kernel.unread, hfull, if_neg (by decide), List.append_nil] at hts
  exact ⟨s, ts, hs, hts.symm, hsession hwait⟩

theorem dead_iff_earlyPress :
    ∃ s, KernelRun spacedStubs [36] earlyPress startedKernel s ∧
      ∃ p early between c, p ++ [.interrupt early between] <+: earlyPress ∧
        Run.events (KernelEvent.act spacedStubs [36]) p startedKernel = some c ∧
        c.irq.pics.nextLine = some keyboardLine ∧ c.loop.2.keyboard.input = false ∧
        c.full = true := by
  obtain ⟨s, hs, hdead⟩ := kernelRun_earlyPress
  exact ⟨s, hs, (dead_iff _ _ _ _ earlyPress s spacedStubs_injective hs).mp hdead⟩

theorem dead_forever_earlyPress :
    ∃ s s', Run.events (KernelEvent.act spacedStubs [36]) earlyPress startedKernel = some s ∧
      Run.events (KernelEvent.act spacedStubs [36]) [.tick] s = some s' ∧ s'.Dead := by
  obtain ⟨s, hs, hdead⟩ := exists_earlyPress
  have hlater : Run.events (KernelEvent.act spacedStubs [36]) [.tick] s =
      some { s with irq := { s.irq with pics := s.irq.pics.request timerLine } } := rfl
  exact ⟨s, _, hs, hlater,
    (dead_forever _ _ _ _ earlyPress s spacedStubs_injective hs hdead [.tick] _ hlater).1⟩

theorem ticks_of_run_promptPress :
    ∃ s, KernelRun spacedStubs [36] promptPress startedKernel s ∧
      s.irq.timesTaken timerLine + s.waitingTicks +
        lostTicks spacedStubs [36] promptPress startedKernel = 2 := by
  obtain ⟨s, hs, -⟩ := kernelRun_promptPress
  exact ⟨s, hs, (ticks_of_run spacedStubs_injective _ _ _ _ promptPress s hs).2⟩

end FirstOs
