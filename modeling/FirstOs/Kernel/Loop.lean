import FirstOs.Console.Keyboard
import FirstOs.Library.Run

/-!
# The terminal loop between the keys

The loop of `terminal_init` with `wait_keyboard_input`, character by character and statement by
statement. A key interrupts it at any point. The handler returns at once unless `input` is set, and
the loop sets it just before it waits; so a turn of the loop is the same as if no key had come in
between.

## Main definitions

- `LoopPoint`, `loopStep` — the loop in small steps
- `LoopEvent.act` — a small step, or a key
- `finish` — the rest of a turn

## Main results

- `session_of_interleaving` — every run with keys anywhere is a session
-/

namespace FirstOs

/-- Where the loop is, with what it has still to print or to copy. -/
inductive LoopPoint where
  | newline (str : List (BitVec 8))
  | prompt (str : List (BitVec 8))
  | stopDelete
  | input
  | wait
  | copy (size : ℤ) (i : ℕ)
  | head
  | command (str : List (BitVec 8))
deriving DecidableEq

/-- One character of `vga_print`, or of `vga_printc` with the color of its characters; `next` is the
    point behind the call. -/
def printStep (color : BitVec 8) (here : List (BitVec 8) → LoopPoint) (next : LoopPoint)
    (str : List (BitVec 8)) (t : Terminal) : Option (LoopPoint × Terminal) :=
  match str with
  | [] => some (next, t)
  | ch :: str =>
    if ch = 0 then some (next, t)
    else (vgaPutCharc color ch t.vga).map fun vga => (here str, { t with vga := vga })

/-- A step of the loop. -/
def loopStep (prompt : List (BitVec 8)) : LoopPoint → Terminal → Option (LoopPoint × Terminal)
  | .newline str, t => printStep t.vga.color .newline (.prompt prompt) str t
  | .prompt str, t => printStep (vgaEntryColor 7 0) .prompt .stopDelete str t
  | .stopDelete, t => some (.input, { t with stopDelete := vgaGetPos t.vga })
  | .input, t => some (.wait, { t with keyboard := { t.keyboard with input := true } })
  | .wait, t =>
    if t.keyboard.input then some (.wait, t)
    else some (.copy ((t.keyboard.tail + 128 - t.keyboard.head).tmod 128) 0, t)
  | .copy size i, t =>
    if i < size then
      let k := t.keyboard
      some (.copy size (i + 1), { t with
        keyboard := { k with
          inputBuffer := Function.update k.inputBuffer i (k.buffer ((k.head + i).tmod 128))
          accessed := (k.head + i).tmod 128 :: k.accessed } })
    else some (.head, t)
  | .head, t =>
    let k := t.keyboard
    some (.command (commandString k), { t with
      keyboard := { k with head := k.tail.tmod 128, calls := [] } })
  | .command str, t => printStep t.vga.color .command (.newline [10]) str t

/-- What happens to the loop. -/
inductive LoopEvent where
  | key (data : BitVec 8)
  | step

/-- A key is handled wherever the loop is. -/
def LoopEvent.act (prompt : List (BitVec 8)) : LoopEvent → LoopPoint × Terminal →
    Option (LoopPoint × Terminal)
  | key data, (point, t) => (keyboardHandler data t).map fun t => (point, t)
  | step, (point, t) => loopStep prompt point t

/-- The loop before its first turn. -/
def loopStart (t₀ : Terminal) : LoopPoint × Terminal :=
  (.newline [10], { t₀ with keyboard := keyboardInit t₀.keyboard })

-- ════════════════════════════════════════════════════════════════════════
-- The rest of a turn
-- ════════════════════════════════════════════════════════════════════════

/-- The terminal when the prompt is on the screen. -/
def prompted (t : Terminal) (vga : Vga) : Terminal :=
  { vga := vga, stopDelete := vgaGetPos vga, keyboard := { t.keyboard with input := true } }

/-- What is left of a turn, at once. -/
def finish (prompt : List (BitVec 8)) : LoopPoint → Terminal → Option Terminal
  | .newline str, t => ((vgaPrint str t.vga).bind (vgaPrintc 7 prompt)).map (prompted t)
  | .prompt str, t => (vgaPrintcWith (vgaEntryColor 7 0) str t.vga).map (prompted t)
  | .stopDelete, t => some (prompted t t.vga)
  | .input, t => some { t with keyboard := { t.keyboard with input := true } }
  | .wait, t => some t
  | .copy size i, t =>
    let k := copyLine size i t.keyboard
    (vgaPrint (commandString k) t.vga).bind fun vga => terminalPrompt prompt
      { t with vga := vga, keyboard := { k with head := k.tail.tmod 128, calls := [] } }
  | .head, t =>
    let k := t.keyboard
    (vgaPrint (commandString k) t.vga).bind fun vga => terminalPrompt prompt
      { t with vga := vga, keyboard := { k with head := k.tail.tmod 128, calls := [] } }
  | .command str, t =>
    (vgaPrint str t.vga).bind fun vga => terminalPrompt prompt { t with vga := vga }

section Turn

variable {prompt : List (BitVec 8)} {t t' : Terminal} {point point' : LoopPoint}

theorem finish_newline (t : Terminal) :
    finish prompt (.newline [10]) t = terminalPrompt prompt t := rfl

theorem copyLine_step {size : ℤ} {i : ℕ} (k : Keyboard) (hi : i < size) :
    copyLine size i k = copyLine size (i + 1)
      { k with
        inputBuffer := Function.update k.inputBuffer i (k.buffer ((k.head + i).tmod 128))
        accessed := (k.head + i).tmod 128 :: k.accessed } := by
  rw [copyLine, if_pos hi]

theorem copyLine_over {size : ℤ} {i : ℕ} (k : Keyboard) (hi : ¬ i < size) :
    copyLine size i k = k := by
  rw [copyLine, if_neg hi]

theorem printStep_cases {color : BitVec 8} {here : List (BitVec 8) → LoopPoint} {next : LoopPoint}
    {str : List (BitVec 8)} (h : printStep color here next str t = some (point, t')) :
    (str = [] ∨ str.head? = some 0) ∧ point = next ∧ t' = t ∨
      ∃ ch rest vga, str = ch :: rest ∧ ch ≠ 0 ∧ vgaPutCharc color ch t.vga = some vga ∧
        point = here rest ∧ t' = { t with vga := vga } := by
  cases str with
  | nil =>
    cases h
    exact .inl ⟨.inl rfl, rfl, rfl⟩
  | cons ch rest =>
    rw [printStep] at h
    split_ifs at h with h0
    · cases h
      exact .inl ⟨.inr (congrArg some h0), rfl, rfl⟩
    · obtain ⟨vga, hvga, heq⟩ := Option.map_eq_some_iff.mp h
      cases heq
      exact .inr ⟨ch, rest, vga, rfl, h0, hvga, rfl, rfl⟩

theorem vgaPrint_over {str : List (BitVec 8)} (h : str = [] ∨ str.head? = some 0) (s : Vga) :
    vgaPrint str s = some s := by
  cases str with
  | nil => rfl
  | cons ch rest =>
    have h0 : ch = 0 := Option.some.inj (h.resolve_left (List.cons_ne_nil _ _))
    rw [vgaPrint, if_pos h0]

theorem vgaPrintcWith_over {str : List (BitVec 8)} (h : str = [] ∨ str.head? = some 0)
    (color : BitVec 8) (s : Vga) : vgaPrintcWith color str s = some s := by
  cases str with
  | nil => rfl
  | cons ch rest =>
    have h0 : ch = 0 := Option.some.inj (h.resolve_left (List.cons_ne_nil _ _))
    rw [vgaPrintcWith, if_pos h0]

theorem vgaPrint_put {ch : BitVec 8} (h0 : ch ≠ 0) {s s' : Vga}
    (h : vgaPutCharc s.color ch s = some s') (str : List (BitVec 8)) :
    vgaPrint (ch :: str) s = vgaPrint str s' := by
  rw [vgaPrint, if_neg h0, vgaPutChar, h, Option.bind_some]

/-- A step leaves the same to be done, apart from itself. -/
theorem finish_loopStep (hpoint : point ≠ .wait) (h : loopStep prompt point t = some (point', t')) :
    finish prompt point' t' = finish prompt point t := by
  cases point with
  | newline str =>
    obtain ⟨hover, rfl, rfl⟩ | ⟨ch, rest, vga, rfl, h0, hput, rfl, rfl⟩ := printStep_cases h
    · rw [finish, finish, vgaPrint_over hover, Option.bind_some, vgaPrintc]
    · rw [finish, finish, vgaPrint_put h0 hput]
      rfl
  | prompt str =>
    obtain ⟨hover, rfl, rfl⟩ | ⟨ch, rest, vga, rfl, h0, hput, rfl, rfl⟩ := printStep_cases h
    · rw [finish, finish, vgaPrintcWith_over hover, Option.map_some]
    · rw [finish, finish, vgaPrintcWith, if_neg h0, hput, Option.bind_some]
      rfl
  | stopDelete =>
    cases h
    rfl
  | input =>
    cases h
    rfl
  | wait => exact absurd rfl hpoint
  | copy size i =>
    rw [loopStep] at h
    split_ifs at h with hi
    · cases h
      rw [finish, finish, copyLine_step t.keyboard hi]
    · cases h
      rw [finish, finish, copyLine_over t.keyboard hi]
  | head =>
    cases h
    rfl
  | command str =>
    obtain ⟨hover, rfl, rfl⟩ | ⟨ch, rest, vga, rfl, h0, hput, rfl, rfl⟩ := printStep_cases h
    · rw [finish_newline, finish, vgaPrint_over hover, Option.bind_some]
    · rw [finish, finish, vgaPrint_put h0 hput]

/-- The step out of the wait begins a turn. -/
theorem finish_wait (hinput : t.keyboard.input = false)
    (h : loopStep prompt .wait t = some (point', t')) :
    t' = t ∧ point' ≠ .wait ∧ finish prompt point' t' = terminalTurn prompt t := by
  rw [loopStep, if_neg (by rw [hinput]; decide)] at h
  cases h
  refine ⟨rfl, fun heq => (nomatch heq), ?_⟩
  rw [terminalTurn, if_neg (by rw [hinput]; decide)]
  rfl

/-- The loop sets `input` on the way to the wait only. -/
theorem input_loopStep (hpoint : point ≠ .wait) (hinput : t.keyboard.input = false)
    (h : loopStep prompt point t = some (point', t')) :
    point' = .wait ∨ t'.keyboard.input = false := by
  cases point with
  | wait => exact absurd rfl hpoint
  | input =>
    cases h
    exact .inl rfl
  | copy size i =>
    rw [loopStep] at h
    split_ifs at h <;> cases h <;> exact .inr hinput
  | stopDelete | head =>
    cases h
    exact .inr hinput
  | newline str | prompt str | command str =>
    obtain ⟨-, -, rfl⟩ | ⟨ch, rest, vga, -, -, -, -, rfl⟩ := printStep_cases h
    · exact .inr hinput
    · exact .inr hinput

end Turn

-- ════════════════════════════════════════════════════════════════════════
-- Runs
-- ════════════════════════════════════════════════════════════════════════

/-- The keys of a run. -/
def LoopEvent.keys (es : List LoopEvent) : List (BitVec 8) :=
  es.filterMap fun
    | .key data => some data
    | .step => none

/-- The keys of a session. -/
def TerminalEvent.keys (es : List TerminalEvent) : List (BitVec 8) :=
  es.filterMap fun
    | .key data => some data
    | .turn => none

/-- How far the loop is behind a session: at the wait not at all, and elsewhere it has a turn to
    finish, with `input` clear. -/
def Behind (prompt : List (BitVec 8)) (t₀ : Terminal) (es : List TerminalEvent) :
    LoopPoint × Terminal → Prop
  | (point, t) =>
    if point = .wait then session prompt t₀ es = some t
    else t.keyboard.input = false ∧ ∃ c, session prompt t₀ es = some c ∧
      c.keyboard.input = false ∧ finish prompt point t = terminalTurn prompt c

section Runs

variable {prompt : List (BitVec 8)} {t₀ t₁ : Terminal} {es es' : List TerminalEvent}
  {e : LoopEvent} {s s' : LoopPoint × Terminal}

theorem session_append : session prompt t₀ (es ++ es') =
    (session prompt t₀ es).bind (Run.events (TerminalEvent.act prompt) es') := by
  rw [session, session, Option.bind_assoc]
  exact congrArg _ (funext fun t => Run.events_append)

theorem session_concat {t t' : Terminal} {e' : TerminalEvent} (h : session prompt t₀ es = some t)
    (hact : e'.act prompt t = some t') : session prompt t₀ (es ++ [e']) = some t' := by
  rw [session_append, h, Option.bind_some, Run.events_cons hact, Run.events_nil]

/-- What an event of the loop is for the session. -/
theorem behind_act (h : Behind prompt t₀ es s) (hact : e.act prompt s = some s') :
    ∃ es', TerminalEvent.keys es' = LoopEvent.keys [e] ∧ Behind prompt t₀ (es ++ es') s' := by
  obtain ⟨point, t⟩ := s
  obtain ⟨point', t'⟩ := s'
  rw [Behind] at h
  cases e with
  | key data =>
    obtain ⟨t'', hkey, heq⟩ := Option.map_eq_some_iff.mp hact
    cases heq
    refine ⟨[.key data], rfl, ?_⟩
    rw [Behind]
    split_ifs at h ⊢ with hwait
    · exact session_concat h hkey
    · obtain ⟨hinput, c, hc, hcinput, hfinish⟩ := h
      rw [keyboardHandler_silent hinput] at hkey
      obtain rfl := Option.some.inj hkey
      exact ⟨hinput, c, session_concat hc (keyboardHandler_silent hcinput), hcinput, hfinish⟩
  | step =>
    change loopStep prompt point t = some (point', t') at hact
    by_cases hwait : point = .wait
    · subst hwait
      rw [if_pos rfl] at h
      refine ⟨[], rfl, ?_⟩
      rw [List.append_nil]
      cases hinput : t.keyboard.input with
      | true =>
        rw [loopStep, if_pos hinput] at hact
        cases hact
        rw [Behind, if_pos rfl]
        exact h
      | false =>
        obtain ⟨rfl, hpoint, hfinish⟩ := finish_wait hinput hact
        rw [Behind, if_neg hpoint]
        exact ⟨hinput, t', h, hinput, hfinish⟩
    · rw [if_neg hwait] at h
      obtain ⟨hinput, c, hc, hcinput, hfinish⟩ := h
      rw [← finish_loopStep hwait hact] at hfinish
      by_cases hdone : point' = .wait
      · subst hdone
        refine ⟨[.turn], rfl, ?_⟩
        rw [Behind, if_pos rfl]
        exact session_concat hc hfinish.symm
      · refine ⟨[], rfl, ?_⟩
        rw [List.append_nil, Behind, if_neg hdone]
        exact ⟨(input_loopStep hwait hinput hact).resolve_left hdone, c, hc, hcinput, hfinish⟩

theorem behind_events {ls : List LoopEvent} (h : Behind prompt t₀ es s)
    (hrun : Run.events (LoopEvent.act prompt) ls s = some s') :
    ∃ es', TerminalEvent.keys es' = LoopEvent.keys ls ∧ Behind prompt t₀ (es ++ es') s' := by
  induction ls generalizing es s with
  | nil =>
    obtain rfl := Option.some.inj hrun
    exact ⟨[], rfl, by rw [List.append_nil]; exact h⟩
  | cons l ls ih =>
    obtain ⟨c, hc, hrun⟩ := Option.bind_eq_some_iff.mp hrun
    obtain ⟨es₁, hkeys₁, h₁⟩ := behind_act h hc
    obtain ⟨es₂, hkeys₂, h₂⟩ := ih h₁ hrun
    refine ⟨es₁ ++ es₂, ?_, by rw [← List.append_assoc]; exact h₂⟩
    rw [TerminalEvent.keys, List.filterMap_append]
    change TerminalEvent.keys es₁ ++ TerminalEvent.keys es₂ = LoopEvent.keys ([l] ++ ls)
    rw [hkeys₁, hkeys₂, LoopEvent.keys, LoopEvent.keys, LoopEvent.keys, List.filterMap_append]

/-- Before the first wait the keys do nothing. -/
def Starting (prompt : List (BitVec 8)) (t₀ : Terminal) (s : LoopPoint × Terminal) : Prop :=
  s.1 ≠ .wait ∧ s.2.keyboard.input = false ∧ finish prompt s.1 s.2 = session prompt t₀ []

theorem starting_loopStart (prompt : List (BitVec 8)) (t₀ : Terminal) :
    Starting prompt t₀ (loopStart t₀) := by
  refine ⟨fun heq => (nomatch heq), rfl, ?_⟩
  exact (Option.bind_fun_some _).symm

theorem starting_act (h : Starting prompt t₀ s) (hact : e.act prompt s = some s') :
    Starting prompt t₀ s' ∨ s'.1 = .wait ∧ session prompt t₀ [] = some s'.2 := by
  obtain ⟨point, t⟩ := s
  obtain ⟨point', t'⟩ := s'
  obtain ⟨hpoint, hinput, hfinish⟩ := h
  cases e with
  | key data =>
    obtain ⟨t'', hkey, heq⟩ := Option.map_eq_some_iff.mp hact
    cases heq
    rw [keyboardHandler_silent hinput] at hkey
    obtain rfl := Option.some.inj hkey
    exact .inl ⟨hpoint, hinput, hfinish⟩
  | step =>
    change loopStep prompt point t = some (point', t') at hact
    change finish prompt point t = session prompt t₀ [] at hfinish
    rw [← finish_loopStep hpoint hact] at hfinish
    by_cases hdone : point' = .wait
    · subst hdone
      exact .inr ⟨rfl, hfinish.symm⟩
    · exact .inl ⟨hdone, (input_loopStep hpoint hinput hact).resolve_left hdone, hfinish⟩

/-- No state of a run before its end is at the wait. -/
def NotYetWaiting (prompt : List (BitVec 8)) (ls : List LoopEvent) (s : LoopPoint × Terminal) :
    Prop :=
  ∀ p l, p ++ [l] <+: ls → ∀ c, Run.events (LoopEvent.act prompt) p s = some c → c.1 ≠ .wait

theorem starting_events {ls : List LoopEvent} (h : Starting prompt t₀ s)
    (hrun : Run.events (LoopEvent.act prompt) ls s = some s') :
    Starting prompt t₀ s' ∨ ∃ before after t₁, ls = before ++ after ∧
      NotYetWaiting prompt before s ∧
      Run.events (LoopEvent.act prompt) before s = some (.wait, t₁) ∧
      session prompt t₀ [] = some t₁ ∧
      Run.events (LoopEvent.act prompt) after (.wait, t₁) = some s' := by
  induction ls generalizing s with
  | nil =>
    obtain rfl := Option.some.inj hrun
    exact .inl h
  | cons l ls ih =>
    obtain ⟨c, hc, hrun⟩ := Option.bind_eq_some_iff.mp hrun
    -- the prefixes of a run that has one more event in front
    have hcons : ∀ {before : List LoopEvent}, NotYetWaiting prompt before c →
        NotYetWaiting prompt (l :: before) s := by
      intro before hbefore p l' hp d hd
      cases p with
      | nil =>
        obtain rfl := Option.some.inj hd
        exact h.1
      | cons l₁ p =>
        obtain ⟨rfl, hrest⟩ := List.cons_prefix_cons.mp hp
        rw [Run.events_cons hc] at hd
        exact hbefore p l' hrest d hd
    obtain hstart | ⟨hwait, hsession⟩ := starting_act h hc
    · obtain hend | ⟨before, after, t₁, rfl, hbefore, hrun₁, hsession, hafter⟩ := ih hstart hrun
      · exact .inl hend
      · exact .inr ⟨l :: before, after, t₁, rfl, hcons hbefore,
          (Run.events_cons hc).trans hrun₁, hsession, hafter⟩
    · obtain ⟨point, t⟩ := c
      subst hwait
      refine .inr ⟨[l], ls, t, rfl, hcons fun p l' hp => ?_, Run.events_cons hc, hsession, hrun⟩
      exact absurd (List.prefix_nil.mp hp) (by simp)

/-- Keys may interrupt the terminal loop between any two of its steps. Elsewhere than at the wait
    they change nothing. Up to the first wait the loop does what a session does before its first
    event, and from there on, whenever the loop waits, the terminal is that of a session of whole
    turns with the same keys. -/
theorem session_of_interleaving (prompt : List (BitVec 8)) (t₀ : Terminal) (ls : List LoopEvent)
    (point : LoopPoint) (t : Terminal)
    (hrun : Run.events (LoopEvent.act prompt) ls (loopStart t₀) = some (point, t)) :
    (point ≠ .wait → ∀ data, keyboardHandler data t = some t) ∧
      (point = .wait → ∃ before after t₁ es, ls = before ++ after ∧
        NotYetWaiting prompt before (loopStart t₀) ∧
        Run.events (LoopEvent.act prompt) before (loopStart t₀) = some (.wait, t₁) ∧
        session prompt t₀ [] = some t₁ ∧
        TerminalEvent.keys es = LoopEvent.keys after ∧ session prompt t₀ es = some t) := by
  obtain ⟨hpoint, hinput, -⟩ | ⟨before, after, t₁, rfl, hbefore, hrun₁, hsession, hafter⟩ :=
    starting_events (starting_loopStart prompt t₀) hrun
  · exact ⟨fun _ data => keyboardHandler_silent hinput, fun hwait => absurd hwait hpoint⟩
  · have hwaiting : Behind prompt t₀ [] (.wait, t₁) := by
      rw [Behind, if_pos rfl]
      exact hsession
    obtain ⟨es, hkeys, hbehind⟩ := behind_events hwaiting hafter
    rw [List.nil_append, Behind] at hbehind
    constructor
    · intro hpoint data
      rw [if_neg hpoint] at hbehind
      exact keyboardHandler_silent hbehind.1
    · intro hwait
      rw [if_pos hwait] at hbehind
      exact ⟨before, after, t₁, es, rfl, hbefore, hrun₁, hsession, hkeys, hbehind⟩

end Runs

/-- A key while the first prompt is printed, and one at the wait. -/
def earlyKey : List LoopEvent :=
  [.step, .key 30, .step, .step, .step, .step, .step, .key 31]

theorem session_of_interleaving_earlyKey :
    ∃ t, Run.events (LoopEvent.act [36]) earlyKey (loopStart bootedTerminal) = some (.wait, t) ∧
      ∃ es, TerminalEvent.keys es <:+ [30, 31] ∧ session [36] bootedTerminal es = some t := by
  have hwait : ((Run.events (LoopEvent.act [36]) earlyKey (loopStart bootedTerminal)).any
      fun s => s.1 = .wait) = true := by decide +kernel
  obtain ⟨⟨point, t⟩, hrun, hpoint⟩ := (Option.any_eq_true _ _).mp hwait
  obtain rfl : point = .wait := of_decide_eq_true hpoint
  obtain ⟨before, after, t₁, es, heq, -, -, -, hkeys, hsession⟩ :=
    (session_of_interleaving [36] bootedTerminal earlyKey .wait t hrun).2 rfl
  refine ⟨t, hrun, es, ?_, hsession⟩
  have hall : LoopEvent.keys before ++ LoopEvent.keys after = [30, 31] := by
    rw [LoopEvent.keys, LoopEvent.keys, ← List.filterMap_append, ← heq]
    rfl
  rw [hkeys]
  exact ⟨_, hall⟩

end FirstOs
