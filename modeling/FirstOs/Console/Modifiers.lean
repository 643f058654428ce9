import FirstOs.Console.Ring
import FirstOs.Console.Tabs

/-!
# The modifier keys

The handler takes a character from `uppercase` if `caps_on` or `caps_lock` is set. The case of
the shift key is written to set and clear `caps_on`, but compares where it would assign, so
`caps_on` stays as `keyboard_init` has left it and only the lock of the capital letters
selects the table.

A character pushed at a negative index of the ring would fall on one of these variables, so
the runs are those in which the ring stays in its range.

## Main definitions

- `KeyRun` — keys delivered to the handler, with anything in between
- `Selects` — a key takes its character from the table the modifiers select
- `NeedsNoShift` — the key does not depend on the shift key

## Main results

- `KeyRun.caps` — what the two variables hold after any keys
- `session_keyRun` — the states of the terminal
- `selects_iff_needsNoShift` — every key, after any of these runs
-/

namespace FirstOs

/-- The keys delivered to the handler since `keyboard_init` while `input` was set, the first one
    first, none of them a backspace accepted at index 0 of the ring, and the terminal after them.
    Between two keys there may be anything that leaves `caps_on` and `caps_lock` as they are and
    the ring in its range: only `keyboard_init` and the handler write to the two variables. -/
inductive KeyRun : List (BitVec 8) → Terminal → Prop
  | init {t : Terminal} (h : t.keyboard.capsLock = false) :
    KeyRun [] { t with keyboard := keyboardInit t.keyboard }
  | between {keys : List (BitVec 8)} {t t' : Terminal} (h : KeyRun keys t)
    (hon : t'.keyboard.capsOn = t.keyboard.capsOn)
    (hlock : t'.keyboard.capsLock = t.keyboard.capsLock) (hring : t'.keyboard.InRange) :
    KeyRun keys t'
  | key {keys : List (BitVec 8)} {t t' : Terminal} {data : BitVec 8} (h : KeyRun keys t)
    (hin : t.keyboard.input = true) (hsafe : (TerminalEvent.key data).RingSafe t)
    (hkey : keyboardHandler data t = some t') : KeyRun (keys ++ [data]) t'

/-- The left shift key is down: the last of its codes is that of a press. -/
def shiftDown (keys : List (BitVec 8)) : Bool :=
  keys.foldl (fun down data => if data = 42 then true else if data = 170 then false else down) false

/-- The caps lock key has been pressed an odd number of times. -/
def capsOdd (keys : List (BitVec 8)) : Prop := keys.count 58 % 2 = 1

instance (keys : List (BitVec 8)) : Decidable (capsOdd keys) := inferInstanceAs (Decidable (_ = _))

/-- The character of a key in a table. -/
def entryOf (table : List (BitVec 32)) (data : BitVec 8) : BitVec 8 :=
  (table.getD (data &&& 0x7F).toNat 0).setWidth 8

/-- The character of a key in the table the modifiers select. -/
def selected (keys : List (BitVec 8)) (data : BitVec 8) : BitVec 8 :=
  entryOf (if shiftDown keys = true ∨ capsOdd keys then uppercase else lowercase) data

/-- The byte is that of a key pressed that the default case handles. -/
def DefaultMake (data : BitVec 8) : Prop :=
  data &&& 0x80 = 0 ∧ data &&& 0x7F ∉ silentKeys ∧ data &&& 0x7F ∉ [14, 28, 42, 58]

instance (data : BitVec 8) : Decidable (DefaultMake data) := inferInstanceAs (Decidable (_ ∧ _ ∧ _))

/-- After some keys the handler takes a key of the default case from the table the modifiers
    select. The enter key puts the end of the line into the ring and the other keys put nothing. -/
def Selects (keys : List (BitVec 8)) (t : Terminal) (data : BitVec 8) : Prop :=
  ∃ t', keyboardHandler data t = some t' ∧
    if DefaultMake data then t'.keyboard.calls = .push (selected keys data) :: t.keyboard.calls
    else if data = 28 then t'.keyboard.calls = .push 0 :: t.keyboard.calls
    else t'.keyboard.calls = t.keyboard.calls ∨ t'.keyboard.calls = .pop :: t.keyboard.calls

/-- A key of the default case is not the tab key, and if the shift key is down without the lock, it
    has the same character in both tables. -/
def NeedsNoShift (keys : List (BitVec 8)) (data : BitVec 8) : Prop :=
  DefaultMake data → data &&& 0x7F ≠ 15 ∧
    (shiftDown keys = true → ¬ capsOdd keys → entryOf uppercase data = entryOf lowercase data)

instance (keys : List (BitVec 8)) (data : BitVec 8) : Decidable (NeedsNoShift keys data) :=
  inferInstanceAs (Decidable (_ → _ ∧ (_ → _ → _)))

section Caps

variable {keys : List (BitVec 8)} {t t' : Terminal} {data : BitVec 8}

theorem characterKey_caps {c : BitVec 32} (h : characterKey c t = some t') :
    t'.keyboard.capsOn = t.keyboard.capsOn ∧ t'.keyboard.capsLock = t.keyboard.capsLock := by
  obtain ⟨vga, -, rfl⟩ := Option.map_eq_some_iff.mp h
  exact ⟨rfl, rfl⟩

theorem backspaceKey_caps (h : backspaceKey t = some t') :
    t'.keyboard.capsOn = t.keyboard.capsOn ∧ t'.keyboard.capsLock = t.keyboard.capsLock := by
  rw [backspaceKey_eq] at h
  obtain rfl := Option.some.inj h
  split_ifs
  · exact ⟨rfl, rfl⟩
  · exact ⟨rfl, rfl⟩

/-- The caps lock key turns `caps_lock`, and no key changes `caps_on`. -/
theorem keyboardHandler_caps (hin : t.keyboard.input = true)
    (h : keyboardHandler data t = some t') :
    t'.keyboard.capsOn = t.keyboard.capsOn ∧
      t'.keyboard.capsLock = (if data = 58 then !t.keyboard.capsLock else t.keyboard.capsLock) := by
  have hcaps : data = 58 ↔ data &&& 0x7F = 58 ∧ data &&& 0x80 = 0 := by
    constructor
    · rintro rfl
      decide
    · rintro ⟨hcode, hpress⟩
      exact (eq_of_pressed data hpress).symm.trans hcode
  have hkeep : ∀ u : Terminal, u.keyboard.capsOn = t.keyboard.capsOn ∧
      u.keyboard.capsLock = t.keyboard.capsLock → ¬ (data &&& 0x7F = 58 ∧ data &&& 0x80 = 0) →
      u.keyboard.capsOn = t.keyboard.capsOn ∧
        u.keyboard.capsLock =
          (if data &&& 0x7F = 58 ∧ data &&& 0x80 = 0 then !t.keyboard.capsLock
            else t.keyboard.capsLock) := fun u hu hno => ⟨hu.1, by rw [if_neg hno]; exact hu.2⟩
  simp only [hcaps]
  rw [keyboardHandler, if_neg (by rw [hin]; decide)] at h
  split_ifs at h with hsilent h28 hpress h42 h58 hpress h14 hpress hpress
  · obtain rfl := Option.some.inj h
    exact hkeep t ⟨rfl, rfl⟩ fun hno => absurd (hno.1 ▸ hsilent) (by decide)
  · obtain rfl := Option.some.inj (enterKey_eq.symm.trans h)
    exact hkeep _ ⟨rfl, rfl⟩ fun hno => absurd (h28.symm.trans hno.1) (by decide)
  · obtain rfl := Option.some.inj h
    exact hkeep t ⟨rfl, rfl⟩ fun hno => absurd (h28.symm.trans hno.1) (by decide)
  · obtain rfl := Option.some.inj h
    exact hkeep t ⟨rfl, rfl⟩ fun hno => absurd (h42.symm.trans hno.1) (by decide)
  · obtain rfl := Option.some.inj h
    exact ⟨rfl, (if_pos ⟨h58, hpress⟩).symm⟩
  · obtain rfl := Option.some.inj h
    exact hkeep t ⟨rfl, rfl⟩ fun hno => hpress hno.2
  · exact hkeep t' (backspaceKey_caps h) fun hno => h58 hno.1
  · obtain rfl := Option.some.inj h
    exact hkeep t ⟨rfl, rfl⟩ fun hno => h58 hno.1
  · exact hkeep t' (characterKey_caps h) fun hno => h58 hno.1
  · obtain rfl := Option.some.inj h
    exact hkeep t ⟨rfl, rfl⟩ fun hno => h58 hno.1

/-- The ring stays in its range. -/
theorem KeyRun.inRange (h : KeyRun keys t) : t.keyboard.InRange := by
  induction h with
  | init _ => exact keyboardInit_inRange _
  | between _ _ _ hring _ => exact hring
  | @key keys t t' data _ _ hsafe hkey ih =>
    exact (keyboardHandler_inRange ih data).mpr hsafe t' hkey

/-- What the two variables hold after some keys. -/
theorem KeyRun.caps (h : KeyRun keys t) :
    t.keyboard.capsOn = false ∧ (t.keyboard.capsLock = true ↔ capsOdd keys) := by
  induction h with
  | init hlock =>
    refine ⟨rfl, ?_⟩
    rw [keyboardInit, hlock]
    decide
  | between _ hon hlock _ ih =>
    rw [hon, hlock]
    exact ih
  | @key keys t t' data _ hin _ hkey ih =>
    obtain ⟨hon, hlock⟩ := keyboardHandler_caps hin hkey
    refine ⟨hon.trans ih.1, ?_⟩
    rw [hlock, capsOdd, List.count_append, List.count_singleton]
    by_cases hcaps : data = 58
    · rw [if_pos hcaps, if_pos (by simpa using hcaps), Bool.not_eq_true', ← Bool.not_eq_true, ih.2,
        capsOdd]
      omega
    · rw [if_neg hcaps, if_neg (by simpa using hcaps), Nat.add_zero]
      exact ih.2

end Caps

/-! ### The terminal -/

section Session

variable {t t' t₀ : Terminal} {prompt : List (BitVec 8)} {es : List TerminalEvent}

theorem copyLine_caps {size : ℤ} {i : ℕ} {k : Keyboard} :
    (copyLine size i k).capsOn = k.capsOn ∧ (copyLine size i k).capsLock = k.capsLock := by
  fun_induction copyLine size i k with
  | case1 i k hi ih => exact ih
  | case2 i k hi => exact ⟨rfl, rfl⟩

theorem terminalPrompt_caps (h : terminalPrompt prompt t = some t') :
    t'.keyboard.capsOn = t.keyboard.capsOn ∧ t'.keyboard.capsLock = t.keyboard.capsLock := by
  obtain ⟨vga, -, rfl⟩ := Option.map_eq_some_iff.mp h
  exact ⟨rfl, rfl⟩

theorem terminalTurn_caps (h : terminalTurn prompt t = some t') :
    t'.keyboard.capsOn = t.keyboard.capsOn ∧ t'.keyboard.capsLock = t.keyboard.capsLock := by
  rw [terminalTurn] at h
  split_ifs at h with hin
  · obtain rfl := Option.some.inj h
    exact ⟨rfl, rfl⟩
  · obtain ⟨vga, -, hprompt⟩ := Option.bind_eq_some_iff.mp h
    obtain ⟨hon, hlock⟩ := terminalPrompt_caps hprompt
    exact ⟨hon.trans copyLine_caps.1, hlock.trans copyLine_caps.2⟩

/-- The loop of the terminal is one of the things between two keys. -/
theorem session_keyRun (h₀ : t₀.keyboard.capsLock = false) (h : session prompt t₀ es = some t)
    (hsafe : ∀ p e, p ++ [e] <+: es → ∀ u, session prompt t₀ p = some u → e.RingSafe u) :
    ∃ keys, KeyRun keys t := by
  obtain ⟨t₁, hprompt, hrun⟩ := Option.bind_eq_some_iff.mp h
  have hstart : KeyRun [] t₁ := by
    have hring := keyboardInit_inRange t₀.keyboard
    refine (KeyRun.init h₀).between (terminalPrompt_caps hprompt).1 (terminalPrompt_caps hprompt).2 ?_
    rw [terminalPrompt_keyboard hprompt]
    exact ⟨hring.head, hring.tail, hring.accessed⟩
  refine Run.events_of_condition (I := fun t => ∃ keys, KeyRun keys t) (C := TerminalEvent.RingSafe)
    (fun e _ t ht hring t' he => ?_) ⟨[], hstart⟩ (fun p e hp u hu => ?_) es List.prefix_rfl t hrun
  · obtain ⟨keys, hkeys⟩ := ht
    cases e with
    | turn =>
      exact ⟨keys, hkeys.between (terminalTurn_caps he).1 (terminalTurn_caps he).2
        (terminalTurn_inRange hkeys.inRange he)⟩
    | key data =>
      cases hin : t.keyboard.input with
      | true => exact ⟨keys ++ [data], hkeys.key hin hring he⟩
      | false =>
        obtain rfl := Option.some.inj ((keyboardHandler_silent hin).symm.trans he)
        exact ⟨keys, hkeys⟩
  · exact hsafe p e hp u (Option.bind_eq_some_iff.mpr ⟨t₁, hprompt, hu⟩)

end Session

section Keys

variable {keys : List (BitVec 8)} {t t' : Terminal} {data : BitVec 8}

theorem charKey_iff : CharKey data ↔ DefaultMake data ∧ data &&& 0x7F ≠ 15 := by
  simp only [CharKey, DefaultMake, List.mem_cons, List.not_mem_nil, or_false, not_or]
  tauto

/-- The character a key gets. -/
theorem charOf_eq_entryOf (hon : t.keyboard.capsOn = false)
    (hlock : t.keyboard.capsLock = true ↔ capsOdd keys) :
    charOf t.keyboard data = entryOf (if capsOdd keys then uppercase else lowercase) data := by
  have htable : (t.keyboard.capsOn || t.keyboard.capsLock) = true ↔ capsOdd keys := by
    rw [hon, Bool.false_or, hlock]
  rw [charOf, keyChar, entryOf]
  simp only [htable]

/-- It is the one the modifiers select if and only if the shift key makes no difference. -/
theorem charOf_eq_selected_iff (hon : t.keyboard.capsOn = false)
    (hlock : t.keyboard.capsLock = true ↔ capsOdd keys) :
    charOf t.keyboard data = selected keys data ↔
      (shiftDown keys = true → ¬ capsOdd keys → entryOf uppercase data = entryOf lowercase data) := by
  rw [charOf_eq_entryOf hon hlock, selected]
  by_cases hodd : capsOdd keys
  · rw [if_pos hodd, if_pos (.inr hodd)]
    exact ⟨fun _ _ hno => absurd hodd hno, fun _ => rfl⟩
  · rw [if_neg hodd]
    by_cases hshift : shiftDown keys = true
    · rw [if_pos (.inl hshift)]
      exact ⟨fun h _ _ => h.symm, fun h => (h hshift hodd).symm⟩
    · rw [if_neg (not_or.mpr ⟨hshift, hodd⟩)]
      exact ⟨fun _ h => absurd h hshift, fun _ => rfl⟩

/-- A key of the default case. -/
theorem selects_iff_of_make (hon : t.keyboard.capsOn = false)
    (hlock : t.keyboard.capsLock = true ↔ capsOdd keys) (hin : t.keyboard.input = true)
    (hmake : DefaultMake data) : Selects keys t data ↔ NeedsNoShift keys data := by
  rw [Selects, NeedsNoShift, forall_prop_of_true hmake]
  simp only [if_pos hmake]
  by_cases htab : data &&& 0x7F = 15
  · have hdata : data = 15 := (eq_of_pressed data hmake.1).symm.trans htab
    constructor
    · rintro ⟨t', ht', -⟩
      obtain hsilent | hne := keyboardHandler_isSome_iff.mp ⟨t', ht'⟩
      · rw [hin] at hsilent
        cases hsilent
      · exact absurd hdata hne
    · exact fun h => absurd htab h.1
  · have hkey : CharKey data := charKey_iff.mpr ⟨hmake, htab⟩
    rw [keyboardHandler_char hin hkey, ← charOf_eq_selected_iff hon hlock]
    constructor
    · rintro ⟨t', ht', hcalls⟩
      obtain rfl := Option.some.inj ht'
      refine ⟨htab, ?_⟩
      have hpush : RingCall.push (charOf t.keyboard data) = .push (selected keys data) :=
        (List.cons.inj hcalls).1
      exact RingCall.push.inj hpush
    · rintro ⟨-, heq⟩
      refine ⟨_, rfl, ?_⟩
      rw [← heq]
      rfl

/-- Any other key puts nothing into the ring but the end of the line. -/
theorem selects_of_not_make (hin : t.keyboard.input = true) (hmake : ¬ DefaultMake data) :
    Selects keys t data := by
  have hdata : data ≠ 15 := fun h => hmake (h ▸ by decide)
  obtain ⟨t', ht'⟩ := keyboardHandler_isSome_iff.mpr (.inr hdata)
  refine ⟨t', ht', ?_⟩
  rw [if_neg hmake]
  split_ifs with henter
  · rw [henter, keyboardHandler_enter hin] at ht'
    obtain rfl := Option.some.inj ht'
    rfl
  · obtain rfl | rfl | ⟨-, ⟨h28, -⟩ | ⟨-, -, rfl⟩ | ⟨hkey, -⟩⟩ := keyboardHandler_cases ht'
    · exact .inl rfl
    · exact .inl rfl
    · exact absurd h28 henter
    · exact .inr rfl
    · exact absurd (charKey_iff.mp hkey).1 hmake

theorem selects_iff_of_caps (hon : t.keyboard.capsOn = false)
    (hlock : t.keyboard.capsLock = true ↔ capsOdd keys) (hin : t.keyboard.input = true) :
    Selects keys t data ↔ NeedsNoShift keys data := by
  by_cases hmake : DefaultMake data
  · exact selects_iff_of_make hon hlock hin hmake
  · exact ⟨fun _ h => absurd h hmake, fun _ => selects_of_not_make hin hmake⟩

/-- After any keys, a key takes its character from the table the modifiers select if and only if
    it does not depend on the shift key. -/
theorem selects_iff_needsNoShift {keys : List (BitVec 8)} {t : Terminal} (h : KeyRun keys t)
    (hin : t.keyboard.input = true) (data : BitVec 8) :
    Selects keys t data ↔ NeedsNoShift keys data :=
  selects_iff_of_caps h.caps.1 h.caps.2 hin

/-- The terminal that waits for a key, with zeros everywhere else. -/
def waitingTerminal : Terminal :=
  { bootedTerminal with keyboard := { bootedTerminal.keyboard with input := true } }

theorem keyRun_waiting : KeyRun [] waitingTerminal := by
  have hring := keyboardInit_inRange bootedTerminal.keyboard
  exact (KeyRun.init (t := bootedTerminal) rfl).between rfl rfl
    ⟨hring.head, hring.tail, hring.accessed⟩

/-- That terminal when the caps lock key has been pressed. -/
def lockedTerminal : Terminal :=
  { waitingTerminal with keyboard := { waitingTerminal.keyboard with capsLock := true } }

/-- The caps lock key, the shift key, a letter and a backspace. -/
theorem keyRun_locked : ∃ t, KeyRun [58, 42, 30, 14] t ∧ t.keyboard.input = true := by
  have hlock : KeyRun [58] lockedTerminal :=
    keyRun_waiting.key rfl (fun _ hne => absurd hne (by decide)) rfl
  have hshift : KeyRun [58, 42] lockedTerminal :=
    hlock.key rfl (fun _ hne => absurd hne (by decide)) rfl
  have hletter : KeyRun [58, 42, 30] _ :=
    hshift.key rfl (fun _ hne => absurd hne (by decide)) (keyboardHandler_char rfl (by decide))
  have hback : KeyRun [58, 42, 30, 14] _ :=
    hletter.key rfl (fun _ _ _ => by decide) (keyboardHandler_backspace rfl)
  refine ⟨_, hback, ?_⟩
  split_ifs
  · rfl
  · rfl

/-- After them the letter is a capital one. -/
theorem selects_iff_needsNoShift_locked : ∃ t, KeyRun [58, 42, 30, 14] t ∧
    Selects [58, 42, 30, 14] t 30 ∧ selected [58, 42, 30, 14] 30 = 65 := by
  obtain ⟨t, hkeys, hin⟩ := keyRun_locked
  exact ⟨t, hkeys, (selects_iff_needsNoShift hkeys hin 30).mpr (by decide +kernel),
    by decide +kernel⟩

/-- The letter `'a'` while the shift key is down. -/
theorem not_selects : ¬ ∀ (keys : List (BitVec 8)) (t : Terminal), KeyRun keys t →
    t.keyboard.input = true → ∀ data, Selects keys t data := by
  intro hall
  have hshift : keyboardHandler 42 waitingTerminal = some waitingTerminal := by rfl
  have hkeys : KeyRun [42] waitingTerminal :=
    keyRun_waiting.key rfl (fun _ hne => absurd hne (by decide)) hshift
  have hselects := hall [42] waitingTerminal hkeys rfl 30
  rw [selects_iff_of_caps hkeys.caps.1 hkeys.caps.2 rfl] at hselects
  exact absurd hselects (by decide +kernel)

end Keys

end FirstOs
