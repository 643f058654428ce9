import FirstOs.Console.Editing

/-!
# The indices of the ring

`buffer_pop` takes the remainder of `tail - 1`, which for `tail` 0 is -1. No other step leaves
the range of the indices.

## Main definitions

- `Keyboard.InRange` — the two positions and all indices used
- `TerminalEvent.RingSafe` — no backspace is accepted at position 0

## Main results

- `ring_inRange_iff` — any keys and lines
-/

namespace FirstOs

/-- The two positions are indices of the ring, as all indices used. -/
structure Keyboard.InRange (k : Keyboard) : Prop where
  head : 0 ≤ k.head ∧ k.head < 128
  tail : 0 ≤ k.tail ∧ k.tail < 128
  accessed : ∀ i ∈ k.accessed, 0 ≤ i ∧ i < 128

/-- The event is no backspace that is accepted while the end of the ring is at index 0. -/
def TerminalEvent.RingSafe : TerminalEvent → Terminal → Prop
  | key data, t => t.keyboard.input = true → data = 14 → vgaGetPos t.vga ≠ t.stopDelete →
      t.keyboard.tail ≠ 0
  | turn, _ => True

section Keyboard

variable {k : Keyboard} {size : ℤ} {i : ℕ}

theorem tmod_inRange {a : ℤ} (h : 0 ≤ a) : 0 ≤ a.tmod 128 ∧ a.tmod 128 < 128 := by
  rw [Int.tmod_eq_emod_of_nonneg h]
  omega

theorem keyboardInit_inRange (k : Keyboard) : (keyboardInit k).InRange :=
  ⟨⟨le_refl 0, Int.natCast_succ_pos 127⟩, ⟨le_refl 0, Int.natCast_succ_pos 127⟩,
    fun _ hi => absurd hi List.not_mem_nil⟩

theorem bufferPush_tail (h : 0 ≤ k.tail) (data : BitVec 8) :
    (bufferPush data k).tail = (k.tail + 1) % 128 := Int.tmod_eq_emod_of_nonneg (by omega)

theorem bufferPush_inRange (h : k.InRange) (data : BitVec 8) : (bufferPush data k).InRange := by
  obtain ⟨h0, hlt⟩ := h.tail
  refine ⟨h.head, tmod_inRange (by omega), fun i hi => ?_⟩
  obtain rfl | hi := List.mem_cons.mp hi
  · exact h.tail
  · exact h.accessed i hi

/-- The remainder of -1 is -1. -/
theorem bufferPop_inRange (h : k.InRange) : (bufferPop k).InRange ↔ k.tail ≠ 0 := by
  obtain ⟨h0, hlt⟩ := h.tail
  constructor
  · intro h' hzero
    have htail : (k.tail - 1).tmod 128 = -1 := by
      rw [hzero]
      rfl
    have hneg : 0 ≤ (k.tail - 1).tmod 128 := h'.tail.1
    omega
  · intro hne
    exact ⟨h.head, tmod_inRange (show 0 ≤ k.tail - 1 by omega), h.accessed⟩

theorem copyLine_tail : (copyLine size i k).tail = k.tail := by
  fun_induction copyLine size i k with
  | case1 i k hi ih => exact ih
  | case2 i k hi => rfl

theorem copyLine_accessed (hhead : 0 ≤ k.head) (h : ∀ j ∈ k.accessed, 0 ≤ j ∧ j < 128) :
    ∀ j ∈ (copyLine size i k).accessed, 0 ≤ j ∧ j < 128 := by
  fun_induction copyLine size i k with
  | case1 i k hi ih =>
    refine ih hhead fun j hj => ?_
    obtain rfl | hj := List.mem_cons.mp hj
    · exact tmod_inRange (by omega)
    · exact h j hj
  | case2 i k hi => exact h

/-- Both positions are the end of the line when it has been read. -/
theorem waitReturn_fields :
    (waitReturn k).head = k.tail.tmod 128 ∧ (waitReturn k).tail = k.tail := by
  have htail := @copyLine_tail k ((k.tail + 128 - k.head).tmod 128) 0
  exact ⟨congrArg (Int.tmod · 128) htail, htail⟩

theorem waitReturn_inRange (h : k.InRange) : (waitReturn k).InRange := by
  obtain ⟨hhead, htail⟩ := @waitReturn_fields k
  refine ⟨?_, ?_, copyLine_accessed h.head.1 h.accessed⟩
  · rw [hhead]
    exact tmod_inRange h.tail.1
  · rw [htail]
    exact h.tail

end Keyboard

section Events

variable {prompt : List (BitVec 8)} {t t' : Terminal}

theorem terminalPrompt_keyboard (h : terminalPrompt prompt t = some t') :
    t'.keyboard = { t.keyboard with input := true } := by
  obtain ⟨vga, -, rfl⟩ := Option.map_eq_some_iff.mp h
  rfl

theorem terminalTurn_inRange (h : t.keyboard.InRange) (hturn : terminalTurn prompt t = some t') :
    t'.keyboard.InRange := by
  simp only [terminalTurn] at hturn
  split_ifs at hturn with hin
  · exact Option.some.inj hturn ▸ h
  · obtain ⟨vga, -, hturn⟩ := Option.bind_eq_some_iff.mp hturn
    rw [terminalPrompt_keyboard hturn]
    have hwait := waitReturn_inRange h
    exact ⟨hwait.head, hwait.tail, hwait.accessed⟩

/-- A key keeps the indices in range unless it is a backspace at position 0. -/
theorem keyboardHandler_inRange (h : t.keyboard.InRange) (data : BitVec 8) :
    (∀ t', keyboardHandler data t = some t' → t'.keyboard.InRange) ↔
      (TerminalEvent.key data).RingSafe t := by
  constructor
  · intro hall hin hdata hpos
    have hkey : keyboardHandler data t = some t.erased := by
      rw [hdata, keyboardHandler_backspace hin, if_neg hpos]
    exact (bufferPop_inRange h).mp (hall t.erased hkey)
  · intro hsafe t' hkey
    obtain rfl | rfl | ⟨hin, ⟨-, rfl⟩ | ⟨hdata, hpos, rfl⟩ | ⟨-, rfl⟩⟩ := keyboardHandler_cases hkey
    · exact h
    · exact ⟨h.head, h.tail, h.accessed⟩
    · have hpush := bufferPush_inRange h 0
      exact ⟨hpush.head, hpush.tail, hpush.accessed⟩
    · exact (bufferPop_inRange h).mpr (hsafe hin hdata hpos)
    · exact bufferPush_inRange h _

theorem act_inRange (h : t.keyboard.InRange) (e : TerminalEvent) :
    (∀ t', e.act prompt t = some t' → t'.keyboard.InRange) ↔ e.RingSafe t := by
  cases e with
  | key data => exact keyboardHandler_inRange h data
  | turn => exact ⟨fun _ => trivial, fun _ t' => terminalTurn_inRange h⟩

end Events

/-- The indices are in range in all states of a run of the terminal from `keyboard_init` on if and
    only if no backspace is accepted at position 0. -/
theorem ring_inRange_iff (prompt : List (BitVec 8)) (t₀ : Terminal) (es : List TerminalEvent) :
    (∀ p, p <+: es → ∀ t, session prompt t₀ p = some t → t.keyboard.InRange) ↔
      ∀ p e, p ++ [e] <+: es → ∀ t, session prompt t₀ p = some t → e.RingSafe t := by
  simp only [session]
  cases hstart : terminalPrompt prompt { t₀ with keyboard := keyboardInit t₀.keyboard } with
  | none => exact ⟨fun _ _ _ _ _ ht => absurd ht (by simp), fun _ _ _ _ ht => absurd ht (by simp)⟩
  | some t₁ =>
    have h : t₁.keyboard.InRange := by
      have hinit := keyboardInit_inRange t₀.keyboard
      rw [terminalPrompt_keyboard hstart]
      exact ⟨hinit.head, hinit.tail, hinit.accessed⟩
    exact Run.events_iff (fun e _ t ht => act_inRange ht e) h

/-- The end of the ring after a line. -/
theorem pushLine_tail {line : List (BitVec 8)} {k : Keyboard} (h0 : 0 ≤ k.tail)
    (hlt : k.tail < 128) : (pushLine line k).tail = (k.tail + line.length) % 128 := by
  induction line generalizing k with
  | nil =>
    show k.tail = (k.tail + 0) % 128
    omega
  | cons ch line ih =>
    have htail := bufferPush_tail h0 ch
    have hpush : (pushLine (ch :: line) k).tail = ((bufferPush ch k).tail + line.length) % 128 :=
      ih (k := bufferPush ch k) (by omega) (by omega)
    rw [hpush, htail, List.length_cons]
    omega

/-- A line of 128 characters ends at position 0, and the backspace behind it is accepted. -/
theorem not_ring_inRange : ¬ ∀ (prompt : List (BitVec 8)) (t₀ : Terminal)
    (es : List TerminalEvent), (∀ data, .key data ∈ es → data &&& 0x7F ≠ 15) →
      ∀ p, p <+: es → ∀ t, session prompt t₀ p = some t → t.keyboard.InRange := by
  intro hall
  obtain ⟨t₁, hstart, hkeyboard, hstop, hed, hline⟩ := emptyPrompt
    (t := { bootedTerminal with keyboard := keyboardInit bootedTerminal.keyboard })
    (vgaInit_fields darkScreen).1 (by decide) rfl
  have hin : t₁.keyboard.input = true := by rw [hkeyboard]
  have htail : t₁.keyboard.tail = 0 := by
    rw [hkeyboard]
    rfl
  rw [if_pos (by decide)] at hstop
  have hkeys : ∀ data ∈ List.replicate 128 (30 : BitVec 8), CharKey data := fun data hmem =>
    (List.eq_of_mem_replicate hmem).symm ▸ by decide
  obtain ⟨vga, hrun⟩ := @keys_pushLine [] t₁ _ hin hkeys
  have hroom : t₁.stop + t₁.line.length + (List.replicate 128 (30 : BitVec 8)).length ≤ 2000 := by
    rw [List.length_replicate, Terminal.stop, hstop, hline]
    decide
  obtain ⟨hed', hline'⟩ := hed.keys hin hkeys hroom hrun
  rw [hline, List.length_replicate] at hline'
  have htail' : (pushLine ((List.replicate 128 30).map (charOf t₁.keyboard)) t₁.keyboard).tail = 0 := by
    rw [pushLine_tail (by omega) (by omega), htail, List.length_map, List.length_replicate]
    rfl
  have hin' := (pushLine_input ((List.replicate 128 30).map (charOf t₁.keyboard)) t₁.keyboard).trans hin
  generalize pushLine _ t₁.keyboard = k at hrun hed' hline' htail' hin'
  have hback : (TerminalEvent.key 14).act [] { t₁ with vga := vga, keyboard := k } =
      some (Terminal.erased { t₁ with vga := vga, keyboard := k }) := by
    have hne : Terminal.line { t₁ with vga := vga, keyboard := k } ≠ [] := fun hnil => by
      rw [hnil] at hline'
      exact absurd hline' (by decide)
    rw [TerminalEvent.act, hed'.backspace hin', if_neg hne]
  have hnotab : ∀ data, .key data ∈ (List.replicate 128 (30 : BitVec 8)).map TerminalEvent.key ++
      [.key 14] → data &&& 0x7F ≠ 15 := by
    intro data hdata
    obtain hdata | hdata := List.mem_append.mp hdata
    · obtain ⟨_, hmem, heq⟩ := List.mem_map.mp hdata
      obtain rfl := TerminalEvent.key.inj heq
      rw [List.eq_of_mem_replicate hmem]
      decide
    · obtain rfl := TerminalEvent.key.inj (List.mem_singleton.mp hdata)
      decide
  have hrange := hall [] bootedTerminal _ hnotab
    _ (List.prefix_refl _) _ (by
      rw [session, hstart, Option.bind_some, Run.events_append_of hrun, Run.events_cons hback,
        Run.events_nil])
  have hpop : (0 : ℤ) ≤ (k.tail - 1).tmod 128 := hrange.tail.1
  rw [htail'] at hpop
  exact absurd hpop (by decide)

end FirstOs
