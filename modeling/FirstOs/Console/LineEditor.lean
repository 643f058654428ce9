import FirstOs.Console.Editing
import FirstOs.Console.Line
import FirstOs.Console.Modifiers
import Mathlib.Data.List.TakeWhile

/-!
# The terminal as a line editor

To whoever sits in front of it the terminal is a line editor: a prompt, a line whose characters are
put behind the others and taken back from the end, and after the enter key the line once more, as
the command that was read, and the next prompt. Behind it are a ring whose end moves to and fro, a
copy of it, and a cursor that is compared with the place of the prompt.

The two agree as long as no key reaches one of the three ends of the code: the last place of the
screen, index 0 of the ring, and the length of the ring.

## Main definitions

- `LineEditor`, `LineEditor.act` — the editor
- `Keyboard.Contains` — the ring holds a text
- `TerminalEvent.Within` — the key reaches none of the three ends
- `Edits` — the terminal is where the editor is

## Main results

- `Edits.act` — one event
- `within_of_few` — a short session
- `edits_session` — any session
-/

namespace FirstOs

-- ════════════════════════════════════════════════════════════════════════
-- The editor
-- ════════════════════════════════════════════════════════════════════════

/-- The line, whether it is being typed, the lock of the capital letters, and what the console was
    given since the first prompt, in order. -/
structure LineEditor where
  text : List (BitVec 8)
  typing : Bool
  capsLock : Bool
  shown : List Output

namespace LineEditor

/-- What the prompt gives the console. -/
def promptOutputs (prompt : List (BitVec 8)) : List Output :=
  .char 10 :: (prompt.takeWhile (· ≠ 0)).map (.colored (vgaEntryColor 7 0))

/-- The first prompt. -/
def start (prompt : List (BitVec 8)) (capsLock : Bool) : LineEditor :=
  ⟨[], true, capsLock, promptOutputs prompt⟩

/-- The character of a key. -/
def letter (capsLock : Bool) (data : BitVec 8) : BitVec 8 :=
  ((if capsLock then uppercase else lowercase).getD data.toNat 0).setWidth 8

/-- A key, while a line is being typed. -/
def key (data : BitVec 8) (p : LineEditor) : LineEditor :=
  if data = 28 then { p with typing := false, shown := p.shown ++ [.char 10] }
  else if data = 14 then
    if p.text = [] then p
    else { p with text := p.text.dropLast, shown := p.shown ++ [.char 8] }
  else if data = 58 then { p with capsLock := !p.capsLock }
  else if CharKey data then
    { p with
      text := p.text ++ [letter p.capsLock data]
      shown := p.shown ++ [.char (letter p.capsLock data)] }
  else p

/-- The line that was typed is shown, and a new one begins. -/
def next (prompt : List (BitVec 8)) (p : LineEditor) : LineEditor :=
  { p with text := [], typing := true, shown := p.shown ++ p.text.map .char ++ promptOutputs prompt }

def act (prompt : List (BitVec 8)) (p : LineEditor) : TerminalEvent → LineEditor
  | .key data => if p.typing then p.key data else p
  | .turn => if p.typing then p else p.next prompt

/-- The editor after the first prompt and some events. -/
def run (prompt : List (BitVec 8)) (capsLock : Bool) (es : List TerminalEvent) : LineEditor :=
  es.foldl (act prompt) (start prompt capsLock)

end LineEditor

-- ════════════════════════════════════════════════════════════════════════
-- The ring
-- ════════════════════════════════════════════════════════════════════════

/-- The ring holds a text from its head on. -/
structure Keyboard.Contains (k : Keyboard) (text : List (BitVec 8)) : Prop where
  head : 0 ≤ k.head ∧ k.head < 128
  tail : k.tail = (k.head + text.length) % 128
  length : text.length ≤ 128
  buffer : ∀ (j : ℕ) (hj : j < text.length), k.buffer ((k.head + j) % 128) = text[j]

namespace Keyboard.Contains

variable {k : Keyboard} {text : List (BitVec 8)}

/-- A character is put behind the others. -/
theorem push (h : k.Contains text) (hlen : text.length < 128) (ch : BitVec 8) :
    (bufferPush ch k).Contains (text ++ [ch]) := by
  obtain ⟨h0, hlt⟩ := h.head
  have htail := h.tail
  have hlength : (text ++ [ch]).length = text.length + 1 := by
    rw [List.length_append, List.length_singleton]
  refine ⟨h.head, ?_, by omega, fun j hj => ?_⟩
  · have hnew := bufferPush_tail (by omega : 0 ≤ k.tail) ch
    have hhead : (bufferPush ch k).head = k.head := rfl
    rw [hnew, hhead, hlength, htail]
    omega
  · change Function.update k.buffer k.tail ch ((k.head + j) % 128) = _
    rw [hlength] at hj
    obtain hin | rfl := Nat.lt_succ_iff_lt_or_eq.mp hj
    · have hne : (k.head + j) % 128 ≠ k.tail := by omega
      rw [Function.update_of_ne hne, h.buffer j hin, List.getElem_append_left hin]
    · rw [← htail, Function.update_self, List.getElem_concat_length rfl]

/-- The last character is taken back, if the end of the ring is not at index 0. -/
theorem pop (h : k.Contains text) (hne : text ≠ []) (hzero : k.tail ≠ 0) :
    (bufferPop k).Contains text.dropLast := by
  obtain ⟨h0, hlt⟩ := h.head
  have htail := h.tail
  have hpos := List.length_pos_iff.mpr hne
  have hlen := h.length
  have hlength : text.dropLast.length = text.length - 1 := List.length_dropLast
  refine ⟨h.head, ?_, by omega, fun j hj => ?_⟩
  · have hnew : (bufferPop k).tail = (k.tail - 1) % 128 :=
      Int.tmod_eq_emod_of_nonneg (by omega)
    have hhead : (bufferPop k).head = k.head := rfl
    rw [hnew, hhead, hlength]
    omega
  · rw [List.getElem_dropLast]
    exact h.buffer j (by omega)

/-- The string that is read is the text. -/
theorem command (h : k.Contains (text ++ [0])) (hlen : text.length < 127) (hnul : 0 ∉ text) :
    commandString (waitReturn k) = text := by
  obtain ⟨h0, hlt⟩ := h.head
  have htail := h.tail
  have hlength : (text ++ [0]).length = text.length + 1 := by
    rw [List.length_append, List.length_singleton]
  have hsize : (k.tail + 128 - k.head).tmod 128 = text.length + 1 := by
    rw [Int.tmod_eq_emod_of_nonneg (by omega)]
    omega
  have hcopied : ∀ j (hj : j < text.length + 1),
      (waitReturn k).inputBuffer j = (text ++ [0])[j] := by
    intro j hj
    rw [waitReturn_copied h0 hsize, if_pos (by omega)]
    exact h.buffer j (by omega)
  -- Behind the NUL the buffer may hold what is left of a longer line.
  have hsplit : (List.range 128).map (waitReturn k).inputBuffer =
      text ++ 0 :: ((List.range 128).map (waitReturn k).inputBuffer).drop (text.length + 1) := by
    have htake : ((List.range 128).map (waitReturn k).inputBuffer).take (text.length + 1) =
        text ++ [0] := by
      refine List.ext_getElem (by simp; omega) fun j hj hj' => ?_
      rw [List.getElem_take, List.getElem_map, List.getElem_range]
      exact hcopied j (by omega)
    rw [List.append_cons, ← htake, List.take_append_drop]
  rw [commandString, hsplit, List.takeWhile_append_of_pos fun c hc => by
    simpa using ne_of_mem_of_not_mem hc hnul]
  simp

/-- The ring is empty when the line has been read. -/
theorem returned (h : k.Contains text) : (waitReturn k).Contains [] := by
  obtain ⟨h0, hlt⟩ := h.head
  have htail := h.tail
  obtain ⟨hhead, hsame⟩ := @waitReturn_fields k
  rw [Int.tmod_eq_emod_of_nonneg (by omega)] at hhead
  refine ⟨by omega, ?_, Nat.zero_le _, fun j hj => absurd hj (Nat.not_lt_zero j)⟩
  rw [hhead, hsame, List.length_nil]
  omega

end Keyboard.Contains

-- ════════════════════════════════════════════════════════════════════════
-- One event
-- ════════════════════════════════════════════════════════════════════════

/-- A character fits into the ring, and a line into the buffer it is copied to. -/
def TerminalEvent.Short : TerminalEvent → Terminal → Prop
  | key data, t => t.keyboard.input = true →
    (CharKey data → t.line.length < 128) ∧ (data = 28 → t.line.length < 127)
  | turn, _ => True

/-- The key is not the tab, which does not come to an end. -/
def TerminalEvent.NoTab : TerminalEvent → Terminal → Prop
  | key data, t => t.keyboard.input = true → data ≠ 15
  | turn, _ => True

/-- A key reaches neither the last place of the screen, nor index 0 of the ring, nor its length,
    and comes to an end. -/
structure TerminalEvent.Within (e : TerminalEvent) (t : Terminal) : Prop where
  fits : e.Fits t
  ring : e.RingSafe t
  short : e.Short t
  noTab : e.NoTab t

/-- The terminal is where the editor is, if the console was `vga₀` before the first prompt. -/
structure Edits (vga₀ : Vga) (t : Terminal) (p : LineEditor) : Prop where
  shown : putAll p.shown vga₀ = some t.vga
  typing : t.keyboard.input = p.typing
  capsLock : t.keyboard.capsLock = p.capsLock
  capsOn : t.keyboard.capsOn = false
  visible : ∀ ch ∈ p.text, Visible ch
  line : p.typing = true → t.line = p.text.reverse
  ring : t.keyboard.Contains (if p.typing then p.text else p.text ++ [0])
  short : p.typing = false → p.text.length < 127
  sound : Sound t

section Keys

variable {t t' : Terminal} {p : LineEditor} {vga₀ : Vga} {data : BitVec 8}
  {prompt : List (BitVec 8)}

theorem keyboardHandler_lock (h : t.keyboard.input = true) : keyboardHandler 58 t =
    some { t with keyboard := { t.keyboard with capsLock := !t.keyboard.capsLock } } := by
  rw [keyboardHandler, if_neg (by rw [h]; decide)]
  rfl

/-- The other keys do nothing. -/
theorem keyboardHandler_other (h28 : data ≠ 28) (h14 : data ≠ 14) (h58 : data ≠ 58)
    (h15 : data ≠ 15) (hchar : ¬ CharKey data) : keyboardHandler data t = some t := by
  have hpressed : ∀ {code : BitVec 8}, data &&& 0x7F = code → data &&& 0x80 = 0 → data = code :=
    fun hcode hpress => (eq_of_pressed data hpress).symm.trans hcode
  rw [keyboardHandler]
  split_ifs with hin hsilent hc28 hpress hc42 hc58 hpress hc14 hpress hpress
  · rfl
  · rfl
  · exact absurd (hpressed hc28 hpress) h28
  · rfl
  · rfl
  · exact absurd (hpressed hc58 hpress) h58
  · rfl
  · exact absurd (hpressed hc14 hpress) h14
  · rfl
  · refine absurd ⟨hpress, hsilent, ?_⟩ hchar
    simp only [List.mem_cons, List.not_mem_nil, or_false, not_or]
    exact ⟨hc14, fun hc15 => h15 (hpressed hc15 hpress), hc28, hc42, hc58⟩
  · rfl

theorem charOf_eq (h : Edits vga₀ t p) (hchar : CharKey data) :
    charOf t.keyboard data = LineEditor.letter p.capsLock data := by
  rw [charOf, keyChar, LineEditor.letter, h.capsOn, h.capsLock, eq_of_pressed data hchar.1,
    Bool.false_or]

theorem putAll_concat {os : List Output} {o : Output} {s s₁ s' : Vga} (h : putAll os s = some s₁)
    (ho : o.put s₁ = some s') : putAll (os ++ [o]) s = some s' :=
  (Run.events_append_of h).trans (Run.events_cons ho)

theorem Edits.enter (h : Edits vga₀ t p) (htyping : p.typing = true)
    (hshort : t.line.length < 127) : Edits vga₀ t.entered
      { p with typing := false, shown := p.shown ++ [.char 10] } := by
  have hin : t.keyboard.input = true := h.typing.trans htyping
  have hline := h.line htyping
  have hlen : p.text.length < 127 := by
    rw [hline, List.length_reverse] at hshort
    exact hshort
  have hring := h.ring
  rw [if_pos htyping] at hring
  have hpush := hring.push (by omega) 0
  refine ⟨putAll_concat h.shown rfl, rfl, h.capsLock, h.capsOn, h.visible,
    fun hfalse => absurd hfalse Bool.false_ne_true, ?_, fun _ => hlen, ?_⟩
  · exact ⟨hpush.head, hpush.tail, hpush.length, hpush.buffer⟩
  · have hfits : (TerminalEvent.key 28).Fits t := fun _ hchar => absurd hchar (by decide)
    exact h.sound.key hfits (keyboardHandler_enter hin)

theorem Edits.erase (h : Edits vga₀ t p) (htyping : p.typing = true) (hne : p.text ≠ [])
    (htail : t.keyboard.tail ≠ 0) : Edits vga₀ t.erased
      { p with text := p.text.dropLast, shown := p.shown ++ [.char 8] } := by
  have hin : t.keyboard.input = true := h.typing.trans htyping
  have hring := h.ring
  rw [if_pos htyping] at hring
  have hpop := hring.pop hne htail
  have hline := h.line htyping
  have hsome : t.line ≠ [] := by
    rw [hline]
    exact fun hnil => hne (List.reverse_eq_nil_iff.mp hnil)
  refine ⟨putAll_concat h.shown rfl, h.typing, h.capsLock, h.capsOn,
    fun ch hmem => h.visible ch (List.dropLast_subset _ hmem), fun _ => ?_, ?_,
    fun hfalse => absurd (htyping.symm.trans hfalse) (by decide), ?_⟩
  · change t.line.tail = _
    rw [hline, List.tail_reverse]
  · rw [if_pos htyping]
    exact hpop
  · exact ((h.sound.editing hin).erased hsome).sound

theorem Edits.type (h : Edits vga₀ t p) (htyping : p.typing = true) (hchar : CharKey data)
    (hfit : t.vga.row ≠ 24 ∨ t.vga.column ≠ 80) (hlen : t.line.length < 128) :
    Edits vga₀ (t.typed (charOf t.keyboard data))
      { p with
        text := p.text ++ [LineEditor.letter p.capsLock data]
        shown := p.shown ++ [.char (LineEditor.letter p.capsLock data)] } := by
  have hin : t.keyboard.input = true := h.typing.trans htyping
  have hvisible := charOf_visible t.keyboard hchar
  have hletter := charOf_eq h hchar
  have hring := h.ring
  rw [if_pos htyping] at hring
  have hline := h.line htyping
  rw [hline, List.length_reverse] at hlen
  refine ⟨?_, h.typing, h.capsLock, h.capsOn, ?_, fun _ => ?_, ?_,
    fun hfalse => absurd (htyping.symm.trans hfalse) (by decide), ?_⟩
  · rw [← hletter]
    exact putAll_concat h.shown (vgaPutCharc_of_visible hvisible _ _)
  · rw [← hletter, List.forall_mem_append]
    exact ⟨h.visible, List.forall_mem_singleton.mpr hvisible⟩
  · rw [← hletter, List.reverse_append]
    exact congrArg (List.cons _) hline
  · rw [if_pos htyping, ← hletter]
    exact hring.push hlen _
  · exact ((h.sound.editing hin).typed hvisible hfit).sound

theorem Edits.lock (h : Edits vga₀ t p) (htyping : p.typing = true) : Edits vga₀
    { t with keyboard := { t.keyboard with capsLock := !t.keyboard.capsLock } }
    { p with capsLock := !p.capsLock } := by
  have hfits : (TerminalEvent.key 58).Fits t := fun _ hchar => absurd hchar (by decide)
  refine ⟨h.shown, h.typing, congrArg not h.capsLock, h.capsOn, h.visible, h.line, ?_, h.short, ?_⟩
  · exact ⟨h.ring.head, h.ring.tail, h.ring.length, h.ring.buffer⟩
  · exact h.sound.key hfits (keyboardHandler_lock (h.typing.trans htyping))

/-- A key. -/
theorem Edits.key (h : Edits vga₀ t p) (hwithin : (TerminalEvent.key data).Within t) :
    ∃ t', keyboardHandler data t = some t' ∧
      Edits vga₀ t' (p.act prompt (.key data)) := by
  rw [LineEditor.act]
  cases htyping : p.typing with
  | false =>
    rw [if_neg Bool.false_ne_true]
    exact ⟨t, keyboardHandler_silent (h.typing.trans htyping), h⟩
  | true =>
    have hin : t.keyboard.input = true := h.typing.trans htyping
    obtain ⟨hroom, hend⟩ := hwithin.short hin
    rw [if_pos rfl, LineEditor.key]
    split_ifs with h28 h14 hnil h58 hchar
    · exact ⟨_, h28 ▸ keyboardHandler_enter hin, h.enter htyping (hend h28)⟩
    · -- Nothing was typed: the cursor is still where the prompt left it.
      have hnone : t.line = [] := by rw [h.line htyping, hnil, List.reverse_nil]
      refine ⟨t, ?_, h⟩
      rw [h14, (h.sound.editing hin).backspace hin, if_pos hnone]
    · have hsome : t.line ≠ [] := by
        rw [h.line htyping]
        exact fun hrev => hnil (List.reverse_eq_nil_iff.mp hrev)
      have hpos : vgaGetPos t.vga ≠ t.stopDelete := fun hpos =>
        hsome ((h.sound.editing hin).pos_eq_iff.mp hpos)
      refine ⟨t.erased, ?_, h.erase htyping hnil (hwithin.ring hin h14 hpos)⟩
      rw [h14, (h.sound.editing hin).backspace hin, if_neg hsome]
    · exact ⟨_, h58 ▸ keyboardHandler_lock hin, h.lock htyping⟩
    · exact ⟨_, keyboardHandler_char hin hchar,
        h.type htyping hchar (hwithin.fits hin hchar) (hroom hchar)⟩
    · exact ⟨t, keyboardHandler_other h28 h14 h58 (hwithin.noTab hin) hchar, h⟩

/-- The prompt starts a line. -/
theorem edits_prompt (hprompt : ∀ ch ∈ prompt, ch ≠ 8 ∧ ch ≠ 9 ∧ ch ≠ 13)
    (hlen : prompt.length < 80) {os : List Output} (hshown : putAll os vga₀ = some t.vga)
    (hrow : t.vga.row < 25) (hcalls : t.keyboard.calls = []) (hcapsOn : t.keyboard.capsOn = false)
    {capsLock : Bool} (hcapsLock : t.keyboard.capsLock = capsLock)
    (hring : t.keyboard.Contains []) : ∃ t', terminalPrompt prompt t = some t' ∧
      Edits vga₀ t' ⟨[], true, capsLock, os ++ LineEditor.promptOutputs prompt⟩ := by
  have htabFree : 9 ∉ textOf prompt := fun htab =>
    (hprompt 9 ((List.takeWhile_prefix _).subset htab)).2.1 rfl
  obtain ⟨vga, hprint⟩ := vgaPrintc_isSome 7 (vgaNewLine t.vga) htabFree
  have hrun : terminalPrompt prompt t = some
      ⟨vga, { t.keyboard with input := true }, vgaGetPos vga⟩ :=
    congrArg (Option.map _) hprint
  obtain ⟨hediting, -⟩ := terminalPrompt_editing (fun ch hch => ⟨(hprompt ch hch).1,
    (hprompt ch hch).2.2⟩) hlen hrow hcalls hrun
  refine ⟨_, hrun, ?_, rfl, hcapsLock, hcapsOn, fun ch hch => absurd hch List.not_mem_nil,
    fun _ => ?_, ?_, fun hfalse => absurd hfalse.symm Bool.false_ne_true, hediting.sound⟩
  · rw [vgaPrintc, vgaPrintcWith_eq_putAll] at hprint
    exact (Run.events_append_of hshown).trans ((Run.events_cons rfl).trans hprint)
  · change typedText t.keyboard.calls = _
    rw [hcalls]
    rfl
  · exact ⟨hring.head, hring.tail, hring.length, hring.buffer⟩

/-- The string that is read is the line. -/
theorem Edits.command (h : Edits vga₀ t p) (htyping : p.typing = false) :
    commandString (waitReturn t.keyboard) = p.text := by
  have hring := h.ring
  rw [if_neg (by rw [htyping]; decide)] at hring
  exact hring.command (h.short htyping) fun hmem => h.visible 0 hmem List.mem_cons_self

/-- A turn of the loop. -/
theorem Edits.turn (h : Edits vga₀ t p) (hprompt : ∀ ch ∈ prompt, ch ≠ 8 ∧ ch ≠ 9 ∧ ch ≠ 13)
    (hlen : prompt.length < 80) : ∃ t', terminalTurn prompt t = some t' ∧
      Edits vga₀ t' (p.act prompt .turn) := by
  rw [LineEditor.act]
  simp only [terminalTurn]
  cases htyping : p.typing with
  | true =>
    rw [if_pos (h.typing.trans htyping), if_pos rfl]
    exact ⟨t, rfl, h⟩
  | false =>
    rw [if_neg (by rw [h.typing, htyping]; decide), h.command htyping, if_neg Bool.false_ne_true]
    have htext : textOf p.text = p.text := List.takeWhile_eq_self_iff.mpr fun ch hch => by
      simpa using fun hzero : ch = 0 => h.visible ch hch (hzero ▸ List.mem_cons_self)
    have htabFree : 9 ∉ textOf p.text := by
      rw [htext]
      exact fun htab => h.visible 9 htab (by decide)
    obtain ⟨vga, hprint⟩ := vgaPrint_isSome_iff.mpr htabFree
    rw [hprint, Option.bind_some]
    obtain ⟨hcapsOn, hcapsLock⟩ : (waitReturn t.keyboard).capsOn = t.keyboard.capsOn ∧
        (waitReturn t.keyboard).capsLock = t.keyboard.capsLock := copyLine_caps
    rw [vgaPrint_eq_putAll] at hprint
    have hshown : putAll (p.shown ++ p.text.map .char) vga₀ = some vga := by
      rw [← htext]
      exact (Run.events_append_of h.shown).trans hprint
    exact edits_prompt hprompt hlen (t := { t with vga := vga, keyboard := waitReturn t.keyboard })
      hshown (putAll_row h.sound.row hprint) rfl (hcapsOn.trans h.capsOn)
      (hcapsLock.trans h.capsLock) h.ring.returned

theorem Edits.act {e : TerminalEvent} (h : Edits vga₀ t p)
    (hprompt : ∀ ch ∈ prompt, ch ≠ 8 ∧ ch ≠ 9 ∧ ch ≠ 13) (hlen : prompt.length < 80)
    (hwithin : e.Within t) :
    ∃ t', e.act prompt t = some t' ∧ Edits vga₀ t' (p.act prompt e) := by
  cases e with
  | key data => exact h.key hwithin
  | turn => exact h.turn hprompt hlen

end Keys

-- ════════════════════════════════════════════════════════════════════════
-- Few events
-- ════════════════════════════════════════════════════════════════════════

/-- There is room for some more characters, on the screen and up to the end of the ring. -/
structure Spacious (prompt : List (BitVec 8)) (n : ℕ) (t : Terminal) : Prop where
  room : HasRoom prompt n t
  order : 0 ≤ t.keyboard.head ∧ t.keyboard.head ≤ t.keyboard.tail
  line : t.keyboard.input = true → t.keyboard.tail = t.keyboard.head + t.line.length
  ring : t.keyboard.tail + n < 128

section Few

variable {t t' : Terminal} {prompt : List (BitVec 8)} {n : ℕ}

theorem Spacious.within (h : Spacious prompt (n + 1) t) {e : TerminalEvent} (htab : e ≠ .key 15) :
    e.Within t := by
  have hring := h.ring
  have horder := h.order
  refine ⟨h.room.fits e, ?_, ?_, ?_⟩
  · cases e with
    | turn => exact trivial
    | key data =>
      intro hin _ hpos
      have hline := h.line hin
      have hsome := List.length_pos_iff.mpr
        (mt (h.room.sound.editing hin).pos_eq_iff.mpr hpos)
      omega
  · cases e with
    | turn => exact trivial
    | key data =>
      intro hin
      have hline := h.line hin
      exact ⟨fun _ => by omega, fun _ => by omega⟩
  · cases e with
    | turn => exact trivial
    | key data => exact fun _ h15 => htab (h15 ▸ rfl)

theorem Spacious.key (h : Spacious prompt (n + 1) t) {data : BitVec 8}
    (hkey : keyboardHandler data t = some t') : Spacious prompt n t' := by
  have hring := h.ring
  obtain ⟨h0, hle⟩ := h.order
  have hpush : ∀ ch, (bufferPush ch t.keyboard).tail = t.keyboard.tail + 1 := fun ch => by
    rw [bufferPush_tail (by omega) ch]
    omega
  have hroom := h.room.key hkey
  obtain rfl | rfl | ⟨hin, ⟨-, rfl⟩ | ⟨-, hpos, rfl⟩ | ⟨hchar, rfl⟩⟩ := keyboardHandler_cases hkey
  · exact ⟨hroom, h.order, h.line, by omega⟩
  · exact ⟨hroom, h.order, h.line, show t.keyboard.tail + n < 128 by omega⟩
  · have htail : t.entered.keyboard.tail = t.keyboard.tail + 1 := hpush 0
    exact ⟨hroom, ⟨h0, by rw [htail]; exact hle.trans (Int.le_add_one le_rfl)⟩,
      fun hfalse => absurd hfalse Bool.false_ne_true, by omega⟩
  · have hline := h.line hin
    have hsome := List.length_pos_iff.mpr (mt (h.room.sound.editing hin).pos_eq_iff.mpr hpos)
    have hlen : t.erased.line.length = t.line.length - 1 := List.length_tail
    have htail : t.erased.keyboard.tail = t.keyboard.tail - 1 := by
      show (t.keyboard.tail - 1).tmod 128 = _
      rw [Int.tmod_eq_emod_of_nonneg (by omega)]
      omega
    have hhead : t.erased.keyboard.head = t.keyboard.head := rfl
    exact ⟨hroom, by omega, fun _ => by omega, by omega⟩
  · have hline := h.line hin
    have hlen : (t.typed (charOf t.keyboard data)).line.length = t.line.length + 1 :=
      List.length_cons
    have htail : (t.typed (charOf t.keyboard data)).keyboard.tail = t.keyboard.tail + 1 :=
      hpush _
    have hhead : (t.typed (charOf t.keyboard data)).keyboard.head = t.keyboard.head := rfl
    exact ⟨hroom, by omega, fun _ => by omega, by omega⟩

theorem Spacious.turn (h : Spacious prompt (n + 1) t) (hprompt : ∀ ch ∈ prompt, ch ≠ 8 ∧ ch ≠ 13)
    (hturn : terminalTurn prompt t = some t') : Spacious prompt n t' := by
  have hring := h.ring
  obtain ⟨h0, hle⟩ := h.order
  have hroom := h.room.turn hprompt hturn
  simp only [terminalTurn] at hturn
  split_ifs at hturn with hin
  · obtain rfl := Option.some.inj hturn
    exact ⟨hroom, h.order, h.line, by omega⟩
  · obtain ⟨vga, -, hturn⟩ := Option.bind_eq_some_iff.mp hturn
    obtain ⟨vga', -, rfl⟩ := Option.map_eq_some_iff.mp hturn
    obtain ⟨hhead, htail⟩ := @waitReturn_fields t.keyboard
    rw [Int.tmod_eq_of_lt (by omega) (by omega)] at hhead
    refine ⟨hroom, ?_, fun _ => ?_, ?_⟩
    · show 0 ≤ (waitReturn t.keyboard).head ∧
        (waitReturn t.keyboard).head ≤ (waitReturn t.keyboard).tail
      omega
    · show (waitReturn t.keyboard).tail = (waitReturn t.keyboard).head + (0 : ℕ)
      omega
    · show (waitReturn t.keyboard).tail + n < 128
      omega

/-- With fewer events than there are places behind the prompt, no key reaches an end of the code. -/
theorem within_of_few {t₀ : Terminal} {es : List TerminalEvent} (hrow : t₀.vga.row < 25)
    (hprompt : ∀ ch ∈ prompt, ch ≠ 8 ∧ ch ≠ 13) (hfew : prompt.length + es.length < 80)
    (hkeys : TerminalEvent.key 15 ∉ es) :
    ∀ p e, p ++ [e] <+: es → ∀ t, session prompt t₀ p = some t → e.Within t := by
  unfold session
  cases hstart : terminalPrompt prompt { t₀ with keyboard := keyboardInit t₀.keyboard } with
  | none => exact fun _ _ _ _ ht => absurd ht (by simp)
  | some t₁ =>
    have hroom := hasRoom_prompt hrow hprompt hfew hstart
    obtain ⟨vga, -, rfl⟩ := Option.map_eq_some_iff.mp hstart
    have hstart : Spacious prompt es.length
        ⟨vga, { keyboardInit t₀.keyboard with input := true }, vgaGetPos vga⟩ :=
      ⟨hroom, ⟨le_rfl, le_rfl⟩, fun _ => rfl, show (0 : ℤ) + es.length < 128 by omega⟩
    refine Run.condition_of_budget (fun n e he t h => h.within fun h15 => hkeys (h15 ▸ he))
      (fun n e _ t h t' hact => ?_) hstart
    cases e with
    | key data => exact h.key hact
    | turn => exact h.turn hprompt hact

end Few

-- ════════════════════════════════════════════════════════════════════════
-- Sessions
-- ════════════════════════════════════════════════════════════════════════

/-- In every session whose keys reach none of the ends of the code, the terminal is the editor: the
    console is what it becomes when it is given what the editor shows, the line is the text, and the
    string `wait_keyboard_input` returns is the line as it was edited. -/
theorem edits_session {t₀ : Terminal} (hrow : t₀.vga.row < 25) {prompt : List (BitVec 8)}
    (hprompt : ∀ ch ∈ prompt, ch ≠ 8 ∧ ch ≠ 9 ∧ ch ≠ 13) (hlen : prompt.length < 80)
    (es : List TerminalEvent)
    (hwithin : ∀ p e, p ++ [e] <+: es → ∀ t, session prompt t₀ p = some t → e.Within t) :
    ∃ t, session prompt t₀ es = some t ∧
      putAll (LineEditor.run prompt t₀.keyboard.capsLock es).shown t₀.vga = some t.vga ∧
      t.keyboard.input = (LineEditor.run prompt t₀.keyboard.capsLock es).typing ∧
      (t.keyboard.input = true →
        t.line.reverse = (LineEditor.run prompt t₀.keyboard.capsLock es).text) ∧
      (t.keyboard.input = false → commandString (waitReturn t.keyboard) =
        (LineEditor.run prompt t₀.keyboard.capsLock es).text) := by
  have hnone : putAll [] t₀.vga = some t₀.vga := rfl
  have hempty : (keyboardInit t₀.keyboard).Contains [] :=
    ⟨⟨le_refl 0, Int.natCast_succ_pos 127⟩, rfl, Nat.zero_le _,
      fun j hj => absurd hj (Nat.not_lt_zero j)⟩
  obtain ⟨t₁, hstart, h⟩ := edits_prompt (t := { t₀ with keyboard := keyboardInit t₀.keyboard })
    hprompt hlen hnone hrow rfl rfl rfl hempty
  have hsession : ∀ es, session prompt t₀ es = Run.events (TerminalEvent.act prompt) es t₁ :=
    fun es => by rw [session, hstart, Option.bind_some]
  simp only [hsession] at hwithin ⊢
  have hact : ∀ e t p, Edits t₀.vga t p → TerminalEvent.Within e t →
      ∃ t', e.act prompt t = some t' ∧ Edits t₀.vga t' (p.act prompt e) :=
    fun e t p h hwithin => h.act hprompt hlen hwithin
  obtain ⟨t, hrun, hedits⟩ := Run.events_foldl hact h hwithin
  refine ⟨t, hrun, hedits.shown, hedits.typing, fun hin => ?_, fun hin => ?_⟩
  · rw [hedits.line (hedits.typing.symm.trans hin), List.reverse_reverse]
    rfl
  · exact hedits.command (hedits.typing.symm.trans hin)

theorem edits_session_twoLines : ∃ t, session [36, 32] shownTerminal twoLines = some t ∧
    putAll (LineEditor.promptOutputs [36, 32] ++
      ([97, 98, 8, 8, 99, 10, 99].map .char ++ LineEditor.promptOutputs [36, 32] ++
        [97, 8, 100].map .char)) shownTerminal.vga = some t.vga ∧ t.line.reverse = [100] := by
  have hrow : shownTerminal.vga.row < 25 :=
    @runCalls_row darkScreen _ [.newLine, .newLine] rfl
  obtain ⟨t, hrun, hshown, htyping, hline, -⟩ := @edits_session shownTerminal hrow [36, 32]
    (by decide) (by decide) twoLines
    (within_of_few hrow (by decide) (by decide) (by simp [twoLines]))
  exact ⟨t, hrun, hshown, hline htyping⟩

end FirstOs
