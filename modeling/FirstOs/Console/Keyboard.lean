import FirstOs.Console.Screen
import Mathlib.Data.Int.Basic
import Mathlib.Tactic.NormNum

/-!
# The keyboard and the terminal loop

`drivers/keyboard/keyboard.c` and `terminal/terminal.c`. A key comes as the byte that
`keyboard_handler` reads from the port. `wait_keyboard_input` waits until the handler has
ended the line, so that its two halves are the start of the wait and what is done when it is
over; in between there are only keys.

The ring of characters is a function of the index. In memory `buffer.buffer[-1]` down to
`buffer.buffer[-127]` are bytes of other variables (`caps_on`, `caps_lock`, `ticks`); the model
does not have a character pushed there change them, so what it says is what the code does in
runs in which the ring stays in its range. `KEYBOARD_BUFFER_SIZE` is 128. The state also records
the indices used and the calls of `buffer_push` and `buffer_pop` since the last line was
returned, which the code does not.

## Main definitions

- `bufferPush`, `bufferPop`, `keyboardHandler` — the handler
- `waitReturn` — the line that is returned
- `terminalPrompt`, `terminalTurn` — the loop of `terminal_init`
- `TerminalEvent.act`, `session` — a key or a turn of the loop, and a run

## Main results

- `keyboardHandler_cases` — all that a key can do
-/

namespace FirstOs

/-! ### Keys -/

namespace Key

def unknown : BitVec 32 := 0xFFFFFFFF
def esc : BitVec 32 := 0xFFFFFFFF - 1
def ctrl : BitVec 32 := 0xFFFFFFFF - 2
def lshft : BitVec 32 := 0xFFFFFFFF - 3
def rshft : BitVec 32 := 0xFFFFFFFF - 4
def alt : BitVec 32 := 0xFFFFFFFF - 5
def f1 : BitVec 32 := 0xFFFFFFFF - 6
def f2 : BitVec 32 := 0xFFFFFFFF - 7
def f3 : BitVec 32 := 0xFFFFFFFF - 8
def f4 : BitVec 32 := 0xFFFFFFFF - 9
def f5 : BitVec 32 := 0xFFFFFFFF - 10
def f6 : BitVec 32 := 0xFFFFFFFF - 11
def f7 : BitVec 32 := 0xFFFFFFFF - 12
def f8 : BitVec 32 := 0xFFFFFFFF - 13
def f9 : BitVec 32 := 0xFFFFFFFF - 14
def f10 : BitVec 32 := 0xFFFFFFFF - 15
def f11 : BitVec 32 := 0xFFFFFFFF - 16
def f12 : BitVec 32 := 0xFFFFFFFF - 17
def scrlck : BitVec 32 := 0xFFFFFFFF - 18
def home : BitVec 32 := 0xFFFFFFFF - 19
def up : BitVec 32 := 0xFFFFFFFF - 20
def left : BitVec 32 := 0xFFFFFFFF - 21
def right : BitVec 32 := 0xFFFFFFFF - 22
def down : BitVec 32 := 0xFFFFFFFF - 23
def pgup : BitVec 32 := 0xFFFFFFFF - 24
def pgdown : BitVec 32 := 0xFFFFFFFF - 25
def endKey : BitVec 32 := 0xFFFFFFFF - 26
def ins : BitVec 32 := 0xFFFFFFFF - 27
def del : BitVec 32 := 0xFFFFFFFF - 28
def caps : BitVec 32 := 0xFFFFFFFF - 29
def numlck : BitVec 32 := 0xFFFFFFFF - 32

/-- The keys that are characters. -/
def chars (cs : List Char) : List (BitVec 32) := cs.map fun c => BitVec.ofNat 32 c.toNat

/-- What both tables hold behind the space. -/
def others : List (BitVec 32) :=
  [caps, f1, f2, f3, f4, f5, f6, f7, f8, f9, f10, numlck, scrlck, home, up, pgup] ++
    chars ['-'] ++ [left, unknown, right] ++ chars ['+'] ++
    [endKey, down, pgdown, ins, del, unknown, unknown, unknown, f11, f12] ++
    List.replicate 39 unknown

end Key

open Key

/-- `lowercase`. The characters given by number are `'\\b'`, `'\\t'`, `'\\n'`, the quote, the
    backquote and the backslash. -/
def lowercase : List (BitVec 32) :=
  [unknown, esc] ++ chars ['1', '2', '3', '4', '5', '6', '7', '8', '9', '0', '-', '='] ++ [8, 9] ++
    chars ['q', 'w', 'e', 'r', 't', 'y', 'u', 'i', 'o', 'p', '[', ']'] ++ [10, ctrl] ++
    chars ['a', 's', 'd', 'f', 'g', 'h', 'j', 'k', 'l', ';'] ++ [39, 96, lshft, 92] ++
    chars ['z', 'x', 'c', 'v', 'b', 'n', 'm', ',', '.', '/'] ++ [rshft] ++ chars ['*'] ++ [alt] ++
    chars [' '] ++ others

/-- `uppercase`. The characters given by number are `'\\b'`, `'\\t'`, the braces, `'\\n'` and the
    double quote. -/
def uppercase : List (BitVec 32) :=
  [unknown, esc] ++ chars ['!', '@', '#', '$', '%', '^', '&', '*', '(', ')', '_', '+'] ++ [8, 9] ++
    chars ['Q', 'W', 'E', 'R', 'T', 'Y', 'U', 'I', 'O', 'P'] ++ [123, 125, 10, ctrl] ++
    chars ['A', 'S', 'D', 'F', 'G', 'H', 'J', 'K', 'L', ':'] ++ [34] ++ chars ['~'] ++ [lshft] ++
    chars ['|', 'Z', 'X', 'C', 'V', 'B', 'N', 'M', '<', '>', '?'] ++ [rshft] ++ chars ['*'] ++
    [alt] ++ chars [' '] ++ others

example : lowercase.length = 128 ∧ uppercase.length = 128 := by decide +kernel

/-! ### The ring of characters -/

/-- A call that changes the ring. -/
inductive RingCall
  | push (data : BitVec 8)
  | pop
deriving DecidableEq

/-- The state of the keyboard. -/
structure Keyboard where
  input : Bool
  head : ℤ
  tail : ℤ
  buffer : ℤ → BitVec 8
  inputBuffer : ℕ → BitVec 8
  capsOn : Bool
  capsLock : Bool
  /-- The indices of `buffer.buffer` used, the last one first. -/
  accessed : List ℤ
  /-- The calls since the last line was returned, the last one first. -/
  calls : List RingCall

/-- `buffer_push`. -/
def bufferPush (data : BitVec 8) (k : Keyboard) : Keyboard :=
  { k with
    buffer := Function.update k.buffer k.tail data
    tail := (k.tail + 1).tmod 128
    accessed := k.tail :: k.accessed
    calls := .push data :: k.calls }

/-- `buffer_pop`. -/
def bufferPop (k : Keyboard) : Keyboard :=
  { k with
    tail := (k.tail - 1).tmod 128
    calls := .pop :: k.calls }

/-- `keyboard_init`, with nothing recorded before it. -/
def keyboardInit (k : Keyboard) : Keyboard :=
  { k with head := 0, tail := 0, input := false, capsOn := false, accessed := [], calls := [] }

/-- The loop of `wait_keyboard_input` that copies the line. -/
def copyLine (size : ℤ) (i : ℕ) (k : Keyboard) : Keyboard :=
  if i < size then
    copyLine size (i + 1)
      { k with
        inputBuffer := Function.update k.inputBuffer i (k.buffer ((k.head + i).tmod 128))
        accessed := (k.head + i).tmod 128 :: k.accessed }
  else k
termination_by (size - i).toNat

/-- `wait_keyboard_input` when the wait is over. -/
def waitReturn (k : Keyboard) : Keyboard :=
  let k := copyLine ((k.tail + 128 - k.head).tmod 128) 0 k
  { k with head := k.tail.tmod 128, calls := [] }

/-- The string `wait_keyboard_input` returns. -/
def commandString (k : Keyboard) : List (BitVec 8) :=
  ((List.range 128).map k.inputBuffer).takeWhile (· ≠ 0)

/-! ### The terminal -/

structure Terminal where
  vga : Vga
  keyboard : Keyboard
  /-- `terminal_stop_delete`. -/
  stopDelete : Position

/-- The scan codes that do nothing. -/
def silentKeys : List (BitVec 8) := [1, 29, 56, 59, 60, 61, 62, 63, 64, 65, 66, 67, 68, 87, 88]

/-- The entry of the table in use. -/
def keyChar (k : Keyboard) (scanCode : BitVec 8) : BitVec 32 :=
  (if k.capsOn || k.capsLock then uppercase else lowercase).getD scanCode.toNat 0

/-- The case of the enter key, when pressed. -/
def enterKey (t : Terminal) : Option Terminal :=
  (vgaPrint [10] t.vga).map fun vga =>
    { t with vga := vga, keyboard := { bufferPush 0 t.keyboard with input := false } }

/-- The case of the backspace key, when pressed. -/
def backspaceKey (t : Terminal) : Option Terminal :=
  if (vgaGetPos t.vga).row ≠ t.stopDelete.row ∨ (vgaGetPos t.vga).col ≠ t.stopDelete.col then
    (vgaPrint [8] t.vga).map fun vga =>
      { t with vga := vga, keyboard := bufferPop t.keyboard }
  else some t

/-- The default case, when pressed. -/
def characterKey (c : BitVec 32) (t : Terminal) : Option Terminal :=
  (vgaPrintfChar c t.vga).map fun vga =>
    { t with vga := vga, keyboard := bufferPush (c.setWidth 8) t.keyboard }

/-- `keyboard_handler`, where `data` comes from the port. The case of the shift key compares
    where it would assign, so that it changes nothing. -/
def keyboardHandler (data : BitVec 8) (t : Terminal) : Option Terminal :=
  let scanCode := data &&& 0x7F
  let press := data &&& 0x80
  if t.keyboard.input = false then some t
  else if scanCode ∈ silentKeys then some t
  else if scanCode = 28 then if press = 0 then enterKey t else some t
  else if scanCode = 42 then some t
  else if scanCode = 58 then
    if press = 0 then
      some { t with keyboard := { t.keyboard with capsLock := !t.keyboard.capsLock } }
    else some t
  else if scanCode = 14 then if press = 0 then backspaceKey t else some t
  else if press = 0 then characterKey (keyChar t.keyboard scanCode) t
  else some t

/-- The loop of `terminal_init` up to the wait. -/
def terminalPrompt (prompt : List (BitVec 8)) (t : Terminal) : Option Terminal :=
  ((vgaPrint [10] t.vga).bind (vgaPrintc 7 prompt)).map fun vga =>
    { vga := vga, stopDelete := vgaGetPos vga, keyboard := { t.keyboard with input := true } }

/-- The loop of `terminal_init` from the wait to the next one; nothing as long as the wait is not
    over. -/
def terminalTurn (prompt : List (BitVec 8)) (t : Terminal) : Option Terminal :=
  if t.keyboard.input then some t
  else
    let keyboard := waitReturn t.keyboard
    (vgaPrint (commandString keyboard) t.vga).bind fun vga =>
      terminalPrompt prompt { t with vga := vga, keyboard := keyboard }

/-- What happens to the terminal. -/
inductive TerminalEvent
  | key (data : BitVec 8)
  | turn

def TerminalEvent.act (prompt : List (BitVec 8)) : TerminalEvent → Terminal → Option Terminal
  | key data, t => keyboardHandler data t
  | turn, t => terminalTurn prompt t

/-- The state of the terminal after the first prompt and some events. -/
def session (prompt : List (BitVec 8)) (t₀ : Terminal) (es : List TerminalEvent) :
    Option Terminal :=
  (terminalPrompt prompt { t₀ with keyboard := keyboardInit t₀.keyboard }).bind
    (Run.events (TerminalEvent.act prompt) es)

/-! ### What a key can do -/

/-- The byte is that of a character key when pressed. -/
def CharKey (data : BitVec 8) : Prop :=
  data &&& 0x80 = 0 ∧ data &&& 0x7F ∉ silentKeys ∧ data &&& 0x7F ∉ [14, 15, 28, 42, 58]

instance (data : BitVec 8) : Decidable (CharKey data) := inferInstanceAs (Decidable (_ ∧ _ ∧ _))

/-- The character of a key. -/
def charOf (k : Keyboard) (data : BitVec 8) : BitVec 8 := (keyChar k (data &&& 0x7F)).setWidth 8

/-- A character that takes a place of the screen. -/
def Visible (ch : BitVec 8) : Prop := ch ∉ [0, 8, 9, 10, 13]

theorem visible_table : ∀ data : BitVec 8, CharKey data →
    (lowercase.getD (data &&& 0x7F).toNat 0).setWidth 8 ∉ ([0, 8, 9, 10, 13] : List (BitVec 8)) ∧
      (uppercase.getD (data &&& 0x7F).toNat 0).setWidth 8 ∉
        ([0, 8, 9, 10, 13] : List (BitVec 8)) := by
  decide +kernel

theorem charOf_visible (k : Keyboard) {data : BitVec 8} (h : CharKey data) :
    Visible (charOf k data) := by
  simp only [charOf, keyChar]
  split_ifs
  · exact (visible_table data h).2
  · exact (visible_table data h).1

theorem vgaPutCharc_of_visible {ch : BitVec 8} (h : Visible ch) (color : BitVec 8) (s : Vga) :
    vgaPutCharc color ch s = some (vgaPutDefault color ch s) := by
  simp only [Visible, List.mem_cons, List.not_mem_nil, or_false, not_or] at h
  obtain ⟨-, hbs, htab, hnl, hcr⟩ := h
  rw [vgaPutCharc, if_neg hnl, if_neg hcr, if_neg hbs, if_neg htab]

/-- A byte without the bit of a release is its scan code. -/
theorem eq_of_pressed : ∀ data : BitVec 8, data &&& 0x80 = 0 → data &&& 0x7F = data := by
  decide +kernel

section Keys

variable {t t' : Terminal} {data : BitVec 8}

/-- The terminal after the enter key. -/
def Terminal.entered (t : Terminal) : Terminal :=
  { t with vga := vgaNewLine t.vga, keyboard := { bufferPush 0 t.keyboard with input := false } }

/-- The terminal after a backspace that is accepted. -/
def Terminal.erased (t : Terminal) : Terminal :=
  { t with vga := vgaBackspace t.vga.color t.vga, keyboard := bufferPop t.keyboard }

/-- The terminal after a character key. -/
def Terminal.typed (t : Terminal) (ch : BitVec 8) : Terminal :=
  { t with
    vga := vgaUpdateCursor (vgaPutDefault t.vga.color ch t.vga)
    keyboard := bufferPush ch t.keyboard }

theorem enterKey_eq : enterKey t = some t.entered := rfl

theorem backspaceKey_eq : backspaceKey t =
    some (if vgaGetPos t.vga = t.stopDelete then t else t.erased) := by
  simp only [backspaceKey]
  by_cases h : vgaGetPos t.vga = t.stopDelete
  · rw [if_pos h, if_neg (by rw [h]; exact fun hne => hne.elim (absurd rfl) (absurd rfl))]
  · rw [if_neg h, if_pos]
    · rfl
    · by_contra hne
      obtain ⟨hr, hc⟩ := not_or.mp hne
      apply h
      rw [Position.mk.injEq]
      exact ⟨not_not.mp hr, not_not.mp hc⟩

theorem characterKey_eq {c : BitVec 32} (hc : Visible (c.setWidth 8)) :
    characterKey c t = some (t.typed (c.setWidth 8)) := by
  rw [characterKey, vgaPrintfChar, vgaPutChar, vgaPutCharc_of_visible hc]
  rfl

/-- A tab has no result. -/
theorem characterKey_tab {c : BitVec 32} (hc : c.setWidth 8 = (9 : BitVec 8)) :
    characterKey c t = none := by
  rw [characterKey, vgaPrintfChar, vgaPutChar, vgaPutCharc, hc, if_neg (by decide),
    if_neg (by decide), if_neg (by decide), if_pos rfl, if_neg (by omega)]
  rfl

theorem keyboardHandler_silent (h : t.keyboard.input = false) :
    keyboardHandler data t = some t := if_pos h

theorem keyboardHandler_enter (h : t.keyboard.input = true) :
    keyboardHandler 28 t = some t.entered := by
  rw [← enterKey_eq, keyboardHandler, if_neg (by rw [h]; decide)]
  rfl

theorem keyboardHandler_backspace (h : t.keyboard.input = true) :
    keyboardHandler 14 t = some (if vgaGetPos t.vga = t.stopDelete then t else t.erased) := by
  rw [← backspaceKey_eq, keyboardHandler, if_neg (by rw [h]; decide)]
  rfl

theorem keyboardHandler_char (h : t.keyboard.input = true) (hkey : CharKey data) :
    keyboardHandler data t = some (t.typed (charOf t.keyboard data)) := by
  obtain ⟨hpress, hsilent, hcode⟩ := id hkey
  simp only [List.mem_cons, List.not_mem_nil, or_false, not_or] at hcode
  obtain ⟨h14, -, h28, h42, h58⟩ := hcode
  rw [keyboardHandler, if_neg (by rw [h]; decide)]
  simp only [if_neg hsilent, if_neg h28, if_neg h42, if_neg h58, if_neg h14, if_pos hpress]
  exact characterKey_eq (charOf_visible t.keyboard hkey)

/-- All that a key can do: nothing, turn the lock of the capital letters, end the line, take back
    a character, or add one. -/
theorem keyboardHandler_cases (h : keyboardHandler data t = some t') :
    t' = t ∨ t' = { t with keyboard := { t.keyboard with capsLock := !t.keyboard.capsLock } } ∨
      t.keyboard.input = true ∧
        (data = 28 ∧ t' = t.entered ∨
          data = 14 ∧ vgaGetPos t.vga ≠ t.stopDelete ∧ t' = t.erased ∨
          CharKey data ∧ t' = t.typed (charOf t.keyboard data)) := by
  cases hin : t.keyboard.input with
  | false =>
    rw [keyboardHandler_silent hin] at h
    exact .inl (Option.some.inj h).symm
  | true =>
    have hcase := h
    rw [keyboardHandler, if_neg (by rw [hin]; decide)] at hcase
    split_ifs at hcase with hsilent h28 hpress h42 h58 hpress h14 hpress hpress
    · exact .inl (Option.some.inj hcase).symm
    · obtain rfl : data = 28 := (eq_of_pressed data hpress).symm.trans h28
      rw [keyboardHandler_enter hin] at h
      exact .inr (.inr ⟨rfl, .inl ⟨rfl, (Option.some.inj h).symm⟩⟩)
    · exact .inl (Option.some.inj hcase).symm
    · exact .inl (Option.some.inj hcase).symm
    · exact .inr (.inl (Option.some.inj hcase).symm)
    · exact .inl (Option.some.inj hcase).symm
    · obtain rfl : data = 14 := (eq_of_pressed data hpress).symm.trans h14
      rw [keyboardHandler_backspace hin] at h
      split_ifs at h with hpos
      · exact .inl (Option.some.inj h).symm
      · exact .inr (.inr ⟨rfl, .inr (.inl ⟨rfl, hpos, (Option.some.inj h).symm⟩)⟩)
    · exact .inl (Option.some.inj hcase).symm
    · by_cases htab : data &&& 0x7F = 15
      · rw [characterKey_tab (by rw [keyChar, htab]; split_ifs <;> decide +kernel)] at hcase
        exact absurd hcase (by simp)
      · have hkey : CharKey data := by
          refine ⟨hpress, hsilent, ?_⟩
          simp only [List.mem_cons, List.not_mem_nil, or_false, not_or]
          exact ⟨h14, htab, h28, h42, h58⟩
        rw [keyboardHandler_char hin hkey] at h
        exact .inr (.inr ⟨rfl, .inr (.inr ⟨hkey, (Option.some.inj h).symm⟩)⟩)
    · exact .inl (Option.some.inj hcase).symm

end Keys

/-! ### A line of character keys -/

/-- Characters put into the ring one after the other. -/
def pushLine (line : List (BitVec 8)) (k : Keyboard) : Keyboard :=
  line.foldl (fun k ch => bufferPush ch k) k

theorem pushLine_input (line : List (BitVec 8)) (k : Keyboard) :
    (pushLine line k).input = k.input := by
  induction line generalizing k with
  | nil => rfl
  | cons ch line ih => exact ih (bufferPush ch k)

/-- Character keys go into the ring as they come. -/
theorem keys_pushLine {prompt : List (BitVec 8)} {t : Terminal} {keys : List (BitVec 8)}
    (hin : t.keyboard.input = true) (hkeys : ∀ data ∈ keys, CharKey data) :
    ∃ vga, Run.events (TerminalEvent.act prompt) (keys.map .key) t = some
      { t with vga := vga, keyboard := pushLine (keys.map (charOf t.keyboard)) t.keyboard } := by
  induction keys generalizing t with
  | nil => exact ⟨t.vga, rfl⟩
  | cons data keys ih =>
    have hact : (TerminalEvent.key data).act prompt t =
        some (t.typed (charOf t.keyboard data)) :=
      keyboardHandler_char hin (hkeys data List.mem_cons_self)
    obtain ⟨vga, hrun⟩ := ih (t := t.typed (charOf t.keyboard data)) hin fun data' hmem =>
      hkeys data' (List.mem_cons_of_mem _ hmem)
    exact ⟨vga, (Run.events_cons hact).trans hrun⟩

/-- The terminal right after `vga_init`, with zeros everywhere else. -/
def bootedTerminal : Terminal where
  vga := vgaInit darkScreen
  keyboard :=
    { input := false, head := 0, tail := 0, buffer := fun _ => 0, inputBuffer := fun _ => 0,
      capsOn := false, capsLock := false, accessed := [], calls := [] }
  stopDelete := ⟨0, 0⟩

end FirstOs
