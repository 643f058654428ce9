import FirstOs.Console.Tabs

/-!
# Editing a line

The backspace key compares the cursor with the position recorded behind the prompt, while the
line lies in the ring. As long as the screen does not scroll under the line, the cursor is as
many places behind the recorded position as there are characters to take back.

## Main definitions

- `typedText` — what the calls of `buffer_push` and `buffer_pop` leave of the line
- `Editing` — the cursor and the line agree
- `LineBalanced` — the balance of a line

## Main results

- `Editing.typed`, `Editing.erased` — one key
- `fits_of_few` — few keys
- `line_balanced` — any keys and lines
-/

namespace FirstOs

/-- The text of the line, the last character first. -/
def typedText : List RingCall → List (BitVec 8)
  | [] => []
  | .push data :: calls => data :: typedText calls
  | .pop :: calls => (typedText calls).tail

/-- The number of characters pushed, the NUL at the end of a line apart. -/
def pushedChars (calls : List RingCall) : ℕ :=
  calls.countP fun c => c ≠ .pop ∧ c ≠ .push 0

/-- The number of calls of `buffer_pop`. -/
def pops (calls : List RingCall) : ℕ := calls.count .pop

/-- The place on the screen behind the prompt. -/
def Terminal.stop (t : Terminal) : ℕ := t.stopDelete.row * 80 + t.stopDelete.col

/-- The characters that can be taken back. -/
def Terminal.line (t : Terminal) : List (BitVec 8) := typedText t.keyboard.calls

/-- The balance of a line. -/
structure LineBalanced (prompt : List (BitVec 8)) (t : Terminal) : Prop where
  /-- No more calls of `buffer_pop` than characters. -/
  pops : pops t.keyboard.calls ≤ pushedChars t.keyboard.calls
  /-- A backspace is accepted exactly when there is text. -/
  accepts : t.keyboard.input = true →
    ((∃ t', keyboardHandler 14 t = some t' ∧ t'.keyboard.calls = .pop :: t.keyboard.calls) ↔
      t.line ≠ [])
  /-- All the text can be taken back. -/
  deletable : t.keyboard.input = true →
    ∃ t', Run.events (TerminalEvent.act prompt) (List.replicate t.line.length (.key 14)) t =
        some t' ∧
      t'.keyboard.calls = List.replicate t.line.length .pop ++ t.keyboard.calls
  /-- A backspace leaves the cells up to the end of the prompt as they are. -/
  prompt : t.keyboard.input = true → ∀ t', keyboardHandler 14 t = some t' →
    ∀ i < t.stop, t'.vga.read i = t.vga.read i

/-- No character is typed at the last place of the screen. -/
def TerminalEvent.Fits : TerminalEvent → Terminal → Prop
  | key data, t => t.keyboard.input = true → CharKey data → t.vga.row ≠ 24 ∨ t.vga.column ≠ 80
  | turn, _ => True

/-- While a line is typed, the cursor is behind the prompt by the length of the text. -/
structure Editing (t : Terminal) : Prop where
  row : t.vga.row < 25
  column : t.vga.column ≤ 80
  stopCol : t.stopDelete.col < 80
  place : t.vga.row * 80 + t.vga.column = t.stop + t.line.length
  wrapped : t.vga.column = 80 → t.line ≠ []
  balance : pops t.keyboard.calls + t.line.length = pushedChars t.keyboard.calls

/-! ### One key -/

section Keys

variable {t t' : Terminal}

/-- The cursor is at the recorded position exactly when there is no text. -/
theorem Editing.pos_eq_iff (h : Editing t) : vgaGetPos t.vga = t.stopDelete ↔ t.line = [] := by
  have hplace := h.place
  have hstop := h.stopCol
  have hcol := h.column
  simp only [Terminal.stop] at hplace
  constructor
  · intro hpos
    rw [← hpos] at hplace
    exact List.length_eq_zero_iff.mp (Nat.add_left_cancel hplace).symm
  · intro hnil
    have hlen : t.line.length = 0 := by rw [hnil]; rfl
    have hne : t.vga.column ≠ 80 := fun hfull => h.wrapped hfull hnil
    have hrow : t.vga.row = t.stopDelete.row := by omega
    have hcolumn : t.vga.column = t.stopDelete.col := by omega
    show Position.mk t.vga.row t.vga.column = _
    rw [hrow, hcolumn]

/-- A character key. -/
theorem Editing.typed (h : Editing t) {ch : BitVec 8} (hch : Visible ch)
    (hfit : t.vga.row ≠ 24 ∨ t.vga.column ≠ 80) : Editing (t.typed ch) := by
  obtain ⟨hr, hc⟩ := @vgaPutDefault_place t.vga t.vga.color ch h.column
  have hrow := h.row
  have hcol := h.column
  have hplace := h.place
  have hzero : ch ≠ 0 := fun h0 => hch (h0 ▸ List.mem_cons_self)
  have hline : (t.typed ch).line.length = t.line.length + 1 := List.length_cons
  refine ⟨vgaPutDefault_row hrow, ?_, h.stopCol, ?_, fun _ => List.cons_ne_nil _ _, ?_⟩
  · refine hc.trans_le ?_
    split_ifs <;> omega
  · have hstop : (t.typed ch).stop = t.stop := rfl
    have hr' : (t.typed ch).vga.row = _ := hr
    have hc' : (t.typed ch).vga.column = _ := hc
    rw [hr', hc', hline, hstop]
    split_ifs <;> omega
  · have hpops : pops (t.typed ch).keyboard.calls = pops t.keyboard.calls :=
      List.count_cons_of_ne (by simp)
    have hpushed : pushedChars (t.typed ch).keyboard.calls =
        pushedChars t.keyboard.calls + 1 := List.countP_cons_of_pos (by simpa using hzero)
    have hbalance := h.balance
    omega

/-- A backspace that is accepted. -/
theorem Editing.erased (h : Editing t) (hline : t.line ≠ []) : Editing t.erased := by
  have hrow := h.row
  have hcol := h.column
  have hplace := h.place
  have hpos := List.length_pos_iff.mpr hline
  have hstop : t.erased.stop = t.stop := rfl
  have hlen : t.erased.line.length = t.line.length - 1 := List.length_tail
  have hpops : pops t.erased.keyboard.calls = pops t.keyboard.calls + 1 := List.count_cons_self
  have hpushed : pushedChars t.erased.keyboard.calls = pushedChars t.keyboard.calls :=
    List.countP_cons_of_neg (by simp)
  have hbalance : pops t.erased.keyboard.calls + t.erased.line.length =
      pushedChars t.erased.keyboard.calls := by
    have hold := h.balance
    omega
  by_cases hstart : t.vga.column = 0
  · have hup : t.vga.row ≠ 0 := by
      simp only [Terminal.stop] at hplace
      omega
    have hvga := @vgaBackspace_of_start t.vga t.vga.color hstart hup
    have hr : t.erased.vga.row = t.vga.row - 1 := by
      rw [Terminal.erased, hvga, vgaUpdateCursor_row, Vga.write_row]
    have hc : t.erased.vga.column = 79 := by
      rw [Terminal.erased, hvga, vgaUpdateCursor_column, Vga.write_column]
    refine ⟨by omega, by omega, h.stopCol, by omega, fun hfull => ?_, hbalance⟩
    omega
  · have hvga := @vgaBackspace_of_inner t.vga t.vga.color hstart hcol
    have hr : t.erased.vga.row = t.vga.row := by
      rw [Terminal.erased, hvga, vgaUpdateCursor_row, Vga.write_row]
    have hc : t.erased.vga.column = t.vga.column - 1 := by
      rw [Terminal.erased, hvga, vgaUpdateCursor_column, Vga.write_column]
    refine ⟨by omega, by omega, h.stopCol, by omega, fun hfull => ?_, hbalance⟩
    omega

/-- A backspace that is accepted leaves the prompt as it is. -/
theorem Editing.erased_read (h : Editing t) (hline : t.line ≠ []) {i : ℕ} (hi : i < t.stop) :
    t.erased.vga.read i = t.vga.read i := by
  have hrow := h.row
  have hcol := h.column
  have hplace := h.place
  have hpos := List.length_pos_iff.mpr hline
  by_cases hstart : t.vga.column = 0
  · have hup : t.vga.row ≠ 0 := by omega
    rw [Terminal.erased, vgaBackspace_of_start hstart hup, vgaUpdateCursor_read,
      Vga.read_write_of_lt _ _ (by omega) (by omega), if_neg (by omega), Vga.read_setPos]
  · rw [Terminal.erased, vgaBackspace_of_inner hstart hcol, vgaUpdateCursor_read,
      Vga.read_write_of_lt _ _ (by omega) (by omega), if_neg (by omega), Vga.read_setColumn]

theorem Editing.backspace (h : Editing t) (hin : t.keyboard.input = true) :
    keyboardHandler 14 t = some (if t.line = [] then t else t.erased) := by
  rw [keyboardHandler_backspace hin]
  simp only [h.pos_eq_iff]

end Keys

/-- Character keys, up to the end of the screen. -/
theorem Editing.keys {prompt : List (BitVec 8)} {t t' : Terminal} {keys : List (BitVec 8)}
    (h : Editing t) (hin : t.keyboard.input = true) (hkeys : ∀ data ∈ keys, CharKey data)
    (hroom : t.stop + t.line.length + keys.length ≤ 2000)
    (hrun : Run.events (TerminalEvent.act prompt) (keys.map .key) t = some t') :
    Editing t' ∧ t'.line.length = t.line.length + keys.length := by
  induction keys generalizing t with
  | nil =>
    obtain rfl := Option.some.inj hrun
    exact ⟨h, rfl⟩
  | cons data keys ih =>
    have hdata := hkeys data List.mem_cons_self
    have hact : (TerminalEvent.key data).act prompt t =
        some (t.typed (charOf t.keyboard data)) := keyboardHandler_char hin hdata
    have hlen : (data :: keys).length = keys.length + 1 := rfl
    have hline : (t.typed (charOf t.keyboard data)).line.length = t.line.length + 1 :=
      List.length_cons
    have hstop : (t.typed (charOf t.keyboard data)).stop = t.stop := rfl
    have hplace := h.place
    have htyped := h.typed (charOf_visible t.keyboard hdata) (by omega)
    rw [List.map_cons, Run.events_cons hact] at hrun
    obtain ⟨hed, hline'⟩ := ih htyped hin
      (fun data' hmem => hkeys data' (List.mem_cons_of_mem _ hmem)) (by omega) hrun
    exact ⟨hed, by omega⟩

/-! ### The prompt -/

/-- A prompt of less than 80 characters that does not go back ends in its row. -/
theorem vgaPrintcWith_place {s s' : Vga} {color : BitVec 8} {str : List (BitVec 8)}
    (hstr : ∀ ch ∈ str, ch ≠ 8 ∧ ch ≠ 13) (hrow : s.row < 25)
    (hlen : s.column + str.length < 80) (hprint : vgaPrintcWith color str s = some s') :
    s'.row < 25 ∧ s'.column ≤ s.column + str.length := by
  induction str generalizing s with
  | nil =>
    obtain rfl := Option.some.inj hprint
    exact ⟨hrow, le_rfl⟩
  | cons ch str ih =>
    rw [vgaPrintcWith] at hprint
    have hcons : (ch :: str).length = str.length + 1 := rfl
    split_ifs at hprint with hnul
    · obtain rfl := Option.some.inj hprint
      exact ⟨hrow, by omega⟩
    · obtain ⟨s₁, hput, hprint⟩ := Option.bind_eq_some_iff.mp hprint
      obtain ⟨hbs, hcr⟩ := hstr ch List.mem_cons_self
      have hcol := vgaPutCharc_column hbs hcr (by omega) hput
      obtain ⟨hr, hc⟩ := ih (fun ch' hmem => hstr ch' (List.mem_cons_of_mem _ hmem))
        (vgaPutCharc_row hrow hput) (by omega) hprint
      exact ⟨hr, by omega⟩

section Runs

variable {prompt : List (BitVec 8)} {t t' : Terminal} {e : TerminalEvent}

/-- The prompt starts a line. -/
theorem terminalPrompt_editing (hprompt : ∀ ch ∈ prompt, ch ≠ 8 ∧ ch ≠ 13)
    (hlen : prompt.length < 80) (hrow : t.vga.row < 25) (hcalls : t.keyboard.calls = [])
    (h : terminalPrompt prompt t = some t') :
    Editing t' ∧ t'.line = [] ∧ t'.stopDelete.col ≤ prompt.length := by
  obtain ⟨vga, hvga, rfl⟩ := Option.map_eq_some_iff.mp h
  obtain ⟨vga₁, hnl, hprint⟩ := Option.bind_eq_some_iff.mp hvga
  obtain rfl := Option.some.inj hnl
  obtain ⟨hr, hc, -⟩ := vgaNewLine_fields t.vga
  have hrow' : (vgaNewLine t.vga).row < 25 := by
    rw [hr]
    split_ifs <;> omega
  obtain ⟨hr', hc'⟩ := vgaPrintcWith_place hprompt hrow' (by omega) hprint
  have hline : typedText t.keyboard.calls = [] := by
    rw [hcalls]
    rfl
  have hcol : vga.column < 80 := by omega
  refine ⟨⟨hr', hcol.le, hcol, ?_, fun hfull => absurd hfull hcol.ne, ?_⟩, hline, by
    show vga.column ≤ _
    omega⟩
  · show vga.row * 80 + vga.column = vga.row * 80 + vga.column + (typedText t.keyboard.calls).length
    rw [hline]
    rfl
  · show pops t.keyboard.calls + (typedText t.keyboard.calls).length = pushedChars t.keyboard.calls
    rw [hcalls]
    rfl

/-- What holds between two events. -/
structure Sound (t : Terminal) : Prop where
  row : t.vga.row < 25
  pops : pops t.keyboard.calls ≤ pushedChars t.keyboard.calls
  editing : t.keyboard.input = true → Editing t

theorem Editing.sound (h : Editing t) : Sound t :=
  ⟨h.row, by have := h.balance; omega, fun _ => h⟩

theorem Sound.key (h : Sound t) {data : BitVec 8} (hfit : (TerminalEvent.key data).Fits t)
    (hkey : keyboardHandler data t = some t') : Sound t' := by
  obtain rfl | rfl | ⟨hin, ⟨-, rfl⟩ | ⟨-, hpos, rfl⟩ | ⟨hchar, rfl⟩⟩ := keyboardHandler_cases hkey
  · exact h
  · refine ⟨h.row, h.pops, fun hin => ?_⟩
    have hed := h.editing hin
    exact ⟨hed.row, hed.column, hed.stopCol, hed.place, hed.wrapped, hed.balance⟩
  · refine ⟨?_, ?_, fun hfalse => absurd hfalse Bool.false_ne_true⟩
    · rw [Terminal.entered, (vgaNewLine_fields t.vga).1]
      have hrow := h.row
      split_ifs <;> omega
    · have hpops : FirstOs.pops t.entered.keyboard.calls = FirstOs.pops t.keyboard.calls :=
        List.count_cons_of_ne (by simp)
      have hpushed : pushedChars t.entered.keyboard.calls = pushedChars t.keyboard.calls :=
        List.countP_cons_of_neg (by simp)
      rw [hpops, hpushed]
      exact h.pops
  · have hed := h.editing hin
    exact (hed.erased fun hnil => hpos (hed.pos_eq_iff.mpr hnil)).sound
  · exact ((h.editing hin).typed (charOf_visible t.keyboard hchar) (hfit hin hchar)).sound

theorem Sound.turn (h : Sound t) (hprompt : ∀ ch ∈ prompt, ch ≠ 8 ∧ ch ≠ 13)
    (hlen : prompt.length < 80) (hturn : terminalTurn prompt t = some t') : Sound t' := by
  simp only [terminalTurn] at hturn
  split_ifs at hturn with hin
  · exact Option.some.inj hturn ▸ h
  · obtain ⟨vga, hvga, hturn⟩ := Option.bind_eq_some_iff.mp hturn
    rw [vgaPrint_eq_putAll] at hvga
    exact (terminalPrompt_editing hprompt hlen (putAll_row h.row hvga) rfl hturn).1.sound

theorem Sound.act (h : Sound t) (hprompt : ∀ ch ∈ prompt, ch ≠ 8 ∧ ch ≠ 13)
    (hlen : prompt.length < 80) (hfit : e.Fits t) (hact : e.act prompt t = some t') : Sound t' := by
  cases e with
  | key data => exact h.key hfit hact
  | turn => exact h.turn hprompt hlen hact

/-- All the text can be taken back, one backspace after the other. -/
theorem Editing.takeBack (h : Editing t) (hin : t.keyboard.input = true) :
    ∃ t', Run.events (TerminalEvent.act prompt) (List.replicate t.line.length (.key 14)) t =
        some t' ∧
      t'.keyboard.calls = List.replicate t.line.length .pop ++ t.keyboard.calls := by
  generalize hn : t.line.length = n
  induction n generalizing t with
  | zero => exact ⟨t, rfl, rfl⟩
  | succ n ih =>
    have hline : t.line ≠ [] := List.ne_nil_of_length_eq_add_one hn
    have hlen : t.erased.line.length = n := by
      show t.line.tail.length = n
      rw [List.length_tail, hn]
      rfl
    have hact : (TerminalEvent.key 14).act prompt t = some t.erased := by
      rw [TerminalEvent.act, h.backspace hin, if_neg hline]
    obtain ⟨t', hrun, hcalls⟩ := ih (h.erased hline) hin hlen
    refine ⟨t', ?_, ?_⟩
    · rw [List.replicate_succ, Run.events_cons hact, hrun]
    · rw [hcalls, List.replicate_succ', List.append_assoc]
      rfl

theorem Sound.balanced (h : Sound t) : LineBalanced prompt t := by
  refine ⟨h.pops, fun hin => ?_, fun hin => (h.editing hin).takeBack hin,
    fun hin t' hkey i hi => ?_⟩
  · rw [(h.editing hin).backspace hin]
    constructor
    · rintro ⟨t', ht', hcalls⟩ hnil
      rw [if_pos hnil] at ht'
      rw [← Option.some.inj ht'] at hcalls
      exact List.cons_ne_self _ _ hcalls.symm
    · intro hline
      exact ⟨t.erased, by rw [if_neg hline], rfl⟩
  · rw [(h.editing hin).backspace hin] at hkey
    obtain rfl := Option.some.inj hkey
    split_ifs with hnil
    · rfl
    · exact (h.editing hin).erased_read hnil hi

end Runs

/-! ### Few events -/

/-- There is room for some more characters in the row of the line, and in that of the next one. -/
structure HasRoom (prompt : List (BitVec 8)) (n : ℕ) (t : Terminal) : Prop where
  sound : Sound t
  next : prompt.length + n < 80
  here : t.keyboard.input = true → t.stopDelete.col + t.line.length + n < 80

section Room

variable {prompt : List (BitVec 8)} {t t' : Terminal} {n : ℕ}

theorem HasRoom.fits (h : HasRoom prompt n t) (e : TerminalEvent) : e.Fits t := by
  cases e with
  | turn => exact trivial
  | key data =>
    intro hin _
    have hed := h.sound.editing hin
    have hplace := hed.place
    have hcol := hed.column
    have hroom := h.here hin
    simp only [Terminal.stop] at hplace
    refine .inr fun hfull => ?_
    have hpos := List.length_pos_iff.mpr (hed.wrapped hfull)
    omega

/-- A key takes one place at most. -/
theorem HasRoom.key (h : HasRoom prompt (n + 1) t) {data : BitVec 8}
    (hkey : keyboardHandler data t = some t') : HasRoom prompt n t' := by
  have hnext := h.next
  refine ⟨h.sound.key (h.fits _) hkey, by omega, ?_⟩
  obtain rfl | rfl | ⟨-, ⟨-, rfl⟩ | ⟨-, -, rfl⟩ | ⟨-, rfl⟩⟩ := keyboardHandler_cases hkey
  · intro hin
    have hhere := h.here hin
    omega
  · exact fun hin => (Nat.add_lt_add_left n.lt_succ_self _).trans (h.here hin)
  · exact fun hin => absurd hin Bool.false_ne_true
  · intro hin
    have hhere := h.here hin
    have hlen : t.erased.line.length = t.line.length - 1 := List.length_tail
    have hstop : t.erased.stopDelete = t.stopDelete := rfl
    rw [hlen, hstop]
    omega
  · intro hin
    have hhere := h.here hin
    have hlen : (t.typed (charOf t.keyboard data)).line.length = t.line.length + 1 :=
      List.length_cons
    have hstop : (t.typed (charOf t.keyboard data)).stopDelete = t.stopDelete := rfl
    rw [hlen, hstop]
    omega

theorem HasRoom.turn (h : HasRoom prompt (n + 1) t) (hprompt : ∀ ch ∈ prompt, ch ≠ 8 ∧ ch ≠ 13)
    (hturn : terminalTurn prompt t = some t') : HasRoom prompt n t' := by
  have hnext := h.next
  refine ⟨h.sound.turn hprompt (by omega) hturn, by omega, fun hin' => ?_⟩
  simp only [terminalTurn] at hturn
  split_ifs at hturn with hin
  · obtain rfl := Option.some.inj hturn
    have hhere := h.here hin
    omega
  · obtain ⟨vga, hvga, hturn⟩ := Option.bind_eq_some_iff.mp hturn
    rw [vgaPrint_eq_putAll] at hvga
    obtain ⟨-, hline, hcol⟩ :=
      terminalPrompt_editing hprompt (by omega) (putAll_row h.sound.row hvga) rfl hturn
    rw [hline, List.length_nil]
    omega

/-- All the events have room behind the first prompt. -/
theorem hasRoom_prompt {t₀ : Terminal} (hrow : t₀.vga.row < 25)
    (hprompt : ∀ ch ∈ prompt, ch ≠ 8 ∧ ch ≠ 13) (hfew : prompt.length + n < 80)
    (hstart : terminalPrompt prompt { t₀ with keyboard := keyboardInit t₀.keyboard } = some t) :
    HasRoom prompt n t := by
  obtain ⟨hed, hline, hcol⟩ := terminalPrompt_editing
    (t := { t₀ with keyboard := keyboardInit t₀.keyboard }) hprompt (by omega) hrow rfl hstart
  refine ⟨hed.sound, hfew, fun _ => ?_⟩
  rw [hline, List.length_nil]
  omega

/-- With fewer events than there are places behind the prompt, no character is typed at the last
    place of the screen. -/
theorem fits_of_few {t₀ : Terminal} {es : List TerminalEvent} (hrow : t₀.vga.row < 25)
    (hprompt : ∀ ch ∈ prompt, ch ≠ 8 ∧ ch ≠ 13) (hfew : prompt.length + es.length < 80) :
    ∀ p e, p ++ [e] <+: es → ∀ t, session prompt t₀ p = some t → e.Fits t := by
  unfold session
  cases hstart : terminalPrompt prompt { t₀ with keyboard := keyboardInit t₀.keyboard } with
  | none => exact fun _ _ _ _ ht => absurd ht (by simp)
  | some t₁ =>
    refine Run.condition_of_budget (fun n e _ t h => h.fits e) (fun n e _ t h t' hact => ?_)
      (hasRoom_prompt hrow hprompt hfew hstart)
    cases e with
    | key data => exact h.key hact
    | turn => exact h.turn hprompt hact

end Room

theorem runCalls_row {s₀ s : Vga} {cs : List ConsoleCall} (h : runCalls cs (vgaInit s₀) = some s) :
    s.row < 25 := by
  rw [runCalls_eq_putAll] at h
  exact putAll_row ((vgaInit_fields s₀).1.trans_lt (by decide)) h

/-- The line is balanced in all states of a run of the terminal in which no character is typed at
    the last place of the screen. -/
theorem line_balanced {s₀ : Vga} {cs : List ConsoleCall} {t₀ : Terminal}
    (hboot : runCalls cs (vgaInit s₀) = some t₀.vga) {prompt : List (BitVec 8)}
    (hlen : prompt.length < 80) (hprompt : ∀ ch ∈ prompt, ch ≠ 8 ∧ ch ≠ 13)
    {es : List TerminalEvent}
    (hfits : ∀ p e, p ++ [e] <+: es → ∀ t, session prompt t₀ p = some t → e.Fits t) :
    ∀ p, p <+: es → ∀ t, session prompt t₀ p = some t → LineBalanced prompt t := by
  have hrow : t₀.vga.row < 25 := runCalls_row hboot
  unfold session at hfits ⊢
  cases hstart : terminalPrompt prompt { t₀ with keyboard := keyboardInit t₀.keyboard } with
  | none =>
    intro p _ t ht
    exact absurd ht (by simp)
  | some t₁ =>
    rw [hstart] at hfits
    have hsound : Sound t₁ := (terminalPrompt_editing
      (t := { t₀ with keyboard := keyboardInit t₀.keyboard }) hprompt hlen hrow rfl hstart).1.sound
    intro p hp t ht
    exact (Run.events_of_condition (fun e _ t h hfit t' => h.act hprompt hlen hfit) hsound hfits
      p hp t ht).balanced

/-- The first terminal, two rows further down. -/
def shownTerminal : Terminal :=
  { bootedTerminal with vga := vgaNewLine (vgaNewLine bootedTerminal.vga) }

/-- Two characters, three backspaces, of which the last one finds no text, the key `c` and the enter
    key; then a line with a character that is taken back and the key `d`. The loop may turn at any
    time. -/
def twoLines : List TerminalEvent :=
  [.key 30, .key 48, .key 14, .turn, .key 14, .key 14, .key 46, .key 28, .turn, .turn, .key 30,
    .key 14, .key 14, .key 32]

theorem twoLines_session : ∃ t, session [36, 32] shownTerminal twoLines = some t := by
  have hempty : (0 : BitVec 8) ≠ 9 := by decide
  exact session_isSome (by decide) ⟨fun _ => hempty, fun _ => hempty⟩ (by simp [twoLines])

theorem line_balanced_twoLines : runCalls [.newLine, .newLine] (vgaInit darkScreen) =
      some shownTerminal.vga ∧ (∃ t, session [36, 32] shownTerminal twoLines = some t) ∧
    ∀ p, p <+: twoLines → ∀ t, session [36, 32] shownTerminal p = some t →
      LineBalanced [36, 32] t := by
  have hboot : runCalls [.newLine, .newLine] (vgaInit darkScreen) = some shownTerminal.vga := rfl
  exact ⟨hboot, twoLines_session, line_balanced hboot (by decide) (by decide)
    (fits_of_few (runCalls_row hboot) (by decide) (by decide))⟩

/-! ### A line that scrolls the screen -/

/-- New lines down to the last row. -/
theorem newLines_row {s : Vga} {n : ℕ} (h : s.row + n ≤ 24) :
    ∃ s', runCalls (List.replicate n .newLine) s = some s' ∧ s'.row = s.row + n := by
  induction n generalizing s with
  | zero => exact ⟨s, rfl, rfl⟩
  | succ n ih =>
    have hr : (vgaNewLine s).row = s.row + 1 := (vgaNewLine_fields s).1.trans (if_pos (by omega))
    obtain ⟨s', hrun, hrow⟩ := ih (s := vgaNewLine s) (by omega)
    exact ⟨s', hrun, by omega⟩

/-- After a character at the last place, a backspace goes back to the position recorded for the
    prompt of the row before. -/
theorem Editing.scrolled {t : Terminal} (h : Editing t) (hin : t.keyboard.input = true)
    (hstop : t.stopDelete = ⟨24, 0⟩) (hline : t.line.length = 80) :
    ∃ t', Run.events (TerminalEvent.act []) [.key 30, .key 14] t = some t' ∧
      t'.keyboard.input = true ∧ t'.line.length = 80 ∧ vgaGetPos t'.vga = t'.stopDelete := by
  have hkey : CharKey 30 := by decide
  have hplace := h.place
  have hcol := h.column
  have hrow := h.row
  have hstop' : t.stop = 1920 := by
    rw [Terminal.stop, hstop]
    rfl
  obtain ⟨hr, hc⟩ := @vgaPutDefault_place t.vga t.vga.color (charOf t.keyboard 30) hcol
  rw [if_neg (by omega)] at hr
  rw [if_pos (by omega)] at hc
  generalize hu : t.typed (charOf t.keyboard 30) = u
  have hrow' : u.vga.row = 24 := by
    rw [← hu]
    exact hr.trans (by omega)
  have hcol' : u.vga.column = 1 := by
    rw [← hu]
    exact hc
  have hstop'' : u.stopDelete = ⟨24, 0⟩ := by
    rw [← hu]
    exact hstop
  have hlen : u.line.length = 81 := by
    rw [← hu]
    exact List.length_cons.trans (by rw [← Terminal.line, hline])
  have hin' : u.keyboard.input = true := by
    rw [← hu]
    exact hin
  have hne : vgaGetPos u.vga ≠ u.stopDelete := by
    rw [hstop'', vgaGetPos, hrow', hcol']
    decide
  have htype : (TerminalEvent.key 30).act [] t = some u :=
    (keyboardHandler_char hin hkey).trans (congrArg some hu)
  have hback : (TerminalEvent.key 14).act [] u = some u.erased := by
    rw [TerminalEvent.act, keyboardHandler_backspace hin', if_neg hne]
  refine ⟨u.erased, ?_, hin', ?_, ?_⟩
  · rw [Run.events_cons htype, Run.events_cons hback, Run.events_nil]
  · show u.line.tail.length = 80
    rw [List.length_tail, hlen]
  · have hstop₃ : u.erased.stopDelete = ⟨24, 0⟩ := hstop''
    rw [hstop₃, vgaGetPos, Terminal.erased,
      vgaBackspace_of_inner (by omega) (by omega), vgaUpdateCursor_row, vgaUpdateCursor_column,
      Vga.write_row, Vga.write_column, hcol', hrow']

/-- An empty prompt. -/
theorem emptyPrompt {t : Terminal} {r : ℕ} (hrow : t.vga.row = r) (hr : r < 25)
    (hcalls : t.keyboard.calls = []) :
    ∃ t', terminalPrompt [] t = some t' ∧ t'.keyboard = { t.keyboard with input := true } ∧
      t'.stopDelete = ⟨if r < 24 then r + 1 else r, 0⟩ ∧ Editing t' ∧ t'.line.length = 0 := by
  obtain ⟨hnew, hc, -⟩ := vgaNewLine_fields t.vga
  refine ⟨_, rfl, rfl, ?_, ?_, ?_⟩
  · show Position.mk (vgaNewLine t.vga).row (vgaNewLine t.vga).column = _
    rw [hnew, hc, hrow]
  · exact (terminalPrompt_editing (t := t) (fun _ hmem => absurd hmem List.not_mem_nil) (by decide)
      (hrow.trans_lt hr) hcalls rfl).1
  · show (typedText t.keyboard.calls).length = 0
    rw [hcalls]
    rfl

theorem not_line_balanced : ¬ ∀ (s₀ : Vga) (cs : List ConsoleCall) (t₀ : Terminal),
    runCalls cs (vgaInit s₀) = some t₀.vga → ∀ prompt : List (BitVec 8), prompt.length < 80 →
      ∀ es : List TerminalEvent, ∀ p, p <+: es → ∀ t, session prompt t₀ p = some t →
        LineBalanced prompt t := by
  intro hall
  obtain ⟨v, hboot, hv⟩ := newLines_row (s := vgaInit darkScreen) (n := 24)
    (by rw [(vgaInit_fields darkScreen).1])
  rw [(vgaInit_fields darkScreen).1] at hv
  obtain ⟨t₀, rfl⟩ : ∃ t₀ : Terminal, t₀.vga = v := ⟨{ bootedTerminal with vga := v }, rfl⟩
  obtain ⟨t₁, hstart, hkeyboard, hstop, hed, hline⟩ := emptyPrompt
    (t := { t₀ with keyboard := keyboardInit t₀.keyboard }) hv (by decide) rfl
  have hin : t₁.keyboard.input = true := by rw [hkeyboard]
  rw [if_neg (by decide)] at hstop
  -- 80 characters fill the last row
  have hkeys : ∀ data ∈ List.replicate 80 (30 : BitVec 8), CharKey data := fun data hmem =>
    (List.eq_of_mem_replicate hmem).symm ▸ by decide
  obtain ⟨vga, hrun⟩ := @keys_pushLine [] t₁ _ hin hkeys
  have hroom : t₁.stop + t₁.line.length + (List.replicate 80 (30 : BitVec 8)).length ≤ 2000 := by
    rw [List.length_replicate, Terminal.stop, hstop, hline]
    decide
  obtain ⟨hed', hline'⟩ := hed.keys hin hkeys hroom hrun
  rw [hline, List.length_replicate] at hline'
  obtain ⟨t, hrun', hin', hlen, hpos⟩ :=
    hed'.scrolled ((pushLine_input _ _).trans hin) hstop hline'
  have hsession : session [] t₀ ((List.replicate 80 30).map .key ++ [.key 30, .key 14]) = some t := by
    rw [session, hstart, Option.bind_some, Run.events_append_of hrun, hrun']
  have hbalanced := hall darkScreen _ t₀ hboot [] (by decide) _ _ (List.prefix_refl _) t hsession
  obtain ⟨t', hkey, hcalls⟩ := (hbalanced.accepts hin').mpr fun hnil => by
    rw [hnil] at hlen
    exact absurd hlen (by decide)
  rw [keyboardHandler_backspace hin', if_pos hpos] at hkey
  rw [← Option.some.inj hkey] at hcalls
  exact List.cons_ne_self _ _ hcalls.symm

end FirstOs
