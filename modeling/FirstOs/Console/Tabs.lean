import FirstOs.Console.Printf

/-!
# Tabs

The loop for a tab writes blanks as long as `tab_len` is not 0, but never changes it. So
a call that prints a tab does not return, and every other call does.

## Main definitions

- `tabLoop` — the loop, for a number of rounds
- `TextCall` — a call that prints a string

## Main results

- `tabLoop_eq_none` — no number of rounds is enough
- `session_isSome` — a session without the tab key ends
- `ends_iff_tabFree` — which calls and which keys end
-/

namespace FirstOs

/-- The loop for a tab; no result if it is not over after `rounds` rounds. -/
def tabLoop (color : BitVec 8) (tabLen : ℕ) : ℕ → Vga → Option Vga
  | 0, _ => none
  | rounds + 1, s =>
    if tabLen ≠ 0 then tabLoop color tabLen rounds (vgaPutCell s (blank color)) else some s

/-- A call that prints a string. -/
inductive TextCall
  | print (str : List (BitVec 8))
  | printc (color : BitVec 8) (str : List (BitVec 8))
  | printf (str : List (BitVec 8)) (n : BitVec 32)

/-- The characters of a string before the NUL. -/
def textOf (str : List (BitVec 8)) : List (BitVec 8) := str.takeWhile (· ≠ 0)

namespace TextCall

/-- The call returns, and goes over its string once at most. -/
def Ends (number : BitVec 32 → ℕ → List (BitVec 8)) : TextCall → Vga → Prop
  | print str, s => ∃ os s', os.length ≤ str.length ∧ vgaPrint str s = putAll os s ∧
      putAll os s = some s'
  | printc color str, s => ∃ os s', os.length ≤ str.length ∧ vgaPrintc color str s = putAll os s ∧
      putAll os s = some s'
  | printf str n, s => ∃ r, r.rounds ≤ str.length ∧ vgaPrintf number str n s = some r

/-- The call prints no tab: a format string has none for `%c` and none in its numbers, and prints
    its own tabs as they are. -/
def TabFree (number : BitVec 32 → ℕ → List (BitVec 8)) : TextCall → Prop
  | print str => 9 ∉ textOf str
  | printc _ str => 9 ∉ textOf str
  | printf str n => (Directive 99 (textOf str) → n.setWidth 8 ≠ (9 : BitVec 8)) ∧
      (Directive 100 (textOf str) → 9 ∉ textOf (number n 10)) ∧
      (Directive 120 (textOf str) → 9 ∉ textOf (number n 16))

end TextCall

section Tab

variable {color ch : BitVec 8} {tabLen : ℕ} {s s' : Vga}

/-- The loop is never over. -/
theorem tabLoop_eq_none (h : tabLen ≠ 0) (rounds : ℕ) (s : Vga) :
    tabLoop color tabLen rounds s = none := by
  induction rounds generalizing s with
  | zero => rfl
  | succ rounds ih =>
    rw [tabLoop, if_pos h]
    exact ih _

/-- A tab has a result if some number of rounds is enough. -/
theorem vgaPutCharc_tab_iff : vgaPutCharc color 9 s = some s' ↔
    ∃ rounds t, tabLoop color (4 - s.column % 4) rounds s = some t ∧ vgaUpdateCursor t = s' := by
  have hlen : 4 - s.column % 4 ≠ 0 := by omega
  have hnone : vgaPutCharc color 9 s = none := by
    rw [vgaPutCharc, if_neg (by decide), if_neg (by decide), if_neg (by decide), if_pos rfl,
      if_neg hlen]
  rw [hnone]
  constructor
  · intro h
    cases h
  · rintro ⟨rounds, t, ht, -⟩
    rw [tabLoop_eq_none hlen] at ht
    cases ht

theorem vgaPutCharc_isSome_iff : (∃ s', vgaPutCharc color ch s = some s') ↔ ch ≠ 9 := by
  constructor
  · rintro ⟨s', hs'⟩ rfl
    obtain ⟨rounds, t, ht, -⟩ := vgaPutCharc_tab_iff.mp hs'
    rw [tabLoop_eq_none (by omega)] at ht
    cases ht
  · intro hch
    exact Output.put_isSome (o := .colored color ch) hch s

theorem Output.put_isSome_iff (o : Output) (s : Vga) : (∃ s', o.put s = some s') ↔ o.TabFree := by
  cases o with
  | char ch => exact vgaPutCharc_isSome_iff
  | colored color ch => exact vgaPutCharc_isSome_iff
  | newLine => exact ⟨fun _ => trivial, fun _ => ⟨_, rfl⟩⟩

end Tab

section Strings

variable {number : BitVec 32 → ℕ → List (BitVec 8)} {str t : List (BitVec 8)} {n : BitVec 32}
  {color a c ch : BitVec 8} {s : Vga} {q : Piece}

theorem textOf_cons (h : a ≠ 0) : textOf (a :: str) = a :: textOf str :=
  List.takeWhile_cons_of_pos (by simpa using h)

theorem textOf_nul : textOf (0 :: str) = [] := List.takeWhile_cons_of_neg (by simp)

/-- Outputs made of the text of a string, one for each character. -/
theorem putAll_text_iff {output : BitVec 8 → Output} (htab : ∀ ch, (output ch).TabFree ↔ ch ≠ 9) :
    (∃ s', putAll ((textOf str).map output) s = some s') ↔ 9 ∉ textOf str := by
  rw [putAll, Run.events_isSome_iff Output.put_isSome_iff]
  constructor
  · intro hall htab9
    exact (htab 9).mp (hall _ (List.mem_map_of_mem htab9)) rfl
  · intro hnot o ho
    obtain ⟨ch, hch, rfl⟩ := List.mem_map.mp ho
    exact (htab ch).mpr fun heq => hnot (heq ▸ hch)

theorem textOf_length_le (output : BitVec 8 → Output) :
    ((textOf str).map output).length ≤ str.length := by
  rw [List.length_map]
  exact (List.takeWhile_prefix _).length_le

/-- `vga_print` ends unless it prints a tab. -/
theorem vgaPrint_isSome_iff : (∃ s', vgaPrint str s = some s') ↔ 9 ∉ textOf str := by
  rw [← putAll_text_iff (s := s) fun ch : BitVec 8 => show (Output.char ch).TabFree ↔ ch ≠ 9 from
    Iff.rfl]
  simp only [vgaPrint_eq_putAll, textOf]

theorem vgaPrintc_isSome (color : BitVec 8) (s : Vga) (h : 9 ∉ textOf str) :
    ∃ s', vgaPrintc color str s = some s' := by
  simp only [vgaPrintc, vgaPrintcWith_eq_putAll]
  exact (putAll_text_iff fun _ => Iff.rfl).mpr h

theorem directive_cons : Directive c (a :: t) ↔ (a = 37 ∧ ∃ u, t = c :: u) ∨ Directive c t := by
  rw [Directive, List.infix_cons_iff, List.cons_prefix_cons, Directive]
  refine or_congr_left (and_congr eq_comm ?_)
  constructor
  · rintro ⟨u, hu⟩
    exact ⟨u, hu.symm⟩
  · rintro ⟨u, rfl⟩
    exact ⟨u, rfl⟩

theorem not_directive_nil : ¬ Directive c [] := fun h => by
  have hlen := h.length_le
  simp at hlen

theorem directive_two {d : BitVec 8} (hd : d ≠ 37) :
    Directive c (37 :: d :: t) ↔ c = d ∨ Directive c t := by
  rw [directive_cons, directive_cons]
  constructor
  · rintro (⟨-, u, hu⟩ | ⟨h37, -⟩ | h)
    · exact .inl (List.cons.inj hu).1.symm
    · exact absurd h37 hd
    · exact .inr h
  · rintro (rfl | h)
    · exact .inl ⟨rfl, t, rfl⟩
    · exact .inr (.inr h)

/-- The piece a directive asks for. -/
def directivePiece (c : BitVec 8) : Option Piece :=
  if c = 100 then some (.number 10)
  else if c = 120 then some (.number 16)
  else if c = 99 then some .value
  else none

theorem Piece.ofChar_ne (ch : BitVec 8) (h : directivePiece c = some q) : q ≠ .ofChar ch := by
  simp only [directivePiece] at h
  simp only [Piece.ofChar]
  split_ifs at h <;> split_ifs <;> cases h <;> simp

/-- Different directives ask for different pieces. -/
theorem directivePiece_inj {d : BitVec 8} {q' : Piece} (h : directivePiece c = some q)
    (h' : directivePiece d = some q') : q = q' ↔ c = d := by
  constructor
  · rintro rfl
    simp only [directivePiece] at h h'
    split_ifs at h h' <;> cases h <;> simp_all
  · rintro rfl
    exact Option.some.inj (h.symm.trans h')

/-- A string asks for a number or for `%c` if and only if it has the directive. -/
theorem mem_pieces_iff (h : directivePiece c = some q) :
    q ∈ pieces str ↔ Directive c (textOf str) := by
  have hdirective : ∀ {d : BitVec 8} {q' : Piece} {t : List (BitVec 8)},
      directivePiece d = some q' → d ≠ 37 → (q ∈ pieces t ↔ Directive c (textOf t)) →
      (q ∈ q' :: pieces t ↔ Directive c (37 :: d :: textOf t)) := fun hd hne ih => by
    rw [List.mem_cons, directivePiece_inj h hd, directive_two hne, ih]
  induction str using pieces.induct with
  | case1 => exact ⟨fun hq => absurd hq List.not_mem_nil, fun hd => absurd hd not_directive_nil⟩
  | case2 ch hend =>
    rw [pieces, if_pos hend]
    refine ⟨fun hq => absurd hq List.not_mem_nil, fun hd => ?_⟩
    obtain rfl | rfl := hend
    · exact absurd hd not_directive_nil
    · obtain ⟨-, u, hu⟩ | hd := directive_cons.mp hd
      · cases hu
      · exact absurd hd not_directive_nil
  | case3 ch hend =>
    obtain ⟨hnul, hper⟩ := not_or.mp hend
    rw [pieces, if_neg hend, List.mem_singleton, textOf_cons hnul, directive_cons]
    refine ⟨fun hq => absurd hq (Piece.ofChar_ne ch h), ?_⟩
    rintro (⟨h37, -⟩ | hd)
    · exact absurd h37 hper
    · exact absurd hd not_directive_nil
  | case4 ch' str =>
    rw [pieces, if_pos rfl, textOf_nul]
    exact ⟨fun hq => absurd hq List.not_mem_nil, fun hd => absurd hd not_directive_nil⟩
  | case5 str hne ih =>
    rw [pieces, if_neg hne, if_pos rfl, if_pos rfl, textOf_cons (by decide),
      textOf_cons (by decide)]
    exact hdirective rfl (by decide) ih
  | case6 str hnd hne ih =>
    rw [pieces, if_neg hne, if_pos rfl, if_neg hnd, if_pos rfl, textOf_cons (by decide),
      textOf_cons (by decide)]
    exact hdirective rfl (by decide) ih
  | case7 str hnd hnx hne ih =>
    rw [pieces, if_neg hne, if_pos rfl, if_neg hnd, if_neg hnx, if_pos rfl,
      textOf_cons (by decide), textOf_cons (by decide)]
    exact hdirective rfl (by decide) ih
  | case8 ch' str hnd hnx hnc hne ih =>
    rw [pieces, if_neg hne, if_pos rfl, if_neg hnd, if_neg hnx, if_neg hnc,
      textOf_cons (show (37 : BitVec 8) ≠ 0 by decide), directive_cons]
    refine Iff.trans ih ⟨.inr, ?_⟩
    rintro (⟨-, u, hu⟩ | hd)
    · -- no directive follows this `%`
      have hch : ch' = c := by
        by_cases hnul : ch' = 0
        · rw [hnul, textOf_nul] at hu
          cases hu
        · rw [textOf_cons hnul] at hu
          exact (List.cons.inj hu).1
      subst hch
      simp only [directivePiece, if_neg hnd, if_neg hnx, if_neg hnc] at h
      cases h
    · exact hd
  | case9 ch ch' str hnul hper ih =>
    rw [pieces, if_neg hnul, if_neg hper, List.mem_cons, textOf_cons hnul, directive_cons]
    constructor
    · intro hq
      exact .inr (ih.mp (hq.resolve_left (Piece.ofChar_ne ch h)))
    · rintro (⟨h37, -⟩ | hd)
      · exact absurd h37 hper
      · exact .inr (ih.mpr hd)

/-- The pieces that end. -/
def Piece.Ends (number : BitVec 32 → ℕ → List (BitVec 8)) (n : BitVec 32) : Piece → Prop
  | .char _ => True
  | .newLine => True
  | .number base => 9 ∉ textOf (number n base)
  | .value => n.setWidth 8 ≠ (9 : BitVec 8)

theorem Piece.put_isSome_iff (q : Piece) (s : Vga) :
    (∃ s', q.put number n s = some s') ↔ q.Ends number n := by
  cases q with
  | char ch => exact ⟨fun _ => trivial, fun _ => ⟨_, rfl⟩⟩
  | newLine => exact ⟨fun _ => trivial, fun _ => ⟨_, rfl⟩⟩
  | number base => exact vgaPrint_isSome_iff
  | value => exact vgaPutCharc_isSome_iff

/-- A piece is a character or what a directive asks for. -/
theorem pieces_forms (h : q ∈ pieces str) :
    (∃ ch, q = .ofChar ch) ∨ ∃ c, directivePiece c = some q := by
  have hcons : ∀ {q' : Piece} {t : List (BitVec 8)},
      (∃ ch, q' = .ofChar ch) ∨ (∃ c, directivePiece c = some q') →
      (q ∈ pieces t → (∃ ch, q = .ofChar ch) ∨ ∃ c, directivePiece c = some q) →
      q ∈ q' :: pieces t → (∃ ch, q = .ofChar ch) ∨ ∃ c, directivePiece c = some q := by
    intro q' t hq' ih hmem
    obtain rfl | hmem := List.mem_cons.mp hmem
    · exact hq'
    · exact ih hmem
  induction str using pieces.induct with
  | case1 => exact absurd h List.not_mem_nil
  | case2 ch hend =>
    rw [pieces, if_pos hend] at h
    exact absurd h List.not_mem_nil
  | case3 ch hend =>
    rw [pieces, if_neg hend] at h
    exact .inl ⟨ch, List.mem_singleton.mp h⟩
  | case4 ch' str =>
    rw [pieces, if_pos rfl] at h
    exact absurd h List.not_mem_nil
  | case5 str hne ih =>
    rw [pieces, if_neg hne, if_pos rfl, if_pos rfl] at h
    exact hcons (.inr ⟨100, rfl⟩) ih h
  | case6 str hnd hne ih =>
    rw [pieces, if_neg hne, if_pos rfl, if_neg hnd, if_pos rfl] at h
    exact hcons (.inr ⟨120, rfl⟩) ih h
  | case7 str hnd hnx hne ih =>
    rw [pieces, if_neg hne, if_pos rfl, if_neg hnd, if_neg hnx, if_pos rfl] at h
    exact hcons (.inr ⟨99, rfl⟩) ih h
  | case8 ch' str hnd hnx hnc hne ih =>
    rw [pieces, if_neg hne, if_pos rfl, if_neg hnd, if_neg hnx, if_neg hnc] at h
    exact ih h
  | case9 ch ch' str hnul hper ih =>
    rw [pieces, if_neg hnul, if_neg hper] at h
    exact hcons (.inl ⟨ch, rfl⟩) ih h

theorem Piece.ofChar_ends (ch : BitVec 8) : (Piece.ofChar ch).Ends number n := by
  rw [Piece.ofChar]
  split_ifs <;> trivial

/-- `vga_printf` ends unless a piece of its format string prints a tab. -/
theorem vgaPrintf_isSome_iff : (∃ r, vgaPrintf number str n s = some r) ↔
    (TextCall.printf str n).TabFree number := by
  have hvga := vgaPrintfFrom_vga number str n 0 ⟨s, [], 0⟩
  rw [List.drop_zero] at hvga
  have hrun : (∃ r, vgaPrintf number str n s = some r) ↔
      ∃ s', Run.events (Piece.put number n) (pieces str) s = some s' := by
    rw [← Option.isSome_iff_exists, ← Option.isSome_iff_exists, vgaPrintf, ← Option.isSome_map,
      hvga, Option.isSome_map]
  rw [hrun, Run.events_isSome_iff Piece.put_isSome_iff]
  constructor
  · intro hall
    exact ⟨fun h => hall .value ((mem_pieces_iff rfl).mpr h),
      fun h => hall (.number 10) ((mem_pieces_iff rfl).mpr h),
      fun h => hall (.number 16) ((mem_pieces_iff rfl).mpr h)⟩
  · rintro ⟨hvalue, hten, hsixteen⟩ q hq
    obtain ⟨ch, rfl⟩ | ⟨c, hc⟩ := pieces_forms hq
    · exact Piece.ofChar_ends ch
    · have hd := (mem_pieces_iff hc).mp hq
      simp only [directivePiece] at hc
      split_ifs at hc with h100 h120 h99
      all_goals obtain rfl := Option.some.inj hc
      · exact hten (h100 ▸ hd)
      · exact hsixteen (h120 ▸ hd)
      · exact hvalue (h99 ▸ hd)

theorem TextCall.ends_iff (c : TextCall) : c.Ends number s ↔ c.TabFree number := by
  have hloop : ∀ {loop : Option Vga} (output : BitVec 8 → Output) (str : List (BitVec 8)),
      (∀ ch, (output ch).TabFree ↔ ch ≠ 9) → loop = putAll ((textOf str).map output) s →
      ((∃ os s', os.length ≤ str.length ∧ loop = putAll os s ∧ putAll os s = some s') ↔
        9 ∉ textOf str) := by
    intro loop output str htab heq
    rw [← putAll_text_iff htab]
    constructor
    · rintro ⟨os, s', -, hos, hs'⟩
      exact ⟨s', heq.symm.trans (hos.trans hs')⟩
    · rintro ⟨s', hs'⟩
      exact ⟨_, s', textOf_length_le output, heq, hs'⟩
  cases c with
  | print str => exact hloop .char str (fun _ => Iff.rfl) (vgaPrint_eq_putAll str s)
  | printc color str =>
    exact hloop (.colored (vgaEntryColor color 0)) str (fun _ => Iff.rfl)
      (vgaPrintcWith_eq_putAll _ str s)
  | printf str n =>
    rw [← vgaPrintf_isSome_iff (s := s)]
    refine exists_congr fun r => ⟨fun h => h.2, fun h => ⟨?_, h⟩⟩
    have hrounds := (vgaPrintfFrom_within (Nat.zero_le _) h).rounds
    simpa only [Nat.add_zero, Nat.zero_add] using hrounds

end Strings

/-- A key ends unless it is the tab key. -/
theorem keyboardHandler_isSome_iff {data : BitVec 8} {t : Terminal} :
    (∃ t', keyboardHandler data t = some t') ↔ t.keyboard.input = false ∨ data ≠ 15 := by
  cases hin : t.keyboard.input with
  | false => exact ⟨fun _ => .inl rfl, fun _ => ⟨t, keyboardHandler_silent hin⟩⟩
  | true =>
    simp only [Bool.true_eq_false, false_or]
    constructor
    · rintro ⟨t', ht'⟩ rfl
      have htab : keyboardHandler 15 t = none := by
        rw [keyboardHandler, if_neg (by rw [hin]; decide)]
        refine characterKey_tab ?_
        rw [keyChar]
        split_ifs <;> decide +kernel
      rw [htab] at ht'
      cases ht'
    · intro hdata
      by_cases hkey : CharKey data
      · exact ⟨_, keyboardHandler_char hin hkey⟩
      · rw [keyboardHandler, if_neg (by rw [hin]; decide)]
        split_ifs with hsilent h28 hpress h42 h58 hpress h14 hpress hpress
        · exact ⟨_, rfl⟩
        · exact ⟨_, enterKey_eq⟩
        · exact ⟨_, rfl⟩
        · exact ⟨_, rfl⟩
        · exact ⟨_, rfl⟩
        · exact ⟨_, rfl⟩
        · exact ⟨_, backspaceKey_eq⟩
        · exact ⟨_, rfl⟩
        · refine absurd ⟨hpress, hsilent, ?_⟩ hkey
          have htab : data &&& 0x7F ≠ 15 := fun h => hdata ((eq_of_pressed data hpress).symm.trans h)
          simp only [List.mem_cons, List.not_mem_nil, or_false, not_or]
          exact ⟨h14, htab, h28, h42, h58⟩
        · exact ⟨_, rfl⟩

/-! ### Sessions -/

/-- Neither the ring nor the buffer of the line holds a tab. -/
structure Keyboard.TabFree (k : Keyboard) : Prop where
  buffer : ∀ j, k.buffer j ≠ 9
  inputBuffer : ∀ j, k.inputBuffer j ≠ 9

section Sessions

variable {k : Keyboard} {t t' : Terminal} {prompt : List (BitVec 8)} {data : BitVec 8}

theorem Keyboard.TabFree.push (h : k.TabFree) {ch : BitVec 8} (hch : ch ≠ 9) :
    (bufferPush ch k).TabFree := by
  refine ⟨fun j => ?_, h.inputBuffer⟩
  obtain rfl | hj := eq_or_ne j k.tail
  · exact (Function.update_self k.tail ch k.buffer).trans_ne hch
  · exact (Function.update_of_ne hj ch k.buffer).trans_ne (h.buffer j)

theorem Keyboard.TabFree.copyLine (h : k.TabFree) (size : ℤ) (i : ℕ) :
    (copyLine size i k).TabFree := by
  fun_induction FirstOs.copyLine size i k with
  | case1 i k hi ih =>
    refine ih ⟨h.buffer, fun j => ?_⟩
    obtain rfl | hj := eq_or_ne j i
    · exact (Function.update_self ..).trans_ne (h.buffer _)
    · exact (Function.update_of_ne hj ..).trans_ne (h.inputBuffer j)
  | case2 i k hi => exact h

theorem Keyboard.TabFree.waitReturn (h : k.TabFree) : (waitReturn k).TabFree :=
  have hcopy := h.copyLine ((k.tail + 128 - k.head).tmod 128) 0
  ⟨hcopy.buffer, hcopy.inputBuffer⟩

/-- The line that is read holds no tab. -/
theorem Keyboard.TabFree.command (h : k.TabFree) : 9 ∉ textOf (commandString k) := by
  intro htab
  have hline := (List.takeWhile_prefix _).subset ((List.takeWhile_prefix _).subset htab)
  obtain ⟨j, -, hj⟩ := List.mem_map.mp hline
  exact h.inputBuffer j hj

theorem terminalPrompt_tabFree (hprompt : 9 ∉ textOf prompt) (h : t.keyboard.TabFree) :
    ∃ t', terminalPrompt prompt t = some t' ∧ t'.keyboard.TabFree := by
  obtain ⟨vga, hprint⟩ := vgaPrintc_isSome 7 (vgaNewLine t.vga) hprompt
  exact ⟨_, congrArg (Option.map _) hprint, h.buffer, h.inputBuffer⟩

theorem terminalTurn_tabFree (hprompt : 9 ∉ textOf prompt) (h : t.keyboard.TabFree) :
    ∃ t', terminalTurn prompt t = some t' ∧ t'.keyboard.TabFree := by
  simp only [terminalTurn]
  split_ifs with hin
  · exact ⟨t, rfl, h⟩
  · obtain ⟨vga, hprint⟩ := vgaPrint_isSome_iff (s := t.vga).mpr h.waitReturn.command
    rw [hprint, Option.bind_some]
    exact terminalPrompt_tabFree hprompt h.waitReturn

/-- A key puts no tab into the ring. -/
theorem keyboardHandler_tabFree (h : t.keyboard.TabFree) (hkey : keyboardHandler data t = some t') :
    t'.keyboard.TabFree := by
  obtain rfl | rfl | ⟨-, ⟨-, rfl⟩ | ⟨-, -, rfl⟩ | ⟨hchar, rfl⟩⟩ := keyboardHandler_cases hkey
  · exact h
  · exact ⟨h.buffer, h.inputBuffer⟩
  · have hpush : (bufferPush 0 t.keyboard).TabFree := h.push (by decide)
    exact ⟨hpush.buffer, hpush.inputBuffer⟩
  · exact ⟨h.buffer, h.inputBuffer⟩
  · refine h.push fun htab => charOf_visible t.keyboard hchar ?_
    rw [htab]
    decide

/-- A session without the tab key always comes to its end. -/
theorem session_isSome {es : List TerminalEvent} (hprompt : 9 ∉ textOf prompt)
    (h : t.keyboard.TabFree) (hkeys : TerminalEvent.key 15 ∉ es) :
    ∃ t', session prompt t es = some t' := by
  have hinit : (keyboardInit t.keyboard).TabFree := ⟨h.buffer, h.inputBuffer⟩
  obtain ⟨t₁, hstart, h₁⟩ := terminalPrompt_tabFree
    (t := { t with keyboard := keyboardInit t.keyboard }) hprompt hinit
  have hstep : ∀ e ∈ es, ∀ u : Terminal, u.keyboard.TabFree →
      ∃ u', e.act prompt u = some u' ∧ u'.keyboard.TabFree := by
    intro e he u hu
    cases e with
    | key data =>
      obtain ⟨u', hkey⟩ := keyboardHandler_isSome_iff (t := u).mpr
        (.inr fun h15 => hkeys (h15 ▸ he))
      exact ⟨u', hkey, keyboardHandler_tabFree hu hkey⟩
    | turn => exact terminalTurn_tabFree hprompt hu
  obtain ⟨t', hrun, -⟩ := Run.events_isSome_of_invariant hstep h₁
  exact ⟨t', by rw [session, hstart, Option.bind_some, hrun]⟩

end Sessions

/-- A call ends if and only if it prints no tab; no tab leaves the cursor anywhere; a key ends
    unless it is the tab key. -/
theorem ends_iff_tabFree (number : BitVec 32 → ℕ → List (BitVec 8)) :
    (∀ (c : TextCall) (s : Vga), c.Ends number s ↔ c.TabFree number) ∧
      (∀ (color : BitVec 8) (s : Vga), ¬ ∃ s', vgaPutCharc color 9 s = some s') ∧
      ∀ (data : BitVec 8) (t : Terminal),
        (∃ t', keyboardHandler data t = some t') ↔ t.keyboard.input = false ∨ data ≠ 15 :=
  ⟨fun c _ => c.ends_iff, fun _ _ h => vgaPutCharc_isSome_iff.mp h rfl,
    fun _ _ => keyboardHandler_isSome_iff⟩

/-- A tab printed on a screen without text. -/
theorem not_ends : ¬ ∀ (number : BitVec 32 → ℕ → List (BitVec 8)) (c : TextCall) (s : Vga),
    s.row < 25 → s.column ≤ 80 → c.Ends number s := by
  intro hall
  have htab := hall (fun _ _ => []) (.print [9]) darkScreen (by decide) (by decide)
  exact (TextCall.ends_iff (.print [9])).mp htab (by decide)

end FirstOs
