import FirstOs.Console.Keyboard
import Mathlib.Data.List.GetD

/-!
# Formatted output

`vga_printf` walks over its format string with one pointer, which it moves forward behind a
`%` and back again where no directive follows. It writes characters on its own, without moving
the cursor of the screen, and leaves `%c` to `vga_put_char`. For `%d` and `%x` it prints the string
at a pointer that is never set; what is found there is the parameter `number`.

## Main definitions

- `vgaPrintf` — the loop, by the place in the string
- `Piece`, `pieces` — what the string asks for
- `expand` — the text a string stands for

## Main results

- `vgaPrintfFrom_vga` — the loop does what the pieces ask for
- `vgaPrintf_eq_print` — it prints the text the string stands for
-/

namespace FirstOs

/-- The state of `vga_printf`: the console, and what the code does not record, the places of the
    string read, the last one first, and the rounds of the loop. -/
structure Printf where
  vga : Vga
  reads : List ℕ
  rounds : ℕ

/-- `str[i]`, where the string ends with a NUL. -/
def charAt (str : List (BitVec 8)) (i : ℕ) : BitVec 8 := str.getD i 0

/-- The default case of `vga_printf`. -/
def vgaPutInline (ch : BitVec 8) (s : Vga) : Vga :=
  let s := if s.column = 80 then vgaNewLine s else s
  vgaPutCell s (vgaEntry ch s.color)

namespace Printf

/-- Read place `i` of the string. -/
def readAt (p : Printf) (i : ℕ) : Printf := { p with reads := i :: p.reads }

/-- The end of a round that leaves the console so. -/
def next (p : Printf) (vga : Vga) : Printf := { p with vga := vga, rounds := p.rounds + 1 }

end Printf

theorem lt_of_charAt {str : List (BitVec 8)} {i : ℕ} (h : charAt str i ≠ 0) : i < str.length := by
  by_contra hle
  exact h (List.getD_eq_default _ _ (Nat.le_of_not_lt hle))

section Code

variable (number : BitVec 32 → ℕ → List (BitVec 8)) (str : List (BitVec 8)) (n : BitVec 32)

/-- The loop of `vga_printf` from place `i` on. Behind a `%` the pointer goes back unless a
    directive follows, and at the end of a round it goes one place on. -/
def vgaPrintfFrom (i : ℕ) (p : Printf) : Option Printf :=
  let p := p.readAt i
  if h : charAt str i = 0 then some { p with vga := vgaUpdateCursor p.vga }
  else if charAt str i = 37 then
    let p := p.readAt (i + 1)
    if charAt str (i + 1) = 100 then
      (vgaPrint (number n 10) p.vga).bind fun vga => vgaPrintfFrom (i + 2) (p.next vga)
    else if charAt str (i + 1) = 120 then
      (vgaPrint (number n 16) p.vga).bind fun vga => vgaPrintfFrom (i + 2) (p.next vga)
    else if charAt str (i + 1) = 99 then
      (vgaPutChar (n.setWidth 8) p.vga).bind fun vga => vgaPrintfFrom (i + 2) (p.next vga)
    else vgaPrintfFrom (i + 1) (p.next p.vga)
  else if charAt str i = 10 then vgaPrintfFrom (i + 1) (p.next (vgaNewLine p.vga))
  else vgaPrintfFrom (i + 1) (p.next (vgaPutInline (charAt str i) p.vga))
termination_by str.length - i
decreasing_by all_goals exact Nat.sub_lt_sub_left (lt_of_charAt h) (by omega)

/-- `vga_printf`. -/
def vgaPrintf (s : Vga) : Option Printf := vgaPrintfFrom number str n 0 ⟨s, [], 0⟩

end Code

-- ════════════════════════════════════════════════════════════════════════
-- Pieces of a format string
-- ════════════════════════════════════════════════════════════════════════

/-- What a format string asks for. -/
inductive Piece
  | char (ch : BitVec 8)
  | newLine
  | number (base : ℕ)
  | value
deriving DecidableEq

namespace Piece

/-- A character that is no `%`. -/
def ofChar (ch : BitVec 8) : Piece := if ch = 10 then newLine else char ch

def put (text : BitVec 32 → ℕ → List (BitVec 8)) (n : BitVec 32) : Piece → Vga → Option Vga
  | char ch, s => some (vgaPutInline ch s)
  | newLine, s => some (vgaNewLine s)
  | number base, s => vgaPrint (text n base) s
  | value, s => vgaPutChar (n.setWidth 8) s

end Piece

/-- The pieces of a format string. A `%` no directive follows asks for nothing. -/
def pieces : List (BitVec 8) → List Piece
  | [] => []
  | [ch] => if ch = 0 ∨ ch = 37 then [] else [.ofChar ch]
  | ch :: ch' :: str =>
    if ch = 0 then []
    else if ch = 37 then
      if ch' = 100 then .number 10 :: pieces str
      else if ch' = 120 then .number 16 :: pieces str
      else if ch' = 99 then .value :: pieces str
      else pieces (ch' :: str)
    else .ofChar ch :: pieces (ch' :: str)

section Pieces

variable {number : BitVec 32 → ℕ → List (BitVec 8)} {str : List (BitVec 8)} {n : BitVec 32}
  {i : ℕ} {p r : Printf}

theorem charAt_eq (h : i < str.length) : charAt str i = str[i] := by
  rw [charAt, List.getD_eq_getElem _ _ h]

/-- The pieces from a place on that is not the NUL. -/
theorem pieces_drop (h : charAt str i ≠ 0) : pieces (str.drop i) =
    if charAt str i = 37 then
      if charAt str (i + 1) = 100 then .number 10 :: pieces (str.drop (i + 2))
      else if charAt str (i + 1) = 120 then .number 16 :: pieces (str.drop (i + 2))
      else if charAt str (i + 1) = 99 then .value :: pieces (str.drop (i + 2))
      else pieces (str.drop (i + 1))
    else .ofChar (charAt str i) :: pieces (str.drop (i + 1)) := by
  have hi := lt_of_charAt h
  have hcons : str.drop i = charAt str i :: str.drop (i + 1) := by
    rw [charAt_eq hi]
    exact List.drop_eq_getElem_cons hi
  rw [hcons]
  by_cases hnext : i + 1 < str.length
  · have hcons' : str.drop (i + 1) = charAt str (i + 1) :: str.drop (i + 2) := by
      rw [charAt_eq hnext]
      exact List.drop_eq_getElem_cons hnext
    rw [hcons', pieces, if_neg h]
  · have hnul : charAt str (i + 1) = 0 := List.getD_eq_default _ _ (by omega)
    rw [List.drop_eq_nil_of_le (show str.length ≤ i + 1 by omega), pieces, hnul, pieces]
    by_cases hper : charAt str i = 37
    · rw [if_pos (.inr hper), if_pos hper]
      rfl
    · rw [if_neg (not_or.mpr ⟨h, hper⟩), if_neg hper]

theorem pieces_drop_nul (h : charAt str i = 0) : pieces (str.drop i) = [] := by
  by_cases hi : i < str.length
  · rw [List.drop_eq_getElem_cons hi, ← charAt_eq hi, h]
    cases str.drop (i + 1) with
    | nil => rfl
    | cons ch' str => rw [pieces, if_pos rfl]
  · rw [List.drop_eq_nil_of_le (by omega)]
    rfl

/-- The loop does what the pieces ask for, and moves the cursor of the screen at the end. -/
theorem vgaPrintfFrom_vga (number : BitVec 32 → ℕ → List (BitVec 8)) (str : List (BitVec 8))
    (n : BitVec 32) (i : ℕ) (p : Printf) : (vgaPrintfFrom number str n i p).map Printf.vga =
    (Run.events (Piece.put number n) (pieces (str.drop i)) p.vga).map vgaUpdateCursor := by
  fun_induction vgaPrintfFrom number str n i p with
  | case1 i p p' h =>
    rw [pieces_drop_nul h]
    rfl
  | case2 i p p' h hper p'' hd ih =>
    rw [pieces_drop h, if_pos hper, if_pos hd, Run.events, Piece.put, Option.map_bind,
      Option.map_bind]
    exact congrArg _ (funext fun vga => ih vga)
  | case3 i p p' h hper p'' hd hx ih =>
    rw [pieces_drop h, if_pos hper, if_neg hd, if_pos hx, Run.events, Piece.put, Option.map_bind,
      Option.map_bind]
    exact congrArg _ (funext fun vga => ih vga)
  | case4 i p p' h hper p'' hd hx hc ih =>
    rw [pieces_drop h, if_pos hper, if_neg hd, if_neg hx, if_pos hc, Run.events, Piece.put,
      Option.map_bind, Option.map_bind]
    exact congrArg _ (funext fun vga => ih vga)
  | case5 i p p' h hper p'' hd hx hc ih =>
    rw [pieces_drop h, if_pos hper, if_neg hd, if_neg hx, if_neg hc]
    exact ih
  | case6 i p p' h hper hnl ih =>
    rw [pieces_drop h, if_neg hper, Piece.ofChar, if_pos hnl]
    exact ih
  | case7 i p p' h hper hnl ih =>
    rw [pieces_drop h, if_neg hper, Piece.ofChar, if_neg hnl]
    exact ih

/-- What a run from place `i` on has read and how often it has gone round. -/
structure Printf.Within (r p : Printf) (length i : ℕ) : Prop where
  rounds : r.rounds + i ≤ p.rounds + length
  reads : ∀ j ∈ r.reads, j ∈ p.reads ∨ j ≤ length

/-- One round that reads place `i`. -/
theorem Printf.Within.round {length : ℕ} {vga : Vga} (hi : i < length)
    (h : r.Within ((p.readAt i).next vga) length (i + 1)) : r.Within p length i := by
  have hrounds : r.rounds + (i + 1) ≤ p.rounds + 1 + length := h.rounds
  refine ⟨by omega, fun j hj => ?_⟩
  obtain hmem | hle := h.reads j hj
  · obtain rfl | hmem := List.mem_cons.mp hmem
    · exact .inr hi.le
    · exact .inl hmem
  · exact .inr hle

/-- One round that reads place `i` and the one behind it. -/
theorem Printf.Within.round_peek {length k : ℕ} {vga : Vga} (hi : i < length) (hk : i + 1 ≤ k)
    (h : r.Within (((p.readAt i).readAt (i + 1)).next vga) length k) : r.Within p length i := by
  have hrounds : r.rounds + k ≤ p.rounds + 1 + length := h.rounds
  refine ⟨by omega, fun j hj => ?_⟩
  obtain hmem | hle := h.reads j hj
  · obtain rfl | hmem := List.mem_cons.mp hmem
    · exact .inr hi
    · obtain rfl | hmem := List.mem_cons.mp hmem
      · exact .inr hi.le
      · exact .inl hmem
  · exact .inr hle

/-- The loop goes over the string once at most and reads nothing behind the NUL. -/
theorem vgaPrintfFrom_within (hi : i ≤ str.length)
    (h : vgaPrintfFrom number str n i p = some r) : r.Within p str.length i := by
  have hbehind : ∀ {i : ℕ} {c : BitVec 8}, charAt str (i + 1) = c → c ≠ 0 → i + 2 ≤ str.length :=
    fun hc hne => lt_of_charAt (hc ▸ hne)
  fun_induction vgaPrintfFrom number str n i p with
  | case1 i p p' hnul =>
    obtain rfl := Option.some.inj h
    refine ⟨Nat.add_le_add_left hi _, fun j hj => ?_⟩
    obtain rfl | hj := List.mem_cons.mp hj
    · exact .inr hi
    · exact .inl hj
  | case2 i p p' hne hper p'' hd ih =>
    obtain ⟨vga, -, h⟩ := Option.bind_eq_some_iff.mp h
    exact (ih vga (hbehind hd (by decide)) h).round_peek (lt_of_charAt hne) (by omega)
  | case3 i p p' hne hper p'' hd hx ih =>
    obtain ⟨vga, -, h⟩ := Option.bind_eq_some_iff.mp h
    exact (ih vga (hbehind hx (by decide)) h).round_peek (lt_of_charAt hne) (by omega)
  | case4 i p p' hne hper p'' hd hx hc ih =>
    obtain ⟨vga, -, h⟩ := Option.bind_eq_some_iff.mp h
    exact (ih vga (hbehind hc (by decide)) h).round_peek (lt_of_charAt hne) (by omega)
  | case5 i p p' hne hper p'' hd hx hc ih =>
    exact (ih (lt_of_charAt hne) h).round_peek (lt_of_charAt hne) le_rfl
  | case6 i p p' hne hper hnl ih => exact (ih (lt_of_charAt hne) h).round (lt_of_charAt hne)
  | case7 i p p' hne hper hnl ih => exact (ih (lt_of_charAt hne) h).round (lt_of_charAt hne)

end Pieces

section Registers

variable {s : Vga} {lo hi color ch : BitVec 8} {x y : ℕ}

/-- The console with other values in the registers of the screen. -/
def Vga.withRegisters (s : Vga) (lo hi : BitVec 8) : Vga :=
  { s with cursorLow := lo, cursorHigh := hi }

theorem vgaUpdateCursor_eq (s : Vga) : ∃ lo hi, vgaUpdateCursor s = s.withRegisters lo hi :=
  ⟨_, _, rfl⟩

@[simp] theorem Vga.withRegisters_column : (s.withRegisters lo hi).column = s.column := rfl

theorem vgaUpdateCursor_withRegisters :
    vgaUpdateCursor (s.withRegisters lo hi) = vgaUpdateCursor s := rfl

theorem vgaUpdateCursor_setColumn : vgaUpdateCursor { s.withRegisters lo hi with column := x } =
    vgaUpdateCursor { s with column := x } := rfl

theorem vgaClearRow_withRegisters :
    vgaClearRow (s.withRegisters lo hi) y x = (vgaClearRow s y x).withRegisters lo hi := by
  fun_induction vgaClearRow s y x with
  | case1 s x hx ih =>
    rw [vgaClearRow, if_pos hx]
    exact ih
  | case2 s x hx => rw [vgaClearRow, if_neg hx]

theorem vgaMoveRow_withRegisters :
    vgaMoveRow (s.withRegisters lo hi) y x = (vgaMoveRow s y x).withRegisters lo hi := by
  fun_induction vgaMoveRow s y x with
  | case1 s x hx ih =>
    rw [vgaMoveRow, if_pos hx]
    exact ih
  | case2 s x hx => rw [vgaMoveRow, if_neg hx]

theorem vgaMoveRows_withRegisters :
    vgaMoveRows (s.withRegisters lo hi) y = (vgaMoveRows s y).withRegisters lo hi := by
  fun_induction vgaMoveRows s y with
  | case1 s y hy ih =>
    rw [vgaMoveRows, if_pos hy, vgaMoveRow_withRegisters]
    exact ih
  | case2 s y hy => rw [vgaMoveRows, if_neg hy]

theorem vgaScrollUp_withRegisters :
    vgaScrollUp (s.withRegisters lo hi) = (vgaScrollUp s).withRegisters lo hi := by
  rw [vgaScrollUp, vgaMoveRows_withRegisters, vgaClearRow_withRegisters, vgaScrollUp]

/-- A new line sets the registers. -/
theorem vgaNewLine_withRegisters : vgaNewLine (s.withRegisters lo hi) = vgaNewLine s := by
  by_cases hrow : s.row < 24
  · rw [vgaNewLine_of_lt (s := s.withRegisters lo hi) hrow, vgaNewLine_of_lt hrow]
    rfl
  · have hle : 24 ≤ s.row := Nat.le_of_not_lt hrow
    rw [vgaNewLine_of_le (s := s.withRegisters lo hi) hle, vgaNewLine_of_le hle,
      vgaScrollUp_withRegisters]
    exact vgaUpdateCursor_setColumn

theorem vgaPutDefault_withRegisters :
    vgaPutDefault color ch (s.withRegisters lo hi) = vgaPutDefault color ch s := by
  by_cases hfull : s.column = 80
  · rw [vgaPutDefault_of_full hfull, vgaPutDefault_of_full (s := s.withRegisters lo hi) hfull,
      vgaNewLine_withRegisters]
  · rw [vgaPutDefault_of_room hfull, vgaPutDefault_of_room (s := s.withRegisters lo hi) hfull]
    rfl

theorem vgaBackspace_withRegisters :
    vgaBackspace color (s.withRegisters lo hi) = vgaBackspace color s := by
  by_cases hstart : s.column = 0 ∧ s.row ≠ 0
  · rw [vgaBackspace_of_start hstart.1 hstart.2,
      vgaBackspace_of_start (s := s.withRegisters lo hi) hstart.1 hstart.2]
    rfl
  · simp only [vgaBackspace]
    rw [if_neg hstart, if_neg (show ¬ ((s.withRegisters lo hi).column = 0 ∧
      (s.withRegisters lo hi).row ≠ 0) from hstart)]
    rfl

/-- Every character sets the registers. -/
theorem vgaPutCharc_withRegisters :
    vgaPutCharc color ch (s.withRegisters lo hi) = vgaPutCharc color ch s := by
  rw [vgaPutCharc, vgaPutCharc, vgaNewLine_withRegisters, vgaBackspace_withRegisters,
    vgaPutDefault_withRegisters, vgaUpdateCursor_setColumn, vgaUpdateCursor_withRegisters,
    Vga.withRegisters_column]

theorem vgaUpdateCursor_idem : vgaUpdateCursor (vgaUpdateCursor s) = vgaUpdateCursor s := rfl

/-- After a new line the registers are in step. -/
theorem vgaNewLine_synced : vgaUpdateCursor (vgaNewLine s) = vgaNewLine s := by
  by_cases hrow : s.row < 24
  · rw [vgaNewLine_of_lt hrow, vgaUpdateCursor_idem]
  · rw [vgaNewLine_of_le (Nat.le_of_not_lt hrow), vgaUpdateCursor_idem]

/-- After every character the registers are in step. -/
theorem vgaPutCharc_synced {s' : Vga} (h : vgaPutCharc color ch s = some s') :
    vgaUpdateCursor s' = s' := by
  rw [vgaPutCharc] at h
  split_ifs at h
  all_goals obtain rfl := Option.some.inj h
  · exact vgaNewLine_synced
  · exact vgaUpdateCursor_idem
  · rw [vgaBackspace]
    exact vgaUpdateCursor_idem
  · exact vgaUpdateCursor_idem
  · rw [vgaPutDefault]
    exact vgaUpdateCursor_idem

end Registers

-- ════════════════════════════════════════════════════════════════════════
-- The text a format string stands for
-- ════════════════════════════════════════════════════════════════════════

/-- The text a format string stands for where `%c` stands for `low`. -/
def expand (low : BitVec 8) : List (BitVec 8) → List (BitVec 8)
  | [] => []
  | [ch] => if ch = 37 then [] else [ch]
  | ch :: ch' :: str =>
    if ch = 37 then if ch' = 99 then low :: expand low str else expand low (ch' :: str)
    else ch :: expand low (ch' :: str)

/-- A `%` with the character right behind it. -/
def Directive (ch : BitVec 8) (str : List (BitVec 8)) : Prop := [37, ch] <:+: str

/-- The character a piece that is no number prints. -/
def Piece.text (low : BitVec 8) : Piece → BitVec 8
  | char ch => ch
  | newLine => 10
  | number _ => 0
  | value => low

/-- A piece that prints what `vga_print` would print of its text. -/
def Piece.Simple : Piece → Prop
  | char ch => Visible ch
  | newLine => True
  | number _ => False
  | value => True

section Expand

variable {number : BitVec 32 → ℕ → List (BitVec 8)} {str : List (BitVec 8)} {n : BitVec 32}
  {low : BitVec 8} {s : Vga}

theorem Piece.text_ofChar (ch : BitVec 8) : (Piece.ofChar ch).text low = ch := by
  rw [Piece.ofChar]
  split_ifs with hnl
  · exact hnl.symm
  · rfl

theorem Piece.simple_ofChar {ch : BitVec 8} (h : ch ∉ ([0, 8, 9, 13] : List (BitVec 8))) :
    (Piece.ofChar ch).Simple := by
  rw [Piece.ofChar]
  split_ifs with hnl
  · trivial
  · simp only [List.mem_cons, List.not_mem_nil, or_false, not_or] at h
    simp only [Piece.Simple, Visible, List.mem_cons, List.not_mem_nil, or_false, not_or]
    exact ⟨h.1, h.2.1, h.2.2.1, hnl, h.2.2.2⟩

/-- Without numbers the pieces are simple and spell the text the string stands for. -/
theorem expand_eq_text (low : BitVec 8) (hstr : ∀ ch ∈ str, ch ∉ ([0, 8, 9, 13] : List (BitVec 8)))
    (hd : ¬ Directive 100 str) (hx : ¬ Directive 120 str) :
    expand low str = (pieces str).map (Piece.text low) ∧ ∀ q ∈ pieces str, q.Simple := by
  have htail : ∀ {c a : BitVec 8} {t : List (BitVec 8)}, ¬ Directive c (a :: t) →
      ¬ Directive c t := fun h ht => h (ht.trans (List.suffix_cons ..).isInfix)
  have hnul : ∀ {ch : BitVec 8}, ch ∉ ([0, 8, 9, 13] : List (BitVec 8)) → ch ≠ 0 :=
    fun h heq => h (heq ▸ List.mem_cons_self)
  induction str using pieces.induct with
  | case1 => exact ⟨rfl, fun q hq => absurd hq List.not_mem_nil⟩
  | case2 ch hend =>
    obtain hend | hend := hend
    · exact absurd hend (hnul (hstr ch List.mem_cons_self))
    · rw [expand, pieces, if_pos hend, if_pos (.inr hend)]
      exact ⟨rfl, fun q hq => absurd hq List.not_mem_nil⟩
  | case3 ch hend =>
    rw [expand, pieces, if_neg (not_or.mp hend).2, if_neg hend, List.map_singleton,
      Piece.text_ofChar]
    refine ⟨rfl, fun q hq => ?_⟩
    obtain rfl := List.mem_singleton.mp hq
    exact Piece.simple_ofChar (hstr ch List.mem_cons_self)
  | case4 ch' str => exact absurd rfl (hnul (hstr 0 List.mem_cons_self))
  | case5 str _ ih => exact absurd ⟨[], str, rfl⟩ hd
  | case6 str _ _ ih => exact absurd ⟨[], str, rfl⟩ hx
  | case7 str hnd hnx hne ih =>
    obtain ⟨htext, hsimple⟩ := ih (fun ch hch => hstr ch (by simp [hch])) (htail (htail hd))
      (htail (htail hx))
    rw [expand, pieces, if_pos rfl, if_pos rfl, if_neg hne, if_pos rfl, if_neg hnd, if_neg hnx,
      if_pos rfl, List.map_cons, htext]
    refine ⟨rfl, fun q hq => ?_⟩
    obtain rfl | hq := List.mem_cons.mp hq
    · trivial
    · exact hsimple q hq
  | case8 ch' str hnd hnx hnc hne ih =>
    rw [expand, pieces, if_pos rfl, if_neg hnc, if_neg hne, if_pos rfl, if_neg hnd, if_neg hnx,
      if_neg hnc]
    exact ih (fun ch hch => hstr ch (List.mem_cons_of_mem _ hch)) (htail hd) (htail hx)
  | case9 ch ch' str hne hper ih =>
    obtain ⟨htext, hsimple⟩ := ih (fun ch hch => hstr ch (List.mem_cons_of_mem _ hch)) (htail hd)
      (htail hx)
    rw [expand, pieces, if_neg hper, if_neg hne, if_neg hper, List.map_cons, htext,
      Piece.text_ofChar]
    refine ⟨rfl, fun q hq => ?_⟩
    obtain rfl | hq := List.mem_cons.mp hq
    · exact Piece.simple_ofChar (hstr ch List.mem_cons_self)
    · exact hsimple q hq

/-- A simple piece prints its text; the registers of the screen may be behind. -/
theorem Piece.put_text {q : Piece} (hq : q.Simple) (hn : n.setWidth 8 ∉ ([0, 9] : List (BitVec 8)))
    (s : Vga) : ∃ s', q.put number n s = some s' ∧ q.text (n.setWidth 8) ≠ 0 ∧
      vgaPutChar (q.text (n.setWidth 8)) (vgaUpdateCursor s) = some (vgaUpdateCursor s') := by
  obtain ⟨lo, hi, hregs⟩ := vgaUpdateCursor_eq s
  cases q with
  | char ch =>
    have hcolor : (if s.column = 80 then vgaNewLine s else s).color = s.color := by
      split_ifs
      · exact (vgaNewLine_fields s).2.2
      · rfl
    refine ⟨_, rfl, fun hnul : ch = 0 => hq (hnul ▸ List.mem_cons_self), ?_⟩
    have hprint := vgaPutCharc_of_visible hq (vgaUpdateCursor s).color (vgaUpdateCursor s)
    refine hprint.trans ?_
    rw [hregs, vgaPutDefault_withRegisters]
    simp only [vgaPutInline, vgaPutDefault, hcolor]
    rfl
  | newLine =>
    refine ⟨_, rfl, show (10 : BitVec 8) ≠ 0 by decide, ?_⟩
    rw [vgaNewLine_synced, hregs]
    exact congrArg some vgaNewLine_withRegisters
  | number base => exact absurd hq id
  | value =>
    simp only [List.mem_cons, List.not_mem_nil, or_false, not_or] at hn
    have hput : ∃ s', vgaPutChar (n.setWidth 8) s = some s' :=
      Output.put_isSome (o := .char (n.setWidth 8)) hn.2 s
    obtain ⟨s', hs'⟩ := hput
    refine ⟨s', hs', hn.1, ?_⟩
    rw [vgaPutCharc_synced hs', hregs]
    exact vgaPutCharc_withRegisters.trans hs'

/-- Simple pieces print their texts. -/
theorem pieces_print (number : BitVec 32 → ℕ → List (BitVec 8)) {qs : List Piece}
    (hqs : ∀ q ∈ qs, q.Simple) (hn : n.setWidth 8 ∉ ([0, 9] : List (BitVec 8))) (s : Vga) :
    ∃ s', Run.events (Piece.put number n) qs s = some s' ∧
      vgaPrint (qs.map (Piece.text (n.setWidth 8))) (vgaUpdateCursor s) =
        some (vgaUpdateCursor s') := by
  induction qs generalizing s with
  | nil => exact ⟨s, rfl, rfl⟩
  | cons q qs ih =>
    obtain ⟨s₁, hput, hnul, hchar⟩ := Piece.put_text (hqs q List.mem_cons_self) hn s
    obtain ⟨s', hrun, hprint⟩ := ih (fun q' hq' => hqs q' (List.mem_cons_of_mem _ hq')) s₁
    refine ⟨s', (Run.events_cons hput).trans hrun, ?_⟩
    rw [List.map_cons, vgaPrint, if_neg hnul, hchar]
    exact hprint

/-- Where no number is asked for, `vga_printf` prints the text its format string stands for and
    does not read behind the NUL. -/
theorem vgaPrintf_eq_print (number : BitVec 32 → ℕ → List (BitVec 8)) (str : List (BitVec 8))
    (n : BitVec 32) (s : Vga) (hn : n.setWidth 8 ∉ ([0, 9] : List (BitVec 8)))
    (hstr : ∀ ch ∈ str, ch ∉ ([0, 8, 9, 13] : List (BitVec 8)))
    (hd : ¬ Directive 100 str) (hx : ¬ Directive 120 str) (hsync : vgaUpdateCursor s = s) :
    ∃ r, vgaPrintf number str n s = some r ∧
      vgaPrint (expand (n.setWidth 8) str) s = some r.vga ∧ ∀ i ∈ r.reads, i ≤ str.length := by
  obtain ⟨htext, hsimple⟩ := expand_eq_text (n.setWidth 8) hstr hd hx
  obtain ⟨s', hrun, hprint⟩ := pieces_print number hsimple hn s
  have hvga := vgaPrintfFrom_vga number str n 0 ⟨s, [], 0⟩
  rw [List.drop_zero, hrun, Option.map_some] at hvga
  obtain ⟨r, hr, hfinal⟩ := Option.map_eq_some_iff.mp hvga
  refine ⟨r, hr, ?_, fun i hi => ?_⟩
  · rw [htext, hfinal, ← hprint, hsync]
  · exact ((vgaPrintfFrom_within (Nat.zero_le _) hr).reads i hi).resolve_left List.not_mem_nil

/-- The string `"a%c%"`, whose last `%` stands alone. -/
theorem vgaPrintf_eq_print_lone : ∃ r, vgaPrintf (fun _ _ => []) [97, 37, 99, 37] 66 darkScreen =
    some r ∧ vgaPrint [97, 66] darkScreen = some r.vga ∧ ∀ i ∈ r.reads, i ≤ 4 := by
  have hd : ¬ [37, 100] <:+: ([97, 37, 99, 37] : List (BitVec 8)) := by decide
  have hx : ¬ [37, 120] <:+: ([97, 37, 99, 37] : List (BitVec 8)) := by decide
  exact vgaPrintf_eq_print _ _ 66 darkScreen (by decide) (by decide) hd hx rfl

/-- The call of `vga_printf` in the keyboard's handler. -/
theorem vgaPrintf_value (number : BitVec 32 → ℕ → List (BitVec 8)) (n : BitVec 32) (s : Vga) :
    (vgaPrintf number [37, 99] n s).map Printf.vga = vgaPrintfChar n s := by
  have hpieces : pieces [37, 99] = [.value] := by decide +kernel
  rw [vgaPrintf, vgaPrintfFrom_vga, List.drop_zero, hpieces, vgaPrintfChar, Run.events, Piece.put]
  cases vgaPutChar (n.setWidth 8) s <;> rfl

end Expand

end FirstOs
