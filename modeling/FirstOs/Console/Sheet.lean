import FirstOs.Console.Tabs

/-!
# Where the cells come from

`vga_print` and `vga_printc` are two copies of one function. What they do with a cell does
not depend on its contents, so that a screen can be thought of as a sheet that says where each
cell comes from: from the screen at the start, from a row that scrolling has cleared, or from
a character of the text. Both print the same sheet and differ in the color of the text.

## Main definitions

- `Ink`, `Sheet` — the sheet
- `Sheet.text` — a text printed on it
- `Sheet.Shown` — a console shows a sheet

## Main results

- `Sheet.Shown.char` — one character
- `vgaPrintc_vgaPrint` — the two functions
-/

namespace FirstOs

/-- Where a cell comes from. -/
inductive Ink
  | kept (i : ℕ)
  | cleared
  | typed (ch : BitVec 8)

/-- The cell, for a text of some color on a screen. -/
def Ink.entry (s₀ : Vga) (color : BitVec 8) : Ink → BitVec 16
  | kept i => s₀.read i
  | cleared => blank s₀.color
  | typed ch => vgaEntry ch color

/-- A screen whose cells say where they come from. -/
structure Sheet where
  row : ℕ
  column : ℕ
  cells : ℕ → Ink

namespace Sheet

/-- The sheet of a screen at the start. -/
def start (s₀ : Vga) : Sheet := ⟨s₀.row, s₀.column, .kept⟩

def newLine (h : Sheet) : Sheet :=
  if h.row < 24 then { h with row := h.row + 1, column := 0 }
  else
    { h with
      column := 0
      cells := fun j => if j < 1920 then h.cells (j + 80) else .cleared }

/-- A cell at the cursor. -/
def write (h : Sheet) (ink : Ink) : Sheet :=
  { h with cells := Function.update h.cells (u32 (h.row * 80 + h.column) % 0x80000000) ink }

/-- A backspace blanks the cell before the cursor. -/
def back (h : Sheet) : Sheet :=
  let h := if h.column = 0 ∧ h.row ≠ 0 then { h with row := h.row - 1, column := 80 } else h
  write { h with column := u32 (h.column + 0xFFFFFFFF) } (.typed 32)

/-- A character that takes a place. -/
def add (ch : BitVec 8) (h : Sheet) : Sheet :=
  let h := if h.column = 80 then h.newLine else h
  { h.write (.typed ch) with column := u32 (h.column + 1) }

/-- A character. -/
def char (ch : BitVec 8) (h : Sheet) : Sheet :=
  if ch = 10 then h.newLine
  else if ch = 13 then { h with column := 0 }
  else if ch = 8 then h.back
  else h.add ch

/-- The characters of a string. -/
def text (str : List (BitVec 8)) (h : Sheet) : Sheet :=
  (textOf str).foldl (fun h ch => h.char ch) h

/-- The console shows the sheet, with the text in a color. -/
structure Shown (s₀ : Vga) (color : BitVec 8) (h : Sheet) (s : Vga) : Prop where
  row : s.row = h.row
  column : s.column = h.column
  vgaColor : s.color = s₀.color
  cells : ∀ j < 2000, s.read j = (h.cells j).entry s₀ color

end Sheet

section Shown

open Sheet

variable {s₀ s : Vga} {color ch : BitVec 8} {h : Sheet}

theorem Sheet.shown_start (s₀ : Vga) (color : BitVec 8) : (start s₀).Shown s₀ color s₀ :=
  ⟨rfl, rfl, rfl, fun _ _ => rfl⟩

theorem Sheet.Shown.setPos (hs : h.Shown s₀ color s) (r c : ℕ) :
    Sheet.Shown s₀ color { h with row := r, column := c } { s with row := r, column := c } :=
  ⟨rfl, rfl, hs.vgaColor, hs.cells⟩

theorem Sheet.Shown.setColumn (hs : h.Shown s₀ color s) {c c' : ℕ} (hc : c' = c) :
    Sheet.Shown s₀ color { h with column := c } { s with column := c' } :=
  ⟨hs.row, hc, hs.vgaColor, hs.cells⟩

theorem Sheet.Shown.updateCursor (hs : h.Shown s₀ color s) :
    h.Shown s₀ color (vgaUpdateCursor s) :=
  ⟨hs.row, hs.column, hs.vgaColor, hs.cells⟩

/-- A cell written at the cursor. -/
theorem Sheet.Shown.write (hs : h.Shown s₀ color s) (ink : Ink) {e : BitVec 16}
    (he : e = ink.entry s₀ color) :
    (h.write ink).Shown s₀ color (s.write (s.row * 80 + s.column) e) := by
  refine ⟨hs.row, hs.column, hs.vgaColor, fun j hj => ?_⟩
  have hslot : u32 j % 0x80000000 = j := by
    simp only [u32]
    omega
  rw [Vga.read_write, hslot, hs.row, hs.column, Sheet.write]
  dsimp only
  rw [Function.update_apply, he]
  split_ifs
  · rfl
  · exact hs.cells j hj

theorem Sheet.Shown.newLine (hs : h.Shown s₀ color s) : h.newLine.Shown s₀ color (vgaNewLine s) := by
  obtain ⟨hrow, hcolumn, hcolor⟩ := vgaNewLine_fields s
  rw [Sheet.newLine]
  by_cases hlt : h.row < 24
  · rw [if_pos hlt]
    refine ⟨?_, hcolumn, hcolor.trans hs.vgaColor, fun j hj => ?_⟩
    · rw [hrow, hs.row, if_pos hlt]
    · rw [vgaNewLine_read hj, hs.row, if_pos hlt]
      exact hs.cells j hj
  · rw [if_neg hlt]
    refine ⟨?_, hcolumn, hcolor.trans hs.vgaColor, fun j hj => ?_⟩
    · rw [hrow, hs.row, if_neg hlt]
    · rw [vgaNewLine_read hj, hs.row, if_neg hlt]
      dsimp only
      split_ifs with hmoved
      · exact hs.cells (j + 80) (by omega)
      · exact congrArg blank hs.vgaColor

theorem Sheet.Shown.back (hs : h.Shown s₀ color s) :
    h.back.Shown s₀ color (vgaBackspace color s) := by
  have hstart : Sheet.Shown s₀ color
      (if h.column = 0 ∧ h.row ≠ 0 then { h with row := h.row - 1, column := 80 } else h)
      (if s.column = 0 ∧ s.row ≠ 0 then { s with row := s.row - 1, column := 80 } else s) := by
    rw [hs.row, hs.column]
    split_ifs
    · exact hs.setPos _ _
    · exact hs
  have hcolumn := congrArg (fun c => u32 (c + 0xFFFFFFFF)) hstart.column
  simp only [Sheet.back, vgaBackspace]
  exact ((hstart.setColumn hcolumn).write (.typed 32) rfl).updateCursor

theorem Sheet.Shown.add (hs : h.Shown s₀ color s) :
    (h.add ch).Shown s₀ color (vgaPutDefault color ch s) := by
  have hrow : Sheet.Shown s₀ color (if h.column = 80 then h.newLine else h)
      (if s.column = 80 then vgaNewLine s else s) := by
    rw [hs.column]
    split_ifs
    · exact hs.newLine
    · exact hs
  have hcolumn := congrArg (fun c => u32 (c + 1)) hrow.column
  simp only [Sheet.add, vgaPutDefault, vgaPutCell]
  exact ((hrow.write (.typed ch) rfl).setColumn hcolumn).updateCursor

/-- A character other than a tab. -/
theorem Sheet.Shown.char (hs : h.Shown s₀ color s) (htab : ch ≠ 9) :
    ∃ s', vgaPutCharc color ch s = some s' ∧ (h.char ch).Shown s₀ color s' := by
  simp only [vgaPutCharc, Sheet.char]
  split_ifs
  · exact ⟨_, rfl, hs.newLine⟩
  · exact ⟨_, rfl, (hs.setColumn rfl).updateCursor⟩
  · exact ⟨_, rfl, hs.back⟩
  · exact ⟨_, rfl, hs.add⟩

/-- A string without tabs, printed in a color. -/
theorem Sheet.Shown.text (hs : h.Shown s₀ color s) {str : List (BitVec 8)} (htab : 9 ∉ str) :
    ∃ s', vgaPrintcWith color str s = some s' ∧ (h.text str).Shown s₀ color s' := by
  induction str generalizing h s with
  | nil => exact ⟨s, rfl, hs⟩
  | cons ch str ih =>
    obtain ⟨hch, hstr⟩ := not_or.mp (List.mem_cons.not.mp htab)
    by_cases hnul : ch = 0
    · rw [vgaPrintcWith, if_pos hnul, Sheet.text, hnul, textOf_nul]
      exact ⟨s, rfl, hs⟩
    · obtain ⟨s₁, hput, hs₁⟩ := hs.char (Ne.symm hch)
      obtain ⟨s', hprint, hs'⟩ := ih hs₁ hstr
      rw [vgaPrintcWith, if_neg hnul, hput, Option.bind_some, Sheet.text, textOf_cons hnul,
        List.foldl_cons]
      exact ⟨s', hprint, hs'⟩

end Shown

section Printers

variable {s s' : Vga} {color ch : BitVec 8} {str : List (BitVec 8)}

theorem vgaPutCharc_color (h : vgaPutCharc color ch s = some s') : s'.color = s.color := by
  have htab : ch ≠ 9 := vgaPutCharc_isSome_iff.mp ⟨s', h⟩
  obtain ⟨t, ht, hshown⟩ := (Sheet.shown_start s color).char htab
  obtain rfl := Option.some.inj (h.symm.trans ht)
  exact hshown.vgaColor

/-- `vga_print` uses `vga_color`, which printing does not change. -/
theorem vgaPrint_eq_vgaPrintcWith : vgaPrint str s = vgaPrintcWith s.color str s := by
  induction str generalizing s with
  | nil => rfl
  | cons ch str ih =>
    rw [vgaPrint, vgaPrintcWith, vgaPutChar]
    cases hput : vgaPutCharc s.color ch s with
    | none => rfl
    | some s₁ => rw [Option.bind_some, Option.bind_some, ih, vgaPutCharc_color hput]

/-- After a text that is not empty the registers of the screen are in step. -/
theorem vgaPrintcWith_synced (h : vgaPrintcWith color str s = some s') :
    textOf str = [] ∧ s' = s ∨ textOf str ≠ [] ∧ vgaUpdateCursor s' = s' := by
  induction str generalizing s with
  | nil => exact .inl ⟨rfl, (Option.some.inj h).symm⟩
  | cons ch str ih =>
    rw [vgaPrintcWith] at h
    by_cases hnul : ch = 0
    · rw [if_pos hnul] at h
      exact .inl ⟨hnul ▸ textOf_nul, (Option.some.inj h).symm⟩
    · rw [if_neg hnul] at h
      obtain ⟨s₁, hput, hprint⟩ := Option.bind_eq_some_iff.mp h
      refine .inr ⟨by rw [textOf_cons hnul]; exact List.cons_ne_nil _ _, ?_⟩
      obtain ⟨-, rfl⟩ | ⟨-, hsync⟩ := ih hprint
      · exact vgaPutCharc_synced hput
      · exact hsync

/-- The registers of two screens that are in step with the same position. -/
theorem registers_eq {a b : Vga} (ha : vgaUpdateCursor a = a) (hb : vgaUpdateCursor b = b)
    (hrow : a.row = b.row) (hcolumn : a.column = b.column) :
    a.cursorLow = b.cursorLow ∧ a.cursorHigh = b.cursorHigh := by
  rw [← ha, ← hb, vgaUpdateCursor, vgaUpdateCursor, hrow, hcolumn]
  exact ⟨rfl, rfl⟩

/-- The character of a cell. -/
theorem setWidth_vgaEntry (uc color : BitVec 8) : (vgaEntry uc color).setWidth 8 = uc := by
  apply BitVec.eq_of_getLsbD_eq
  intro i hi
  simp only [vgaEntry, BitVec.getLsbD_setWidth, BitVec.getLsbD_or, BitVec.getLsbD_shiftLeft, hi,
    decide_true, Bool.true_and, Bool.not_true, Bool.and_false, Bool.false_and, Bool.or_false]
  simp only [show i < 16 by omega, decide_true, Bool.true_and]

/-- `vga_printc` and `vga_print` leave the same screen but for the color of the text. -/
theorem vgaPrintc_vgaPrint (s : Vga) (color : BitVec 8) (str : List (BitVec 8)) (htab : 9 ∉ str) :
    ∃ a b, vgaPrintc color str s = some a ∧ vgaPrint str s = some b ∧
      a.row = b.row ∧ a.column = b.column ∧
      a.cursorLow = b.cursorLow ∧ a.cursorHigh = b.cursorHigh ∧
      ∀ j < 2000, (a.read j).setWidth 8 = (b.read j).setWidth 8 ∧
        match (((Sheet.start s).text str).cells j) with
        | .kept i => a.read j = s.read i ∧ b.read j = s.read i
        | .cleared => a.read j = blank s.color ∧ b.read j = blank s.color
        | .typed ch => a.read j = vgaEntry ch (vgaEntryColor color 0) ∧
            b.read j = vgaEntry ch s.color := by
  obtain ⟨a, ha, hsa⟩ := (Sheet.shown_start s (vgaEntryColor color 0)).text htab
  obtain ⟨b, hb, hsb⟩ := (Sheet.shown_start s s.color).text htab
  have hrow : a.row = b.row := hsa.row.trans hsb.row.symm
  have hcolumn : a.column = b.column := hsa.column.trans hsb.column.symm
  have hregisters : a.cursorLow = b.cursorLow ∧ a.cursorHigh = b.cursorHigh := by
    obtain ⟨hnil, rfl⟩ | ⟨hne, hsynca⟩ := vgaPrintcWith_synced ha
    · obtain ⟨-, rfl⟩ | ⟨hne, -⟩ := vgaPrintcWith_synced hb
      · exact ⟨rfl, rfl⟩
      · exact absurd hnil hne
    · obtain ⟨hnil, -⟩ | ⟨-, hsyncb⟩ := vgaPrintcWith_synced hb
      · exact absurd hnil hne
      · exact registers_eq hsynca hsyncb hrow hcolumn
  refine ⟨a, b, ha, vgaPrint_eq_vgaPrintcWith.trans hb, hrow, hcolumn, hregisters.1, hregisters.2,
    fun j hj => ?_⟩
  rw [hsa.cells j hj, hsb.cells j hj]
  cases ((Sheet.start s).text str).cells j with
  | kept i => exact ⟨rfl, rfl, rfl⟩
  | cleared => exact ⟨rfl, rfl, rfl⟩
  | typed ch => exact ⟨(setWidth_vgaEntry _ _).trans (setWidth_vgaEntry _ _).symm, rfl, rfl⟩

/-- The character `'A'` in red, on a screen without text. -/
theorem vgaPrintc_vgaPrint_letter : ∃ a b, vgaPrintc 4 [65] darkScreen = some a ∧
    vgaPrint [65] darkScreen = some b ∧ a.column = b.column ∧
    a.read 0 = vgaEntry 65 (vgaEntryColor 4 0) ∧ b.read 0 = vgaEntry 65 darkScreen.color := by
  obtain ⟨a, b, ha, hb, -, hcolumn, -, -, hcells⟩ :=
    vgaPrintc_vgaPrint darkScreen 4 [65] (by decide)
  exact ⟨a, b, ha, hb, hcolumn, (hcells 0 (by decide)).2⟩

end Printers

end FirstOs
