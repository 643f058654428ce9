import FirstOs.Console.Tabs

/-!
# Taking back what was printed

A position of the screen has a linear number, and the end of a row has the number of
the start of the next one. A character moves the cursor one place on and a backspace moves it one
place back, whichever of the two the cursor stands for; so as many backspaces as there were
characters take a text back.

## Main definitions

- `Vga.place` — the linear number of the cursor
- `Vga.Wrote` — nothing outside some places has been assigned to

## Main results

- `vgaPutChar_visible`, `vgaPutChar_backspace` — one step in each direction
- `backspaces_undo` — a text and its backspaces
-/

namespace FirstOs

/-- The linear number of the cursor. -/
def Vga.place (s : Vga) : ℕ := s.row * 80 + s.column

/-- The console has come from `s` to `s'` by assignments to the places from `a` to `b` only, with
    the cursor on the screen or behind a row of it. -/
structure Vga.Wrote (s s' : Vga) (a b : ℕ) : Prop where
  row : s'.row < 25
  column : s'.column ≤ 80
  color : s'.color = s.color
  cells : ∀ k, ¬ (a ≤ k ∧ k < b) → s'.cells k = s.cells k
  written : ∃ l, s'.written = l ++ s.written ∧ ∀ i ∈ l, a ≤ i ∧ i < b

section Wrote

variable {s s' s'' : Vga} {a b a' b' r c : ℕ} {e : BitVec 16} {ch : BitVec 8}

theorem Vga.Wrote.refl (hrow : s.row < 25) (hcol : s.column ≤ 80) : s.Wrote s a b :=
  ⟨hrow, hcol, rfl, fun _ _ => rfl, [], rfl, fun _ hi => absurd hi List.not_mem_nil⟩

/-- One after the other. -/
theorem Vga.Wrote.trans (h : s.Wrote s' a b) (h' : s'.Wrote s'' a b) : s.Wrote s'' a b := by
  obtain ⟨l, hl, hmem⟩ := h.written
  obtain ⟨l', hl', hmem'⟩ := h'.written
  refine ⟨h'.row, h'.column, h'.color.trans h.color,
    fun k hk => (h'.cells k hk).trans (h.cells k hk), l' ++ l, ?_, fun i hi => ?_⟩
  · rw [hl', hl, List.append_assoc]
  · exact (List.mem_append.mp hi).elim (hmem' i) (hmem i)

theorem Vga.Wrote.mono (h : s.Wrote s' a b) (ha : a' ≤ a) (hb : b ≤ b') : s.Wrote s' a' b' := by
  obtain ⟨l, hl, hmem⟩ := h.written
  exact ⟨h.row, h.column, h.color, fun k hk => h.cells k (by omega), l, hl,
    fun i hi => ⟨ha.trans (hmem i hi).1, (hmem i hi).2.trans_le hb⟩⟩

/-- One cell assigned to, and the cursor set. -/
theorem Vga.wrote_cell (hr : r < 25) (hc : c ≤ 80) (ha : a < 2000) :
    s.Wrote (vgaUpdateCursor { s.write a e with row := r, column := c }) a (a + 1) := by
  have hslot : u32 a % 0x80000000 = a := by
    simp only [u32]
    omega
  have hindex : u32 a = a := by
    simp only [u32]
    omega
  refine ⟨hr, hc, rfl, fun k hk => ?_, [a], ?_, fun i hi => ?_⟩
  · have hcells : (vgaUpdateCursor { s.write a e with row := r, column := c }).cells =
        Function.update s.cells (u32 a % 0x80000000) e := rfl
    rw [hcells, hslot, Function.update_of_ne (by omega)]
  · show u32 a :: s.written = [a] ++ s.written
    rw [hindex]
    rfl
  · obtain rfl := List.mem_singleton.mp hi
    exact ⟨le_rfl, Nat.lt_succ_self i⟩

theorem Vga.write_cell (ha : a < 2000) :
    (vgaUpdateCursor { s.write a e with row := r, column := c }).cells a = e := by
  have hslot : u32 a % 0x80000000 = a := by
    simp only [u32]
    omega
  have hcells : (vgaUpdateCursor { s.write a e with row := r, column := c }).cells =
      Function.update s.cells (u32 a % 0x80000000) e := rfl
  rw [hcells, hslot, Function.update_self]

end Wrote

section Steps

variable {s : Vga} {ch : BitVec 8}

/-- A character takes the place of the cursor and does not scroll before the last one. -/
theorem vgaPutDefault_eq_write (color ch : BitVec 8) (hcol : s.column ≤ 80) (hplace : s.place < 2000) :
    ∃ r c, r < 25 ∧ c ≤ 80 ∧ r * 80 + c = s.place + 1 ∧ vgaPutDefault color ch s =
      vgaUpdateCursor { s.write s.place (vgaEntry ch color) with row := r, column := c } := by
  simp only [Vga.place] at hplace ⊢
  by_cases hfull : s.column = 80
  · have hrow : s.row < 24 := by omega
    refine ⟨s.row + 1, 1, by omega, by omega, by omega, ?_⟩
    rw [vgaPutDefault_of_full hfull, vgaNewLine_of_lt hrow,
      show s.row * 80 + s.column = (s.row + 1) * 80 + 0 by omega]
    rfl
  · refine ⟨s.row, s.column + 1, by omega, by omega, by omega, ?_⟩
    have hnext : u32 (s.column + 1) = s.column + 1 := Nat.mod_eq_of_lt (by omega)
    rw [vgaPutDefault_of_room hfull, vgaPutCell, hnext]
    rfl

/-- A visible character. -/
theorem vgaPutChar_visible (hch : Visible ch) (hcol : s.column ≤ 80) (hplace : s.place < 2000) :
    ∃ s', vgaPutChar ch s = some s' ∧ s'.place = s.place + 1 ∧
      s.Wrote s' s.place (s.place + 1) := by
  obtain ⟨r, c, hr, hc, hnext, heq⟩ :=
    vgaPutDefault_eq_write s.color ch hcol hplace
  exact ⟨_, (vgaPutCharc_of_visible hch s.color s).trans (congrArg some heq), hnext,
    Vga.wrote_cell hr hc hplace⟩

/-- A backspace blanks the place before the cursor. -/
theorem vgaPutChar_backspace (hrow : s.row < 25) (hcol : s.column ≤ 80) (hplace : 0 < s.place) :
    ∃ s', vgaPutChar 8 s = some s' ∧ s'.place + 1 = s.place ∧ s.Wrote s' s'.place s.place ∧
      s'.cells s'.place = blank s.color := by
  have hwrite : ∃ r c, r < 25 ∧ c ≤ 80 ∧ r * 80 + c + 1 = s.place ∧ vgaBackspace s.color s =
      vgaUpdateCursor { s.write (r * 80 + c) (blank s.color) with row := r, column := c } := by
    simp only [Vga.place] at hplace ⊢
    by_cases hstart : s.column = 0
    · have hfirst : s.row ≠ 0 := by omega
      refine ⟨s.row - 1, 79, by omega, by omega, by omega, ?_⟩
      exact vgaBackspace_of_start hstart hfirst
    · refine ⟨s.row, s.column - 1, hrow, by omega, by omega, ?_⟩
      exact vgaBackspace_of_inner hstart hcol
  obtain ⟨r, c, hr, hc, hnext, heq⟩ := hwrite
  have hlt : r * 80 + c < 2000 := by
    simp only [Vga.place] at hnext
    omega
  refine ⟨_, congrArg some heq, hnext, ?_, Vga.write_cell hlt⟩
  exact hnext ▸ Vga.wrote_cell hr hc hlt

end Steps

section Runs

variable {s : Vga} {str : List (BitVec 8)} {n : ℕ}

/-- A text of visible characters takes the places from the cursor on. -/
theorem vgaPrint_visible (hstr : ∀ ch ∈ str, Visible ch) (hrow : s.row < 25) (hcol : s.column ≤ 80)
    (hfit : s.place + str.length ≤ 2000) :
    ∃ s', vgaPrint str s = some s' ∧ s'.place = s.place + str.length ∧
      s.Wrote s' s.place (s.place + str.length) := by
  induction str generalizing s with
  | nil => exact ⟨s, rfl, rfl, Vga.Wrote.refl hrow hcol⟩
  | cons ch str ih =>
    have hch := hstr ch List.mem_cons_self
    rw [List.length_cons] at hfit
    obtain ⟨s₁, hput, hplace, hwrote⟩ := vgaPutChar_visible hch hcol (by omega)
    obtain ⟨s', hprint, hplace', hwrote'⟩ :=
      ih (fun ch' hch' => hstr ch' (List.mem_cons_of_mem _ hch')) hwrote.row hwrote.column (by omega)
    have hnul : ch ≠ 0 := fun h => hch (h ▸ List.mem_cons_self)
    refine ⟨s', ?_, by rw [hplace', hplace, List.length_cons]; omega, ?_⟩
    · rw [vgaPrint, if_neg hnul, hput]
      exact hprint
    · rw [List.length_cons]
      exact (hwrote.mono le_rfl (by omega)).trans (hwrote'.mono (by omega) (by omega))

/-- Backspaces blank the places before the cursor. -/
theorem backspaces_blank (hrow : s.row < 25) (hcol : s.column ≤ 80) (hn : n ≤ s.place) :
    ∃ s', runCalls (List.replicate n (.print [8])) s = some s' ∧ s'.place + n = s.place ∧
      s.Wrote s' s'.place s.place ∧
      ∀ k, s'.place ≤ k → k < s.place → s'.cells k = blank s.color := by
  induction n generalizing s with
  | zero => exact ⟨s, rfl, rfl, Vga.Wrote.refl hrow hcol, fun k hle hlt => absurd hlt hle.not_gt⟩
  | succ n ih =>
    obtain ⟨s₁, hput, hplace, hwrote, hblank⟩ := vgaPutChar_backspace hrow hcol (by omega)
    obtain ⟨s', hrun, hplace', hwrote', hblanks⟩ := ih hwrote.row hwrote.column (by omega)
    have hcall : ConsoleCall.run (.print [8]) s = some s₁ := by
      rw [ConsoleCall.run, vgaPrint, if_neg (by decide), hput]
      rfl
    refine ⟨s', (Run.events_cons hcall).trans hrun, by omega,
      (hwrote.mono (by omega) le_rfl).trans (hwrote'.mono le_rfl (by omega)), fun k hle hlt => ?_⟩
    by_cases hlast : k < s₁.place
    · rw [hblanks k hle hlast, hwrote.color]
    · obtain rfl : k = s₁.place := by omega
      rw [hwrote'.cells _ (by omega), hblank]

end Runs

/-- A text of visible characters that fits on the screen, and as many backspaces: the cursor is
    back, the places of the text are blank, and nothing else has been assigned to, so that nothing
    has scrolled. -/
theorem backspaces_undo (s : Vga) (str : List (BitVec 8)) (hrow : s.row < 25)
    (hcol : s.column ≤ 80) (hstr : ∀ ch ∈ str, ch ∉ ([0, 8, 9, 10, 13] : List (BitVec 8)))
    (hfit : s.row * 80 + s.column + str.length ≤ 2000) :
    ∃ s', runCalls (.print str :: List.replicate str.length (.print [8])) s = some s' ∧
      s'.row * 80 + s'.column = s.row * 80 + s.column ∧
      (∀ k, s'.cells k = if s.place ≤ k ∧ k < s.place + str.length then blank s.color
        else s.cells k) ∧
      ∃ l, s'.written = l ++ s.written ∧ ∀ i ∈ l, s.place ≤ i ∧ i < s.place + str.length := by
  obtain ⟨s₁, hprint, hplace, hwrote⟩ := vgaPrint_visible hstr hrow hcol hfit
  obtain ⟨s', hrun, hplace', hwrote', hblanks⟩ :=
    backspaces_blank (n := str.length) hwrote.row hwrote.column (by omega)
  have hcall : ConsoleCall.run (.print str) s = some s₁ := hprint
  have hback : s'.place = s.place := by omega
  rw [hback, hplace] at hwrote'
  refine ⟨s', (Run.events_cons hcall).trans hrun, hback, fun k => ?_,
    (hwrote.trans hwrote').written⟩
  split_ifs with hk
  · rw [hblanks k (by omega) (by omega), hwrote.color]
  · exact (hwrote.trans hwrote').cells k hk

/-- One character at the end of the first row, on a screen without text. -/
theorem backspaces_undo_wrap :
    ∃ s', runCalls (.print [65] :: List.replicate 1 (.print [8])) { darkScreen with column := 80 } =
      some s' ∧ s'.row * 80 + s'.column = 80 := by
  obtain ⟨s', hrun, hplace, -⟩ := backspaces_undo { darkScreen with column := 80 } [65] (by decide)
    (by decide) (by decide) (by decide)
  exact ⟨s', hrun, hplace⟩

end FirstOs
