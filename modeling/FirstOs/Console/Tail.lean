import FirstOs.Console.Vga
import FirstOs.Library.Layout

/-!
# The console shows the tail of the text

What is printed is a text laid out in rows of 80, with the newline as the symbol that
starts a row. The state of the console is determined by the layout of all text printed
since `vga_init`: the last 25 rows are on the screen and the cursor is behind the last
symbol.

## Main results

- `Shows.putChar` — one symbol
- `Shows.print` — a string
- `screen_shows_layout` — any number of strings
-/

namespace FirstOs

/-- The console shows the layout. -/
structure Shows (s : Vga) (L : Layout (BitVec 8)) : Prop where
  row : s.row = min 24 L.done.length
  column : s.column = L.last.length
  width : L.last.length ≤ 80
  cells : ∀ r < 25, ∀ x < 80, s.read (r * 80 + x) = vgaEntry ((L.cell 25 r x).getD 32) s.color
  cursor : s.cursor = s.row * 80 + s.column

/-- A character that only takes a place or starts a row. -/
def Plain (ch : BitVec 8) : Prop := ch ≠ 0 ∧ ch ≠ 8 ∧ ch ≠ 9 ∧ ch ≠ 13

section Steps

variable {s : Vga} {L : Layout (BitVec 8)} {ch : BitVec 8}

theorem Shows.newLine (h : Shows s L) : Shows (vgaNewLine s) L.newRow := by
  obtain ⟨hr, hc, hcol⟩ := vgaNewLine_fields s
  have hrow := h.row
  have hlen : L.newRow.done.length = L.done.length + 1 := L.rows_length
  refine ⟨?_, hc, Nat.zero_le _, fun r hr' x hx => ?_, ?_⟩
  · rw [hr, hlen]
    split_ifs <;> omega
  · rw [vgaNewLine_read (by omega), hcol]
    split_ifs with hlt hmove
    · rw [Layout.cell_newRow_of_lt (by omega)]
      exact h.cells r hr' x hx
    · rw [Layout.cell_newRow_of_le (by omega) hr', if_pos (by omega),
        ← h.cells (r + 1) (by omega) x hx]
      congr 1
      omega
    · rw [Layout.cell_newRow_of_le (by omega) hr', if_neg (by omega)]
      rfl
  · rw [vgaNewLine_cursor (by omega), hc, Nat.add_zero]

/-- A symbol on a row with room. -/
theorem Shows.putCell (h : Shows s L) (hlast : L.last.length < 80) (ch : BitVec 8) :
    Shows (vgaUpdateCursor (vgaPutCell s (vgaEntry ch s.color))) (L.add 80 ch) := by
  have hrow := h.row
  have hcolumn := h.column
  have hadd : L.add 80 ch = ⟨L.done, L.last ++ [ch]⟩ := if_neg hlast.ne
  have hlen : (L.last ++ [ch]).length = L.last.length + 1 := by
    rw [List.length_append, List.length_singleton]
  have hc : (vgaPutCell s (vgaEntry ch s.color)).column = s.column + 1 := by
    show u32 (s.column + 1) = s.column + 1
    rw [u32, Nat.mod_eq_of_lt (by omega)]
  refine ⟨?_, ?_, ?_, fun r hr x hx => ?_, ?_⟩
  · rw [hadd]
    exact hrow
  · rw [hadd, vgaUpdateCursor_column, hc, hcolumn, hlen]
  · rw [hadd, hlen]
    omega
  · have hread : (vgaPutCell s (vgaEntry ch s.color)).read (r * 80 + x) =
        if r * 80 + x = s.row * 80 + s.column then vgaEntry ch s.color
        else s.read (r * 80 + x) := s.read_write_of_lt _ (by omega) (by omega)
    rw [vgaUpdateCursor_read, hread, Layout.cell_add hlast.ne (by decide), h.cells r hr x hx]
    by_cases hat : r = min 24 L.done.length ∧ x = L.last.length
    · rw [if_pos hat, if_pos (by omega)]
      rfl
    · rw [if_neg hat, if_neg (by omega)]
      rfl
  · refine vgaUpdateCursor_cursor _ ?_
    rw [hc]
    show s.row * 80 + (s.column + 1) < _
    omega

theorem Shows.putDefault (h : Shows s L) (ch : BitVec 8) :
    Shows (vgaPutDefault s.color ch s) (L.add 80 ch) := by
  have hcolumn := h.column
  unfold vgaPutDefault
  dsimp only
  split_ifs with hfull
  · have hnew := h.newLine.putCell (show 0 < 80 by decide) ch
    rw [(vgaNewLine_fields s).2.2] at hnew
    rw [Layout.add_of_full (by decide) (by omega)]
    exact hnew
  · have hwidth := h.width
    exact h.putCell (by omega) ch

theorem Shows.putChar (h : Shows s L) (hch : Plain ch) :
    ∃ s', vgaPutChar ch s = some s' ∧ Shows s' (L.put 80 10 ch) := by
  obtain ⟨-, hbs, htab, hcr⟩ := hch
  by_cases hnl : ch = 10
  · refine ⟨vgaNewLine s, if_pos hnl, ?_⟩
    rw [Layout.put, if_pos hnl]
    exact h.newLine
  · refine ⟨vgaPutDefault s.color ch s, ?_, ?_⟩
    · rw [vgaPutChar, vgaPutCharc, if_neg hnl, if_neg hcr, if_neg hbs, if_neg htab]
    · rw [Layout.put, if_neg hnl]
      exact h.putDefault ch

end Steps

/-- A string goes behind the text already laid out. -/
theorem Shows.print {s : Vga} {L : Layout (BitVec 8)} {str : List (BitVec 8)} (h : Shows s L)
    (hstr : ∀ ch ∈ str, Plain ch) :
    ∃ s', vgaPrint str s = some s' ∧ Shows s' (str.foldl (Layout.put 80 10) L) := by
  induction str generalizing s L with
  | nil => exact ⟨s, rfl, h⟩
  | cons ch str ih =>
    have hch := hstr ch List.mem_cons_self
    obtain ⟨s₁, hput, h₁⟩ := h.putChar hch
    obtain ⟨s', hprint, h'⟩ := ih h₁ fun ch' hmem => hstr ch' (List.mem_cons_of_mem _ hmem)
    refine ⟨s', ?_, h'⟩
    rw [vgaPrint, if_neg hch.1, hput, Option.bind_some, hprint]

/-- `vga_init` leaves an empty screen. -/
theorem shows_vgaInit (s₀ : Vga) : Shows (vgaInit s₀) Layout.empty := by
  obtain ⟨hr, hc⟩ := vgaInit_fields s₀
  obtain ⟨hr', hc', hcol⟩ :=
    vgaClear_fields (s := { s₀ with row := 0, column := 0, color := vgaEntryColor 15 0 }) (y := 0)
  refine ⟨hr, hc, Nat.zero_le _, fun r hr' x hx => ?_, ?_⟩
  · rw [vgaInit, vgaUpdateCursor_read, vgaClear_read (by omega), if_pos (Nat.zero_le _),
      vgaUpdateCursor_color, hcol, Layout.cell_empty]
    rfl
  · rw [vgaInit, vgaUpdateCursor_row, vgaUpdateCursor_column]
    exact vgaUpdateCursor_cursor _ (by rw [hr', hc']; norm_num)

/-- `vga_print` called for one string after the other. -/
def vgaPrintAll : List (List (BitVec 8)) → Vga → Option Vga
  | [], s => some s
  | str :: strs, s => (vgaPrint str s).bind (vgaPrintAll strs)

theorem Shows.printAll {s : Vga} {L : Layout (BitVec 8)} {strs : List (List (BitVec 8))}
    (h : Shows s L) (hstrs : ∀ str ∈ strs, ∀ ch ∈ str, Plain ch) :
    ∃ s', vgaPrintAll strs s = some s' ∧ Shows s' (strs.flatten.foldl (Layout.put 80 10) L) := by
  induction strs generalizing s L with
  | nil => exact ⟨s, rfl, h⟩
  | cons str strs ih =>
    obtain ⟨s₁, hprint, h₁⟩ := h.print (hstrs str List.mem_cons_self)
    obtain ⟨s', hall, h'⟩ := ih h₁ fun str' hmem => hstrs str' (List.mem_cons_of_mem _ hmem)
    refine ⟨s', ?_, ?_⟩
    · rw [vgaPrintAll, hprint, Option.bind_some, hall]
    · rw [List.flatten_cons, List.foldl_append]
      exact h'

/-- The console shows the last rows of all that was printed since `vga_init`. -/
theorem screen_shows_layout (s₀ : Vga) (strs : List (List (BitVec 8)))
    (hplain : ∀ str ∈ strs, ∀ ch ∈ str, Plain ch) :
    ∃ s, vgaPrintAll strs (vgaInit s₀) = some s ∧ Shows s (layout 80 10 strs.flatten) :=
  (shows_vgaInit s₀).printAll hplain

theorem screen_shows_layout_two_strings :
    (∀ str ∈ [[72, 105, 10], [33]], ∀ ch ∈ str, Plain ch) ∧
      ∃ s, vgaPrintAll [[72, 105, 10], [33]] (vgaInit darkScreen) = some s ∧
        Shows s ⟨[[72, 105]], [33]⟩ := by
  have hplain : ∀ str ∈ [[72, 105, 10], [33]], ∀ ch ∈ str, Plain ch := by
    simp only [Plain]
    decide
  exact ⟨hplain, screen_shows_layout darkScreen _ hplain⟩

end FirstOs
