import FirstOs.Library.ByteMemory
import Mathlib.Data.List.Basic

/-!
# The text console

`vga/vga.c`. The text buffer is the memory from `vga_buffer` on, by index: an index is
a 32-bit number, and two indices 2^31 apart name the same two bytes. `VGA_WIDTH` is 80
and `VGA_HEIGHT` is 25. The state also records which indices have been assigned to,
which the code does not.

## Main definitions

- `Vga` — the cursor, the text buffer and the registers of the screen
- `vgaScrollUp`, `vgaNewLine` — moving to a new row
- `vgaPutChar`, `vgaPrint` — printing

## Main results

- `vgaScrollUp_read` — scrolling moves the rows up and clears the last one
- `vgaNewLine_read`, `vgaNewLine_cursor` — what the screen shows after a new line
- `vgaBackspace_of_start`, `vgaBackspace_of_inner` — where a backspace goes
-/

namespace FirstOs

/-- `vga_buffer`. -/
def vgaBuffer : ℕ := 0xC00B8000

/-- `vga_entry_color`. -/
def vgaEntryColor (fg bg : BitVec 8) : BitVec 8 := fg ||| bg <<< 4

/-- `vga_entry`: a character and its attribute. -/
def vgaEntry (uc color : BitVec 8) : BitVec 16 := uc.setWidth 16 ||| color.setWidth 16 <<< 8

/-- A blank cell. -/
def blank (color : BitVec 8) : BitVec 16 := vgaEntry 32 color

/-- The state of the console. -/
structure Vga where
  /-- `vga_row`. -/
  row : ℕ
  /-- `vga_column`. -/
  column : ℕ
  /-- `vga_color`. -/
  color : BitVec 8
  /-- The memory `vga_buffer` points to. -/
  cells : ℕ → BitVec 16
  /-- The two registers of the screen that hold the position of the cursor. -/
  cursorLow : BitVec 8
  cursorHigh : BitVec 8
  /-- The indices assigned to, the last one first. -/
  written : List ℕ

/-- `position`. -/
structure Position where
  row : ℕ
  col : ℕ
deriving DecidableEq

namespace Vga

/-- `vga_buffer[i]`. -/
def read (s : Vga) (i : ℕ) : BitVec 16 := s.cells (u32 i % 0x80000000)

/-- Assign `vga_buffer[i]`. -/
def write (s : Vga) (i : ℕ) (e : BitVec 16) : Vga :=
  { s with cells := Function.update s.cells (u32 i % 0x80000000) e, written := u32 i :: s.written }

/-- The position the screen shows the cursor at. -/
def cursor (s : Vga) : ℕ := s.cursorHigh.toNat * 256 + s.cursorLow.toNat

end Vga

open Vga

/-- `vga_update_cursor`. -/
def vgaUpdateCursor (s : Vga) : Vga :=
  let pos := BitVec.ofNat 16 (s.row * 80 + s.column)
  { s with
    cursorLow := (pos &&& 0xFF).setWidth 8
    cursorHigh := ((pos >>> 8) &&& 0xFF).setWidth 8 }

/-- The inner loop of `vga_init` over the columns of row `y`. -/
def vgaClearRow (s : Vga) (y x : ℕ) : Vga :=
  if x < 80 then vgaClearRow (s.write (y * 80 + x) (blank s.color)) y (x + 1) else s
termination_by 80 - x

/-- The loop of `vga_init` over the rows. -/
def vgaClear (s : Vga) (y : ℕ) : Vga :=
  if y < 25 then vgaClear (vgaClearRow s y 0) (y + 1) else s
termination_by 25 - y

/-- `vga_init`. -/
def vgaInit (s : Vga) : Vga :=
  vgaUpdateCursor (vgaClear { s with row := 0, column := 0, color := vgaEntryColor 15 0 } 0)

/-- The inner loop of `vga_scroll_up` that moves row `y` up. Row 0 moves to the row before the
    first, whose index has wrapped. -/
def vgaMoveRow (s : Vga) (y x : ℕ) : Vga :=
  if x < 80 then
    vgaMoveRow (s.write ((y + 0xFFFFFFFF) * 80 + x) (s.read (y * 80 + x))) y (x + 1)
  else s
termination_by 80 - x

/-- The loop of `vga_scroll_up` over the rows. -/
def vgaMoveRows (s : Vga) (y : ℕ) : Vga :=
  if y < 25 then vgaMoveRows (vgaMoveRow s y 0) (y + 1) else s
termination_by 25 - y

/-- `vga_scroll_up`. The last row is cleared as in `vga_init`. -/
def vgaScrollUp (s : Vga) : Vga := vgaClearRow (vgaMoveRows s 0) 24 0

/-- `vga_new_line`. -/
def vgaNewLine (s : Vga) : Vga :=
  let s := if s.row < 24 then { s with row := s.row + 1 } else vgaScrollUp s
  vgaUpdateCursor { s with column := 0 }

/-- Write a cell at the cursor and move on. -/
def vgaPutCell (s : Vga) (e : BitVec 16) : Vga :=
  { s.write (s.row * 80 + s.column) e with column := u32 (s.column + 1) }

/-- The case `'\\b'`. -/
def vgaBackspace (color : BitVec 8) (s : Vga) : Vga :=
  let s := if s.column = 0 ∧ s.row ≠ 0 then
    { s with row := s.row - 1, column := 80 } else s
  let s := { s with column := u32 (s.column + 0xFFFFFFFF) }
  vgaUpdateCursor (s.write (s.row * 80 + s.column) (blank color))

/-- The default case. -/
def vgaPutDefault (color ch : BitVec 8) (s : Vga) : Vga :=
  let s := if s.column = 80 then vgaNewLine s else s
  vgaUpdateCursor (vgaPutCell s (vgaEntry ch color))

/-- `vga_put_charс`. The loop for a tab does not change `tab_len`, so it goes on forever unless
    that is 0. -/
def vgaPutCharc (color ch : BitVec 8) (s : Vga) : Option Vga :=
  if ch = 10 then some (vgaNewLine s)
  else if ch = 13 then some (vgaUpdateCursor { s with column := 0 })
  else if ch = 8 then some (vgaBackspace color s)
  else if ch = 9 then if 4 - s.column % 4 = 0 then some (vgaUpdateCursor s) else none
  else some (vgaPutDefault color ch s)

/-- `vga_put_char`: the same cases, with `vga_color`. -/
def vgaPutChar (ch : BitVec 8) (s : Vga) : Option Vga := vgaPutCharc s.color ch s

/-- `vga_print`. -/
def vgaPrint : List (BitVec 8) → Vga → Option Vga
  | [], s => some s
  | ch :: str, s => if ch = 0 then some s else (vgaPutChar ch s).bind (vgaPrint str)

/-- The loop of `vga_printc`. -/
def vgaPrintcWith (color : BitVec 8) : List (BitVec 8) → Vga → Option Vga
  | [], s => some s
  | ch :: str, s =>
    if ch = 0 then some s else (vgaPutCharc color ch s).bind (vgaPrintcWith color str)

/-- `vga_printc`. -/
def vgaPrintc (color : BitVec 8) (str : List (BitVec 8)) (s : Vga) : Option Vga :=
  vgaPrintcWith (vgaEntryColor color 0) str s

/-- `vga_printf("%c", n)`. -/
def vgaPrintfChar (n : BitVec 32) (s : Vga) : Option Vga :=
  (vgaPutChar (n.setWidth 8) s).map vgaUpdateCursor

/-- `vga_get_pos`. -/
def vgaGetPos (s : Vga) : Position := ⟨s.row, s.column⟩

/-- The console before `vga_init`, with zeros everywhere. -/
def darkScreen : Vga where
  row := 0
  column := 0
  color := 0
  cells := fun _ => 0
  cursorLow := 0
  cursorHigh := 0
  written := []

/-! ### One cell -/

section Cell

variable (s : Vga) (i : ℕ) (e : BitVec 16)

@[simp] theorem Vga.write_row : (s.write i e).row = s.row := rfl

@[simp] theorem Vga.write_column : (s.write i e).column = s.column := rfl

@[simp] theorem Vga.write_color : (s.write i e).color = s.color := rfl

@[simp] theorem Vga.write_written : (s.write i e).written = u32 i :: s.written := rfl

theorem Vga.read_write (j : ℕ) : (s.write i e).read j =
    if u32 j % 0x80000000 = u32 i % 0x80000000 then e else s.read j :=
  Function.update_apply ..

/-- The cells of the screen. -/
theorem Vga.read_write_of_lt {i j : ℕ} (hi : i < 2000) (hj : j < 2000) :
    (s.write i e).read j = if j = i then e else s.read j := by
  rw [Vga.read_write]
  have hslot : u32 j % 0x80000000 = u32 i % 0x80000000 ↔ j = i := by
    simp only [u32]
    omega
  simp only [hslot]

@[simp] theorem vgaUpdateCursor_row : (vgaUpdateCursor s).row = s.row := rfl

@[simp] theorem vgaUpdateCursor_column : (vgaUpdateCursor s).column = s.column := rfl

@[simp] theorem vgaUpdateCursor_color : (vgaUpdateCursor s).color = s.color := rfl

@[simp] theorem vgaUpdateCursor_written : (vgaUpdateCursor s).written = s.written := rfl

@[simp] theorem vgaUpdateCursor_read (j : ℕ) : (vgaUpdateCursor s).read j = s.read j := rfl

/-- The two registers hold the position. -/
theorem vgaUpdateCursor_cursor (h : s.row * 80 + s.column < 0x10000) :
    (vgaUpdateCursor s).cursor = s.row * 80 + s.column := by
  have hmask : ∀ p : BitVec 16, ((p &&& 0xFF).setWidth 8).toNat = p.toNat % 256 := by
    intro p
    rw [BitVec.toNat_setWidth, BitVec.toNat_and]
    exact congrArg (· % 256) (Nat.and_two_pow_sub_one_eq_mod p.toNat 8) |>.trans
      (Nat.mod_mod _ _)
  rw [Vga.cursor, vgaUpdateCursor]
  dsimp only
  rw [hmask, hmask, BitVec.toNat_ushiftRight, BitVec.toNat_ofNat, Nat.shiftRight_eq_div_pow,
    Nat.mod_eq_of_lt h]
  omega

end Cell

/-! ### Rows -/

section Rows

variable {s : Vga} {x y j : ℕ}

theorem vgaClearRow_fields : (vgaClearRow s y x).row = s.row ∧
    (vgaClearRow s y x).column = s.column ∧ (vgaClearRow s y x).color = s.color := by
  fun_induction vgaClearRow s y x with
  | case1 s x hx ih => exact ih
  | case2 s x hx => exact ⟨rfl, rfl, rfl⟩

theorem vgaClearRow_read (hy : y < 25) (hj : j < 2000) : (vgaClearRow s y x).read j =
    if j / 80 = y ∧ x ≤ j % 80 then blank s.color else s.read j := by
  fun_induction vgaClearRow s y x with
  | case1 s x hx ih =>
    rw [ih, Vga.write_color, Vga.read_write_of_lt _ _ (by omega) hj]
    split_ifs <;> first | rfl | omega
  | case2 s x hx => rw [if_neg (by omega)]

/-- The index row `y` is moved to. -/
theorem moveRow_index (hy : y < 25) (hx : x < 80) : u32 ((y + 0xFFFFFFFF) * 80 + x) =
    if y = 0 then 0xFFFFFFB0 + x else (y - 1) * 80 + x := by
  simp only [u32]
  split_ifs <;> omega

theorem vgaMoveRow_fields : (vgaMoveRow s y x).row = s.row ∧
    (vgaMoveRow s y x).column = s.column ∧ (vgaMoveRow s y x).color = s.color := by
  fun_induction vgaMoveRow s y x with
  | case1 s x hx ih => exact ih
  | case2 s x hx => exact ⟨rfl, rfl, rfl⟩

/-- Row `y` is copied to the row before it; row 0 is copied to no row of the screen. -/
theorem vgaMoveRow_read (hy : y < 25) (hj : j < 2000) : (vgaMoveRow s y x).read j =
    if j / 80 + 1 = y ∧ x ≤ j % 80 then s.read (j + 80) else s.read j := by
  fun_induction vgaMoveRow s y x with
  | case1 s x hx ih =>
    have hslot : ∀ k < 2000, (s.write ((y + 0xFFFFFFFF) * 80 + x)
        (s.read (y * 80 + x))).read k =
          if k / 80 + 1 = y ∧ k % 80 = x then s.read (k + 80) else s.read k := by
      intro k hk
      rw [Vga.read_write]
      have hiff : u32 k % 0x80000000 =
          u32 ((y + 0xFFFFFFFF) * 80 + x) % 0x80000000 ↔ k / 80 + 1 = y ∧ k % 80 = x := by
        rw [moveRow_index hy hx, u32, Nat.mod_eq_of_lt (show k < 0x100000000 by omega),
          Nat.mod_eq_of_lt (show k < 0x80000000 by omega)]
        split_ifs with hy0
        · omega
        · rw [Nat.mod_eq_of_lt (show (y - 1) * 80 + x < 0x80000000 by omega)]
          omega
      by_cases h : k / 80 + 1 = y ∧ k % 80 = x
      · rw [if_pos (hiff.mpr h), if_pos h]
        congr 1
        omega
      · rw [if_neg fun hs => h (hiff.mp hs), if_neg h]
    rw [ih]
    by_cases h : j / 80 + 1 = y ∧ x + 1 ≤ j % 80
    · rw [if_pos h, if_pos (by omega), hslot _ (by omega), if_neg (by omega)]
    · rw [if_neg h, hslot j hj]
      split_ifs <;> first | rfl | omega
  | case2 s x hx => rw [if_neg (by omega)]

theorem vgaMoveRows_fields : (vgaMoveRows s y).row = s.row ∧
    (vgaMoveRows s y).column = s.column ∧ (vgaMoveRows s y).color = s.color := by
  fun_induction vgaMoveRows s y with
  | case1 s y hy ih =>
    obtain ⟨hr, hc, hcol⟩ := vgaMoveRow_fields (s := s) (y := y) (x := 0)
    rwa [hr, hc, hcol] at ih
  | case2 s y hy => exact ⟨rfl, rfl, rfl⟩

/-- The rows are moved in order, so that each is read before it is written. -/
theorem vgaMoveRows_read (hj : j < 2000) : (vgaMoveRows s y).read j =
    if y ≤ j / 80 + 1 ∧ j < 1920 then s.read (j + 80) else s.read j := by
  fun_induction vgaMoveRows s y with
  | case1 s y hy ih =>
    rw [ih]
    by_cases h : y + 1 ≤ j / 80 + 1 ∧ j < 1920
    · rw [if_pos h, if_pos (by omega), vgaMoveRow_read hy (by omega), if_neg (by omega)]
    · rw [if_neg h, vgaMoveRow_read hy hj]
      split_ifs <;> first | rfl | omega
  | case2 s y hy => rw [if_neg (by omega)]

theorem vgaScrollUp_fields : (vgaScrollUp s).row = s.row ∧
    (vgaScrollUp s).column = s.column ∧ (vgaScrollUp s).color = s.color := by
  obtain ⟨hr, hc, hcol⟩ := vgaMoveRows_fields (s := s) (y := 0)
  obtain ⟨hr', hc', hcol'⟩ := vgaClearRow_fields (s := vgaMoveRows s 0) (y := 24) (x := 0)
  exact ⟨hr'.trans hr, hc'.trans hc, hcol'.trans hcol⟩

/-- Scrolling moves every row up by one and clears the last one. -/
theorem vgaScrollUp_read (hj : j < 2000) : (vgaScrollUp s).read j =
    if j < 1920 then s.read (j + 80) else blank s.color := by
  obtain ⟨-, -, hcol⟩ := vgaMoveRows_fields (s := s) (y := 0)
  rw [vgaScrollUp, vgaClearRow_read (by decide) hj, vgaMoveRows_read hj, hcol]
  split_ifs <;> first | rfl | omega

theorem vgaClear_fields : (vgaClear s y).row = s.row ∧
    (vgaClear s y).column = s.column ∧ (vgaClear s y).color = s.color := by
  fun_induction vgaClear s y with
  | case1 s y hy ih =>
    obtain ⟨hr, hc, hcol⟩ := vgaClearRow_fields (s := s) (y := y) (x := 0)
    rwa [hr, hc, hcol] at ih
  | case2 s y hy => exact ⟨rfl, rfl, rfl⟩

theorem vgaClear_read (hj : j < 2000) : (vgaClear s y).read j =
    if y ≤ j / 80 then blank s.color else s.read j := by
  fun_induction vgaClear s y with
  | case1 s y hy ih =>
    rw [ih, (vgaClearRow_fields).2.2, vgaClearRow_read hy hj]
    split_ifs <;> first | rfl | omega
  | case2 s y hy => rw [if_neg (by omega)]

theorem vgaInit_fields (s : Vga) : (vgaInit s).row = 0 ∧ (vgaInit s).column = 0 := by
  obtain ⟨hr, hc, -⟩ :=
    vgaClear_fields (s := { s with row := 0, column := 0, color := vgaEntryColor 15 0 }) (y := 0)
  rw [vgaInit, vgaUpdateCursor_row, vgaUpdateCursor_column]
  exact ⟨hr, hc⟩

end Rows

/-! ### A new line -/

section NewLine

variable {s : Vga}

theorem Vga.read_setPos (s : Vga) (r c j : ℕ) :
    Vga.read { s with row := r, column := c } j = s.read j := rfl

theorem Vga.read_setColumn (s : Vga) (c j : ℕ) : Vga.read { s with column := c } j = s.read j :=
  rfl

theorem vgaNewLine_of_lt (h : s.row < 24) :
    vgaNewLine s = vgaUpdateCursor { s with row := s.row + 1, column := 0 } := by
  simp only [vgaNewLine]
  rw [if_pos h]

theorem vgaNewLine_of_le (h : 24 ≤ s.row) :
    vgaNewLine s = vgaUpdateCursor { vgaScrollUp s with column := 0 } := by
  simp only [vgaNewLine]
  rw [if_neg (by omega)]

theorem vgaNewLine_fields (s : Vga) :
    (vgaNewLine s).row = (if s.row < 24 then s.row + 1 else s.row) ∧
      (vgaNewLine s).column = 0 ∧ (vgaNewLine s).color = s.color := by
  obtain ⟨hr, hc, hcol⟩ := vgaScrollUp_fields (s := s)
  split_ifs with h
  · rw [vgaNewLine_of_lt h]
    exact ⟨rfl, rfl, rfl⟩
  · rw [vgaNewLine_of_le (by omega), vgaUpdateCursor_row, vgaUpdateCursor_column,
      vgaUpdateCursor_color]
    exact ⟨hr, rfl, hcol⟩

theorem vgaNewLine_read {j : ℕ} (hj : j < 2000) : (vgaNewLine s).read j =
    if s.row < 24 then s.read j else if j < 1920 then s.read (j + 80) else blank s.color := by
  rw [← vgaScrollUp_read hj]
  split_ifs with h
  · rw [vgaNewLine_of_lt h, vgaUpdateCursor_read, Vga.read_setPos]
  · rw [vgaNewLine_of_le (by omega), vgaUpdateCursor_read, Vga.read_setColumn]

/-- The screen shows the cursor at the start of the new row. -/
theorem vgaNewLine_cursor (hrow : s.row < 25) :
    (vgaNewLine s).cursor = (vgaNewLine s).row * 80 := by
  obtain ⟨hr, -, -⟩ := vgaScrollUp_fields (s := s)
  by_cases h : s.row < 24
  · rw [vgaNewLine_of_lt h, vgaUpdateCursor_row]
    have hpos : (s.row + 1) * 80 + 0 < 0x10000 := by omega
    exact vgaUpdateCursor_cursor { s with row := s.row + 1, column := 0 } hpos
  · rw [vgaNewLine_of_le (by omega), vgaUpdateCursor_row]
    have hpos : (vgaScrollUp s).row * 80 + 0 < 0x10000 := by omega
    exact vgaUpdateCursor_cursor { vgaScrollUp s with column := 0 } hpos

end NewLine

/-! ### Going back -/

section Backspace

variable {s : Vga} {color : BitVec 8}

theorem u32_pred {c : ℕ} (h0 : c ≠ 0) (h : c < 0x100000000) : u32 (c + 0xFFFFFFFF) = c - 1 := by
  simp only [u32]
  omega

/-- A backspace goes back over the end of the row above. -/
theorem vgaBackspace_of_start (hcol : s.column = 0) (hrow : s.row ≠ 0) :
    vgaBackspace color s = vgaUpdateCursor (Vga.write { s with row := s.row - 1, column := 79 }
      ((s.row - 1) * 80 + 79) (blank color)) := by
  simp only [vgaBackspace]
  rw [if_pos ⟨hcol, hrow⟩]
  dsimp only

/-- A backspace in a row. -/
theorem vgaBackspace_of_inner (hcol : s.column ≠ 0) (hle : s.column ≤ 80) :
    vgaBackspace color s = vgaUpdateCursor (Vga.write { s with column := s.column - 1 }
      (s.row * 80 + (s.column - 1)) (blank color)) := by
  rw [vgaBackspace]
  rw [if_neg fun h => hcol h.1]
  dsimp only
  rw [u32_pred hcol (by omega)]

end Backspace
/-! ### The cursor -/

section Place

variable {s s' : Vga} {color ch : BitVec 8}

theorem vgaPutDefault_of_full (h : s.column = 80) : vgaPutDefault color ch s =
    vgaUpdateCursor (vgaPutCell (vgaNewLine s) (vgaEntry ch color)) := by
  simp only [vgaPutDefault]
  rw [if_pos h]

theorem vgaPutDefault_of_room (h : s.column ≠ 80) : vgaPutDefault color ch s =
    vgaUpdateCursor (vgaPutCell s (vgaEntry ch color)) := by
  simp only [vgaPutDefault]
  rw [if_neg h]

/-- A character at the end of a row goes to the start of the next one. -/
theorem vgaPutDefault_place (hcol : s.column ≤ 80) :
    (vgaPutDefault color ch s).row =
        (if s.column = 80 ∧ s.row < 24 then s.row + 1 else s.row) ∧
      (vgaPutDefault color ch s).column = if s.column = 80 then 1 else s.column + 1 := by
  obtain ⟨hr, hc, -⟩ := vgaNewLine_fields s
  by_cases hfull : s.column = 80
  · rw [vgaPutDefault_of_full hfull, vgaUpdateCursor_row, vgaUpdateCursor_column, if_pos hfull]
    constructor
    · refine hr.trans ?_
      simp only [hfull, true_and]
    · show u32 ((vgaNewLine s).column + 1) = 1
      rw [hc]
  · rw [vgaPutDefault_of_room hfull, vgaUpdateCursor_row, vgaUpdateCursor_column, if_neg hfull,
      if_neg fun h => hfull h.1]
    refine ⟨rfl, ?_⟩
    show u32 (s.column + 1) = s.column + 1
    rw [u32, Nat.mod_eq_of_lt (by omega)]

theorem vgaPutDefault_row (h : s.row < 25) : (vgaPutDefault color ch s).row < 25 := by
  obtain ⟨hr, -, -⟩ := vgaNewLine_fields s
  by_cases hfull : s.column = 80
  · rw [vgaPutDefault_of_full hfull, vgaUpdateCursor_row]
    show (vgaNewLine s).row < 25
    rw [hr]
    split_ifs <;> omega
  · rw [vgaPutDefault_of_room hfull, vgaUpdateCursor_row]
    exact h

theorem vgaBackspace_row : (vgaBackspace color s).row ≤ s.row := by
  by_cases h : s.column = 0 ∧ s.row ≠ 0
  · rw [vgaBackspace_of_start h.1 h.2, vgaUpdateCursor_row, Vga.write_row]
    exact Nat.sub_le ..
  · simp only [vgaBackspace]
    rw [if_neg h, vgaUpdateCursor_row, Vga.write_row]

/-- The cursor stays on a row of the screen. -/
theorem vgaPutCharc_row (h : s.row < 25) (hput : vgaPutCharc color ch s = some s') :
    s'.row < 25 := by
  rw [vgaPutCharc] at hput
  split_ifs at hput
  all_goals obtain rfl := Option.some.inj hput
  · rw [(vgaNewLine_fields s).1]
    split_ifs <;> omega
  · exact h
  · exact vgaBackspace_row.trans_lt h
  · exact h
  · exact vgaPutDefault_row h

/-- A character that does not go back. -/
theorem vgaPutCharc_column (hbs : ch ≠ 8) (hcr : ch ≠ 13) (hcol : s.column < 80)
    (hput : vgaPutCharc color ch s = some s') : s'.column ≤ s.column + 1 := by
  rw [vgaPutCharc] at hput
  split_ifs at hput
  all_goals obtain rfl := Option.some.inj hput
  · rw [(vgaNewLine_fields s).2.1]
    exact Nat.zero_le _
  · exact Nat.le_succ _
  · rw [(vgaPutDefault_place hcol.le).2, if_neg hcol.ne]

end Place

end FirstOs
