import Mathlib.Data.List.Basic
import Mathlib.Data.Nat.Basic
import Mathlib.Tactic.SplitIfs

/-!
# Text laid out in rows

A text is laid out in rows of at most `w` symbols. One symbol starts a new row and is
not laid out itself; a symbol for which the row has no place starts a new row first. A
screen of `h` rows shows the last `h` of them.

## Main definitions

- `Layout` — the finished rows and the last one
- `Layout.put`, `layout` — laying out a symbol and a text
- `Layout.cell` — a place of the last `h` rows
-/

/-- The rows of a text, the last one apart. -/
structure Layout (α : Type*) where
  done : List (List α)
  last : List α

namespace Layout

variable {α : Type*} {w h : ℕ} {r x : ℕ}

/-- One empty row. -/
def empty : Layout α := ⟨[], []⟩

/-- All rows. -/
def rows (L : Layout α) : List (List α) := L.done ++ [L.last]

/-- Start a new row. -/
def newRow (L : Layout α) : Layout α := ⟨L.rows, []⟩

/-- A symbol behind the last one, on a new row when the last row has `w` symbols. -/
def add (w : ℕ) (L : Layout α) (a : α) : Layout α :=
  if L.last.length = w then ⟨L.rows, [a]⟩ else ⟨L.done, L.last ++ [a]⟩

/-- Lay out a symbol, where `nl` starts a new row. -/
def put [DecidableEq α] (w : ℕ) (nl : α) (L : Layout α) (a : α) : Layout α :=
  if a = nl then L.newRow else L.add w a

/-- The place `x` of row `r` among the last `h` rows. -/
def cell (h : ℕ) (L : Layout α) (r x : ℕ) : Option α :=
  (L.rows.drop (L.rows.length - h))[r]?.bind fun row => row[x]?

theorem rows_length (L : Layout α) : L.rows.length = L.done.length + 1 := by
  rw [rows, List.length_append, List.length_singleton]

theorem rows_newRow (L : Layout α) : L.newRow.rows = L.rows ++ [[]] := rfl

theorem cell_eq (L : Layout α) :
    L.cell h r x = L.rows[L.done.length + 1 - h + r]?.bind fun row => row[x]? := by
  rw [cell, List.getElem?_drop, rows_length]

theorem cell_empty : (empty : Layout α).cell h r x = none := by
  rw [cell_eq]
  cases hr : (empty : Layout α).rows[(empty : Layout α).done.length + 1 - h + r]? with
  | none => rfl
  | some row =>
    have hrow : row = [] := List.mem_singleton.mp (List.mem_of_getElem? hr)
    rw [hrow]
    rfl

/-- A full row is followed by a new one. -/
theorem add_of_full (hw : 0 < w) {L : Layout α} (hfull : L.last.length = w) (a : α) :
    L.add w a = L.newRow.add w a := by
  have hempty : L.newRow.last.length ≠ w := by
    show 0 ≠ w
    omega
  rw [add, if_pos hfull, add, if_neg hempty]
  rfl

/-- A new row, as long as there is room for it. -/
theorem cell_newRow_of_lt {L : Layout α} (hh : L.done.length + 1 < h) :
    L.newRow.cell h r x = L.cell h r x := by
  have hlen : L.newRow.done.length = L.done.length + 1 := L.rows_length
  have htop : L.done.length + 1 - h = 0 := by omega
  have htop' : L.done.length + 1 + 1 - h = 0 := by omega
  rw [cell_eq, cell_eq, hlen, rows_newRow, htop, htop', Nat.zero_add]
  obtain hlt | heq | hgt := lt_trichotomy r L.rows.length
  · rw [List.getElem?_append_left hlt]
  · rw [heq, List.getElem?_concat_length, List.getElem?_eq_none (le_refl _)]
    rfl
  · rw [List.getElem?_eq_none (by rw [List.length_append, List.length_singleton]; omega),
      List.getElem?_eq_none (by omega)]

/-- A new row when all rows of the screen are in use. -/
theorem cell_newRow_of_le {L : Layout α} (hh : h ≤ L.done.length + 1) (hr : r < h) :
    L.newRow.cell h r x = if r + 1 < h then L.cell h (r + 1) x else none := by
  have hlen : L.newRow.done.length = L.done.length + 1 := L.rows_length
  have hrows := L.rows_length
  rw [cell_eq, hlen, rows_newRow]
  split_ifs with hlt
  · rw [cell_eq, List.getElem?_append_left (by omega)]
    congr 2
    omega
  · rw [show L.done.length + 1 + 1 - h + r = L.rows.length by omega,
      List.getElem?_concat_length]
    rfl

/-- A symbol on a row with room. -/
theorem cell_add {L : Layout α} (hlast : L.last.length ≠ w) (hh : 0 < h) (a : α) :
    (L.add w a).cell h r x =
      if r = min (h - 1) L.done.length ∧ x = L.last.length then some a else L.cell h r x := by
  rw [add, if_neg hlast, cell_eq, cell_eq, rows, rows]
  dsimp only
  obtain hlt | heq | hgt := lt_trichotomy (L.done.length + 1 - h + r) L.done.length
  · rw [List.getElem?_append_left hlt, List.getElem?_append_left hlt, if_neg (by omega)]
  · rw [heq, List.getElem?_concat_length, List.getElem?_concat_length, Option.bind_some,
      Option.bind_some]
    obtain hx | hx | hx := lt_trichotomy x L.last.length
    · rw [List.getElem?_append_left hx, if_neg (by omega)]
    · rw [hx, List.getElem?_concat_length, if_pos ⟨by omega, rfl⟩]
    · have hlen : (L.last ++ [a]).length = L.last.length + 1 := by
        rw [List.length_append, List.length_singleton]
      rw [if_neg (by omega), List.getElem?_eq_none (by omega), List.getElem?_eq_none (by omega)]
  · rw [List.getElem?_eq_none, List.getElem?_eq_none, if_neg (by omega)]
    · rw [List.length_append, List.length_singleton]
      omega
    · rw [List.length_append, List.length_singleton]
      omega

/-- A text without row ends for which the row has room. -/
theorem foldl_put_of_room [DecidableEq α] {nl : α} {text : List α} (hnl : nl ∉ text)
    (L : Layout α) (hroom : L.last.length + text.length ≤ w) :
    text.foldl (put w nl) L = ⟨L.done, L.last ++ text⟩ := by
  induction text generalizing L with
  | nil => rw [List.foldl_nil, List.append_nil]
  | cons a text ih =>
    rw [List.mem_cons, not_or] at hnl
    rw [List.length_cons] at hroom
    rw [List.foldl_cons, put, if_neg (Ne.symm hnl.1), add, if_neg (by omega), ih hnl.2]
    · dsimp only
      rw [List.append_assoc, List.singleton_append]
    · dsimp only
      rw [List.length_append, List.length_singleton]
      omega

/-- The only row. -/
theorem cell_single (row : List α) (hh : 0 < h) : (⟨[], row⟩ : Layout α).cell h 0 x = row[x]? := by
  have htop : ([] : List (List α)).length + 1 - h + 0 = ([] : List (List α)).length := by
    rw [List.length_nil]
    omega
  rw [cell_eq, rows]
  dsimp only
  rw [htop, List.getElem?_concat_length, Option.bind_some]

end Layout

/-- The layout of a text. -/
def layout {α : Type*} [DecidableEq α] (w : ℕ) (nl : α) (text : List α) : Layout α :=
  text.foldl (Layout.put w nl) Layout.empty
