import FirstOs.Console.Vga
import FirstOs.Library.Run

/-!
# Output and the bounds of the screen

The console is driven by `vga_print`, `vga_printc` and `vga_new_line`. Two branches leave
the screen: scrolling copies row 0 to the row before it, whose indices have wrapped, and a
backspace at the start of row 0 takes 1 from column 0.

## Main definitions

- `Output` — one character, or a new line
- `Vga.OnScreen` — the cursor and all indices written to are on the screen
- `Output.Stays` — the character takes neither of the two branches

## Main results

- `Output.put_onScreen` — one character
- `onScreen_iff_stays` — any calls after `vga_init`
-/

namespace FirstOs

/-- What the console is given at a time: a character of `vga_print`, a character of
    `vga_printc`, or a call of `vga_new_line`. -/
inductive Output
  | char (ch : BitVec 8)
  | colored (color ch : BitVec 8)
  | newLine

/-- A call. -/
inductive ConsoleCall
  | print (str : List (BitVec 8))
  | printc (color : BitVec 8) (str : List (BitVec 8))
  | newLine

namespace Output

def put : Output → Vga → Option Vga
  | char ch, s => vgaPutChar ch s
  | colored color ch, s => vgaPutCharc color ch s
  | newLine, s => some (vgaNewLine s)

/-- The output is no tab. -/
def TabFree : Output → Prop
  | char ch => ch ≠ 9
  | colored _ ch => ch ≠ 9
  | newLine => True

/-- The character neither scrolls nor goes back from the first place of the screen. -/
def charStays (ch : BitVec 8) (s : Vga) : Prop :=
  if ch = 10 then s.row < 24
  else if ch = 13 then True
  else if ch = 8 then s.row ≠ 0 ∨ s.column ≠ 0
  else s.row < 24 ∨ s.column ≠ 80

def Stays : Output → Vga → Prop
  | char ch, s => charStays ch s
  | colored _ ch, s => charStays ch s
  | newLine, s => s.row < 24

end Output

/-- One output after the other. -/
def putAll : List Output → Vga → Option Vga := Run.events Output.put

namespace ConsoleCall

def run : ConsoleCall → Vga → Option Vga
  | print str, s => vgaPrint str s
  | printc color str, s => vgaPrintc color str s
  | newLine, s => some (vgaNewLine s)

/-- What the call gives the console: the characters before the first NUL. -/
def outputs : ConsoleCall → List Output
  | print str => (str.takeWhile (· ≠ 0)).map .char
  | printc color str => (str.takeWhile (· ≠ 0)).map (.colored (vgaEntryColor color 0))
  | newLine => [.newLine]

/-- The string has no tab. -/
def TabFree : ConsoleCall → Prop
  | print str => 9 ∉ str
  | printc _ str => 9 ∉ str
  | newLine => True

end ConsoleCall

/-- One call after the other. -/
def runCalls : List ConsoleCall → Vga → Option Vga := Run.events ConsoleCall.run

/-- The cursor is on the screen, or behind the last place of a row, and no index outside the
    screen has been written to. -/
structure Vga.OnScreen (s : Vga) : Prop where
  row : s.row < 25
  column : s.column ≤ 80
  written : ∀ i ∈ s.written, i < 2000

/-- What `vga_init` leaves, with no index recorded before it. -/
def initScreen (s₀ : Vga) : Vga := vgaInit { s₀ with written := [] }

/-! ### Calls as outputs -/

/-- A loop over the characters of a string that stops at a NUL. -/
theorem loop_eq_putAll {loop : List (BitVec 8) → Vga → Option Vga} {output : BitVec 8 → Output}
    (hnil : ∀ s, loop [] s = some s)
    (hcons : ∀ ch str s, loop (ch :: str) s =
      if ch = 0 then some s else ((output ch).put s).bind (loop str))
    (str : List (BitVec 8)) (s : Vga) :
    loop str s = putAll ((str.takeWhile (· ≠ 0)).map output) s := by
  induction str generalizing s with
  | nil => exact hnil s
  | cons ch str ih =>
    rw [hcons]
    by_cases hnul : ch = 0
    · rw [if_pos hnul, List.takeWhile_cons_of_neg (by simpa using hnul)]
      rfl
    · rw [if_neg hnul, List.takeWhile_cons_of_pos (by simpa using hnul), List.map_cons, putAll,
        Run.events]
      exact congrArg _ (funext ih)

theorem vgaPrint_eq_putAll (str : List (BitVec 8)) (s : Vga) :
    vgaPrint str s = putAll ((str.takeWhile (· ≠ 0)).map .char) s :=
  loop_eq_putAll (fun _ => rfl) (fun _ _ _ => rfl) str s

theorem vgaPrintcWith_eq_putAll (color : BitVec 8) (str : List (BitVec 8)) (s : Vga) :
    vgaPrintcWith color str s = putAll ((str.takeWhile (· ≠ 0)).map (.colored color)) s :=
  loop_eq_putAll (fun _ => rfl) (fun _ _ _ => rfl) str s

theorem ConsoleCall.run_eq_putAll (c : ConsoleCall) (s : Vga) : c.run s = putAll c.outputs s := by
  cases c with
  | print str => exact vgaPrint_eq_putAll str s
  | printc color str => exact vgaPrintcWith_eq_putAll _ str s
  | newLine => rfl

theorem runCalls_eq_putAll (cs : List ConsoleCall) (s : Vga) :
    runCalls cs s = putAll (cs.flatMap ConsoleCall.outputs) s := by
  induction cs generalizing s with
  | nil => rfl
  | cons c cs ih =>
    rw [runCalls, Run.events, c.run_eq_putAll, List.flatMap_cons, putAll, Run.events_append]
    exact congrArg _ (funext ih)

theorem ConsoleCall.tabFree_outputs {c : ConsoleCall} (hc : c.TabFree) :
    ∀ o ∈ c.outputs, o.TabFree := by
  have hchars : ∀ {str : List (BitVec 8)}, 9 ∉ str → ∀ ch ∈ str.takeWhile (· ≠ 0), ch ≠ 9 :=
    fun hstr ch hch htab => hstr (htab ▸ (List.takeWhile_prefix _).subset hch)
  intro o ho
  cases c with
  | print str =>
    obtain ⟨ch, hch, rfl⟩ := List.mem_map.mp ho
    exact hchars hc ch hch
  | printc color str =>
    obtain ⟨ch, hch, rfl⟩ := List.mem_map.mp ho
    exact hchars hc ch hch
  | newLine =>
    obtain rfl := List.mem_singleton.mp ho
    exact trivial

/-! ### The indices written to -/

section Written

variable {s : Vga} {x y : ℕ}

theorem vgaClearRow_written (hy : y < 25) (hs : ∀ i ∈ s.written, i < 2000) :
    ∀ i ∈ (vgaClearRow s y x).written, i < 2000 := by
  fun_induction vgaClearRow s y x with
  | case1 s x hx ih =>
    refine ih fun i hi => ?_
    obtain rfl | hi := List.mem_cons.mp hi
    · exact (Nat.mod_le _ _).trans_lt (by omega)
    · exact hs i hi
  | case2 s x hx => exact hs

theorem vgaClear_written (hs : ∀ i ∈ s.written, i < 2000) :
    ∀ i ∈ (vgaClear s y).written, i < 2000 := by
  fun_induction vgaClear s y with
  | case1 s y hy ih => exact ih (vgaClearRow_written hy hs)
  | case2 s y hy => exact hs

theorem vgaClearRow_subset : s.written ⊆ (vgaClearRow s y x).written := by
  fun_induction vgaClearRow s y x with
  | case1 s x hx ih => exact List.Subset.trans (List.subset_cons_self ..) ih
  | case2 s x hx => exact List.Subset.refl _

theorem vgaMoveRow_subset : s.written ⊆ (vgaMoveRow s y x).written := by
  fun_induction vgaMoveRow s y x with
  | case1 s x hx ih => exact List.Subset.trans (List.subset_cons_self ..) ih
  | case2 s x hx => exact List.Subset.refl _

theorem vgaMoveRows_subset : s.written ⊆ (vgaMoveRows s y).written := by
  fun_induction vgaMoveRows s y with
  | case1 s y hy ih => exact List.Subset.trans vgaMoveRow_subset ih
  | case2 s y hy => exact List.Subset.refl _

/-- The first cell of row 0 goes to the index 80 before it. -/
theorem vgaScrollUp_written : 0xFFFFFFB0 ∈ (vgaScrollUp s).written := by
  refine vgaClearRow_subset ?_
  rw [vgaMoveRows, if_pos (by decide)]
  refine vgaMoveRows_subset ?_
  rw [vgaMoveRow, if_pos (by decide)]
  exact vgaMoveRow_subset List.mem_cons_self

end Written

/-! ### One output -/

section Steps

variable {s : Vga}

/-- A new line stays on the screen unless it scrolls. -/
theorem vgaNewLine_onScreen (h : s.OnScreen) : (vgaNewLine s).OnScreen ↔ s.row < 24 := by
  constructor
  · intro h'
    by_contra hrow
    rw [vgaNewLine_of_le (by omega)] at h'
    have hbad : 0xFFFFFFB0 < 2000 := h'.written _ (vgaScrollUp_written (s := s))
    omega
  · intro hrow
    rw [vgaNewLine_of_lt hrow]
    exact ⟨show s.row + 1 < 25 by omega, Nat.zero_le _, h.written⟩

/-- A cell written at a place of the screen. -/
theorem vgaPutCell_onScreen (h : s.OnScreen) (hcol : s.column < 80) (e : BitVec 16) :
    (vgaUpdateCursor (vgaPutCell s e)).OnScreen := by
  have hrow := h.row
  refine ⟨hrow, ?_, fun i hi => ?_⟩
  · exact (Nat.mod_le _ _).trans (by omega)
  · obtain rfl | hi := List.mem_cons.mp hi
    · exact (Nat.mod_le _ _).trans_lt (by omega)
    · exact h.written i hi

theorem vgaPutDefault_onScreen (h : s.OnScreen) (color ch : BitVec 8) :
    (vgaPutDefault color ch s).OnScreen ↔ s.row < 24 ∨ s.column ≠ 80 := by
  have hcol := h.column
  unfold vgaPutDefault
  dsimp only
  split_ifs with hfull
  · constructor
    · intro h'
      by_contra hrow
      have hsub : (vgaNewLine s).written ⊆
          (vgaUpdateCursor (vgaPutCell (vgaNewLine s) (vgaEntry ch color))).written :=
        List.subset_cons_self ..
      rw [vgaNewLine_of_le (by omega)] at h' hsub
      have hbad : 0xFFFFFFB0 < 2000 := h'.written _ (hsub (vgaScrollUp_written (s := s)))
      omega
    · intro hrow
      have hnew := (vgaNewLine_onScreen h).mpr (hrow.resolve_right fun hne => hne hfull)
      exact vgaPutCell_onScreen hnew (by rw [(vgaNewLine_fields s).2.1]; decide) _
  · exact ⟨fun _ => .inr hfull, fun _ => vgaPutCell_onScreen h (by omega) _⟩

/-- A cell blanked at a place of the screen, where the cursor goes. -/
theorem vgaBlank_onScreen (h : s.OnScreen) {r c : ℕ} (hr : r < 25) (hc : c < 80)
    (e : BitVec 16) :
    (vgaUpdateCursor (Vga.write { s with row := r, column := c } (r * 80 + c) e)).OnScreen := by
  refine ⟨hr, hc.le, fun i hi => ?_⟩
  obtain rfl | hi := List.mem_cons.mp hi
  · exact (Nat.mod_le _ _).trans_lt (by omega)
  · exact h.written i hi

theorem vgaBackspace_onScreen (h : s.OnScreen) (color : BitVec 8) :
    (vgaBackspace color s).OnScreen ↔ s.row ≠ 0 ∨ s.column ≠ 0 := by
  have hrow := h.row
  have hcol := h.column
  by_cases hstart : s.column = 0
  · by_cases hfirst : s.row = 0
    · refine ⟨fun h' => absurd h'.column ?_, fun hne => absurd hfirst (hne.resolve_right ?_)⟩
      · simp only [vgaBackspace]
        rw [if_neg fun hback => hback.2 hfirst]
        show ¬ u32 (s.column + 0xFFFFFFFF) ≤ 80
        rw [hstart]
        decide
      · exact fun hne => hne hstart
    · rw [vgaBackspace_of_start hstart hfirst]
      exact ⟨fun _ => .inl hfirst, fun _ => vgaBlank_onScreen h (by omega) (by decide) _⟩
  · rw [vgaBackspace_of_inner hstart hcol]
    exact ⟨fun _ => .inr hstart, fun _ => vgaBlank_onScreen h hrow (by omega) _⟩

theorem vgaPutCharc_onScreen (h : s.OnScreen) (color : BitVec 8) {ch : BitVec 8}
    (htab : ch ≠ 9) :
    ∃ s', vgaPutCharc color ch s = some s' ∧ (s'.OnScreen ↔ Output.charStays ch s) := by
  simp only [vgaPutCharc, Output.charStays]
  split_ifs
  · exact ⟨_, rfl, vgaNewLine_onScreen h⟩
  · exact ⟨_, rfl, fun _ => trivial, fun _ => ⟨h.row, Nat.zero_le _, h.written⟩⟩
  · exact ⟨_, rfl, vgaBackspace_onScreen h color⟩
  · exact ⟨_, rfl, vgaPutDefault_onScreen h color ch⟩

/-- One output stays on the screen if and only if it takes neither of the two branches. -/
theorem Output.put_onScreen (h : s.OnScreen) {o : Output} (htab : o.TabFree) :
    ∃ s', o.put s = some s' ∧ (s'.OnScreen ↔ o.Stays s) := by
  cases o with
  | char ch => exact vgaPutCharc_onScreen h s.color htab
  | colored color ch => exact vgaPutCharc_onScreen h color htab
  | newLine => exact ⟨_, rfl, vgaNewLine_onScreen h⟩

end Steps

/-! ### Any number of outputs -/

/-- Output has a result unless it is a tab. -/
theorem Output.put_isSome {o : Output} (htab : o.TabFree) (s : Vga) : ∃ s', o.put s = some s' := by
  have hput : ∀ color ch, ch ≠ 9 → ∃ s', vgaPutCharc color ch s = some s' := by
    intro color ch hch
    simp only [vgaPutCharc]
    split_ifs
    all_goals exact ⟨_, rfl⟩
  cases o with
  | char ch => exact hput s.color ch htab
  | colored color ch => exact hput color ch htab
  | newLine => exact ⟨_, rfl⟩

theorem putAll_onScreen {s : Vga} (h : s.OnScreen) {os : List Output}
    (htab : ∀ o ∈ os, o.TabFree) :
    (∀ p, p <+: os → ∃ s', putAll p s = some s' ∧ s'.OnScreen) ↔
      ∀ p o, p ++ [o] <+: os → ∀ s', putAll p s = some s' → o.Stays s' := by
  have hstep : ∀ o ∈ os, ∀ s : Vga, s.OnScreen →
      ((∀ s', o.put s = some s' → s'.OnScreen) ↔ o.Stays s) := by
    intro o ho s hs
    obtain ⟨s₁, hput, hiff⟩ := Output.put_onScreen hs (htab o ho)
    rw [← hiff, hput]
    exact ⟨fun hall => hall s₁ rfl, fun h₁ s' hs' => Option.some.inj hs' ▸ h₁⟩
  refine Iff.trans (forall_congr' fun p => forall_congr' fun hp => ?_) (Run.events_iff hstep h)
  have hsome : ∃ s', Run.events Output.put p s = some s' :=
    Run.events_isSome fun o ho s => Output.put_isSome (htab o (hp.subset ho)) s
  obtain ⟨s₁, hs₁⟩ := hsome
  rw [putAll, hs₁]
  constructor
  · rintro ⟨s', hs', h'⟩ s'' hs''
    exact Option.some.inj (hs'.symm.trans hs'') ▸ h'
  · intro hall
    exact ⟨s₁, rfl, hall s₁ rfl⟩

/-- Strings leave the cursor on a row of the screen. -/
theorem putAll_row {s s' : Vga} {os : List Output} (h : s.row < 25)
    (hput : putAll os s = some s') : s'.row < 25 := by
  refine Run.events_invariant (I := fun s : Vga => s.row < 25) (fun o _ s hs s' ho => ?_) h hput
  cases o with
  | char ch => exact vgaPutCharc_row hs ho
  | colored color ch => exact vgaPutCharc_row hs ho
  | newLine =>
    obtain rfl := Option.some.inj ho
    rw [(vgaNewLine_fields s).1]
    split_ifs <;> omega

/-- So do strings without a backspace for its column. -/
theorem putAll_column {s s' : Vga} {str : List (BitVec 8)} (hstr : 8 ∉ str) (h : s.column ≤ 80)
    (hput : putAll (str.map .char) s = some s') : s'.column ≤ 80 := by
  refine Run.events_invariant (I := fun s : Vga => s.column ≤ 80) (fun o ho s hs s' hs' => ?_) h
    hput
  obtain ⟨ch, hch, rfl⟩ := List.mem_map.mp ho
  have hne : ch ≠ 8 := ne_of_mem_of_not_mem hch hstr
  change vgaPutCharc s.color ch s = some s' at hs'
  rw [vgaPutCharc] at hs'
  split_ifs at hs'
  all_goals obtain rfl := Option.some.inj hs'
  · rw [(vgaNewLine_fields s).2.1]
    exact Nat.zero_le _
  · exact Nat.zero_le _
  · exact hs
  · rw [(vgaPutDefault_place hs).2]
    split_ifs <;> omega

theorem initScreen_fields (s₀ : Vga) : (initScreen s₀).row = 0 ∧ (initScreen s₀).column = 0 :=
  vgaInit_fields _

theorem initScreen_onScreen (s₀ : Vga) : (initScreen s₀).OnScreen := by
  obtain ⟨hr, hc⟩ := initScreen_fields s₀
  refine ⟨hr ▸ by decide, hc ▸ by decide, ?_⟩
  rw [initScreen, vgaInit, vgaUpdateCursor_written]
  exact vgaClear_written fun i hi => absurd hi List.not_mem_nil

/-- Output stays on the screen after every character of any calls, as long as and only as long as
    no character scrolls or goes back from the first place. -/
theorem onScreen_iff_stays (s₀ : Vga) (cs : List ConsoleCall) (htab : ∀ c ∈ cs, c.TabFree) :
    runCalls cs (initScreen s₀) =
        putAll (cs.flatMap ConsoleCall.outputs) (initScreen s₀) ∧
      ((∀ p, p <+: cs.flatMap ConsoleCall.outputs →
          ∃ s, putAll p (initScreen s₀) = some s ∧ s.OnScreen) ↔
        ∀ p o, p ++ [o] <+: cs.flatMap ConsoleCall.outputs →
          ∀ s, putAll p (initScreen s₀) = some s → o.Stays s) := by
  refine ⟨runCalls_eq_putAll cs _, putAll_onScreen (initScreen_onScreen s₀) fun o ho => ?_⟩
  obtain ⟨c, hc, ho⟩ := List.mem_flatMap.mp ho
  exact ConsoleCall.tabFree_outputs (htab c hc) o ho

theorem onScreen_iff_stays_newline :
    (∀ c ∈ [ConsoleCall.print [10]], c.TabFree) ∧
      ((∀ p, p <+: [Output.char 10] → ∃ s, putAll p (initScreen darkScreen) = some s ∧ s.OnScreen) ↔
        ∀ p o, p ++ [o] <+: [Output.char 10] →
          ∀ s, putAll p (initScreen darkScreen) = some s → o.Stays s) := by
  have htab : ∀ c ∈ [ConsoleCall.print [10]], c.TabFree := by
    intro c hc
    obtain rfl := List.mem_singleton.mp hc
    exact fun h => absurd (List.mem_singleton.mp h) (by decide)
  exact ⟨htab, (onScreen_iff_stays darkScreen _ htab).2⟩

/-- A backspace right after `vga_init`. -/
theorem not_onScreen : ¬ ∀ (s₀ : Vga) (cs : List ConsoleCall), (∀ c ∈ cs, c.TabFree) →
    ∀ p, p <+: cs.flatMap ConsoleCall.outputs →
      ∃ s, putAll p (initScreen s₀) = some s ∧ s.OnScreen := by
  intro hall
  have htab : ∀ c ∈ [ConsoleCall.print [8]], c.TabFree := by
    intro c hc
    obtain rfl := List.mem_singleton.mp hc
    exact fun h => absurd (List.mem_singleton.mp h) (by decide)
  obtain ⟨s, hs, hon⟩ := hall darkScreen [.print [8]] htab [.char 8] (List.prefix_refl _)
  obtain ⟨s', hs', hiff⟩ := Output.put_onScreen (initScreen_onScreen darkScreen)
    (show (Output.char 8).TabFree from fun h => absurd h (by decide))
  obtain ⟨hr, hc⟩ := initScreen_fields darkScreen
  rw [putAll, Run.events_cons hs'] at hs
  obtain rfl := Option.some.inj hs
  exact (hiff.mp hon).elim (fun h => h hr) fun h => h hc

-- ════════════════════════════════════════════════════════════════════════
-- Consoles that look alike
-- ════════════════════════════════════════════════════════════════════════

/-- Two consoles that may differ in the cells outside a set, which has those of the screen. -/
structure Vga.Alike (cells : ℕ → Prop) (s s' : Vga) : Prop where
  row : s.row = s'.row
  column : s.column = s'.column
  color : s.color = s'.color
  same : ∀ i, cells i → s.cells i = s'.cells i
  screen : ∀ i < 2000, cells i

section Alike

variable {cells : ℕ → Prop} {s s' : Vga} {color ch : BitVec 8} {x y j : ℕ}

theorem Vga.Alike.read (h : s.Alike cells s') (hj : j < 2000) : s.read j = s'.read j := by
  refine h.same _ (h.screen _ ?_)
  simp only [u32]
  omega

theorem Vga.Alike.write (h : s.Alike cells s') (j : ℕ) (e : BitVec 16) :
    (s.write j e).Alike cells (s'.write j e) := by
  refine ⟨h.row, h.column, h.color, fun i hi => ?_, h.screen⟩
  simp only [Vga.write, Function.update_apply]
  rw [h.same i hi]

/-- The cursor is moved to the same place. -/
theorem Vga.Alike.move (h : s.Alike cells s') (r c : ℕ) :
    Vga.Alike cells { s with row := r, column := c } { s' with row := r, column := c } :=
  ⟨rfl, rfl, h.color, h.same, h.screen⟩

theorem Vga.Alike.updateCursor (h : s.Alike cells s') :
    (vgaUpdateCursor s).Alike cells (vgaUpdateCursor s') :=
  ⟨h.row, h.column, h.color, h.same, h.screen⟩

theorem Vga.Alike.clearRow (h : s.Alike cells s') (y x : ℕ) :
    (vgaClearRow s y x).Alike cells (vgaClearRow s' y x) := by
  fun_induction vgaClearRow s y x generalizing s' with
  | case1 s x hx ih =>
    rw [vgaClearRow.eq_def s' y x, if_pos hx, ← h.color]
    exact ih (h.write _ _)
  | case2 s x hx =>
    rw [vgaClearRow.eq_def s' y x, if_neg hx]
    exact h

theorem Vga.Alike.moveRow (h : s.Alike cells s') (hy : y < 25) (x : ℕ) :
    (vgaMoveRow s y x).Alike cells (vgaMoveRow s' y x) := by
  fun_induction vgaMoveRow s y x generalizing s' with
  | case1 s x hx ih =>
    rw [vgaMoveRow.eq_def s' y x, if_pos hx, ← h.read (show y * 80 + x < 2000 by omega)]
    exact ih (h.write _ _)
  | case2 s x hx =>
    rw [vgaMoveRow.eq_def s' y x, if_neg hx]
    exact h

theorem Vga.Alike.moveRows (h : s.Alike cells s') (y : ℕ) :
    (vgaMoveRows s y).Alike cells (vgaMoveRows s' y) := by
  fun_induction vgaMoveRows s y generalizing s' with
  | case1 s y hy ih =>
    rw [vgaMoveRows.eq_def s' y, if_pos hy]
    exact ih (h.moveRow hy 0)
  | case2 s y hy =>
    rw [vgaMoveRows.eq_def s' y, if_neg hy]
    exact h

theorem Vga.Alike.newLine (h : s.Alike cells s') :
    (vgaNewLine s).Alike cells (vgaNewLine s') := by
  have hscroll : (vgaScrollUp s).Alike cells (vgaScrollUp s') := (h.moveRows 0).clearRow 24 0
  rw [vgaNewLine, vgaNewLine, ← h.row]
  split_ifs
  · exact Vga.Alike.updateCursor ⟨rfl, rfl, h.color, h.same, h.screen⟩
  · exact Vga.Alike.updateCursor ⟨hscroll.row, rfl, hscroll.color, hscroll.same, h.screen⟩

theorem Vga.Alike.backspace (h : s.Alike cells s') :
    (vgaBackspace color s).Alike cells (vgaBackspace color s') := by
  have hback : ∀ r c, (vgaUpdateCursor (Vga.write { s with row := r, column := c } (r * 80 + c)
      (blank color))).Alike cells (vgaUpdateCursor
        (Vga.write { s' with row := r, column := c } (r * 80 + c) (blank color))) :=
    fun r c => ((h.move r c).write _ _).updateCursor
  obtain ⟨row, column, color', cells', low, high, written⟩ := s
  obtain ⟨row', column', color'', cells'', low', high', written'⟩ := s'
  obtain rfl : row = row' := h.row
  obtain rfl : column = column' := h.column
  rw [vgaBackspace, vgaBackspace]
  dsimp only
  split_ifs
  · exact hback _ _
  · exact hback _ _

theorem Vga.Alike.putDefault (h : s.Alike cells s') :
    (vgaPutDefault color ch s).Alike cells (vgaPutDefault color ch s') := by
  have hcell : ∀ {t t' : Vga}, t.Alike cells t' →
      (vgaPutCell t (vgaEntry ch color)).Alike cells (vgaPutCell t' (vgaEntry ch color)) := by
    intro t t' ht
    have hwrite := ht.write (t.row * 80 + t.column) (vgaEntry ch color)
    rw [vgaPutCell, vgaPutCell, ← ht.row, ← ht.column]
    exact ⟨hwrite.row, rfl, hwrite.color, hwrite.same, ht.screen⟩
  rw [vgaPutDefault, vgaPutDefault, ← h.column]
  split_ifs
  · exact (hcell h.newLine).updateCursor
  · exact (hcell h).updateCursor

theorem Vga.Alike.putCharc (h : s.Alike cells s') :
    Option.Rel (Vga.Alike cells) (vgaPutCharc color ch s) (vgaPutCharc color ch s') := by
  rw [vgaPutCharc, vgaPutCharc, ← h.column]
  split_ifs
  · exact .some h.newLine
  · exact .some (Vga.Alike.updateCursor ⟨h.row, rfl, h.color, h.same, h.screen⟩)
  · exact .some h.backspace
  · exact .some h.updateCursor
  · exact .none
  · exact .some h.putDefault

/-- What is printed looks alike on consoles that look alike. -/
theorem Vga.Alike.putAll (h : s.Alike cells s') (os : List Output) :
    Option.Rel (Vga.Alike cells) (putAll os s) (putAll os s') := by
  refine Run.events_rel (fun o t t' ht => ?_) h
  cases o with
  | char ch =>
    change Option.Rel _ (vgaPutCharc t.color ch t) (vgaPutCharc t'.color ch t')
    rw [ht.color]
    exact ht.putCharc
  | colored color ch => exact ht.putCharc
  | newLine => exact .some ht.newLine

end Alike

end FirstOs
