import FirstOs.Console.Sheet
import FirstOs.Console.Tabs
import FirstOs.Console.Tail
import FirstOs.Strings.Itoa
import Mathlib.Data.List.TakeWhile

/-!
# Printed numbers

For `%d` and `%x` the text is what `itoa` leaves at a pointer, which is taken here to point to a
buffer with room for every number. `itoa` takes the number as an unsigned one, so that `%d` prints
a negative number increased by 2^32.

## Main definitions

- `bufferText` — what is found at the pointer
- `signedText`, `printfText` — the texts that are asked for
- `PrintsNumbers` — the directives of a format string print them

## Main results

- `textOf_bufferText` — the text `itoa` leaves
- `vgaPrintf_of_printsNumbers` — the texts that are asked for appear on the screen
- `printsNumbers_iff` — the numbers and the format strings for which they do
-/

namespace FirstOs

/-- The bytes of the buffer `num` behind the call of `itoa`. -/
def bufferText (m : Bytes) (num : BitVec 32) (size : ℕ) (n : BitVec 32) (base : ℕ) :
    List (BitVec 8) :=
  (List.range size).map fun i =>
    (itoa n num (BitVec.ofNat 32 base) m).mem (num + BitVec.ofNat 32 i)

/-- The decimal numeral of an integer. -/
def signedText (z : ℤ) : List (BitVec 8) :=
  if z < 0 then 45 :: numeral 10 z.natAbs else numeral 10 z.natAbs

/-- The text asked for by `%d` in base 10, and by `%x` in base 16. -/
def printfText (n : BitVec 32) (base : ℕ) : List (BitVec 8) :=
  if base = 10 then signedText n.toInt else numeral base n.toNat

/-- Each directive for a number prints the text that is asked for. -/
def PrintsNumbers (text : BitVec 32 → ℕ → List (BitVec 8)) (str : List (BitVec 8))
    (n : BitVec 32) : Prop :=
  ∀ q ∈ pieces str, ∀ s, q.put text n s = q.put printfText n s

section Buffer

variable {m : Bytes} {p num n : BitVec 32} {s : List (BitVec 8)} {size base : ℕ}

/-- The string at the beginning of a buffer with room for it. -/
theorem textOf_range (h : CString m p s) (hsize : s.length < size) :
    textOf ((List.range size).map fun i => m (p + BitVec.ofNat 32 i)) = s := by
  induction s generalizing p size with
  | nil =>
    cases size with
    | zero => exact absurd hsize (Nat.not_lt_zero _)
    | succ k =>
      have hnul : m p = 0 := h
      rw [List.range_succ_eq_map, List.map_cons, CString.add_ofNat_zero, hnul, textOf_nul]
  | cons c s ih =>
    cases size with
    | zero => exact absurd hsize (Nat.not_lt_zero _)
    | succ k =>
      obtain ⟨hc, hne, hs⟩ := h
      rw [List.length_cons] at hsize
      rw [List.range_succ_eq_map, List.map_cons, CString.add_ofNat_zero, hc, textOf_cons hne,
        List.map_map]
      congr 1
      rw [← ih hs (Nat.lt_of_succ_lt_succ hsize)]
      congr 1
      refine List.map_congr_left fun i _ => ?_
      rw [CString.add_one_add]
      rfl

/-- Ten digits are enough for 32 bits, from base 10 on. -/
theorem numeral_length_le (hb : 10 ≤ base) (k : ℕ) (hk : k < 2 ^ 32) :
    (numeral base k).length ≤ 10 := by
  rw [numeral]
  split_ifs
  · decide
  · rw [List.length_map, List.length_reverse, Nat.digits_length_le_iff (by omega)]
    have hten : 10 ^ 10 ≤ base ^ 10 := Nat.pow_le_pow_left hb 10
    omega

/-- `itoa` leaves the numeral of the unsigned number. -/
theorem textOf_bufferText (m : Bytes) (num n : BitVec 32) (hsize : 12 ≤ size)
    (hb : 10 ≤ base) (hb' : base ≤ 36) :
    textOf (bufferText m num size n base) = numeral base n.toNat := by
  have hnat : (BitVec.ofNat 32 base).toNat = base := by
    rw [BitVec.toNat_ofNat, Nat.mod_eq_of_lt (by omega)]
  have hbase : ¬ BitVec.ofNat 32 base < 2 := by
    rw [BitVec.lt_def, hnat]
    exact Nat.not_lt.mpr (Nat.le_trans (by decide) hb)
  obtain ⟨hmem, -⟩ := itoa_spec n num m hbase
  rw [hnat] at hmem
  have hlen := numeral_length_le hb n.toNat n.isLt
  refine textOf_range ?_ (by omega)
  rw [hmem]
  exact CString.of_putBytes (fun c hc => numeral_ne_zero (by omega) hb' hc) (by omega)

/-- What is printed of a string is its text. -/
theorem vgaPrint_textOf (s : List (BitVec 8)) : vgaPrint (textOf s) = vgaPrint s := by
  have hself : textOf (textOf s) = textOf s := List.takeWhile_idem
  funext vga
  rw [vgaPrint_eq_putAll, vgaPrint_eq_putAll]
  exact congrArg (fun t => putAll (t.map Output.char) vga) hself

end Buffer

section Printed

variable {n : BitVec 32} {c : BitVec 8} {text : List (BitVec 8)} {size base : ℕ}

theorem natAbs_toInt (h : 0 ≤ n.toInt) : n.toInt.natAbs = n.toNat := by
  have hlt := n.isLt
  rw [BitVec.toInt_eq_toNat_cond] at h ⊢
  split_ifs at h ⊢ <;> omega

/-- The text asked for is the one of the unsigned number, but for a negative number in base 10. -/
theorem printfText_eq (h : base = 10 → 0 ≤ n.toInt) : printfText n base = numeral base n.toNat := by
  rw [printfText]
  by_cases hten : base = 10
  · have hpos := h hten
    rw [if_pos hten, signedText, if_neg (Int.not_lt.mpr hpos), natAbs_toInt hpos, hten]
  · rw [if_neg hten]

/-- A buffer with this text prints the text asked for. -/
theorem vgaPrint_bufferText (m : Bytes) (num : BitVec 32) (hsize : 12 ≤ size) (hb : 10 ≤ base)
    (hb' : base ≤ 36) (h : base = 10 → 0 ≤ n.toInt) :
    vgaPrint (bufferText m num size n base) = vgaPrint (printfText n base) := by
  rw [← vgaPrint_textOf, textOf_bufferText m num n hsize hb hb', printfText_eq h]

/-- The first cell of the screen when a short text is printed right after `vga_init`. -/
theorem vgaPrint_first (hplain : ∀ ch ∈ c :: text, Plain ch) (hnl : 10 ∉ c :: text)
    (hlen : (c :: text).length ≤ 80) :
    ∃ s, vgaPrint (c :: text) (vgaInit darkScreen) = some s ∧ (s.read 0).setWidth 8 = c := by
  obtain ⟨s, hs, hshows⟩ := (shows_vgaInit darkScreen).print hplain
  rw [Layout.foldl_put_of_room hnl Layout.empty (by rwa [Layout.empty, List.length_nil,
    Nat.zero_add])] at hshows
  have hcell := hshows.cells 0 (by decide) 0 (by decide)
  refine ⟨s, hs, ?_⟩
  change s.read 0 = vgaEntry ((Layout.cell 25 ⟨[], c :: text⟩ 0 0).getD 32) s.color at hcell
  rw [hcell, setWidth_vgaEntry, Layout.cell_single _ (by decide)]
  rfl

theorem plain_of_isDigit (h : IsDigit c) : Plain c ∧ c ≠ 10 ∧ c ≠ 45 := by
  refine ⟨⟨?_, ?_, ?_, ?_⟩, ?_, ?_⟩ <;> rintro rfl <;> exact absurd h (by simp [IsDigit])

theorem plain_numeral {k : ℕ} (hc : c ∈ numeral 10 k) : Plain c ∧ c ≠ 10 ∧ c ≠ 45 :=
  plain_of_isDigit ((canonical_numeral (by decide) (by decide) k).digits c hc).1

theorem numeral_ne_nil (k : ℕ) : numeral 10 k ≠ [] := by
  have hlen : (numeral 10 k).length = max 1 (Nat.digits 10 k).length :=
    (canonical_numeral (by decide) (by decide) k).length
  rw [← List.length_pos_iff, hlen]
  exact Nat.lt_of_lt_of_le Nat.one_pos (Nat.le_max_left _ _)

theorem natAbs_toInt_lt (n : BitVec 32) : n.toInt.natAbs < 2 ^ 32 := by
  have hlt := n.isLt
  rw [BitVec.toInt_eq_toNat_cond]
  split_ifs <;> omega

/-- The minus sign is missing on the screen. -/
theorem vgaPrint_signedText (h : n.toInt < 0) :
    ∃ s s', vgaPrint (numeral 10 n.toNat) (vgaInit darkScreen) = some s ∧
      vgaPrint (signedText n.toInt) (vgaInit darkScreen) = some s' ∧ s.read 0 ≠ s'.read 0 := by
  obtain ⟨c, text, htext⟩ := List.exists_cons_of_ne_nil (numeral_ne_nil n.toNat)
  have hc : ∀ ch ∈ c :: text, Plain ch ∧ ch ≠ 10 ∧ ch ≠ 45 := fun ch hch =>
    plain_numeral (htext ▸ hch)
  have hlen : (numeral 10 n.toNat).length ≤ 10 := numeral_length_le le_rfl n.toNat n.isLt
  have hlen' : (numeral 10 n.toInt.natAbs).length ≤ 10 :=
    numeral_length_le le_rfl n.toInt.natAbs (natAbs_toInt_lt n)
  rw [htext] at hlen ⊢
  rw [signedText, if_pos h]
  obtain ⟨s, hs, hcell⟩ := vgaPrint_first (fun ch hch => (hc ch hch).1)
    (fun hnl => (hc 10 hnl).2.1 rfl) (by omega)
  have hsigned : ∃ s', vgaPrint (45 :: numeral 10 n.toInt.natAbs) (vgaInit darkScreen) = some s' ∧
      (s'.read 0).setWidth 8 = (45 : BitVec 8) := vgaPrint_first
    (List.forall_mem_cons.mpr ⟨by simp [Plain], fun ch hch => (plain_numeral hch).1⟩)
    (List.not_mem_cons_of_ne_of_not_mem (by decide) fun hnl => (plain_numeral hnl).2.1 rfl)
    (by rw [List.length_cons]; omega)
  obtain ⟨s', hs', hcell'⟩ := hsigned
  refine ⟨s, s', hs, hs', fun heq => (hc c List.mem_cons_self).2.2 ?_⟩
  rw [← hcell, heq, hcell']

end Printed

section Formats

variable {m : Bytes} {num n : BitVec 32} {str : List (BitVec 8)} {size : ℕ}
  {text : BitVec 32 → ℕ → List (BitVec 8)}

/-- The call does what the pieces of its format string ask for. -/
theorem vgaPrintf_vga (s : Vga) : (vgaPrintf text str n s).map Printf.vga =
    (Run.events (Piece.put text n) (pieces str) s).map vgaUpdateCursor := by
  rw [vgaPrintf, vgaPrintfFrom_vga, List.drop_zero]

/-- The texts that are asked for appear on the screen. -/
theorem vgaPrintf_of_printsNumbers (h : PrintsNumbers text str n) (s : Vga) :
    (vgaPrintf text str n s).map Printf.vga = (vgaPrintf printfText str n s).map Printf.vga := by
  have hput : ∀ q ∈ pieces str, q.put text n = q.put printfText n := fun q hq => funext (h q hq)
  rw [vgaPrintf_vga, vgaPrintf_vga, Run.events_congr hput]

/-- The call does what the pieces of its format string ask for, and each number is printed as it is
    asked for if and only if it is not negative or the string has no `%d`. -/
theorem printsNumbers_iff (m : Bytes) (num n : BitVec 32) (str : List (BitVec 8)) (size : ℕ)
    (hsize : 12 ≤ size) :
    (∀ s, (vgaPrintf (bufferText m num size) str n s).map Printf.vga =
      (Run.events (Piece.put (bufferText m num size) n) (pieces str) s).map vgaUpdateCursor) ∧
      (PrintsNumbers (bufferText m num size) str n ↔
        0 ≤ n.toInt ∨ ¬ Directive 100 (textOf str)) := by
  refine ⟨vgaPrintf_vga, ?_, ?_⟩
  · intro hprints
    by_contra hnot
    obtain ⟨hneg, hd⟩ := not_or.mp hnot
    have hput := hprints (.number 10) ((mem_pieces_iff rfl).mpr (not_not.mp hd))
      (vgaInit darkScreen)
    obtain ⟨s, s', hs, hs', hne⟩ := vgaPrint_signedText (Int.not_le.mp hneg)
    change vgaPrint (bufferText m num size n 10) _ = vgaPrint (signedText n.toInt) _ at hput
    rw [← vgaPrint_textOf, textOf_bufferText m num n hsize le_rfl (by decide), hs, hs'] at hput
    exact hne (congrArg (Vga.read · 0) (Option.some.inj hput))
  · intro h q hq s
    obtain ⟨ch, rfl⟩ | ⟨c, hc⟩ := pieces_forms hq
    · rw [Piece.ofChar]
      split_ifs <;> rfl
    · have hd := (mem_pieces_iff hc).mp hq
      simp only [directivePiece] at hc
      split_ifs at hc with hten hsixteen hvalue
      · obtain rfl := Option.some.inj hc
        have hpos : 0 ≤ n.toInt := h.resolve_right (not_not.mpr (hten ▸ hd))
        exact congrFun (vgaPrint_bufferText m num hsize le_rfl (by decide) fun _ => hpos) s
      · obtain rfl := Option.some.inj hc
        exact congrFun (vgaPrint_bufferText m num hsize (by decide) (by decide)
          fun h => absurd h (by decide)) s
      · obtain rfl := Option.some.inj hc
        rfl

/-- The number 5 as the only directive. -/
theorem printsNumbers_iff_five :
    (∀ s, (vgaPrintf (bufferText (fun _ => 0) 0 12) [37, 100] 5 s).map Printf.vga =
      (Run.events (Piece.put (bufferText (fun _ => 0) 0 12) 5) (pieces [37, 100]) s).map
        vgaUpdateCursor) ∧
      (PrintsNumbers (bufferText (fun _ => 0) 0 12) [37, 100] 5 ↔
        0 ≤ (5 : BitVec 32).toInt ∨ ¬ Directive 100 (textOf [37, 100])) :=
  printsNumbers_iff (fun _ => 0) 0 5 [37, 100] 12 (by decide)

/-- The number -1 is printed as 4294967295. -/
theorem not_printsNumbers_minus_one :
    ¬ PrintsNumbers (bufferText (fun _ => 0) 0 12) [37, 100] 0xFFFFFFFF ∧
      (vgaPrintf (bufferText (fun _ => 0) 0 12) [37, 100] 0xFFFFFFFF (vgaInit darkScreen)).map
          Printf.vga ≠
        (vgaPrintf printfText [37, 100] 0xFFFFFFFF (vgaInit darkScreen)).map Printf.vga := by
  have hscreens : (vgaPrintf (bufferText (fun _ => 0) 0 12) [37, 100] 0xFFFFFFFF
      (vgaInit darkScreen)).map Printf.vga ≠
        (vgaPrintf printfText [37, 100] 0xFFFFFFFF (vgaInit darkScreen)).map Printf.vga := by
    obtain ⟨s, s', hs, hs', hne⟩ := vgaPrint_signedText (n := 0xFFFFFFFF) (by decide)
    have hprint : vgaPrint (bufferText (fun _ => 0) 0 12 0xFFFFFFFF 10) (vgaInit darkScreen) =
        some s := by
      rw [← vgaPrint_textOf, textOf_bufferText _ _ _ le_rfl le_rfl (by decide), hs]
    have hasked : vgaPrint (printfText 0xFFFFFFFF 10) (vgaInit darkScreen) = some s' := hs'
    have hpieces : pieces [37, 100] = [.number 10] := rfl
    rw [vgaPrintf_vga, vgaPrintf_vga, hpieces, Run.events, Run.events, Piece.put, Piece.put, hprint,
      hasked]
    intro heq
    have hcursor : vgaUpdateCursor s = vgaUpdateCursor s' := Option.some.inj heq
    have hcell : (vgaUpdateCursor s).read 0 = (vgaUpdateCursor s').read 0 := by rw [hcursor]
    exact hne hcell
  exact ⟨fun h => hscreens (vgaPrintf_of_printsNumbers h _), hscreens⟩

end Formats

end FirstOs
