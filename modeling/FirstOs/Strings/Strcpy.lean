import FirstOs.Library.CString

/-!
# Copying a string

`strcpy` compares the lengths of the two strings and then writes the characters of the source one
after the other, all of them to the first byte of the destination: its pointer does not move, and
no NUL is written. What is read there afterwards is the old string with the last character of the
source in front.

## Main definitions

- `strlen`, `strcpy` — the functions, on a memory of bytes
- `Copies` — what is asked of `strcpy`

## Main results

- `strlen_eq`, `strcpy_eq` — what the functions do
- `copies_iff` — the strings for which `strcpy` copies
-/

namespace FirstOs

/-- A byte for each address. -/
abbrev Bytes := BitVec 32 → BitVec 8

/-- The loop of `strlen`. It has no bound in the source; here it has no result when the fuel runs
    out. -/
def strlenLoop (m : Bytes) : ℕ → BitVec 32 → BitVec 32 → Option (BitVec 32)
  | 0, _, _ => none
  | fuel + 1, string, length =>
    if m string ≠ 0 then strlenLoop m fuel (string + 1) (length + 1) else some length

/-- `strlen`. -/
def strlen (fuel : ℕ) (m : Bytes) (string : BitVec 32) : Option (BitVec 32) :=
  strlenLoop m fuel string 0#32

/-- The loop of `strcpy`. The pointer to the destination is the same in each turn. -/
def strcpyLoop (destptr : BitVec 32) : ℕ → BitVec 32 → Bytes → Option Bytes
  | 0, _, _ => none
  | fuel + 1, scrptr, m =>
    if m scrptr ≠ 0 then
      strcpyLoop destptr fuel (scrptr + 1) (Function.update m destptr (m scrptr))
    else some m

/-- `strcpy`: the pointer returned, and the memory. -/
def strcpy (fuel : ℕ) (m : Bytes) (destptr scrptr : BitVec 32) : Option (BitVec 32 × Bytes) :=
  (strlen fuel m destptr).bind fun destLength =>
    (strlen fuel m scrptr).bind fun scrLength =>
      if destLength < scrLength then some (0, m)
      else (strcpyLoop destptr fuel scrptr m).map fun m => (destptr, m)

/-- The bytes of two strings and their NULs do not overlap. -/
def Apart (p q : BitVec 32) (s t : List (BitVec 8)) : Prop :=
  ∀ i ≤ s.length, ∀ j ≤ t.length, p + BitVec.ofNat 32 i ≠ q + BitVec.ofNat 32 j

instance (p q : BitVec 32) (s t : List (BitVec 8)) : Decidable (Apart p q s t) :=
  inferInstanceAs (Decidable
    (∀ i ≤ s.length, ∀ j ≤ t.length, p + BitVec.ofNat 32 i ≠ q + BitVec.ofNat 32 j))

/-- The call returns. If the old string is shorter than the source it returns NULL and writes
    nothing; else it returns the destination, the source is read there, and no byte is changed
    but those of the copy and its NUL. -/
def Copies (m : Bytes) (destptr scrptr : BitVec 32) (dest scr : List (BitVec 8)) : Prop :=
  ∃ fuel result m', strcpy fuel m destptr scrptr = some (result, m') ∧
    if dest.length < scr.length then result = 0 ∧ m' = m
    else result = destptr ∧ CString m' destptr scr ∧
      ∀ a, (∀ i ≤ scr.length, a ≠ destptr + BitVec.ofNat 32 i) → m' a = m a

section Loops

variable {m : Bytes} {p q : BitVec 32} {s t dest scr : List (BitVec 8)}

/-- The loop counts the characters, when the fuel is enough for them and the NUL. -/
theorem strlenLoop_eq (h : CString m p s) (fuel : ℕ) (length : BitVec 32) :
    strlenLoop m fuel p length =
      if s.length < fuel then some (length + BitVec.ofNat 32 s.length) else none := by
  induction fuel generalizing p s length with
  | zero => rfl
  | succ fuel ih =>
    rw [strlenLoop]
    cases s with
    | nil =>
      have hnul : m p = 0 := h
      rw [if_neg (not_not.mpr hnul), List.length_nil, if_pos (Nat.succ_pos fuel),
        CString.add_ofNat_zero]
    | cons c s =>
      obtain ⟨hc, hne, hs⟩ := h
      rw [if_pos (hc ▸ hne), ih hs, CString.add_one_add, List.length_cons]
      exact if_congr (by omega) rfl rfl

theorem strlen_eq (h : CString m p s) (fuel : ℕ) :
    strlen fuel m p = if s.length < fuel then some (BitVec.ofNat 32 s.length) else none := by
  rw [strlen, strlenLoop_eq h, BitVec.zero_add]

/-- The memory with the last character of a string, if it has one, at an address. -/
def putLast (m : Bytes) (p : BitVec 32) (s : List (BitVec 8)) : Bytes :=
  s.foldl (fun m c => Function.update m p c) m

theorem putLast_eq (m : Bytes) (p : BitVec 32) (s : List (BitVec 8)) :
    putLast m p s = s.getLast?.elim m (Function.update m p) := by
  induction s using List.reverseRecOn with
  | nil => rfl
  | append_singleton s c ih =>
    rw [putLast, List.foldl_append, List.foldl_cons, List.foldl_nil, List.getLast?_concat,
      Option.elim_some]
    change Function.update (putLast m p s) p c = _
    rw [ih]
    cases s.getLast? with
    | none => rfl
    | some d => exact Function.update_idem _ _ _

/-- The loop writes all characters to one byte, so the last one stays. -/
theorem strcpyLoop_eq (h : CString m q s) (hne : ∀ i ≤ s.length, q + BitVec.ofNat 32 i ≠ p)
    (fuel : ℕ) :
    strcpyLoop p fuel q m = if s.length < fuel then some (putLast m p s) else none := by
  induction fuel generalizing m q s with
  | zero => rfl
  | succ fuel ih =>
    rw [strcpyLoop]
    cases s with
    | nil =>
      have hnul : m q = 0 := h
      rw [if_neg (not_not.mpr hnul), List.length_nil, if_pos (Nat.succ_pos fuel)]
      rfl
    | cons c s =>
      obtain ⟨hc, hnul, hs⟩ := h
      have hrest : ∀ i ≤ s.length, q + 1 + BitVec.ofNat 32 i ≠ p := by
        intro i hi
        rw [CString.add_one_add]
        exact hne (i + 1) (Nat.succ_le_succ hi)
      rw [if_pos (hc ▸ hnul), hc, ih ((CString.update_iff hrest).mpr hs) hrest, List.length_cons]
      exact if_congr (by omega) rfl rfl

/-- `strcpy` on two strings that do not overlap. -/
theorem strcpy_eq (hd : CString m p dest) (hs : CString m q scr) (hsep : Apart p q dest scr)
    (fuel : ℕ) : strcpy fuel m p q =
      if max dest.length scr.length < fuel then
        some (if dest.length < scr.length then (0, m) else (p, putLast m p scr))
      else none := by
  have hne : ∀ i ≤ scr.length, q + BitVec.ofNat 32 i ≠ p := fun i hi heq => by
    refine hsep 0 (Nat.zero_le _) i hi ?_
    rw [CString.add_ofNat_zero, heq]
  have hlt : BitVec.ofNat 32 dest.length < BitVec.ofNat 32 scr.length ↔
      dest.length < scr.length := by
    rw [BitVec.lt_def, BitVec.toNat_ofNat, BitVec.toNat_ofNat, Nat.mod_eq_of_lt hd.length_lt,
      Nat.mod_eq_of_lt hs.length_lt]
  rw [strcpy, strlen_eq hd, strlen_eq hs]
  by_cases hfuel : max dest.length scr.length < fuel
  · obtain ⟨hfd, hfs⟩ := max_lt_iff.mp hfuel
    rw [if_pos hfd, if_pos hfs, Option.bind_some, Option.bind_some, if_pos hfuel]
    by_cases hshort : dest.length < scr.length
    · rw [if_pos (hlt.mpr hshort), if_pos hshort]
    · rw [if_neg (mt hlt.mp hshort), if_neg hshort, strcpyLoop_eq hs hne, if_pos hfs]
      rfl
  · rw [if_neg hfuel]
    by_cases hfd : dest.length < fuel
    · have hfs : ¬ scr.length < fuel := fun hfs => hfuel (max_lt hfd hfs)
      rw [if_pos hfd, if_neg hfs]
      rfl
    · rw [if_neg hfd]
      rfl

end Loops

section Copies

variable {m : Bytes} {p q : BitVec 32} {dest scr : List (BitVec 8)}

/-- The source is read at the destination exactly when the strings are the same up to the first
    character, and the source begins and ends with the same one. -/
theorem cString_putLast_iff (hd : CString m p dest) (hle : scr.length ≤ dest.length)
    (hs : CString m q scr) : CString (putLast m p scr) p scr ↔
      dest.length = scr.length ∧ dest.tail = scr.tail ∧ scr.head? = scr.getLast? := by
  rw [putLast_eq]
  cases scr with
  | nil =>
    rw [List.getLast?_nil, Option.elim_none]
    constructor
    · intro h
      rw [hd.unique h]
      exact ⟨rfl, rfl, rfl⟩
    · rintro ⟨hlen, -⟩
      rw [List.eq_nil_of_length_eq_zero hlen] at hd
      exact hd
  | cons c scr =>
    obtain ⟨last, hlast⟩ : ∃ last, (c :: scr).getLast? = some last :=
      ⟨_, List.getLast?_eq_some_getLast (List.cons_ne_nil c scr)⟩
    cases dest with
    | nil => exact absurd hle (Nat.not_succ_le_zero _)
    | cons d dest =>
      have hne : ∀ i ≤ scr.length, p + 1 + BitVec.ofNat 32 i ≠ p := fun i hi =>
        hd.tail_ne (by simp only [List.length_cons] at hle ⊢; omega)
      rw [hlast, Option.elim_some, CString, Function.update_self, CString.update_iff hne,
        List.head?_cons, Option.some_inj, List.tail_cons, List.tail_cons]
      constructor
      · rintro ⟨hc, -, hrest⟩
        have htail := hd.2.2.unique hrest
        exact ⟨by rw [List.length_cons, List.length_cons, htail], htail, hc.symm⟩
      · rintro ⟨-, rfl, rfl⟩
        exact ⟨rfl, hs.2.1, hd.2.2⟩

/-- `strcpy` does what is asked of it exactly when the old string is shorter than the source, or
    when it has the same length and the same characters behind the first one, and the source ends
    with the character it begins with. -/
theorem copies_iff (hd : CString m p dest) (hs : CString m q scr)
    (hsep : Apart p q dest scr) : Copies m p q dest scr ↔ dest.length < scr.length ∨
      dest.length = scr.length ∧ dest.tail = scr.tail ∧ scr.head? = scr.getLast? := by
  constructor
  · rintro ⟨fuel, result, m', hrun, hpost⟩
    rw [strcpy_eq hd hs hsep] at hrun
    split_ifs at hrun hpost with hfuel hshort
    · exact .inl hshort
    · rw [Option.some_inj, Prod.mk.injEq] at hrun
      obtain ⟨-, rfl⟩ := hrun
      exact .inr ((cString_putLast_iff hd (Nat.le_of_not_lt hshort) hs).mp hpost.2.1)
  · intro h
    have hrun := strcpy_eq hd hs hsep (max dest.length scr.length + 1)
    rw [if_pos (Nat.lt_succ_self _)] at hrun
    by_cases hshort : dest.length < scr.length
    · rw [if_pos hshort] at hrun
      refine ⟨_, 0, m, hrun, ?_⟩
      rw [if_pos hshort]
      exact ⟨rfl, rfl⟩
    · rw [if_neg hshort] at hrun
      refine ⟨_, p, putLast m p scr, hrun, ?_⟩
      rw [if_neg hshort]
      refine ⟨rfl, (cString_putLast_iff hd (Nat.le_of_not_lt hshort) hs).mpr
        (h.resolve_left hshort), fun a ha => ?_⟩
      have hap : a ≠ p := fun heq => by
        refine ha 0 (Nat.zero_le _) ?_
        rw [CString.add_ofNat_zero, heq]
      rw [putLast_eq]
      cases scr.getLast? with
      | none => rfl
      | some c => exact Function.update_of_ne hap c m

/-! ### Strings in memory -/

/-- The string "xba" at 16, and the string "aba" at 32. -/
def nearStrings : Bytes := fun a =>
  if a = 16 then 120 else if a = 17 then 98 else if a = 18 then 97
  else if a = 32 then 97 else if a = 33 then 98 else if a = 34 then 97 else 0

/-- "aba" is copied over "xba", not over the shorter "ba", and "ba" is not copied over "xba". -/
theorem copies_xba : Copies nearStrings 16 32 [120, 98, 97] [97, 98, 97] ∧
    Copies nearStrings 17 32 [98, 97] [97, 98, 97] ∧
    ¬ Copies nearStrings 16 33 [120, 98, 97] [98, 97] := by
  have hxba : CString nearStrings 16 [120, 98, 97] := by decide
  have haba : CString nearStrings 32 [97, 98, 97] := by decide
  exact ⟨(copies_iff hxba haba (by decide)).mpr (.inr (by decide)),
    (copies_iff hxba.2.2 haba (by decide)).mpr (.inl (by decide)),
    fun h => absurd ((copies_iff hxba haba.2.2 (by decide)).mp h) (by decide)⟩

/-- The string "ab" at 16 and the string "xy" at 32. -/
def twoStrings : Bytes := fun a =>
  if a = 16 then 97 else if a = 17 then 98 else if a = 32 then 120 else if a = 33 then 121 else 0

/-- The string "yb" is read where "xy" was to be copied. -/
theorem not_copies_xy : ¬ Copies twoStrings 16 32 [97, 98] [120, 121] := by
  have hd : CString twoStrings 16 [97, 98] := by decide
  have hs : CString twoStrings 32 [120, 121] := by decide
  have hsep : Apart 16 32 [97, 98] [120, 121] := by decide
  rintro ⟨fuel, result, m', hrun, hpost⟩
  rw [strcpy_eq hd hs hsep] at hrun
  rw [if_neg (by decide)] at hpost
  split_ifs at hrun with hfuel hshort
  · exact absurd hshort (by decide)
  · rw [Option.some_inj, Prod.mk.injEq] at hrun
    obtain ⟨-, rfl⟩ := hrun
    exact absurd hpost.2.1.1 (by decide)

end Copies

end FirstOs
