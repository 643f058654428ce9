import FirstOs.Library.Numeral
import FirstOs.Strings.Strcpy

/-!
# Numerals in memory

`itoa` counts the digits of a number and takes them off from the most significant one on, each with
the power of the base that is computed anew. The power is not above the number, so that none of
its products is cut to 32 bits. The test for a negative number is made on an unsigned one and never
holds.

## Main definitions

- `pow`, `getDigits`, `itoa` — the functions
- `digitChar`, `numeral` — the text of a number
- `Canonical` — what is asked of the text

## Main results

- `itoa_spec` — what `itoa` writes and multiplies
- `itoa_canonical` — it writes the canonical numeral
-/

namespace FirstOs

/-- `pow`. Its argument `degree` is not negative. -/
def pow (number : BitVec 32) : ℕ → BitVec 32
  | 0 => 1
  | degree + 1 => if number = 0 then 1 else number * pow number degree

/-- The products `pow` computes, before they are cut to 32 bits. -/
def powProducts (number : BitVec 32) : ℕ → List ℕ
  | 0 => []
  | degree + 1 =>
    if number = 0 then []
    else powProducts number degree ++ [number.toNat * (pow number degree).toNat]

/-- The loop of `get_digits`. For a base below 2 it does not end. -/
def getDigitsLoop (base : BitVec 32) (hb : ¬ base < 2) (number : BitVec 32) (digits : ℕ) : ℕ :=
  if h : number > 0 then getDigitsLoop base hb (number / base) (digits + 1) else digits
termination_by number.toNat
decreasing_by
  rw [BitVec.toNat_udiv]
  exact Nat.div_lt_self h (Nat.le_of_not_lt hb)

/-- `get_digits`. -/
def getDigits (number base : BitVec 32) (hb : ¬ base < 2) : ℕ := getDigitsLoop base hb number 0

/-- The memory, the place in the string, and what the code does not record, the products that were
    computed. -/
structure Itoa where
  mem : Bytes
  cur : BitVec 32
  products : List ℕ

namespace Itoa

/-- `str[cur++] = c`. -/
def put (s : Itoa) (str : BitVec 32) (c : BitVec 8) : Itoa :=
  { s with mem := Function.update s.mem (str + s.cur) c, cur := s.cur + 1 }

/-- `str[cur] = '\\0'`. -/
def nul (s : Itoa) (str : BitVec 32) : Itoa :=
  { s with mem := Function.update s.mem (str + s.cur) 0 }

/-- A call of `pow`. -/
def pow (s : Itoa) (base : BitVec 32) (degree : ℕ) : BitVec 32 × Itoa :=
  (FirstOs.pow base degree, { s with products := s.products ++ powProducts base degree })

end Itoa

/-- The loop of `itoa` for the digits that are left. -/
def itoaLoop (str base : BitVec 32) : ℕ → BitVec 32 → Itoa → Itoa
  | 0, _, s => s
  | digits + 1, num, s =>
    let (power, s) := s.pow base digits
    let digit := num / power
    let s :=
      if digit < 10 then s.put str ((digit + 48).setWidth 8)
      else s.put str ((digit + 65 - 10).setWidth 8)
    let (power, s) := s.pow base digits
    itoaLoop str base digits (num % power) s

/-- `itoa`. The number is unsigned, so that it is never less than 0. -/
def itoa (number str base : BitVec 32) (m : Bytes) : Itoa :=
  let s : Itoa := ⟨m, 0#32, []⟩
  if hb : base < 2 then s.nul str
  else if number = 0 then (s.put str 48).nul str
  else
    let (num, s) :=
      if base = 10 ∧ number < 0 then (-number, s.put str 45)
      else if base = 16 then (number, s)
      else (number, s)
    (itoaLoop str base (getDigits num base hb) num s).nul str

-- ════════════════════════════════════════════════════════════════════════
-- Texts
-- ════════════════════════════════════════════════════════════════════════

/-- The character of a digit. -/
def digitChar (x : ℕ) : BitVec 8 := BitVec.ofNat 8 (if x < 10 then x + 48 else x + 55)

/-- The digit of a character. -/
def digitValue (c : BitVec 8) : ℕ := if c.toNat < 65 then c.toNat - 48 else c.toNat - 55

/-- One of the characters `0` to `9` and `A` to `Z`. -/
def IsDigit (c : BitVec 8) : Prop :=
  48 ≤ c.toNat ∧ c.toNat ≤ 57 ∨ 65 ≤ c.toNat ∧ c.toNat ≤ 90

/-- The text of a number. -/
def numeral (base n : ℕ) : List (BitVec 8) :=
  if n = 0 then [48] else (Nat.digits base n).reverse.map digitChar

/-- The text is that of the number, without a leading zero, and has the given number of
    characters. -/
structure Canonical (base n length : ℕ) (text : List (BitVec 8)) : Prop where
  value : Numeral.horner base (text.map digitValue) = n
  digits : ∀ c ∈ text, IsDigit c ∧ digitValue c < base
  leading : text.head? = some 48 → n = 0
  length : text.length = length

section Texts

variable {base n x : ℕ}

theorem toNat_digitChar (hx : x < 36) :
    (digitChar x).toNat = if x < 10 then x + 48 else x + 55 := by
  rw [digitChar, BitVec.toNat_ofNat, Nat.mod_eq_of_lt]
  split_ifs <;> omega

theorem digitValue_digitChar (hx : x < 36) : digitValue (digitChar x) = x := by
  rw [digitValue, toNat_digitChar hx]
  split_ifs <;> omega

theorem isDigit_digitChar (hx : x < 36) : IsDigit (digitChar x) := by
  rw [IsDigit, toNat_digitChar hx]
  split_ifs <;> omega

theorem digit_lt (hb : 2 ≤ base) (hx : x ∈ (Nat.digits base n).reverse) : x < base :=
  Nat.digits_lt_base (by omega) (List.mem_reverse.mp hx)

theorem map_digitValue (hb : 2 ≤ base) (hb' : base ≤ 36) :
    ((Nat.digits base n).reverse.map digitChar).map digitValue = (Nat.digits base n).reverse := by
  rw [List.map_map]
  refine (List.map_congr_left fun x hx => ?_).trans (List.map_id _)
  exact digitValue_digitChar (Nat.lt_of_lt_of_le (digit_lt hb hx) hb')

/-- The text of a number is canonical. -/
theorem canonical_numeral (hb : 2 ≤ base) (hb' : base ≤ 36) (n : ℕ) :
    Canonical base n (max 1 (Nat.digits base n).length) (numeral base n) := by
  rw [numeral]
  split_ifs with hn
  · subst hn
    have hvalue : digitValue 48 = 0 := rfl
    refine ⟨?_, fun c hc => ?_, fun _ => rfl, by rw [Nat.digits_zero]; rfl⟩
    · rw [List.map_singleton, hvalue, Numeral.horner, List.foldl_cons, List.foldl_nil, Nat.zero_mul]
    · obtain rfl := List.mem_singleton.mp hc
      exact ⟨.inl ⟨by decide, by decide⟩, by omega⟩
  · have hne : Nat.digits base n ≠ [] := Nat.digits_ne_nil_iff_ne_zero.mpr hn
    refine ⟨?_, fun c hc => ?_, fun hhead => ?_, ?_⟩
    · rw [map_digitValue hb hb', Numeral.horner_eq_ofDigits, List.reverse_reverse,
        Nat.ofDigits_digits]
    · obtain ⟨x, hx, rfl⟩ := List.mem_map.mp hc
      have hlt := digit_lt hb hx
      rw [digitValue_digitChar (by omega)]
      exact ⟨isDigit_digitChar (by omega), hlt⟩
    · rw [List.head?_map, List.head?_reverse, List.getLast?_eq_some_getLast hne, Option.map_some,
        Option.some_inj] at hhead
      have hlt : (Nat.digits base n).getLast hne < base :=
        Nat.digits_lt_base (by omega) (List.getLast_mem hne)
      have hzero := digitValue_digitChar (x := (Nat.digits base n).getLast hne) (by omega)
      rw [hhead] at hzero
      exact absurd hzero.symm (Nat.getLast_digit_ne_zero base hn)
    · rw [List.length_map, List.length_reverse]
      have hpos := List.length_pos_iff.mpr hne
      omega

/-- A text has no NUL. -/
theorem numeral_ne_zero (hb : 2 ≤ base) (hb' : base ≤ 36) {c : BitVec 8}
    (hc : c ∈ numeral base n) : c ≠ 0 := by
  obtain ⟨hdigit, -⟩ := (canonical_numeral hb hb' n).digits c hc
  rintro rfl
  exact absurd hdigit (by simp [IsDigit])

/-- No base has more digits than base 2. -/
theorem digits_length_le (hb : 2 ≤ base) (hn : n < 2 ^ 32) : (Nat.digits base n).length ≤ 32 := by
  rw [Nat.digits_length_le_iff (by omega)]
  exact Nat.lt_of_lt_of_le hn (Nat.pow_le_pow_left hb 32)

theorem numeral_length_lt (hb : 2 ≤ base) (hn : n < 2 ^ 32) : (numeral base n).length < 2 ^ 32 := by
  have hlen := digits_length_le hb hn
  rw [numeral]
  split_ifs
  · decide
  · rw [List.length_map, List.length_reverse]
    omega

end Texts

section Arithmetic

variable {base number num : BitVec 32} {d q : ℕ}

theorem ne_zero_of_base (hb : ¬ base < 2) : base ≠ 0 := by
  rintro rfl
  exact hb (by decide)

/-- A power that fits into 32 bits is computed as it is. -/
theorem toNat_pow (hb : ¬ base < 2) (h : base.toNat ^ d < 2 ^ 32) :
    (pow base d).toNat = base.toNat ^ d := by
  have hle : 2 ≤ base.toNat := Nat.le_of_not_lt hb
  induction d with
  | zero => rfl
  | succ d ih =>
    have hmono : base.toNat ^ d ≤ base.toNat ^ (d + 1) :=
      Nat.pow_le_pow_right (by omega) (Nat.le_succ d)
    rw [pow, if_neg (ne_zero_of_base hb), BitVec.toNat_mul, ih (by omega), ← Nat.pow_succ',
      Nat.mod_eq_of_lt h]

/-- So are all its products. -/
theorem powProducts_lt (hb : ¬ base < 2) (h : base.toNat ^ d < 2 ^ 32)
    (hq : q ∈ powProducts base d) : q < 2 ^ 32 := by
  have hle : 2 ≤ base.toNat := Nat.le_of_not_lt hb
  induction d with
  | zero => exact absurd hq List.not_mem_nil
  | succ d ih =>
    have hmono : base.toNat ^ d ≤ base.toNat ^ (d + 1) :=
      Nat.pow_le_pow_right (by omega) (Nat.le_succ d)
    rw [powProducts, if_neg (ne_zero_of_base hb)] at hq
    obtain hq | hq := List.mem_append.mp hq
    · exact ih (by omega) hq
    · rw [List.mem_singleton.mp hq, toNat_pow hb (by omega), ← Nat.pow_succ']
      exact h

/-- The loop counts the digits. -/
theorem getDigitsLoop_eq (hb : ¬ base < 2) (number : BitVec 32) (d : ℕ) :
    getDigitsLoop base hb number d = d + (Nat.digits base.toNat number.toNat).length := by
  have hle : 2 ≤ base.toNat := Nat.le_of_not_lt hb
  fun_induction getDigitsLoop base hb number d with
  | case1 number d hpos ih =>
    rw [ih, BitVec.toNat_udiv, Nat.digits_def' (by omega) hpos, List.length_cons]
    omega
  | case2 number d hzero =>
    have hnum : number.toNat = 0 := Nat.eq_zero_of_not_pos hzero
    rw [hnum, Nat.digits_zero]
    rfl

theorem getDigits_eq (hb : ¬ base < 2) (number : BitVec 32) :
    getDigits number base hb = (Nat.digits base.toNat number.toNat).length := by
  rw [getDigits, getDigitsLoop_eq, Nat.zero_add]

end Arithmetic

section Loop

variable {str base num : BitVec 32} {d q : ℕ}

/-- The character the loop writes for a digit. -/
theorem digitChar_eq (digit : BitVec 32) :
    (if digit < 10 then (digit + 48).setWidth 8 else (digit + 65 - 10).setWidth 8) =
      digitChar digit.toNat := by
  have hten : (10 : BitVec 32).toNat = 10 := rfl
  have hzero : (48 : BitVec 32).toNat = 48 := rfl
  have hletter : (65 : BitVec 32).toNat = 65 := rfl
  have hlt := digit.isLt
  rw [digitChar]
  by_cases hdigit : digit.toNat < 10
  · rw [if_pos (show digit < 10 from hdigit), if_pos hdigit]
    apply BitVec.eq_of_toNat_eq
    rw [BitVec.toNat_setWidth, BitVec.toNat_add, BitVec.toNat_ofNat, hzero]
    omega
  · rw [if_neg (show ¬ digit < 10 from hdigit), if_neg hdigit]
    apply BitVec.eq_of_toNat_eq
    rw [BitVec.toNat_setWidth, BitVec.toNat_sub, BitVec.toNat_add, BitVec.toNat_ofNat, hten,
      hletter]
    omega

/-- One turn of the loop. -/
theorem itoaLoop_succ (str base num : BitVec 32) (d : ℕ) (s : Itoa) :
    itoaLoop str base (d + 1) num s = itoaLoop str base d (num % pow base d)
      ⟨Function.update s.mem (str + s.cur) (digitChar (num / pow base d).toNat), s.cur + 1,
        s.products ++ powProducts base d ++ powProducts base d⟩ := by
  rw [itoaLoop, ← digitChar_eq]
  dsimp only [Itoa.pow, Itoa.put]
  split_ifs <;> rfl

/-- The loop writes the digits that are left and multiplies no numbers whose product is too
    large. -/
theorem itoaLoop_spec (str num : BitVec 32) (hb : ¬ base < 2)
    (hpow : ∀ k < d, base.toNat ^ k < 2 ^ 32) (hnum : num.toNat < base.toNat ^ d) (s : Itoa) :
    (itoaLoop str base d num s).mem = CString.putBytes s.mem (str + s.cur)
        ((Numeral.digitsFrom base.toNat d num.toNat).map digitChar) ∧
      (itoaLoop str base d num s).cur = s.cur + BitVec.ofNat 32 d ∧
      ∀ q ∈ (itoaLoop str base d num s).products, q ∈ s.products ∨ q < 2 ^ 32 := by
  induction d generalizing num s with
  | zero => exact ⟨rfl, (CString.add_ofNat_zero s.cur).symm, fun q hq => .inl hq⟩
  | succ d ih =>
    have hd : base.toNat ^ d < 2 ^ 32 := hpow d (Nat.lt_succ_self d)
    have hle : 2 ≤ base.toNat := Nat.le_of_not_lt hb
    have hpos : 0 < base.toNat ^ d := Nat.pow_pos (by omega)
    have hmod : (num % pow base d).toNat = num.toNat % base.toNat ^ d := by
      rw [BitVec.toNat_umod, toNat_pow hb hd]
    have hdiv : (num / pow base d).toNat = num.toNat / base.toNat ^ d := by
      rw [BitVec.toNat_udiv, toNat_pow hb hd]
    obtain ⟨hmem, hcur, hproducts⟩ := ih (num % pow base d)
      (fun k hk => hpow k (Nat.lt_succ_of_lt hk)) (by rw [hmod]; exact Nat.mod_lt _ hpos)
      ⟨Function.update s.mem (str + s.cur) (digitChar (num / pow base d).toNat), s.cur + 1,
        s.products ++ powProducts base d ++ powProducts base d⟩
    rw [itoaLoop_succ]
    refine ⟨?_, ?_, fun q hq => ?_⟩
    · rw [hmem, hmod, hdiv, Numeral.digitsFrom, List.map_cons, CString.putBytes, BitVec.add_assoc]
    · rw [hcur]
      exact CString.add_one_add s.cur d
    · obtain hq | hq := hproducts q hq
      · obtain hq | hq := List.mem_append.mp hq
        · obtain hq | hq := List.mem_append.mp hq
          · exact .inl hq
          · exact .inr (powProducts_lt hb hd hq)
        · exact .inr (powProducts_lt hb hd hq)
      · exact .inr hq

end Loop

section Function

variable {number base : BitVec 32}

theorem itoa_of_ne_zero (str : BitVec 32) (m : Bytes) (hb : ¬ base < 2) (hn : number ≠ 0) :
    itoa number str base m =
      (itoaLoop str base (getDigits number base hb) number ⟨m, 0#32, []⟩).nul str := by
  have hneg : ¬ (base = 10 ∧ number < 0) := fun h => Nat.not_lt_zero _ h.2
  rw [itoa]
  dsimp only
  rw [dif_neg hb, if_neg hn, if_neg hneg]
  split_ifs <;> rfl

/-- `itoa` writes the text of the number and a NUL, and multiplies no numbers whose product is too
    large. -/
theorem itoa_spec (number str : BitVec 32) (m : Bytes) (hb : ¬ base < 2) :
    (itoa number str base m).mem =
        CString.putBytes m str (numeral base.toNat number.toNat ++ [0]) ∧
      ∀ q ∈ (itoa number str base m).products, q < 2 ^ 32 := by
  have hle : 2 ≤ base.toNat := Nat.le_of_not_lt hb
  by_cases hn : number = 0
  · subst hn
    have htext : numeral base.toNat (0 : BitVec 32).toNat = [48] := if_pos rfl
    rw [itoa, dif_neg hb, if_pos rfl, htext]
    refine ⟨?_, fun q hq => absurd hq List.not_mem_nil⟩
    change Function.update (Function.update m (str + 0#32) 48) (str + (0#32 + 1)) 0 = _
    rw [BitVec.add_zero, BitVec.zero_add]
    rfl
  · have hnat : number.toNat ≠ 0 := fun h => hn (BitVec.eq_of_toNat_eq h)
    have hpow : ∀ k < (Nat.digits base.toNat number.toNat).length,
        base.toNat ^ k < 2 ^ 32 := fun k hk =>
      Nat.lt_of_le_of_lt ((Nat.lt_digits_length_iff (by omega) _).mp hk) number.isLt
    obtain ⟨hmem, hcur, hproducts⟩ := itoaLoop_spec str number hb hpow
      (Nat.lt_base_pow_length_digits (by omega)) ⟨m, 0#32, []⟩
    rw [itoa_of_ne_zero str m hb hn, getDigits_eq]
    refine ⟨?_, fun q hq => (hproducts q hq).resolve_left List.not_mem_nil⟩
    rw [Itoa.nul, hcur, hmem, numeral, if_neg hnat, CString.putBytes_append,
      Numeral.digitsFrom_eq (by omega), List.length_map, List.length_reverse, BitVec.add_zero,
      BitVec.zero_add]
    rfl

/-- The text `itoa` leaves is the canonical numeral of the number, with the digits `get_digits`
    counts and a NUL behind it, and all products on the way fit into 32 bits. -/
theorem itoa_canonical (number str base : BitVec 32) (m : Bytes) (hb : ¬ base < 2)
    (hb' : base ≤ 36) :
    (∃ text, CString (itoa number str base m).mem str text ∧
      Canonical base.toNat number.toNat (max 1 (getDigits number base hb)) text) ∧
      ∀ q ∈ (itoa number str base m).products, q ≤ 2 ^ 32 - 1 := by
  have hle : 2 ≤ base.toNat := Nat.le_of_not_lt hb
  have hle' : base.toNat ≤ 36 := hb'
  obtain ⟨hmem, hproducts⟩ := itoa_spec number str m hb
  refine ⟨⟨numeral base.toNat number.toNat, ?_, ?_⟩, fun q hq => Nat.le_pred_of_lt (hproducts q hq)⟩
  · rw [hmem]
    exact CString.of_putBytes (fun c hc => numeral_ne_zero hle hle' hc)
      (numeral_length_lt hle number.isLt)
  · rw [getDigits_eq]
    exact canonical_numeral hle hle' number.toNat

/-- The largest number in the largest base. -/
theorem itoa_canonical_largest :
    (∃ text, CString (itoa 0xFFFFFFFF 0 36 fun _ => 0).mem 0 text ∧
      Canonical (36 : BitVec 32).toNat (0xFFFFFFFF : BitVec 32).toNat
        (max 1 (getDigits 0xFFFFFFFF 36 (by decide))) text) ∧
      ∀ q ∈ (itoa 0xFFFFFFFF 0 36 fun _ => 0).products, q ≤ 2 ^ 32 - 1 :=
  itoa_canonical 0xFFFFFFFF 0 36 (fun _ => 0) (by decide) (by decide)

end Function

end FirstOs
