import Mathlib.Data.BitVec
import Mathlib.Logic.Function.Basic

/-!
# Strings in memory

A string is the bytes from an address on up to the first NUL. Addresses are words, so that a
string may run over the last address; it is shorter than the memory, as its NUL is not one of its
characters.

## Main definitions

- `CString` — the string at an address
- `putBytes` — bytes written one behind the other

## Main results

- `CString.unique`, `CString.length_lt` — there is one string at an address, and it is short
- `CString.congr` — a string depends on its own bytes only
- `CString.of_putBytes` — characters written with a NUL behind them are a string
-/

/-- The bytes of `s` are at `p`, none of them is NUL, and the next one is. -/
def CString {w : ℕ} (m : BitVec w → BitVec 8) : BitVec w → List (BitVec 8) → Prop
  | p, [] => m p = 0
  | p, c :: s => m p = c ∧ c ≠ 0 ∧ CString m (p + 1) s

namespace CString

/-- The characters are tested from the first one on. -/
instance decidable {w : ℕ} (m : BitVec w → BitVec 8) :
    (p : BitVec w) → (s : List (BitVec 8)) → Decidable (CString m p s)
  | p, [] => inferInstanceAs (Decidable (m p = 0))
  | p, c :: s =>
    have : Decidable (CString m (p + 1) s) := decidable m (p + 1) s
    inferInstanceAs (Decidable (m p = c ∧ c ≠ 0 ∧ CString m (p + 1) s))

variable {w : ℕ} {m m' : BitVec w → BitVec 8} {p a : BitVec w} {s t : List (BitVec 8)}
  {c : BitVec 8} {i : ℕ}

theorem add_one_add (p : BitVec w) (i : ℕ) :
    p + 1 + BitVec.ofNat w i = p + BitVec.ofNat w (i + 1) := by
  rw [BitVec.add_assoc, BitVec.ofNat_add, BitVec.add_comm (BitVec.ofNat w i)]
  rfl

theorem add_ofNat_zero (p : BitVec w) : p + BitVec.ofNat w 0 = p := BitVec.add_zero p

/-- Character `i` of a string. -/
theorem getElem (h : CString m p s) (hi : i < s.length) :
    m (p + BitVec.ofNat w i) = s[i] ∧ s[i] ≠ 0 := by
  induction s generalizing p i with
  | nil => exact absurd hi (Nat.not_lt_zero i)
  | cons c s ih =>
    obtain ⟨hc, hne, hs⟩ := h
    cases i with
    | zero =>
      rw [add_ofNat_zero]
      exact ⟨hc, hne⟩
    | succ i =>
      rw [← add_one_add]
      exact ih hs (Nat.lt_of_succ_lt_succ hi)

/-- The NUL behind a string. -/
theorem nul (h : CString m p s) : m (p + BitVec.ofNat w s.length) = 0 := by
  induction s generalizing p with
  | nil =>
    rw [List.length_nil, add_ofNat_zero]
    exact h
  | cons c s ih =>
    rw [List.length_cons, ← add_one_add]
    exact ih h.2.2

/-- A string that went all around the memory would have met its NUL. -/
theorem length_lt (h : CString m p s) : s.length < 2 ^ w := by
  by_contra hle
  have hmod : s.length % 2 ^ w < s.length :=
    Nat.lt_of_lt_of_le (Nat.mod_lt _ (Nat.two_pow_pos w)) (Nat.le_of_not_lt hle)
  obtain ⟨hchar, hne⟩ := h.getElem hmod
  have hwrap : BitVec.ofNat w (s.length % 2 ^ w) = BitVec.ofNat w s.length := by
    apply BitVec.eq_of_toNat_eq
    rw [BitVec.toNat_ofNat, BitVec.toNat_ofNat, Nat.mod_mod]
  rw [hwrap] at hchar
  exact hne (hchar.symm.trans h.nul)

/-- An address is met again only once around the memory. -/
theorem add_one_add_ne (hi : i + 1 < 2 ^ w) : p + 1 + BitVec.ofNat w i ≠ p := by
  intro heq
  rw [add_one_add] at heq
  have hnat := congrArg BitVec.toNat (add_eq_left.mp heq)
  rw [BitVec.toNat_ofNat, Nat.mod_eq_of_lt hi] at hnat
  exact absurd hnat (Nat.succ_ne_zero i)

/-- The bytes behind the first one, up to the NUL, are at other addresses. -/
theorem tail_ne (h : CString m p s) (hi : i < s.length) : p + 1 + BitVec.ofNat w i ≠ p :=
  add_one_add_ne (Nat.lt_of_le_of_lt hi h.length_lt)

theorem unique (hs : CString m p s) (ht : CString m p t) : s = t := by
  induction s generalizing p t with
  | nil =>
    cases t with
    | nil => rfl
    | cons d t => exact absurd (ht.1.symm.trans hs) ht.2.1
  | cons c s ih =>
    cases t with
    | nil => exact absurd (hs.1.symm.trans ht) hs.2.1
    | cons d t => rw [← hs.1, ← ht.1, ih hs.2.2 ht.2.2]

/-- A string is read from its own bytes. -/
theorem congr (heq : ∀ i ≤ s.length, m' (p + BitVec.ofNat w i) = m (p + BitVec.ofNat w i))
    (h : CString m p s) : CString m' p s := by
  induction s generalizing p with
  | nil =>
    have hfirst := heq 0 (Nat.le_refl 0)
    rw [add_ofNat_zero] at hfirst
    exact hfirst.trans h
  | cons c s ih =>
    have hfirst := heq 0 (Nat.zero_le _)
    rw [add_ofNat_zero] at hfirst
    refine ⟨hfirst.trans h.1, h.2.1, ih (fun i hi => ?_) h.2.2⟩
    rw [add_one_add]
    exact heq (i + 1) (Nat.succ_le_succ hi)

/-- A byte that is written beside a string. -/
theorem update_iff (hne : ∀ i ≤ s.length, p + BitVec.ofNat w i ≠ a) :
    CString (Function.update m a c) p s ↔ CString m p s := by
  constructor
  · exact congr fun i hi => (Function.update_of_ne (hne i hi) c m).symm
  · exact congr fun i hi => Function.update_of_ne (hne i hi) c m

/-- Bytes written from an address on. -/
def putBytes (m : BitVec w → BitVec 8) : BitVec w → List (BitVec 8) → BitVec w → BitVec 8
  | _, [] => m
  | p, c :: s => putBytes (Function.update m p c) (p + 1) s

theorem putBytes_append (m : BitVec w → BitVec 8) (p : BitVec w) (s t : List (BitVec 8)) :
    putBytes m p (s ++ t) = putBytes (putBytes m p s) (p + BitVec.ofNat w s.length) t := by
  induction s generalizing m p with
  | nil =>
    rw [List.length_nil, add_ofNat_zero]
    rfl
  | cons c s ih =>
    rw [List.cons_append, putBytes, ih, List.length_cons, add_one_add]
    rfl

/-- Other bytes stay as they are. -/
theorem putBytes_of_ne (h : ∀ i < s.length, p + BitVec.ofNat w i ≠ a) : putBytes m p s a = m a := by
  induction s generalizing m p with
  | nil => rfl
  | cons c s ih =>
    have hne : a ≠ p := fun heq => h 0 (Nat.succ_pos _) (by rw [add_ofNat_zero, heq])
    rw [putBytes, ih fun i hi => ?_, Function.update_of_ne hne]
    rw [add_one_add]
    exact h (i + 1) (Nat.succ_lt_succ hi)

/-- Characters written with a NUL behind them, fewer than the memory has bytes, are a string. -/
theorem of_putBytes (hs : ∀ c ∈ s, c ≠ 0) (hlen : s.length < 2 ^ w) :
    CString (putBytes m p (s ++ [0])) p s := by
  induction s generalizing m p with
  | nil => exact Function.update_self p 0 m
  | cons c s ih =>
    obtain ⟨hc, hrest⟩ := List.forall_mem_cons.mp hs
    rw [List.length_cons] at hlen
    refine ⟨?_, hc, ih hrest (by omega)⟩
    have hne : ∀ i < (s ++ [0]).length, p + 1 + BitVec.ofNat w i ≠ p := by
      intro i hi
      rw [List.length_append, List.length_singleton] at hi
      exact add_one_add_ne (by omega)
    rw [List.cons_append, putBytes, putBytes_of_ne hne, Function.update_self]

end CString
