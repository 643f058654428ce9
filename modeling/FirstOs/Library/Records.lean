import Mathlib.Data.BitVec
import Mathlib.Logic.Equiv.Defs
import Mathlib.Tactic.Ring

/-!
# Records in memory

A record is a sequence of bit fields, the first one in its lowest bits, and lies in consecutive
bytes of a memory, least significant first. Addresses are numbers of a fixed width, and wrap.

A store replaces the bytes of its record. Another record is read as before if no byte belongs to
both.

## Main definitions

- `Fields`, `Fields.equiv` — a sequence of bit fields, and the number they make up
- `RecordType`, `RecordType.load`, `RecordType.store` — records that are kept in bytes
- `Apart` — ranges of addresses without a common byte

## Main results

- `RecordType.load_store`, `RecordType.load_store_of_apart` — reading what was stored
- `RecordType.getLsbD_store` — what was stored, bit by bit
-/

-- ════════════════════════════════════════════════════════════════════════
-- Bit fields
-- ════════════════════════════════════════════════════════════════════════

/-- Bit fields of the given widths. -/
@[reducible] def Fields : List ℕ → Type
  | [] => Unit
  | w :: ws => BitVec w × Fields ws

namespace Fields

/-- The number of their bits. -/
def width : List ℕ → ℕ
  | [] => 0
  | w :: ws => width ws + w

/-- The number they make up, the first one in its lowest bits. -/
def pack : (ws : List ℕ) → Fields ws → BitVec (width ws)
  | [], _ => 0#0
  | _ :: ws, fields => pack ws fields.2 ++ fields.1

/-- The fields of a number. -/
def unpack : (ws : List ℕ) → BitVec (width ws) → Fields ws
  | [], _ => ()
  | w :: ws, x => (x.extractLsb' 0 w, unpack ws (x.extractLsb' w (width ws)))

theorem unpack_pack (ws : List ℕ) (fields : Fields ws) : unpack ws (pack ws fields) = fields := by
  induction ws with
  | nil => rfl
  | cons w ws ih =>
    change ((pack ws fields.2 ++ fields.1).extractLsb' 0 w,
      unpack ws ((pack ws fields.2 ++ fields.1).extractLsb' w (width ws))) = fields
    rw [BitVec.extractLsb'_append_eq_right, BitVec.extractLsb'_append_eq_left, ih]

theorem pack_unpack (ws : List ℕ) (x : BitVec (width ws)) : pack ws (unpack ws x) = x := by
  induction ws with
  | nil => exact BitVec.eq_of_zero_length rfl
  | cons w ws ih =>
    change pack ws (unpack ws (x.extractLsb' w (width ws))) ++ x.extractLsb' 0 w = x
    rw [ih]
    exact BitVec.extractLsb'_append_extractLsb'

/-- Fields and numbers correspond. -/
def equiv (ws : List ℕ) : Fields ws ≃ BitVec (width ws) where
  toFun := pack ws
  invFun := unpack ws
  left_inv := unpack_pack ws
  right_inv := pack_unpack ws

end Fields

-- ════════════════════════════════════════════════════════════════════════
-- Bytes
-- ════════════════════════════════════════════════════════════════════════

/-- The number in `n` bytes, least significant first. -/
def gather : (n : ℕ) → (ℕ → BitVec 8) → BitVec (8 * n)
  | 0, _ => 0
  | n + 1, b => (b n ++ gather n b).cast (by omega)

section Gather

variable {n : ℕ} {b c : ℕ → BitVec 8}

theorem getLsbD_gather (b : ℕ → BitVec 8) {i : ℕ} (hi : i < 8 * n) :
    (gather n b).getLsbD i = (b (i / 8)).getLsbD (i % 8) := by
  induction n with
  | zero => omega
  | succ n ih =>
    rw [gather, BitVec.getLsbD_cast, BitVec.getLsbD_append]
    split_ifs with hlow
    · exact ih hlow
    · rw [show i / 8 = n by omega, show i % 8 = i - 8 * n by omega]

theorem gather_congr (h : ∀ k < n, b k = c k) : gather n b = gather n c := by
  apply BitVec.eq_of_getLsbD_eq
  intro i hi
  rw [getLsbD_gather b hi, getLsbD_gather c hi, h (i / 8) (by omega)]

/-- The bytes of a number make it up. -/
theorem gather_extract (w : BitVec (8 * n)) :
    gather n (fun k => w.extractLsb' (8 * k) 8) = w := by
  apply BitVec.eq_of_getLsbD_eq
  intro i hi
  rw [getLsbD_gather _ hi, BitVec.getLsbD_extractLsb', show 8 * (i / 8) + i % 8 = i by omega,
    decide_eq_true (Nat.mod_lt i (by omega)), Bool.true_and]

end Gather

-- ════════════════════════════════════════════════════════════════════════
-- Ranges of addresses
-- ════════════════════════════════════════════════════════════════════════

section Ranges

variable {A n k : ℕ} {a b : BitVec A}

/-- No byte is one of the `n` from `a` on and of the `k` from `b` on. -/
def Apart (a : BitVec A) (n : ℕ) (b : BitVec A) (k : ℕ) : Prop :=
  ∀ x : BitVec A, (x - a).toNat < n → k ≤ (x - b).toNat

theorem Apart.symm (h : Apart a n b k) : Apart b k a n := by
  intro x hx
  by_contra hlt
  have hle := h x (by omega)
  omega

theorem Apart.mono {n' k' : ℕ} (h : Apart a n b k) (hn : n' ≤ n) (hk : k' ≤ k) :
    Apart a n' b k' := fun x hx => hk.trans (h x (by omega))

/-- A part of a range is apart from what the range is apart from. -/
theorem Apart.part (d l : ℕ) (h : Apart a n b k) (hd : d + l ≤ k) :
    Apart a n (b + BitVec.ofNat A d) l := by
  intro x hx
  have hle := h x hx
  have hsum : x - b = (x - (b + BitVec.ofNat A d)) + BitVec.ofNat A d := by ring
  rw [hsum, BitVec.toNat_add, BitVec.toNat_ofNat] at hle
  have hmod := Nat.mod_le ((x - (b + BitVec.ofNat A d)).toNat + d % 2 ^ A) (2 ^ A)
  have hd' := Nat.mod_le d (2 ^ A)
  omega

/-- Ranges are apart if each one ends before the other begins. -/
theorem apart_of_le (hn : n ≤ (b - a).toNat) (hk : k ≤ (a - b).toNat) : Apart a n b k := by
  intro x hx
  by_contra hlt
  have hba : b - a = (x - a) - (x - b) := by ring
  have hab : a - b = (x - b) - (x - a) := by ring
  obtain hle | hle := Nat.le_total (x - b).toNat (x - a).toNat
  · rw [hba, BitVec.toNat_sub_of_le hle] at hn
    omega
  · rw [hab, BitVec.toNat_sub_of_le hle] at hk
    omega

theorem add_ofNat_sub (a : BitVec A) (hn : n ≤ 2 ^ A) {i : ℕ} (hi : i < n) :
    (a + BitVec.ofNat A i - a).toNat = i := by
  rw [add_sub_cancel_left, BitVec.toNat_ofNat, Nat.mod_eq_of_lt (by omega)]

end Ranges

-- ════════════════════════════════════════════════════════════════════════
-- Records
-- ════════════════════════════════════════════════════════════════════════

/-- Records of a type that are kept in `size` bytes. -/
structure RecordType (R : Type*) where
  size : ℕ
  bits : R ≃ BitVec (8 * size)

namespace RecordType

variable {R S : Type*} {A : ℕ} (c : RecordType R) (d : RecordType S) (m : BitVec A → BitVec 8)
  (a b : BitVec A)

/-- The record at an address. -/
def load : R := c.bits.symm (gather c.size fun k => m (a + BitVec.ofNat A k))

/-- Store a record at an address. -/
def store (r : R) : BitVec A → BitVec 8 := fun x =>
  if (x - a).toNat < c.size then (c.bits r).extractLsb' (8 * (x - a).toNat) 8 else m x

variable {c d m a b} {m' : BitVec A → BitVec 8}

theorem load_congr (h : ∀ k < c.size, m (a + BitVec.ofNat A k) = m' (a + BitVec.ofNat A k)) :
    c.load m a = c.load m' a := congrArg c.bits.symm (gather_congr h)

theorem load_store (hsize : c.size ≤ 2 ^ A) (r : R) : c.load (c.store m a r) a = r := by
  rw [load, Equiv.symm_apply_eq, ← gather_extract (c.bits r)]
  refine gather_congr fun k hk => ?_
  rw [store, add_ofNat_sub a hsize hk, if_pos hk]

/-- A record is read as before when none of its bytes was replaced. -/
theorem load_store_of_apart (hsize : c.size ≤ 2 ^ A) (h : Apart a c.size b d.size) (r : S) :
    c.load (d.store m b r) a = c.load m a := by
  refine load_congr fun k hk => if_neg (Nat.not_lt.mpr (h _ ?_))
  rwa [add_ofNat_sub a hsize hk]

/-- The bits of the bytes after a store. -/
theorem getLsbD_store (r : R) (x : BitVec A) {i : ℕ} (hi : i < 8) : (c.store m a r x).getLsbD i =
    if (x - a).toNat < c.size then (c.bits r).getLsbD (8 * (x - a).toNat + i)
    else (m x).getLsbD i := by
  rw [store]
  split_ifs with hx
  · rw [BitVec.getLsbD_extractLsb', decide_eq_true hi, Bool.true_and]
  · rfl

/-- A record has the bits of its bytes. -/
theorem getLsbD_bits_load {x : BitVec A} (hx : (x - a).toNat < c.size) {i : ℕ} (hi : i < 8) :
    (c.bits (c.load m a)).getLsbD (8 * (x - a).toNat + i) = (m x).getLsbD i := by
  rw [load, Equiv.apply_symm_apply, getLsbD_gather _ (by omega), Nat.mul_add_div (by decide),
    Nat.mul_add_mod, Nat.div_eq_of_lt hi, Nat.mod_eq_of_lt hi, Nat.add_zero, BitVec.ofNat_toNat,
    BitVec.setWidth_eq, add_sub_cancel]

end RecordType
