import FirstOs.Library.ByteMemory
import Mathlib.Data.Fin.VecNotation
import Mathlib.Data.Fintype.Basic
import Mathlib.Tactic.FinCases

/-!
# Page table and page directory entries

The two packed 32-bit records of `memory/memory.h`. Their bit fields are laid out
from bit 0 upwards in declaration order, so a record and its word determine each
other; assigning a number to the 20-bit `address` field keeps its low 20 bits.
-/

namespace FirstOs

/-- `page_table_entry`. -/
@[ext]
structure PageTableEntry where
  present : Bool
  readwrite : Bool
  user : Bool
  writethru : Bool
  cached : Bool
  access : Bool
  dirty : Bool
  zero : Bool
  ignore : BitVec 4
  address : BitVec 20
  deriving DecidableEq, Repr

/-- `page_dir_entry`. -/
@[ext]
structure PageDirEntry where
  present : Bool
  readwrite : Bool
  user : Bool
  writethru : Bool
  cachedisable : Bool
  access : Bool
  zero : Bool
  size : Bool
  ignore : BitVec 4
  address : BitVec 20
  deriving DecidableEq, Repr

/-- The word of eight flag bits, the ignored bits and the address, from bit 0 upwards. -/
def packEntry (flags : Fin 8 → Bool) (ignore : BitVec 4) (address : BitVec 20) : BitVec 32 :=
  address ++ ignore ++ BitVec.ofBool (flags 7) ++ BitVec.ofBool (flags 6) ++
    BitVec.ofBool (flags 5) ++ BitVec.ofBool (flags 4) ++ BitVec.ofBool (flags 3) ++
    BitVec.ofBool (flags 2) ++ BitVec.ofBool (flags 1) ++ BitVec.ofBool (flags 0)

section Pack

variable (flags : Fin 8 → Bool) (ignore : BitVec 4) (address : BitVec 20) (w : BitVec 32)

theorem getLsbD_packEntry_flag (k : Fin 8) :
    (packEntry flags ignore address).getLsbD k = flags k := by
  simp only [packEntry]
  simp only [BitVec.getLsbD_append]
  fin_cases k <;> simp

theorem extractLsb'_packEntry_ignore :
    (packEntry flags ignore address).extractLsb' 8 4 = ignore := by
  apply BitVec.eq_of_getLsbD_eq
  intro i hi
  rw [BitVec.getLsbD_extractLsb']
  simp only [packEntry]
  simp only [BitVec.getLsbD_append]
  interval_cases i <;> simp

theorem extractLsb'_packEntry_address :
    (packEntry flags ignore address).extractLsb' 12 20 = address := by
  apply BitVec.eq_of_getLsbD_eq
  intro i hi
  rw [BitVec.getLsbD_extractLsb']
  simp only [packEntry]
  simp only [BitVec.getLsbD_append]
  interval_cases i <;> simp

theorem packEntry_extract :
    packEntry (fun k => w.getLsbD k) (w.extractLsb' 8 4) (w.extractLsb' 12 20) = w := by
  apply BitVec.eq_of_getLsbD_eq
  intro i hi
  simp only [packEntry]
  simp only [BitVec.getLsbD_append, BitVec.getLsbD_extractLsb']
  interval_cases i <;> simp

end Pack

namespace PageTableEntry

/-- The word that holds an entry. -/
def encode (e : PageTableEntry) : BitVec 32 :=
  packEntry ![e.present, e.readwrite, e.user, e.writethru, e.cached, e.access, e.dirty, e.zero]
    e.ignore e.address

/-- The entry held by a word. -/
def decode (w : BitVec 32) : PageTableEntry where
  present := w.getLsbD 0
  readwrite := w.getLsbD 1
  user := w.getLsbD 2
  writethru := w.getLsbD 3
  cached := w.getLsbD 4
  access := w.getLsbD 5
  dirty := w.getLsbD 6
  zero := w.getLsbD 7
  ignore := w.extractLsb' 8 4
  address := w.extractLsb' 12 20

@[simp] theorem decode_encode (e : PageTableEntry) : decode (encode e) = e := by
  have hf := getLsbD_packEntry_flag
    ![e.present, e.readwrite, e.user, e.writethru, e.cached, e.access, e.dirty, e.zero]
    e.ignore e.address
  ext1
  · exact hf 0
  · exact hf 1
  · exact hf 2
  · exact hf 3
  · exact hf 4
  · exact hf 5
  · exact hf 6
  · exact hf 7
  · exact extractLsb'_packEntry_ignore _ _ _
  · exact extractLsb'_packEntry_address _ _ _

@[simp] theorem encode_decode (w : BitVec 32) : encode (decode w) = w := by
  refine Eq.trans ?_ (packEntry_extract w)
  simp only [encode, decode]
  congr 1
  funext k
  fin_cases k <;> rfl

/-- The frame number an entry names. -/
def frame (e : PageTableEntry) : ℕ := e.address.toNat

theorem frame_lt (e : PageTableEntry) : e.frame < 0x100000 := e.address.isLt

end PageTableEntry

namespace PageDirEntry

/-- The word that holds an entry. -/
def encode (e : PageDirEntry) : BitVec 32 :=
  packEntry ![e.present, e.readwrite, e.user, e.writethru, e.cachedisable, e.access, e.zero,
    e.size] e.ignore e.address

/-- The entry held by a word. -/
def decode (w : BitVec 32) : PageDirEntry where
  present := w.getLsbD 0
  readwrite := w.getLsbD 1
  user := w.getLsbD 2
  writethru := w.getLsbD 3
  cachedisable := w.getLsbD 4
  access := w.getLsbD 5
  zero := w.getLsbD 6
  size := w.getLsbD 7
  ignore := w.extractLsb' 8 4
  address := w.extractLsb' 12 20

@[simp] theorem decode_encode (e : PageDirEntry) : decode (encode e) = e := by
  have hf := getLsbD_packEntry_flag
    ![e.present, e.readwrite, e.user, e.writethru, e.cachedisable, e.access, e.zero, e.size]
    e.ignore e.address
  ext1
  · exact hf 0
  · exact hf 1
  · exact hf 2
  · exact hf 3
  · exact hf 4
  · exact hf 5
  · exact hf 6
  · exact hf 7
  · exact extractLsb'_packEntry_ignore _ _ _
  · exact extractLsb'_packEntry_address _ _ _

/-- The frame number an entry names. -/
def frame (e : PageDirEntry) : ℕ := e.address.toNat

theorem frame_lt (e : PageDirEntry) : e.frame < 0x100000 := e.address.isLt

end PageDirEntry

/-- Bit 0 is the present bit of both records. -/
theorem present_decode_eq (w : BitVec 32) :
    (PageDirEntry.decode w).present = (PageTableEntry.decode w).present := rfl

end FirstOs
