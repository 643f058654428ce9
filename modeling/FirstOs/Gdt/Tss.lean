import FirstOs.Gdt.Descriptors

/-!
# The task state segment

`write_tss` makes the limit of the descriptor from the address behind the structure, where the
processor expects the offset of the last byte. The limit is cut to 20 bits, so it is a usable one
only when the structure lies at a multiple of 1 MiB, or just before.

## Main definitions

- `TssEntry`, `writeTss` — the structure, and the function
- `DescribesTss` — what the processor asks of the descriptor

## Main results

- `writeTss_describes_iff` — the addresses for which it is given
-/

namespace FirstOs

/-- `tss_entry`. -/
structure TssEntry where
  prevTss : BitVec 32
  esp0 : BitVec 32
  ss0 : BitVec 32
  esp1 : BitVec 32
  ss1 : BitVec 32
  esp2 : BitVec 32
  ss2 : BitVec 32
  cr3 : BitVec 32
  eip : BitVec 32
  eflags : BitVec 32
  eax : BitVec 32
  ecx : BitVec 32
  ebx : BitVec 32
  edx : BitVec 32
  esp : BitVec 32
  ebp : BitVec 32
  esi : BitVec 32
  edi : BitVec 32
  es : BitVec 32
  cs : BitVec 32
  ss : BitVec 32
  ds : BitVec 32
  fs : BitVec 32
  gs : BitVec 32
  ldt : BitVec 32
  trap : BitVec 32
  iomapBase : BitVec 32

/-- `sizeof(tss_entry)`: 27 double words. -/
def sizeofTss : BitVec 32 := 108

/-- `memset(&tss_entry, 0, sizeof(tss_entry))`. -/
def TssEntry.zero : TssEntry :=
  ⟨0, 0, 0, 0, 0, 0, 0, 0, 0, 0, 0, 0, 0, 0, 0, 0, 0, 0, 0, 0, 0, 0, 0, 0, 0, 0, 0⟩

/-- The segment table and the task state segment. -/
structure GdtState where
  gdtEntries : GdtEntries
  tssEntry : TssEntry

/-- `write_tss`; `tssAddr` is where the linker has placed the structure. -/
def writeTss (tssAddr : BitVec 32) (s : GdtState) (num : Fin 6) (ss0 : BitVec 16)
    (esp0 : BitVec 32) : GdtState :=
  let base := tssAddr
  let limit := base + sizeofTss
  { gdtEntries := setGdtGate s.gdtEntries num base limit 0xE9 0x00
    tssEntry := { TssEntry.zero with
      ss0 := ss0.setWidth 32
      esp0 := esp0
      cs := 0x08 ||| 0x3
      ss := 0x10 ||| 0x3
      ds := 0x10 ||| 0x3
      es := 0x10 ||| 0x3
      fs := 0x10 ||| 0x3
      gs := 0x10 ||| 0x3 } }

/-- The segment begins at the structure, is counted in bytes, has the 104 bytes that the processor
    asks for and does not end behind the structure. -/
structure DescribesTss (tssAddr : BitVec 32) (segment : Segment) : Prop where
  base : segment.base = tssAddr
  granularity : segment.flags.getLsbD 3 = false
  least : 103 ≤ segment.limit.toNat
  most : segment.limit.toNat ≤ sizeofTss.toNat

variable (tssAddr esp0 : BitVec 32) (num : Fin 6) (ss0 : BitVec 16) (s : GdtState)

/-- The descriptor that is written. -/
theorem segment_writeTss :
    segmentOf ((writeTss tssAddr s num ss0 esp0).gdtEntries num).word =
      askedSegment tssAddr (tssAddr + sizeofTss) 0xE9 0x00 := by
  change segmentOf (setGdtGate s.gdtEntries num tssAddr (tssAddr + sizeofTss) 0xE9 0x00
    num).word = _
  rw [setGdtGate, Function.update_self, segmentOf_fill]

theorem limit_writeTss : (askedSegment tssAddr (tssAddr + sizeofTss) 0xE9 0x00).limit.toNat =
    (tssAddr.toNat + 108) % 2 ^ 20 := by
  have hsize : sizeofTss.toNat = 108 := rfl
  rw [askedSegment, BitVec.toNat_setWidth, BitVec.toNat_add, hsize]
  omega

/-- The descriptor describes the segment exactly when the structure begins at a multiple of 1 MiB
    or at most five bytes before. -/
theorem writeTss_describes_iff :
    DescribesTss tssAddr
        (segmentOf ((writeTss tssAddr s num ss0 esp0).gdtEntries num).word) ↔
      (tssAddr.toNat + 5) % 2 ^ 20 ≤ 5 := by
  have hsize : sizeofTss.toNat = 108 := rfl
  rw [segment_writeTss]
  constructor
  · rintro ⟨-, -, hleast, hmost⟩
    rw [limit_writeTss] at hleast hmost
    rw [hsize] at hmost
    omega
  · intro h
    have hflags : ((0x00 : BitVec 8).extractLsb' 4 4).getLsbD 3 = false := by decide
    refine ⟨rfl, hflags, ?_, ?_⟩
    · rw [limit_writeTss]
      omega
    · rw [limit_writeTss, hsize]
      omega

/-- The tables before `gdt_init`. -/
def blankGdt : GdtState := ⟨fun _ => ⟨0, 0, 0, 0, 0, 0⟩, TssEntry.zero⟩

/-- In a kernel linked at 1 MiB the call of `gdt_init` writes a limit far behind the structure. -/
theorem writeTss_linked : ¬ DescribesTss 0xC0108060#32
    (segmentOf ((writeTss 0xC0108060 blankGdt (Fin.last 5) 0x10 0).gdtEntries
      (Fin.last 5)).word) := by
  intro h
  have hmost := h.most
  rw [segment_writeTss, limit_writeTss] at hmost
  exact absurd hmost (by decide)

end FirstOs
