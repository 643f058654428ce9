import FirstOs.Library.Counter
import FirstOs.Machine.MemoryMap

/-!
# The end of the release loop

The loop over the pages of an entry compares 64-bit addresses. Its counter keeps the offset in the
page that the entry starts with; a bound behind the last page address with that offset is never
reached, and the counter wraps. The scan of the map ends when the loop does for every available
entry it reads.

## Main results

- `releaseRegion_isSome_iff` — the loop ends when a turn brings the counter to the bound
- `release_ends_iff` — the entries, and the maps, for which it ends
-/

namespace FirstOs

open AddressSpace Machine

section Ends

variable (s : Machine) (mmap i : ℕ)

/-- The loop over entry `i` ends after at most as many turns as the entry has pages. The last test
    takes one more unit of fuel. -/
def ReleaseEnds : Prop :=
  (releaseRegion mmap i ((mmapLen s mmap i).toNat ⌈/⌉ 0x1000 + 1) s (mmapAddr s mmap i)).isSome

/-- The scan of the map ends. -/
def ScanEnds : Prop := ∃ fuel, (scanMmap mmap fuel s 0).isSome

/-- The end of the entry is not behind the last page address with the offset of its start. -/
def BoundReached : Prop :=
  (mmapAddr s mmap i + mmapLen s mmap i).toNat ≤
    2 ^ 64 - 0x1000 + (mmapAddr s mmap i).toNat % 0x1000

end Ends

section Entry

variable {s m : Machine} {b : Bitmap} {mmap fuel i n : ℕ} {p : BitVec 64}

/-- The loop ends within `n` turns when one of them brings the counter to the bound. -/
theorem releaseRegion_isSome_iff : (releaseRegion mmap i (n + 1) (setPmemUsed s b) p).isSome ↔
    ∃ k ≤ n, (mmapAddr s mmap i + mmapLen s mmap i).toNat ≤ (p.toNat + 0x1000 * k) % 2 ^ 64 := by
  induction n generalizing b p with
  | zero =>
    have hp : p.toNat % 2 ^ 64 = p.toNat := Nat.mod_eq_of_lt p.isLt
    rw [releaseRegion_succ]
    split_ifs with hlt <;> rw [BitVec.lt_def] at hlt
    · refine iff_of_false (by simp [releaseRegion]) ?_
      rintro ⟨k, hk, hle⟩
      obtain rfl : k = 0 := by omega
      rw [Nat.mul_zero, Nat.add_zero, hp] at hle
      omega
    · refine iff_of_true rfl ⟨0, le_refl 0, ?_⟩
      rw [Nat.mul_zero, Nat.add_zero, hp]
      omega
  | succ n ih =>
    have hp := p.isLt
    rw [releaseRegion_succ]
    split_ifs with hlt <;> rw [BitVec.lt_def] at hlt
    · have hnext : ∀ k, ((p + 0x1000).toNat + 0x1000 * k) % 2 ^ 64 =
          (p.toNat + 0x1000 * (k + 1)) % 2 ^ 64 := by
        intro k
        have hstep : (0x1000 : BitVec 64).toNat = 0x1000 := rfl
        rw [BitVec.toNat_add, hstep]
        omega
      rw [ih]
      simp only [hnext]
      constructor
      · rintro ⟨k, hk, hle⟩
        exact ⟨k + 1, by omega, hle⟩
      · rintro ⟨_ | k, hk, hle⟩
        · rw [Nat.mul_zero, Nat.add_zero, Nat.mod_eq_of_lt hp] at hle
          omega
        · exact ⟨k, by omega, hle⟩
    · refine iff_of_true rfl ⟨0, by omega, ?_⟩
      rw [Nat.mul_zero, Nat.add_zero, Nat.mod_eq_of_lt hp]
      omega

theorem dvd_pow : 0x1000 ∣ 2 ^ 64 := ⟨2 ^ 52, by decide⟩

/-- The loop that ends at all has a bound it reaches. -/
theorem boundReached_of_isSome
    (h : (releaseRegion mmap i fuel (setPmemUsed s b) (mmapAddr s mmap i)).isSome) :
    BoundReached s mmap i := by
  cases fuel with
  | zero => exact absurd h (by simp [releaseRegion])
  | succ n =>
    obtain ⟨k, -, hk⟩ := releaseRegion_isSome_iff.mp h
    exact (Counter.reaches_iff dvd_pow (by decide) (mmapAddr s mmap i).isLt).mp ⟨k, hk⟩

/-- A bound that is reached is reached within the turns the length asks for. -/
theorem BoundReached.isSome (h : BoundReached s mmap i)
    (hn : (mmapLen s mmap i).toNat ⌈/⌉ 0x1000 ≤ n) :
    (releaseRegion mmap i (n + 1) (setPmemUsed s b) (mmapAddr s mmap i)).isSome := by
  rw [BoundReached, BitVec.toNat_add] at h
  obtain ⟨k, hk, hle⟩ := Counter.reaches_within dvd_pow (by decide) (mmapAddr s mmap i).isLt h
  refine releaseRegion_isSome_iff.mpr ⟨k, by omega, ?_⟩
  rw [BitVec.toNat_add]
  exact hle

theorem releaseEnds_iff : ReleaseEnds s mmap i ↔ BoundReached s mmap i := by
  rw [ReleaseEnds, ← setPmemUsed_self s]
  exact ⟨boundReached_of_isSome, fun h => h.isSome (le_refl _)⟩

end Entry

section Scan

variable {s : Machine} {b : Bitmap} {mmap fuel i : ℕ}

/-- One entry of the scan. -/
theorem scanMmap_succ (hi : i < 15) : scanMmap mmap fuel (setPmemUsed s b) i =
    if 0 < i ∧ mmapAddr s mmap i = 0 then some (setPmemUsed s b)
    else if mmapType s mmap i = 1 then
      (releaseRegion mmap i fuel (setPmemUsed s b) (mmapAddr s mmap i)).bind
        fun m => scanMmap mmap fuel m (i + 1)
    else scanMmap mmap fuel (setPmemUsed s b) (i + 1) := by
  rw [scanMmap, if_pos hi, mmapAddr_setPmemUsed, mmapType_setPmemUsed]

/-- A scan from entry `i` on that ends has a bound to reach in every available entry it reads. -/
theorem boundReached_of_scan (h : (scanMmap mmap fuel (setPmemUsed s b) i).isSome) :
    ∀ j, ReadFrom s mmap i j → Available s mmap j → BoundReached s mmap j := by
  induction hn : 15 - i generalizing b i with
  | zero =>
    rintro j ⟨hij, hj, -⟩
    omega
  | succ n ih =>
    have hi : i < 15 := by omega
    rw [scanMmap_succ hi] at h
    by_cases hend : 0 < i ∧ mmapAddr s mmap i = 0
    · rintro j ⟨hij, -, hall⟩
      exact absurd hend (hall i (le_refl i) hij)
    rw [if_neg hend] at h
    intro j hj havail
    by_cases htype : mmapType s mmap i = 1
    · rw [if_pos htype] at h
      obtain ⟨m, hm⟩ := Option.isSome_iff_exists.mp h
      obtain ⟨r, hr, hrest⟩ := Option.bind_eq_some_iff.mp hm
      obtain ⟨c, rfl, -⟩ := releaseRegion_bits hr
      obtain rfl | hj := (readFrom_succ hi hend).mp hj
      · exact boundReached_of_isSome (Option.isSome_iff_exists.mpr ⟨_, hr⟩)
      · exact ih (Option.isSome_iff_exists.mpr ⟨m, hrest⟩) (by omega) j hj havail
    · rw [if_neg htype] at h
      obtain rfl | hj := (readFrom_succ hi hend).mp hj
      · exact absurd havail htype
      · exact ih h (by omega) j hj havail

/-- A length of 64 bits asks for no more than `2^52` turns. -/
theorem turns_le (len : BitVec 64) : len.toNat ⌈/⌉ 0x1000 ≤ 2 ^ 52 := by
  have hlen := len.isLt
  refine (ceilDiv_le_iff_le_smul (by decide)).mpr ?_
  rw [smul_eq_mul]
  omega

/-- When all the bounds are reached, the same fuel is enough for every entry. -/
theorem scanMmap_isSome
    (h : ∀ j, ReadFrom s mmap i j → Available s mmap j → BoundReached s mmap j) :
    (scanMmap mmap (2 ^ 52 + 1) (setPmemUsed s b) i).isSome := by
  induction hn : 15 - i generalizing b i with
  | zero =>
    rw [scanMmap, if_neg (by omega)]
    rfl
  | succ n ih =>
    have hi : i < 15 := by omega
    rw [scanMmap_succ hi]
    by_cases hend : 0 < i ∧ mmapAddr s mmap i = 0
    · rw [if_pos hend]
      rfl
    have hrest : ∀ j, ReadFrom s mmap (i + 1) j → Available s mmap j → BoundReached s mmap j :=
      fun j hj => h j ((readFrom_succ hi hend).mpr (.inr hj))
    rw [if_neg hend]
    by_cases htype : mmapType s mmap i = 1
    · have hbound : BoundReached s mmap i := h i ((readFrom_succ hi hend).mpr (.inl rfl)) htype
      obtain ⟨r, hr⟩ := Option.isSome_iff_exists.mp
        (hbound.isSome (b := b) (turns_le (mmapLen s mmap i)))
      obtain ⟨c, rfl, -⟩ := releaseRegion_bits hr
      rw [if_pos htype, hr, Option.bind_some]
      exact ih hrest (by omega)
    · rw [if_neg htype]
      exact ih hrest (by omega)

/-- The loop over an entry ends, within the turns its length asks for, when its bound is reached;
    the scan ends when the bounds of all the available entries it reads are. -/
theorem release_ends_iff (s : Machine) (mmap : ℕ) :
    (∀ i, ReleaseEnds s mmap i ↔ BoundReached s mmap i) ∧
      (ScanEnds s mmap ↔
        ∀ i, ReadFrom s mmap 0 i → Available s mmap i → BoundReached s mmap i) := by
  refine ⟨fun i => releaseEnds_iff, ?_, fun h => ?_⟩
  · rintro ⟨fuel, h⟩
    rw [← setPmemUsed_self s] at h
    exact boundReached_of_scan h
  · have hends := scanMmap_isSome (b := s.pmemUsed) h
    rw [setPmemUsed_self] at hends
    exact ⟨2 ^ 52 + 1, hends⟩

end Scan

/-! ### A map whose release does not end -/

/-- A map at `0x100` of one available entry, that begins at 0 and has all 64-bit addresses but
    the last. -/
def endlessMap : ByteMemory := fun a =>
  if a = 49 then 1 else if 0x10C ≤ a ∧ a < 0x114 then 0xFF else if a = 0x114 then 1 else 0

/-- The machine that reads that map. -/
def endlessMachine : Machine := mapped smallImage (smallMachine endlessMap) 0

theorem mmapType_endless : mmapType endlessMachine 0x100 0 = 1 := by
  rw [mmapType, endlessMachine, loadWord_small _ (by decide)]
  decide

theorem mmapAddr_endless : mmapAddr endlessMachine 0x100 0 = 0 := by
  rw [mmapAddr, endlessMachine, loadDouble_small _ (by decide)]
  decide

theorem mmapLen_endless : mmapLen endlessMachine 0x100 0 = 0xFFFFFFFFFFFFFFFF := by
  rw [mmapLen, endlessMachine, loadDouble_small _ (by decide)]
  decide

/-- The scan reads the entry, the loop over it does not end, and neither does the scan. -/
theorem release_endless : ReadFrom endlessMachine 0x100 0 0 ∧ Available endlessMachine 0x100 0 ∧
    ¬ ReleaseEnds endlessMachine 0x100 0 ∧ ¬ ScanEnds endlessMachine 0x100 := by
  have hread : ReadFrom endlessMachine 0x100 0 0 :=
    ⟨le_refl 0, by decide, fun l _ hl h => absurd h.1 (by omega)⟩
  have hbound : ¬ BoundReached endlessMachine 0x100 0 := by
    rw [BoundReached, mmapAddr_endless, mmapLen_endless]
    decide
  refine ⟨hread, mmapType_endless, fun h => hbound (releaseEnds_iff.mp h), ?_⟩
  rintro ⟨fuel, h⟩
  rw [← setPmemUsed_self endlessMachine] at h
  exact hbound (boundReached_of_scan h 0 hread mmapType_endless)

end FirstOs
