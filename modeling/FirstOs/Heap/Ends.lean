import FirstOs.Heap.Runs

/-!
# When `malloc` ends

`malloc` looks at the first unused block only. When that block is too small and is
not the last one, no branch of the outer loop applies and the loop runs forever;
otherwise the loops end. A header that is then cut off the block is stored right behind
the block's own, wherever the heap ends: behind the mapped pages the store faults, and the
handler of the fault never returns. Apart from that `malloc` returns. This holds in every
state a run of calls leads to, and as long as no call meets a broken link there is a first
unused block.

## Main definitions

- `CutsOff` — the calls that store a new header
- `Returns` — `malloc` returns with the new header in mapped memory

## Main results

- `malloc_stored` — the header a call stores
- `malloc_ends` — when a call of `malloc` returns
- `not_malloc_ends` — after freeing a small block, a larger request runs forever
-/

namespace FirstOs

open Relation

/-- The 16 bytes of a header at `a` are in `M`. -/
def HeaderIn (M : Set ℕ) (a : ℕ) : Prop := Set.Ico a (a + 16) ⊆ M

/-- `malloc` returns, be it `NULL`, after finitely many rounds of its loops, and has stored headers
    in mapped memory `M` only. -/
def Returns (M : Set ℕ) (h : HeapState) (size : ℕ) : Prop :=
  ∃ fuel p h', malloc fuel size h = some (.returned p h') ∧ ∀ a ∈ h'.stored, HeaderIn M a

/-- A call cuts a header off the first unused block at `a`. -/
def CutsOff (h : HeapState) (a size : ℕ) : Prop :=
  if a = h.curHeap.lastAllocLoc then ¬ Starves h a size
  else size < (h.mem a).size ∧ u32 (size + 16) ≤ (h.mem a).size

/-- The list leads to a first unused block, which is the last one or large enough, and a header
    cut off it is in mapped memory. -/
def FirstFits (M : Set ℕ) (h : HeapState) (size : ℕ) : Prop :=
  ∃ a, FirstUnusedAt h a ∧ (a = h.curHeap.lastAllocLoc ∨ size ≤ (h.mem a).size) ∧
    (CutsOff h a size → HeaderIn M (u32 (a + 16)))

section Stored

variable {h h' : HeapState} {a cur size fuel k p : ℕ}

/-- The sizes a block goes through while it does not have more than `size` bytes. -/
def TooSmall (h : HeapState) (a size k : ℕ) : Prop := ∀ j < k, ((h.grownBy a j).mem a).size ≤ size

theorem TooSmall.succ (ht : TooSmall h a size k) (hk : ((h.grownBy a k).mem a).size ≤ size) :
    TooSmall h a size (k + 1) := by
  intro j hj
  obtain hlt | rfl := Nat.lt_succ_iff_lt_or_eq.mp hj
  · exact ht j hlt
  · exact hk

theorem TooSmall.starves (ht : TooSmall h a size k) (hk : ((h.grownBy a k).mem a).size ≤ size)
    (hno : (h.grownBy a k).canGrow = false) : Starves h a size :=
  ⟨k, fun j hj => ht.succ hk j (Nat.lt_succ_of_le hj), hno⟩

/-- The growing loop ends with an error only if the block starves. -/
theorem growUntil_or_starves {x : Except MallocResult HeapState} (ht : TooSmall h a size k)
    (hk : ((h.grownBy a k).mem a).size ≤ size)
    (hx : growUntil size a fuel (h.grownBy a k) = some x) :
    (∃ k', TooSmall h a size k' ∧ x = .ok (h.grownBy a k')) ∨ Starves h a size := by
  induction fuel generalizing k with
  | zero => exact absurd hx (by simp [growUntil])
  | succ fuel ih =>
    rw [growUntil, ← HeapState.grownBy_succ] at hx
    cases hgrow : (h.grownBy a k).canGrow with
    | false => exact Or.inr (ht.starves hk hgrow)
    | true =>
      rw [hgrow, if_neg (by decide)] at hx
      split_ifs at hx with hge
      · exact Or.inl ⟨k + 1, ht.succ hk, (Option.some.inj hx).symm⟩
      · exact ih (ht.succ hk) (Nat.le_of_not_le hge) hx

theorem fitEqual_or_starves (ha : a = h.curHeap.lastAllocLoc) (ht : TooSmall h a size k) :
    (∃ k', TooSmall h a size k' ∧ fitEqual size a (h.grownBy a k) = .ok (h.grownBy a k')) ∨
      Starves h a size := by
  rw [fitEqual, h.grownBy_last, if_pos ha, ← HeapState.grownBy_succ]
  by_cases heq : ((h.grownBy a k).mem a).size = size
  · rw [if_pos heq]
    cases hgrow : (h.grownBy a k).canGrow with
    | false => exact Or.inr (ht.starves heq.le hgrow)
    | true => exact Or.inl ⟨k + 1, ht.succ heq.le, rfl⟩
  · rw [if_neg heq]
    exact Or.inl ⟨k, ht, rfl⟩

/-- At the last block, `malloc` cuts off a header and returns the payload, unless the block
    starves. -/
theorem mallocFrom_or_starves (ha : a = h.curHeap.lastAllocLoc) (ha0 : a ≠ 0)
    (hu : (h.mem a).used = false) (hlead : LeadsTo (h.grownBy a k).mem cur a)
    (ht : TooSmall h a size k)
    (hr : mallocFrom size fuel cur (h.grownBy a k) = some (.returned p h')) :
    (p = u32 (a + 16) ∧ h'.stored = u32 (a + 16) :: h.stored) ∨ Starves h a size := by
  induction fuel generalizing cur k with
  | zero => exact absurd hr (by simp [mallocFrom])
  | succ fuel ih =>
    rw [mallocFrom] at hr
    obtain hskip | hskip := hlead fuel
    · rw [hskip] at hr
      exact absurd hr (by simp)
    rw [hskip] at hr
    dsimp only at hr
    obtain ⟨k₁, ht₁, h₁⟩ | hs := fitEqual_or_starves ha ht
    case inr => exact Or.inr hs
    rw [h₁] at hr
    dsimp only at hr
    rw [fitLarger, h.grownBy_last, if_pos ha, ← HeapState.grownBy_succ] at hr
    have hcut : ∀ {k'}, MallocResult.returned (u32 (a + 16)) ((h.grownBy a k').split a size) =
        .returned p h' → p = u32 (a + 16) ∧ h'.stored = u32 (a + 16) :: h.stored := by
      intro k' heq
      obtain ⟨rfl, rfl⟩ := MallocResult.returned.inj heq
      rw [HeapState.split_stored, HeapState.grownBy_stored]
      exact ⟨rfl, rfl⟩
    split_ifs at hr with hlt hfit
    · exact Or.inl (hcut (Option.some.inj hr))
    · exact Or.inl (hcut (Option.some.inj hr))
    -- the block has at most `size` bytes and is grown, if need be
    dsimp only at hr
    have hnext : ∀ {k'}, TooSmall h a size k' →
        mallocFrom size fuel a (h.grownBy a k') = some (.returned p h') →
        (p = u32 (a + 16) ∧ h'.stored = u32 (a + 16) :: h.stored) ∨ Starves h a size := fun ht' hr' =>
      ih (leadsTo_self ha0 ((h.grownBy_used a _).trans hu)) ht' hr'
    rw [fitLast] at hr
    split_ifs at hr with hsmall
    · cases hgrow : growUntil size a fuel (h.grownBy a k₁) with
      | none =>
        rw [hgrow] at hr
        exact absurd hr (by simp)
      | some x =>
        obtain ⟨k₂, ht₂, rfl⟩ | hs := growUntil_or_starves ht₁ (Nat.le_of_not_lt hlt) hgrow
        · rw [hgrow] at hr
          exact hnext ht₂ hr
        · exact Or.inr hs
    · exact hnext ht₁ hr

/-- Where the first unused block is the last one, a header is cut off it and its payload returned
    unless it starves. -/
theorem payload_or_starves (ha : FirstUnusedAt h a) (hlast : a = h.curHeap.lastAllocLoc)
    (hr : malloc fuel size h = some (.returned p h')) :
    (p = u32 (a + 16) ∧ h'.stored = u32 (a + 16) :: h.stored) ∨ Starves h a size := by
  have hlead := ha.leadsTo
  obtain ⟨-, -, -, hpos, hused⟩ := ha
  exact mallocFrom_or_starves (k := 0) hlast hpos hused hlead
    (fun j hj => absurd hj (Nat.not_lt_zero j)) hr

/-- A call that cuts stores one header, right behind that of the first unused block; the other
    calls store none. -/
theorem malloc_stored (ha : FirstUnusedAt h a)
    (hr : malloc fuel size h = some (.returned p h')) :
    CutsOff h a size ∧ h'.stored = u32 (a + 16) :: h.stored ∨
      ¬ CutsOff h a size ∧ h'.stored = h.stored := by
  rw [CutsOff]
  obtain ⟨hin, hle, hfit, hret⟩ | ⟨hin, hlt, hle, hret⟩ | ⟨hlast, hends⟩ := malloc_cases ha hr
  · obtain ⟨-, rfl⟩ := MallocResult.returned.inj hret
    rw [if_neg hin]
    exact Or.inr ⟨by omega, rfl⟩
  · obtain ⟨-, rfl⟩ := MallocResult.returned.inj hret
    rw [if_neg hin]
    exact Or.inl ⟨⟨hlt, hle⟩, HeapState.split_stored ..⟩
  · rw [if_pos hlast, not_not]
    by_cases hs : Starves h a size
    · obtain ⟨k, -, hret⟩ := hends.of_starves hs
      obtain ⟨-, rfl⟩ := MallocResult.returned.inj hret
      refine Or.inr ⟨hs, ?_⟩
      rw [HeapState.growHeap, HeapState.setEnd_stored, HeapState.grownBy_stored]
    · exact Or.inl ⟨hs, ((payload_or_starves ha hlast hr).resolve_right hs).2⟩

end Stored

section Ends

variable {h : HeapState} {base pages : ℕ} {s t : Client} {old : ℕ → AllocT}

theorem FirstUnusedAt.unique {a b : ℕ} (ha : FirstUnusedAt h a) (hb : FirstUnusedAt h b) :
    a = b := by
  obtain ⟨n, hn⟩ := ha.skipUsed
  obtain ⟨m, hm⟩ := hb.skipUsed
  have heq := (hn (n + m + 1)).symm.trans (hm (n + m + 1))
  rw [if_pos (by omega), if_pos (by omega), Option.some.injEq, Option.some.injEq] at heq
  exact heq

/-- No outcome of `malloc` moves or resizes the heap. -/
theorem malloc_region {fuel size p : ℕ} {h' : HeapState}
    (hr : malloc fuel size h = some (.returned p h')) :
    h'.curHeap.heapStart = h.curHeap.heapStart ∧ h'.curHeap.heapSize = h.curHeap.heapSize := by
  obtain ⟨a, ha⟩ := firstUnusedAt_of_returned hr
  obtain ⟨-, -, -, hret⟩ | ⟨-, -, -, hret⟩ | ⟨-, k, -, hret | ⟨-, ⟨-, hret⟩ | hret⟩⟩ :=
    malloc_cases ha hr
  all_goals obtain ⟨-, rfl⟩ := MallocResult.returned.inj hret
  · exact ⟨rfl, rfl⟩
  · rw [HeapState.split_heapStart, HeapState.split_heapSize]
    exact ⟨rfl, rfl⟩
  · rw [HeapState.growHeap, HeapState.setEnd_heapStart, HeapState.setEnd_heapSize,
      HeapState.grownBy_heapStart, HeapState.grownBy_heapSize]
    exact ⟨rfl, rfl⟩
  all_goals
    rw [HeapState.split_heapStart, HeapState.split_heapSize, HeapState.grownBy_heapStart,
      HeapState.grownBy_heapSize]
    exact ⟨rfl, rfl⟩

/-- The heap stays where `heap_create` put it. -/
theorem region_of_run (hrun : HeapRun AnyCall old base pages s) :
    s.heap.curHeap.heapStart = base ∧ s.heap.curHeap.heapSize = pages := by
  refine Run.invariant (I := fun s : Client => s.heap.curHeap.heapStart = base ∧
    s.heap.curHeap.heapSize = pages) (fun s t hs hI => ?_) hrun ⟨rfl, rfl⟩
  obtain ⟨hstart, hsize⟩ := hI
  cases hs with
  | malloc _ hr =>
    obtain ⟨hstart', hsize'⟩ := malloc_region hr
    exact ⟨hstart'.trans hstart, hsize'.trans hsize⟩
  | @free a ha _ =>
    rw [← free_heapStart a.ptr] at hstart
    rw [← free_heapSize a.ptr] at hsize
    generalize free a.ptr s.heap = g at hstart hsize ⊢
    exact ⟨hstart, hsize⟩

/-- `malloc` returns exactly when the first unused block is the last one or large enough, and the
    header cut off it is in mapped memory. -/
theorem returns_iff {M : Set ℕ} (hstart : h.curHeap.heapStart < 0x100000000)
    (hsize : h.curHeap.heapSize ≤ 0xFFFFF000) (hstored : ∀ a ∈ h.stored, HeaderIn M a)
    (size : ℕ) : Returns M h size ↔ FirstFits M h size := by
  constructor
  · rintro ⟨fuel, p, h', hr, hin⟩
    obtain ⟨a, ha⟩ := firstUnusedAt_of_returned hr
    refine ⟨a, ha, (malloc_returns_iff ha hstart hsize).mp ⟨fuel, p, h', hr⟩, fun hcuts => ?_⟩
    obtain ⟨-, hstored'⟩ | ⟨hno, -⟩ := malloc_stored ha hr
    · exact hin _ (hstored' ▸ List.mem_cons_self ..)
    · exact absurd hcuts hno
  · rintro ⟨a, ha, hfits, hcut⟩
    obtain ⟨fuel, p, h', hr⟩ := (malloc_returns_iff ha hstart hsize).mpr hfits
    refine ⟨fuel, p, h', hr, ?_⟩
    obtain ⟨hcuts, hstored'⟩ | ⟨-, hstored'⟩ := malloc_stored ha hr
    · rw [hstored', List.forall_mem_cons]
      exact ⟨hcut hcuts, hstored⟩
    · rw [hstored']
      exact hstored

theorem FirstUnused.fits_iff {M : Set ℕ} {P Q : List HeapBlock} {b : HeapBlock}
    (hf : FirstUnused h P b Q) (size : ℕ) : FirstFits M h size ↔ (Q = [] ∨ size ≤ b.size) ∧
      (CutsOff h b.addr size → HeaderIn M (u32 (b.addr + 16))) := by
  constructor
  · rintro ⟨a, ha, hfits, hcut⟩
    obtain rfl := hf.firstUnusedAt.unique ha
    rw [hf.represents.last_iff, hf.represents.mem_self.1] at hfits
    exact ⟨hfits, hcut⟩
  · rintro ⟨hfits, hcut⟩
    refine ⟨b.addr, hf.firstUnusedAt, ?_, hcut⟩
    rwa [hf.represents.last_iff, hf.represents.mem_self.1]

/-- In every state of every run that has stored headers in mapped memory only, `malloc` returns
    exactly when the list leads to a first unused block that is the last one or large enough, and
    a header cut off it is in mapped memory as well; when no call of the run met a broken link, the
    list leads to one. -/
theorem malloc_ends (hr : HeapRegion base pages) {M : Set ℕ}
    (hstored : ∀ a ∈ s.heap.stored, HeaderIn M a) :
    (HeapRun AnyCall old base pages s → ∀ size : BitVec 32,
      Returns M s.heap size.toNat ↔ FirstFits M s.heap size.toNat) ∧
    (HeapRun LinksOk old base pages s → ∃ P b Q, FirstUnused s.heap P b Q ∧
      ∀ size : BitVec 32, Returns M s.heap size.toNat ↔ (Q = [] ∨ size.toNat ≤ b.size) ∧
        (CutsOff s.heap b.addr size.toNat → HeaderIn M (u32 (b.addr + 16)))) := by
  have hlt := hr.base_lt
  have hle := hr.pages_le
  constructor
  · intro hrun size
    obtain ⟨hstart, hsize⟩ := region_of_run hrun
    exact returns_iff (by omega) (by omega) hstored size.toNat
  · intro hrun
    obtain ⟨L, hI⟩ := heapInv_of_run hr (fun _ _ hok => hok) hrun
    have hstart := hI.heapStart
    have hsize := hI.heapSize
    obtain ⟨P, b, Q, -, hf⟩ := hI.exists_firstUnused
    refine ⟨P, b, Q, hf, fun size => ?_⟩
    rw [returns_iff (by omega) (by omega) hstored, hf.fits_iff]

/-- On a heap of one page, `malloc(10)`, `malloc(20)` and a `free` of the first pointer leave
    a first block of 10 bytes. -/
theorem small_first_block : ∃ s, HeapRun AnyCall noHeaders 0x100000 1 s ∧
    FirstUnusedAt s.heap 0x100000 ∧ (s.heap.mem 0x100000).size = 10 ∧
    s.heap.curHeap.lastAllocLoc = 0x100020 ∧ s.heap.stored = [0x100020, 0x100010] := by
  refine ⟨_, ((ReflTransGen.refl.tail (@HeapStep.malloc _ _ 10#32 4 _ _ trivial rfl)).tail
    (@HeapStep.malloc _ _ 20#32 4 _ _ trivial rfl)).tail
    (@HeapStep.free _ _ ⟨0x100010, 10⟩ ?_ trivial), ?_, rfl, rfl, rfl⟩
  · exact List.mem_cons_of_mem _ (List.mem_cons_self ..)
  · exact ⟨[], rfl, fun x hx => absurd hx List.not_mem_nil, by decide, rfl⟩

/-- There, with the page mapped, `malloc(10)` returns and `malloc(20)` does not; on the heap just
    created `malloc(20)` does. -/
theorem malloc_ends_small : (∃ s, HeapRun AnyCall noHeaders 0x100000 1 s ∧
      Returns (Set.Ico 0x100000 0x101000) s.heap 10 ∧
      ¬ Returns (Set.Ico 0x100000 0x101000) s.heap 20) ∧
    Returns (Set.Ico 0x100000 0x101000) (heapCreate noHeaders 0x100000 1) 20 := by
  have hpage : ∀ a, 0x100000 ≤ a → a ≤ 0x100FF0 → HeaderIn (Set.Ico 0x100000 0x101000) a :=
    fun a ha ha' => Set.Ico_subset_Ico ha (by omega)
  constructor
  · obtain ⟨s, hrun, ha, hten, hend, hstored⟩ := small_first_block
    have hmapped : ∀ a ∈ s.heap.stored, HeaderIn (Set.Ico 0x100000 0x101000) a := by
      rw [hstored]
      simp only [List.forall_mem_cons]
      exact ⟨hpage _ (by decide) (by decide), hpage _ (by decide) (by decide),
        fun _ hmem => absurd hmem List.not_mem_nil⟩
    have hends := (malloc_ends heapRegion_page hmapped).1 hrun
    refine ⟨s, hrun, (hends 10#32).mpr ⟨_, ha, Or.inr hten.ge, fun hcuts => ?_⟩, fun hret => ?_⟩
    · rw [CutsOff, hend, if_neg (by decide), hten] at hcuts
      exact absurd hcuts.1 (by decide)
    · obtain ⟨a, ha', hfits, -⟩ := (hends 20#32).mp hret
      obtain rfl := ha.unique ha'
      rw [hend, hten] at hfits
      exact absurd hfits (by decide)
  · obtain ⟨P, b, Q, hf, hends⟩ := (malloc_ends (s := Client.start noHeaders 0x100000 1)
      heapRegion_page (M := Set.Ico 0x100000 0x101000)
      (fun _ hmem => absurd hmem List.not_mem_nil)).2 ReflTransGen.refl
    obtain ⟨rfl, rfl, rfl⟩ := hf.unique (firstUnused_start heapRegion_page noHeaders)
    exact (hends 20#32).mpr ⟨Or.inl rfl, fun _ => hpage _ (by decide) (by decide)⟩

/-- `malloc` does not always end, whatever memory is mapped. -/
theorem not_malloc_ends : ¬ ∀ (old : ℕ → AllocT) (base pages : ℕ), HeapRegion base pages →
    ∀ s, HeapRun AnyCall old base pages s → ∀ size : BitVec 32,
      Returns Set.univ s.heap size.toNat := by
  intro hall
  obtain ⟨s, hrun, ha, hten, hend, -⟩ := small_first_block
  obtain ⟨hstart, hsize⟩ := region_of_run hrun
  have hret := hall noHeaders 0x100000 1 heapRegion_page s hrun 20#32
  rw [returns_iff (by omega) (by omega) fun _ _ => Set.subset_univ _] at hret
  obtain ⟨a, ha', hfits, -⟩ := hret
  obtain rfl := ha.unique ha'
  rw [hend, hten] at hfits
  exact absurd hfits (by decide)

end Ends

end FirstOs
