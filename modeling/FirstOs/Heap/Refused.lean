import FirstOs.Heap.Ends

/-!
# Refused requests

`malloc` returns `NULL` when the last block cannot grow to the size asked for. `grow_heap` moves
`heap_end` before it compares, and the rounds before it have enlarged the block, so a refused
request never leaves the heap as it was. `heap_end` comes back after enough of them, and the next
request is served from space behind the heap.

## Main definitions

- `RefusalKeeps` — a refused request changes nothing
- `Grants` — a request that is not refused

## Main results

- `malloc_changes` — every call that returns changes the heap
- `refused_iff` — when a request is refused
- `refusalKeeps_iff` — when a refused request changes nothing
- `served_after_refusals` — the heap is enlarged after enough refusals
-/

namespace FirstOs

open Relation

/-- If `malloc` returns `NULL`, the heap and all headers are as before. -/
def RefusalKeeps (h : HeapState) (size : ℕ) : Prop :=
  ∀ fuel h', malloc fuel size h = some (.returned 0 h') → h' = h

/-- The first unused block serves the request: the last one can be grown to more than `size`
    bytes, and the payload is not at `NULL`. -/
def Grants (h : HeapState) (size : ℕ) : Prop :=
  ∀ a, FirstUnusedAt h a → (a = h.curHeap.lastAllocLoc → ¬ Starves h a size) ∧
    (a = h.curHeap.lastAllocLoc ∨ size ≤ (h.mem a).size → u32 (a + 16) ≠ 0)

/-- One refused request. -/
def Refusal (h h' : HeapState) : Prop :=
  ∃ (size : BitVec 32) (fuel : ℕ), malloc fuel size.toNat h = some (.returned 0 h')

section Refused

variable {h h' : HeapState} {a cur size fuel k p : ℕ}

/-! ### The heap is not the same -/

theorem use_ne (hu : (h.mem a).used = false) : h.use a ≠ h := by
  intro heq
  have hused : ((h.use a).mem a).used = true := by rw [HeapState.use, HeapState.modify_self]
  rw [heq, hu] at hused
  exact absurd hused (by decide)

theorem split_ne {g : HeapState} (hu : (h.mem a).used = false) : g.split a size ≠ h := by
  intro heq
  have hused : ((g.split a size).mem a).used = true := by rw [HeapState.split_self]
  rw [heq, hu] at hused
  exact absurd hused (by decide)

/-- A call that returns has taken the first unused block or moved `heap_end`. -/
theorem malloc_changes (hstart : h.curHeap.heapStart < 0x100000000)
    (hsize : h.curHeap.heapSize ≤ 0x100000) (hr : malloc fuel size h = some (.returned p h')) :
    h' ≠ h := by
  obtain ⟨a, ha⟩ := firstUnusedAt_of_returned hr
  have hu := ha.choose_spec.2.2.2
  obtain ⟨-, -, -, hret⟩ | ⟨-, -, -, hret⟩ | ⟨-, k, hg, hret | ⟨-, ⟨-, hret⟩ | hret⟩⟩ :=
    malloc_cases ha hr
  all_goals obtain ⟨-, rfl⟩ := MallocResult.returned.inj hret
  · exact use_ne hu
  · exact split_ne hu
  · intro heq
    have hmoves := heapEnd_moves hstart hsize hg
    rw [HeapState.grownBy_succ, HeapState.addSize_curHeap, heq] at hmoves
    exact hmoves rfl
  · exact split_ne hu
  · exact split_ne hu

/-! ### When a request is refused -/

/-- A last block that starves is grown as far as it goes, and the request refused. -/
theorem refused_of_starves (hstart : h.curHeap.heapStart < 0x100000000)
    (hsize : h.curHeap.heapSize ≤ 0xFFFFF000) (ha : FirstUnusedAt h a)
    (hlast : a = h.curHeap.lastAllocLoc) (hs : Starves h a size) :
    ∃ fuel k, Grows h a 0 k ∧
      malloc fuel size h = some (.returned 0 (h.grownBy a k).growHeap) := by
  obtain ⟨fuel, p, h', hr⟩ := (malloc_returns_iff ha hstart hsize).mpr (Or.inl hlast)
  obtain ⟨hin, -⟩ | ⟨hin, -⟩ | ⟨-, hends⟩ := malloc_cases ha hr
  · exact absurd hlast hin
  · exact absurd hlast hin
  · obtain ⟨k, hg, hret⟩ := hends.of_starves hs
    rw [hret] at hr
    exact ⟨fuel, k, hg, hr⟩

/-- What a call returns is `NULL` or the payload of the first unused block. -/
theorem returned_eq (ha : FirstUnusedAt h a) (hr : malloc fuel size h = some (.returned p h')) :
    p = 0 ∨ p = u32 (a + 16) := by
  obtain ⟨-, -, -, hret⟩ | ⟨-, -, -, hret⟩ | ⟨-, k, -, hret | ⟨-, ⟨-, hret⟩ | hret⟩⟩ :=
    malloc_cases ha hr
  · exact Or.inr (MallocResult.returned.inj hret).1
  · exact Or.inr (MallocResult.returned.inj hret).1
  · exact Or.inl (MallocResult.returned.inj hret).1
  · exact Or.inr (MallocResult.returned.inj hret).1
  · exact Or.inr (MallocResult.returned.inj hret).1

/-- A request that is granted is not refused. -/
theorem Grants.ne_zero (hgrants : Grants h size) (hstart : h.curHeap.heapStart < 0x100000000)
    (hsize : h.curHeap.heapSize ≤ 0xFFFFF000)
    (hr : malloc fuel size h = some (.returned p h')) : p ≠ 0 := by
  rintro rfl
  obtain ⟨a, ha⟩ := firstUnusedAt_of_returned hr
  obtain ⟨hstarves, hnull⟩ := hgrants a ha
  have hne := hnull ((malloc_returns_iff ha hstart hsize).mp ⟨fuel, 0, h', hr⟩)
  obtain ⟨-, -, -, hret⟩ | ⟨-, -, -, hret⟩ | ⟨hlast, -⟩ := malloc_cases ha hr
  · exact hne (MallocResult.returned.inj hret).1.symm
  · exact hne (MallocResult.returned.inj hret).1.symm
  · obtain ⟨hp, -⟩ | hs := payload_or_starves ha hlast hr
    · exact hne hp.symm
    · exact hstarves hlast hs

/-- `malloc` returns `NULL` at a last block that cannot grow, or when the payload is there. -/
theorem refused_iff (hstart : h.curHeap.heapStart < 0x100000000)
    (hsize : h.curHeap.heapSize ≤ 0xFFFFF000) :
    (∃ fuel h', malloc fuel size h = some (.returned 0 h')) ↔ ¬ Grants h size := by
  constructor
  · rintro ⟨fuel, h', hr⟩ hgrants
    exact hgrants.ne_zero hstart hsize hr rfl
  · intro hno
    simp only [Grants, not_forall] at hno
    obtain ⟨a, ha, hno⟩ := hno
    by_cases hs : a = h.curHeap.lastAllocLoc ∧ Starves h a size
    · obtain ⟨fuel, k, -, hr⟩ := refused_of_starves hstart hsize ha hs.1 hs.2
      exact ⟨fuel, _, hr⟩
    · have hnull : (a = h.curHeap.lastAllocLoc ∨ size ≤ (h.mem a).size) ∧ u32 (a + 16) = 0 := by
        by_contra hnot
        exact hno ⟨fun hlast hstarves => hs ⟨hlast, hstarves⟩, fun hret h0 => hnot ⟨hret, h0⟩⟩
      obtain ⟨hret, h0⟩ := hnull
      obtain ⟨fuel, p, h', hr⟩ := (malloc_returns_iff ha hstart hsize).mpr hret
      have hzero : p = 0 := (returned_eq ha hr).elim id fun hp => hp.trans h0
      exact ⟨fuel, h', hzero ▸ hr⟩

/-- A heap that is kept over a refusal is one that does not refuse. -/
theorem refusalKeeps_iff_grants (hstart : h.curHeap.heapStart < 0x100000000)
    (hsize : h.curHeap.heapSize ≤ 0x100000) : RefusalKeeps h size ↔ Grants h size := by
  have hrefused : _ ↔ ¬ Grants h size := refused_iff hstart (hsize.trans (by decide))
  constructor
  · intro hkeeps
    by_contra hno
    obtain ⟨fuel, h', hret⟩ := hrefused.mpr hno
    exact malloc_changes hstart hsize hret (hkeeps fuel h' hret)
  · intro hgrants fuel h' hret
    exact absurd hgrants (hrefused.mp ⟨fuel, h', hret⟩)

/-! ### Along runs -/

variable {base pages : ℕ} {old : ℕ → AllocT} {s : Client}

/-- **When a refused request changes nothing.** The heap is as before exactly when the request is
    not refused, and it stays what it is over all refused requests exactly when there are none. -/
theorem refusalKeeps_iff (hr : HeapRegion base pages) (hrun : HeapRun AnyCall old base pages s) :
    (∀ size : BitVec 32, RefusalKeeps s.heap size.toNat ↔ Grants s.heap size.toNat) ∧
    ((∀ h, ReflTransGen Refusal s.heap h → h = s.heap) ↔
      ∀ size : BitVec 32, Grants s.heap size.toNat) := by
  obtain ⟨hstart, hsize⟩ := region_of_run hrun
  have hlt : s.heap.curHeap.heapStart < 0x100000000 := hstart ▸ hr.base_lt
  have hle : s.heap.curHeap.heapSize ≤ 0x100000 := hsize ▸ hr.pages_le
  have hkeeps : ∀ size : BitVec 32, RefusalKeeps s.heap size.toNat ↔ Grants s.heap size.toNat :=
    fun size => refusalKeeps_iff_grants hlt hle
  refine ⟨hkeeps, fun hall size => ?_, fun hgrants h hsteps => ?_⟩
  · refine (hkeeps size).mp fun fuel h' hret => ?_
    exact hall h' (ReflTransGen.single ⟨size, fuel, hret⟩)
  · induction hsteps with
    | refl => rfl
    | tail _ hstep ih =>
      obtain ⟨size, fuel, hret⟩ := hstep
      rw [ih] at hret
      exact (hkeeps size).mpr (hgrants size) fuel _ hret

/-! ### After many refusals -/

/-- A heap just created, with `heap_end` at `e`. -/
def endedAt (old : ℕ → AllocT) (base pages e : ℕ) : HeapState :=
  (heapCreate old base pages).setEnd e

theorem endedAt_root (old : ℕ → AllocT) (base pages e : ℕ) :
    (endedAt old base pages e).mem base =
      { size := u32 (pages * 0x1000), used := false, next := 0, prev := 0 } :=
  Function.update_self ..

theorem firstUnusedAt_endedAt (hpos : 0 < base) (e : ℕ) :
    FirstUnusedAt (endedAt old base pages e) base := by
  refine ⟨[], rfl, fun x hx => absurd hx List.not_mem_nil, hpos.ne', ?_⟩
  rw [endedAt_root]

/-- The root is too small and cannot grow. -/
theorem refusal_endedAt (hr : HeapRegion base pages) {e : ℕ}
    (hno : pages ≤ u32 (u32 (e + 0x1000) + 0x100000000 - base)) :
    Refusal (endedAt old base pages e) (endedAt old base pages (u32 (e + 0x1000))) := by
  have hbase := hr.base_lt
  have hpages := hr.pages_le
  have ha := @firstUnusedAt_endedAt base pages old hr.pos e
  have hgrow : (endedAt old base pages e).canGrow = false := decide_eq_false (Nat.not_lt.mpr hno)
  have hstarves : Starves (endedAt old base pages e) base (0xFFFFFFFF#32).toNat := by
    refine ⟨0, fun j hj => ?_, hgrow⟩
    obtain rfl := Nat.le_zero.mp hj
    rw [HeapState.grownBy, endedAt_root]
    exact Nat.le_of_lt_succ (u32_lt _)
  obtain ⟨fuel, k, hg, hret⟩ :=
    refused_of_starves hbase (hpages.trans (by decide)) ha rfl hstarves
  have hk : k = 0 := by
    by_contra hk
    have hfirst := hg.2 0 le_rfl (Nat.pos_of_ne_zero hk)
    rw [HeapState.grownBy, hgrow] at hfirst
    exact absurd hfirst (by decide)
  rw [hk] at hret
  exact ⟨_, fuel, hret⟩

theorem refusals_endedAt (hr : HeapRegion base pages) (hsmall : pages ≤ 0x1000) {n : ℕ}
    (hn : n < 0x100000) : ReflTransGen Refusal (endedAt old base pages base)
      (endedAt old base pages (u32 (base + 0x1000 * n))) := by
  have hbase := hr.base_lt
  induction n with
  | zero =>
    rw [Nat.mul_zero, Nat.add_zero, show u32 base = base from Nat.mod_eq_of_lt hbase]
  | succ n ih =>
    have hstep := @refusal_endedAt base pages old hr (u32 (base + 0x1000 * n))
      (by simp only [u32]; omega)
    have hend : u32 (u32 (base + 0x1000 * n) + 0x1000) = u32 (base + 0x1000 * (n + 1)) := by
      simp only [u32]
      omega
    rw [hend] at hstep
    exact (ih (by omega)).tail hstep

/-- A heap of at most 0x1000 pages refuses to grow. When it has refused often enough, it grows,
    and serves a request that ends behind its pages. -/
theorem served_after_refusals (hr : HeapRegion base pages) (hsmall : pages ≤ 0x1000) :
    ∃ h, ReflTransGen Refusal (heapCreate old base pages) h ∧
      ∃ size fuel p h', malloc fuel size h = some (.returned p h') ∧ p ≠ 0 ∧
        base + pages * 0x1000 < p + size := by
  have hbase := hr.base_lt
  have hbound := hr.bounded
  have hnonempty := hr.nonempty
  refine ⟨_, refusals_endedAt hr hsmall (n := 0xFFFFF) (by decide), ?_⟩
  have hend : u32 (u32 (u32 (base + 0x1000 * 0xFFFFF) + 0x1000) + 0x100000000 - base) = 0 := by
    simp only [u32]
    omega
  generalize u32 (base + 0x1000 * 0xFFFFF) = e at hend ⊢
  have ha := @firstUnusedAt_endedAt base pages old hr.pos e
  have hgrow : (endedAt old base pages e).canGrow = true :=
    decide_eq_true (hend.trans_lt hnonempty)
  -- `heap_end` has come round to `heap_start`, and the root grows by a page
  have hgrown : ((HeapState.grownBy (endedAt old base pages e) base 1).mem base).size =
      pages * 0x1000 + 0x1000 := by
    rw [HeapState.grownBy_succ, HeapState.addSize, HeapState.modify_self, HeapState.growHeap,
      HeapState.setEnd_mem, HeapState.grownBy, endedAt_root]
    simp only [u32]
    omega
  obtain ⟨fuel, p, h', hret⟩ : ∃ fuel p h', malloc fuel (pages * 0x1000 + 0x800)
      (endedAt old base pages e) = some (.returned p h') :=
    (malloc_returns_iff ha hbase (hr.pages_le.trans (by decide))).mpr (Or.inl rfl)
  have hp : p = u32 (base + 16) := by
    obtain ⟨hp, -⟩ | hs := payload_or_starves ha rfl hret
    · exact hp
    · exact absurd hs (not_starves (k := 1) (Grows.single hgrow) (by omega))
  have hu : u32 (base + 16) = base + 16 := Nat.mod_eq_of_lt (by omega)
  rw [hp, hu] at hret
  exact ⟨_, fuel, _, h', hret, by omega, by omega⟩

/-- A request for a byte of a heap of one page is granted. -/
theorem grants_byte : Grants (heapCreate noHeaders 0x100000 1) 1 := by
  intro a ha
  have ha' := @firstUnusedAt_endedAt 0x100000 1 noHeaders (by decide) 0x100000
  obtain rfl := ha.unique ha'
  refine ⟨fun _ => not_starves (Grows.refl _ _ 0) ?_, fun _ => by decide⟩
  show 1 < ((endedAt noHeaders 0x100000 1 0x100000).mem 0x100000).size
  rw [endedAt_root]
  decide

theorem refusalKeeps_iff_page : RefusalKeeps (heapCreate noHeaders 0x100000 1) 1 :=
  ((refusalKeeps_iff (s := Client.start noHeaders 0x100000 1) heapRegion_page
    ReflTransGen.refl).1 1#32).mpr grants_byte

/-- A request that a heap of one page refuses moves `heap_end`. -/
theorem not_refusalKeeps : ¬ ∀ (old : ℕ → AllocT) (base pages : ℕ), HeapRegion base pages →
    ∀ s, HeapRun AnyCall old base pages s → ∀ size : BitVec 32, RefusalKeeps s.heap size.toNat := by
  intro hall
  have hkeeps := hall noHeaders 0x100000 1 heapRegion_page _ ReflTransGen.refl 0x2000#32 3 _ rfl
  have hend := congrArg (fun h : HeapState => h.curHeap.heapEnd) hkeeps
  exact absurd hend (by decide)

end Refused

end FirstOs
