import FirstOs.Heap.Malloc
import FirstOs.Memory.FirstFit
import FirstOs.Memory.Window

/-!
# Creating a heap in memory

`heap_create` on an address space: it takes its pages from `alloc_page` and writes the header of
the root block through the mapping. The descriptor and the header are those of `heapCreate`, which
the heap code is modelled on.

## Main definitions

- `heapCreateOver` — `heap_create` with its stores
- `allocAt` — the header that is read at an address

## Main results

- `heapCreateOver_eq` — the heap created is that of `heapCreate`
-/

namespace FirstOs

open AddressSpace

section Code

variable {σ : Type} [AddressSpace σ]

/-- The assignments of `heap_create` to the fields of the root header. -/
def writeRoot (s : σ) (rootAlloc pages : ℕ) : σ :=
  let s := store s (u32 (rootAlloc + 4)) 0
  let s := storeWord s rootAlloc (BitVec.ofNat 32 (pages * 0x1000))
  let s := storeWord s (u32 (rootAlloc + 8)) 0
  storeWord s (u32 (rootAlloc + 12)) 0

/-- `heap_create`. The result of `alloc_page` is not checked. -/
def heapCreateOver (s : σ) (pages : ℕ) : HeapT × σ :=
  let (mem, s) := allocPage s pages
  let ret : HeapT :=
    { heapStart := mem, heapEnd := mem, lastAllocLoc := mem, heapSize := pages }
  let s := memset s ret.heapStart 0 (u32 (ret.heapEnd + 0x100000000 - ret.heapStart))
  (ret, writeRoot s ret.heapStart pages)

/-- The header at `a`. -/
def allocAt (s : σ) (a : ℕ) : AllocT where
  size := (loadWord s a).toNat
  used := decide (load s (u32 (a + 4)) ≠ 0)
  next := (loadWord s (u32 (a + 8))).toNat
  prev := (loadWord s (u32 (a + 12))).toNat

/-- The `memset` covers no byte. -/
theorem heapCreateOver_eq_writeRoot (s : σ) (pages : ℕ) : heapCreateOver s pages =
    (⟨(allocPage s pages).1, (allocPage s pages).1, (allocPage s pages).1, pages⟩,
      writeRoot (allocPage s pages).2 (allocPage s pages).1 pages) := by
  have hcount : u32 ((allocPage s pages).1 + 0x100000000 - (allocPage s pages).1) = 0 := by
    rw [Nat.add_sub_cancel_left]
  rw [heapCreateOver]
  dsimp only
  rw [hcount, memset, if_neg (by decide)]

/-! ### Words in a window -/

section Window

variable {mem : σ → ByteMemory} {J : σ → Prop} {dst n : ℕ} {addr : ℕ → ℕ} {s : σ} {o p : ℕ}
  {w : BitVec 32}

theorem ByteWindow.loadWord_storeWord (h : ByteWindow mem J dst n addr)
    (hinj : ∀ x < n, ∀ y < n, addr x = addr y → x = y) (hs : J s) (ho : o + 4 ≤ n) :
    loadWord (storeWord s (u32 (dst + o)) w) (u32 (dst + o)) = w := by
  rw [h.loadWord_eq (h.storeWord_keeps hs ho w) ho]
  exact h.storeWord_inside hinj hs ho w

theorem ByteWindow.loadWord_storeWord_of_disjoint (h : ByteWindow mem J dst n addr)
    (hinj : ∀ x < n, ∀ y < n, addr x = addr y → x = y) (hs : J s) (ho : o + 4 ≤ n)
    (hp : p + 4 ≤ n) (hop : o + 4 ≤ p ∨ p + 4 ≤ o) :
    loadWord (storeWord s (u32 (dst + o)) w) (u32 (dst + p)) = loadWord s (u32 (dst + p)) := by
  rw [h.loadWord_eq (h.storeWord_keeps hs ho w) hp, h.loadWord_eq hs hp]
  refine ByteMemory.wordOf_congr fun k hk => h.storeWord_outside hs ho w fun l hl heq => ?_
  have := hinj (o + l) (by omega) (p + k) (by omega) heq
  omega

theorem ByteWindow.load_storeWord_of_disjoint (h : ByteWindow mem J dst n addr)
    (hinj : ∀ x < n, ∀ y < n, addr x = addr y → x = y) (hs : J s) (ho : o + 4 ≤ n)
    (hp : p < n) (hop : o + 4 ≤ p ∨ p < o) :
    load (storeWord s (u32 (dst + o)) w) (u32 (dst + p)) = load s (u32 (dst + p)) := by
  rw [h.load_eq _ (h.storeWord_keeps hs ho w) p hp, h.load_eq _ hs p hp]
  refine h.storeWord_outside hs ho w fun l hl heq => ?_
  have := hinj (o + l) (by omega) p hp heq
  omega

/-- What the stores of `heap_create` leave in a window of 16 bytes. -/
theorem allocAt_writeRoot (h : ByteWindow mem J dst 16 addr)
    (hinj : ∀ x < 16, ∀ y < 16, addr x = addr y → x = y) (hs : J s) (hdst : dst < 0x100000000)
    (pages : ℕ) : allocAt (writeRoot s dst pages) dst =
      { size := u32 (pages * 0x1000), used := false, next := 0, prev := 0 } := by
  have hzero : u32 (dst + 0) = dst := Nat.mod_eq_of_lt hdst
  have h₁ : J (store s (u32 (dst + 4)) 0) := h.keeps s hs 4 (by decide) 0
  have hused : load (store s (u32 (dst + 4)) 0) (u32 (dst + 4)) = 0 := by
    rw [h.load_eq _ h₁ 4 (by decide), h.store_eq s hs 4 (by decide), Function.update_self]
  rw [writeRoot]
  generalize store s (u32 (dst + 4)) 0 = s₁ at h₁ hused ⊢
  have h₂ : J (storeWord s₁ (u32 (dst + 0)) (BitVec.ofNat 32 (pages * 0x1000))) :=
    h.storeWord_keeps h₁ (by decide) _
  have h₃ := h.storeWord_keeps (o := 8) h₂ (by decide) 0
  rw [hzero] at h₂ h₃
  have hsize : loadWord (storeWord s₁ dst (BitVec.ofNat 32 (pages * 0x1000))) dst =
      BitVec.ofNat 32 (pages * 0x1000) := by
    have hself := h.loadWord_storeWord (o := 0) (w := BitVec.ofNat 32 (pages * 0x1000)) hinj h₁
      (by decide)
    rwa [hzero] at hself
  have hkeep : load (storeWord s₁ dst (BitVec.ofNat 32 (pages * 0x1000))) (u32 (dst + 4)) = 0 := by
    have hother := h.load_storeWord_of_disjoint (o := 0) (p := 4)
      (w := BitVec.ofNat 32 (pages * 0x1000)) hinj h₁ (by decide) (by decide) (by decide)
    rw [hzero] at hother
    exact hother.trans hused
  generalize storeWord s₁ dst (BitVec.ofNat 32 (pages * 0x1000)) = s₂ at h₂ h₃ hsize hkeep ⊢
  have hsame : ∀ t : σ, J t → ∀ o, 8 ≤ o → o + 4 ≤ 16 →
      loadWord (storeWord t (u32 (dst + o)) 0) dst = loadWord t dst := by
    intro t ht o ho hle
    have hother := h.loadWord_storeWord_of_disjoint (o := o) (p := 0) (w := 0) hinj ht hle
      (by decide) (Or.inr (by omega))
    rwa [hzero] at hother
  have hbyte : ∀ t : σ, J t → ∀ o, 8 ≤ o → o + 4 ≤ 16 →
      load (storeWord t (u32 (dst + o)) 0) (u32 (dst + 4)) = load t (u32 (dst + 4)) :=
    fun t ht o ho hle => h.load_storeWord_of_disjoint hinj ht hle (by decide) (Or.inr (by omega))
  rw [allocAt, hsame _ h₃ 12 (by decide) (by decide), hsame _ h₂ 8 (by decide) (by decide), hsize,
    hbyte _ h₃ 12 (by decide) (by decide), hbyte _ h₂ 8 (by decide) (by decide), hkeep,
    h.loadWord_storeWord hinj h₃ (by decide),
    h.loadWord_storeWord_of_disjoint hinj h₃ (by decide) (by decide) (Or.inr (by decide)),
    h.loadWord_storeWord hinj h₂ (by decide), BitVec.toNat_ofNat]
  rfl

end Window

end Code

/-- `heap_create` leaves the heap of `heapCreate` over the pages `alloc_page` found. -/
theorem heapCreateOver_eq {s : Flat} {n v : ℕ} (hpos : 0 < n)
    (hv : IsLeast {i | AbsentRun s n i} v) (hcard : n ≤ (freeFrames s.pmemUsed).card)
    (old : ℕ → AllocT) :
    (heapCreateOver s n).1 = (heapCreate old (v * 0x1000) n).curHeap ∧
    allocAt (heapCreateOver s n).2 (v * 0x1000) =
      (heapCreate old (v * 0x1000) n).mem (v * 0x1000) := by
  obtain ⟨haddr, hmaps, -, -⟩ := (allocPage_firstFit hpos hv).1 hcard
  have hv' : v < 0x100000 := by
    have hupper := AbsentRun.upper hv.1
    omega
  have hpresent : ((allocPage s n).2.tables v).present = true := congrArg _ (hmaps 0 hpos)
  rw [heapCreateOver_eq_writeRoot, haddr]
  refine ⟨rfl, ?_⟩
  have hpage := Flat.pageWindow (allocPage s n).2.tables (allocPage s n).2.pmemUsed hv' hpresent
  have hroot := hpage.sub (o := 0) (m := 16) (by omega)
  have hstart : u32 (v * 0x1000 + 0) = v * 0x1000 := by
    simp only [u32]
    omega
  rw [hstart] at hroot
  refine (allocAt_writeRoot hroot (fun x _ y _ heq => ?_) ⟨rfl, rfl⟩ (by omega) n).trans ?_
  · simpa [Flat.frameByte] using heq
  · exact (Function.update_self (v * 0x1000) _ old).symm

end FirstOs
