import FirstOs.Heap.Create

/-!
# Callers of an allocation that fails

`calloc_page`, `clone_tables` and `heap_create` do not look at the address the allocator returned.
When there is none, they go on with address 0.

What a caller does then is read off a traced state, which carries the list of all that was changed
on the way. The code runs on it as on the state alone.

## Main definitions

- `callocPage`
- `Effect`, `Traced` — the changes the code makes, and a state with the list of them
- `AllocCaller.Reports` — the caller returns `NULL` and changes nothing more

## Main results

- `AllocCaller.call_untraced` — the traced code is the code
- `AllocCaller.reports_iff` — which callers report a failure, and when
-/

namespace FirstOs

open AddressSpace

/-- `calloc_page`. The result of `alloc_page` is not checked. -/
def callocPage {σ : Type} [AddressSpace σ] (s : σ) (pages : ℕ) : ℕ × σ :=
  let (out, s) := allocPage s pages
  (out, memset s out 0 (u32 (0x1000 * pages)))

theorem callocPage_eq {σ : Type} [AddressSpace σ] (s : σ) (pages : ℕ) : callocPage s pages =
    ((allocPage s pages).1,
      memset (allocPage s pages).2 (allocPage s pages).1 0 (u32 (0x1000 * pages))) := rfl

-- ════════════════════════════════════════════════════════════════════════
-- Traces
-- ════════════════════════════════════════════════════════════════════════

/-- What the code changes: an entry of `kernel_tables`, the bitmap, a byte of memory, or the tables
    in force. -/
inductive Effect where
  | entry (i : ℕ) (e : PageTableEntry)
  | pmemUsed (m : Bitmap)
  | store (vaddr : ℕ) (b : BitVec 8)
  | switchTables (new cr3 : ℕ)

/-- A state and what was changed on the way to it, the last change first. -/
structure Traced (σ : Type) where
  state : σ
  effects : List Effect

section Untraced

variable {σ : Type}

/-- The result of a call without the trace. -/
def Traced.untraced (r : ℕ × Traced σ) : ℕ × σ := (r.1, r.2.state)

@[simp] theorem Traced.untraced_fst (r : ℕ × Traced σ) : (Traced.untraced r).1 = r.1 := rfl

@[simp] theorem Traced.untraced_snd (r : ℕ × Traced σ) : (Traced.untraced r).2 = r.2.state := rfl

end Untraced

section Traces

variable {σ : Type} [AddressSpace σ]

instance : AddressSpace (Traced σ) where
  entry s i := entry s.state i
  setEntry s i e := ⟨setEntry s.state i e, .entry i e :: s.effects⟩
  pmemUsed s := pmemUsed s.state
  setPmemUsed s m := ⟨setPmemUsed s.state m, .pmemUsed m :: s.effects⟩
  load s a := load s.state a
  store s a b := ⟨store s.state a b, .store a b :: s.effects⟩
  tableByte s k := tableByte s.state k
  switchTables s new cr3 := ⟨switchTables s.state new cr3, .switchTables new cr3 :: s.effects⟩

variable (s : Traced σ) (n : ℕ)

/-! ### The traced code is the code -/

theorem allocPageMap_untraced (i step : ℕ) :
    Traced.untraced (allocPageMap s i n step) = allocPageMap s.state i n step := by
  fun_induction allocPageMap s i n step with
  | case1 s step hlt paddr hz =>
    have hz' : findFreePhysPage (pmemUsed s.state) = 0 := hz
    rw [allocPageMap, if_pos hlt, hz']
    rfl
  | case2 s step hlt paddr hne ih =>
    have hne' : findFreePhysPage (pmemUsed s.state) ≠ 0 := hne
    rw [ih]
    conv_rhs => rw [allocPageMap, if_pos hlt]
    exact (if_neg hne').symm
  | case3 s step hge =>
    rw [allocPageMap, if_neg hge]
    rfl

theorem allocPageFrom_untraced (i : ℕ) :
    Traced.untraced (allocPageFrom s n i) = allocPageFrom s.state n i := by
  fun_induction allocPageFrom s n i with
  | case1 i hlt hat =>
    have hat' : windowAt s.state n i = true := hat
    rw [allocPageFrom, if_pos hlt, if_pos hat', allocPageMap_untraced]
  | case2 i hlt hat ih =>
    have hat' : ¬ windowAt s.state n i = true := hat
    rw [ih]
    conv_rhs => rw [allocPageFrom, if_pos hlt, if_neg hat']
  | case3 i hge =>
    rw [allocPageFrom, if_neg hge]
    rfl

theorem allocPage_untraced : Traced.untraced (allocPage s n) = allocPage s.state n := by
  unfold allocPage
  split_ifs
  · rfl
  · exact allocPageFrom_untraced s n _

theorem sequentialMap_untraced (i j k : ℕ) :
    (sequentialMap s i j n k).state = sequentialMap s.state i j n k := by
  fun_induction sequentialMap s i j n k with
  | case1 s k hlt ih =>
    rw [ih]
    conv_rhs => rw [sequentialMap, if_pos hlt]
    rfl
  | case2 s k hge => rw [sequentialMap, if_neg hge]

theorem allocSequentialFrom_untraced (i : ℕ) :
    Traced.untraced (allocSequentialFrom s n i) = allocSequentialFrom s.state n i := by
  fun_induction allocSequentialFrom s n i with
  | case1 i hlt hat j hj =>
    have hat' : windowAt s.state n i = true := hat
    have hj' : sequentialFrom (pmemUsed s.state) n 0x1000 = some j := hj
    rw [allocSequentialFrom, if_pos hlt, if_pos hat', hj', Traced.untraced,
      sequentialMap_untraced]
  | case2 i hlt hat hj ih =>
    have hat' : windowAt s.state n i = true := hat
    have hj' : sequentialFrom (pmemUsed s.state) n 0x1000 = none := hj
    rw [ih]
    conv_rhs => rw [allocSequentialFrom, if_pos hlt, if_pos hat', hj']
  | case3 i hlt hat ih =>
    have hat' : ¬ windowAt s.state n i = true := hat
    rw [ih]
    conv_rhs => rw [allocSequentialFrom, if_pos hlt, if_neg hat']
  | case4 i hge =>
    rw [allocSequentialFrom, if_neg hge]
    rfl

theorem allocSequential_untraced :
    Traced.untraced (allocSequential s n) = allocSequential s.state n := by
  unfold allocSequential
  split_ifs
  · rfl
  · exact allocSequentialFrom_untraced s n _

theorem memcpyFrom_untraced (src : Traced σ → ℕ → BitVec 8) (src' : σ → ℕ → BitVec 8)
    (hsrc : ∀ t k, src t k = src' t.state k) (dst i : ℕ) :
    (memcpyFrom src s dst n i).state = memcpyFrom src' s.state dst n i := by
  fun_induction memcpyFrom src s dst n i with
  | case1 s i hlt ih =>
    rw [ih, hsrc]
    conv_rhs => rw [memcpyFrom, if_pos hlt]
    rfl
  | case2 s i hge => rw [memcpyFrom, if_neg hge]

theorem memset_untraced (dest : ℕ) (val : BitVec 8) :
    (memset s dest val n).state = memset s.state dest val n := by
  fun_induction memset s dest val n with
  | case1 s dest count hne ih =>
    rw [ih]
    conv_rhs => rw [memset, if_pos hne]
    rfl
  | case2 s dest count heq => rw [memset, if_neg heq]

theorem storeWord_untraced (vaddr : ℕ) (w : BitVec 32) :
    (storeWord s vaddr w).state = storeWord s.state vaddr w :=
  memcpyFrom_untraced s 4 _ (fun _ k => ByteMemory.byteOf w k) (fun _ _ => rfl) vaddr 0

theorem cloneDirFrom_untraced (new i : ℕ) :
    (cloneDirFrom s new i).state = cloneDirFrom s.state new i := by
  fun_induction cloneDirFrom s new i with
  | case1 s i hlt pde pde' ih =>
    rw [ih, storeWord_untraced]
    conv_rhs => rw [cloneDirFrom, if_pos hlt]
    rfl
  | case2 s i hge => rw [cloneDirFrom, if_neg hge]

/-- The callers, too, run on a traced state as on the state. -/
theorem callocPage_untraced : Traced.untraced (callocPage s n) = callocPage s.state n := by
  rw [callocPage_eq, callocPage_eq s.state, ← allocPage_untraced]
  exact Prod.ext rfl (memset_untraced ..)

theorem filledTables_untraced (new : ℕ) :
    (filledTables s new).state = filledTables s.state new := by
  rw [filledTables, cloneDirFrom_untraced, memset_untraced, memcpyTables,
    memcpyFrom_untraced _ _ tableByte tableByte (fun _ _ => rfl),
    memset_untraced]
  rfl

theorem cloneTables_untraced : Traced.untraced (cloneTables s) = cloneTables s.state := by
  rw [cloneTables_eq, cloneTables_eq s.state, ← allocSequential_untraced]
  have hfilled := filledTables_untraced (allocSequential s 1025).2 (allocSequential s 1025).1
  rw [Traced.untraced_fst, Traced.untraced_snd, ← hfilled]
  generalize filledTables (allocSequential s 1025).2 (allocSequential s 1025).1 = t
  rfl

theorem writeRoot_untraced (rootAlloc pages : ℕ) :
    (writeRoot s rootAlloc pages).state = writeRoot s.state rootAlloc pages := by
  rw [writeRoot, storeWord_untraced, storeWord_untraced, storeWord_untraced]
  rfl

theorem heapCreateOver_untraced : (heapCreateOver s n).1 = (heapCreateOver s.state n).1 ∧
    (heapCreateOver s n).2.state = (heapCreateOver s.state n).2 := by
  rw [heapCreateOver_eq_writeRoot, heapCreateOver_eq_writeRoot, ← allocPage_untraced]
  exact ⟨rfl, writeRoot_untraced ..⟩

end Traces

-- ════════════════════════════════════════════════════════════════════════
-- The callers
-- ════════════════════════════════════════════════════════════════════════

/-- A call that allocates first. -/
inductive AllocCaller where
  | callocPage (pages : BitVec 32)
  | cloneTables
  | heapCreate (pages : BitVec 32)

namespace AllocCaller

variable {σ : Type} [AddressSpace σ]

/-- The allocation it makes. -/
def allocation (s : σ) : AllocCaller → ℕ × σ
  | .callocPage pages => allocPage s pages.toNat
  | .cloneTables => allocSequential s 1025
  | .heapCreate pages => allocPage s pages.toNat

/-- The call; of the heap that `heap_create` returns, `heap_start`. -/
def call (s : σ) : AllocCaller → ℕ × σ
  | .callocPage pages => FirstOs.callocPage s pages.toNat
  | .cloneTables => FirstOs.cloneTables s
  | .heapCreate pages =>
    ((heapCreateOver s pages.toNat).1.heapStart, (heapCreateOver s pages.toNat).2)

/-- The call returns `NULL`, and the allocation was the last that it changed anything. -/
def Reports (c : AllocCaller) (s : Traced σ) : Prop := c.call s = (0, (c.allocation s).2)

/-- `calloc_page` for a number of pages whose length in bytes is 0 in 32 bits. -/
def ClearsNothing : AllocCaller → Prop
  | .callocPage pages => pages.toNat % 0x100000 = 0
  | .cloneTables => False
  | .heapCreate _ => False

end AllocCaller

section Effects

variable {σ : Type} [AddressSpace σ] (s : Traced σ)

/-- Each byte that is written is a change. -/
theorem memcpyFrom_effects (src : Traced σ → ℕ → BitVec 8) (dst n i : ℕ) :
    (memcpyFrom src s dst n i).effects.length = s.effects.length + (n - i) := by
  fun_induction memcpyFrom src s dst n i with
  | case1 s i hlt ih =>
    rw [ih]
    show (_ :: s.effects).length + (n - (i + 1)) = s.effects.length + (n - i)
    rw [List.length_cons]
    omega
  | case2 s i hge => omega

theorem memset_effects (dest : ℕ) (val : BitVec 8) (n : ℕ) :
    (memset s dest val n).effects.length = s.effects.length + n := by
  fun_induction memset s dest val n with
  | case1 s dest count hne ih =>
    rw [ih]
    show (_ :: s.effects).length + (count - 1) = s.effects.length + count
    rw [List.length_cons]
    omega
  | case2 s dest count heq => omega

theorem storeWord_effects (vaddr : ℕ) (w : BitVec 32) :
    (storeWord s vaddr w).effects.length = s.effects.length + 4 :=
  memcpyFrom_effects s _ vaddr 4 0

theorem cloneDirFrom_effects (new i : ℕ) :
    s.effects.length ≤ (cloneDirFrom s new i).effects.length := by
  fun_induction cloneDirFrom s new i with
  | case1 s i hlt pde pde' ih =>
    rw [storeWord_effects] at ih
    exact (Nat.le_add_right _ 4).trans ih
  | case2 s i hge => exact le_rfl

theorem writeRoot_effects (rootAlloc pages : ℕ) :
    (writeRoot s rootAlloc pages).effects.length = s.effects.length + 13 := by
  rw [writeRoot, storeWord_effects, storeWord_effects, storeWord_effects]
  rfl

/-- `clone_tables` exchanges the tables. -/
theorem cloneTables_effects :
    (allocSequential s 1025).2.effects.length < (cloneTables s).2.effects.length := by
  have hdir := cloneDirFrom_effects (memset (memcpyTables (memset (allocSequential s 1025).2
    (allocSequential s 1025).1 0 (0x1000 * 1025)) (u32 ((allocSequential s 1025).1 + 0x1000))
      (1024 * 0x1000)) (allocSequential s 1025).1 0 0x1000) (allocSequential s 1025).1 0
  rw [memset_effects, memcpyTables, memcpyFrom_effects, memset_effects] at hdir
  have hswitch : (cloneTables s).2.effects.length =
      (filledTables (allocSequential s 1025).2 (allocSequential s 1025).1).effects.length + 1 := by
    rw [cloneTables_eq]
    generalize filledTables (allocSequential s 1025).2 (allocSequential s 1025).1 = t
    rfl
  rw [hswitch, filledTables, memcpyTables]
  omega

end Effects

namespace AllocCaller

variable {σ : Type} [AddressSpace σ]

/-- On a traced state, a call does what it does on the state. -/
theorem call_untraced (c : AllocCaller) (s : Traced σ) :
    Traced.untraced (c.call s) = c.call s.state := by
  cases c with
  | callocPage pages => exact callocPage_untraced s pages.toNat
  | cloneTables => exact cloneTables_untraced s
  | heapCreate pages =>
    obtain ⟨hret, hstate⟩ := heapCreateOver_untraced s pages.toNat
    exact Prod.ext (congrArg HeapT.heapStart hret) hstate

/-- What is reported adds no change. -/
theorem Reports.effects {c : AllocCaller} {s : Traced σ} (h : c.Reports s) :
    (c.call s).2.effects.length = (c.allocation s).2.effects.length := by
  rw [h]

theorem reports_callocPage {s : Traced σ} {pages : BitVec 32}
    (hfail : (allocPage s pages.toNat).1 = 0) :
    (callocPage pages).Reports s ↔ pages.toNat % 0x100000 = 0 := by
  have hcount : u32 (0x1000 * pages.toNat) = 0 ↔ pages.toNat % 0x100000 = 0 := by
    simp only [u32]
    omega
  constructor
  · intro h
    have hlength := h.effects
    rw [call, allocation, callocPage_eq, memset_effects] at hlength
    exact hcount.mp (by omega)
  · intro h
    rw [Reports, call, allocation, callocPage_eq, hcount.mpr h, memset, if_neg (by decide), hfail]

theorem not_reports_cloneTables (s : Traced σ) : ¬ cloneTables.Reports s := fun h =>
  (cloneTables_effects s).ne' h.effects

theorem not_reports_heapCreate (s : Traced σ) (pages : BitVec 32) :
    ¬ (heapCreate pages).Reports s := by
  intro h
  have hlength := h.effects
  rw [call, allocation, heapCreateOver_eq_writeRoot, writeRoot_effects] at hlength
  omega

/-- **Which callers report that there is no memory.** Only `calloc_page` does, when it has no byte
    to clear; the others always write through `NULL`. -/
theorem reports_iff (c : AllocCaller) (s : Traced σ) (hfail : (c.allocation s).1 = 0) :
    c.Reports s ↔ c.ClearsNothing := by
  cases c with
  | callocPage pages => exact reports_callocPage hfail
  | cloneTables => exact iff_of_false (not_reports_cloneTables s) not_false
  | heapCreate pages => exact iff_of_false (not_reports_heapCreate s pages) not_false

end AllocCaller

/-! ### Without a free frame -/

theorem allocPage_empty : (allocPage (Traced.mk Flat.empty []) 1).1 = 0 := by
  have hwindow : FirstWindow Flat.empty 1 0xC0000 := firstWindow_one rfl
  have hfail := (allocPage_short hwindow (by decide) (by rw [freeFrames_empty]; decide)).1
  rw [← Traced.untraced_fst, allocPage_untraced]
  exact hfail

theorem reports_iff_empty :
    ¬ (AllocCaller.heapCreate 1).Reports (Traced.mk Flat.empty []) :=
  (AllocCaller.reports_iff (.heapCreate 1) _ allocPage_empty).not.mpr not_false

/-- Without a free frame, `calloc_page(1)` clears the page at address 0. -/
theorem not_reports : ¬ ∀ (c : AllocCaller) (s : Traced Flat), (c.allocation s).1 = 0 →
    c.Reports s := by
  intro hall
  have hreports := (AllocCaller.reports_callocPage allocPage_empty).mp
    (hall (.callocPage 1) _ allocPage_empty)
  exact absurd hreports (by decide)

end FirstOs
