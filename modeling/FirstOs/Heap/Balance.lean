import FirstOs.Heap.Runs
import Mathlib.Algebra.BigOperators.Group.List.Basic
import Mathlib.Algebra.Order.BigOperators.Group.List

/-!
# The bytes of the heap

The remainder of a block that `malloc` cuts gets the size of the block less 16,
whatever size was asked for, so a cut adds that size to the sum of all blocks. Taking
a block whole and both merges of `free` keep the sum.

## Main definitions

- `total`, `unusedSize` — the sums over the blocks of a list
- `Balanced` — a `malloc` and the `free` that follows it keep the sums
- `BalanceCall` — the calls that keep the sum

## Main results

- `heap_balanced` — when the sums are kept, and what is left when all is freed
- `not_heap_balanced` — a request for one byte adds one byte
-/

namespace FirstOs

open Relation

/-- The bytes of all blocks with their headers. -/
def total (L : List HeapBlock) : ℕ := (L.map fun b => b.size + 16).sum

/-- The bytes of the unused blocks. -/
def unusedSize (L : List HeapBlock) : ℕ := ((L.filter fun b => !b.used).map HeapBlock.size).sum

/-- From the heap `h` to `h'` the total is the same, and in `h''` the total and the unused
    bytes are those of `h`. -/
def Balanced (h h' h'' : HeapState) : Prop :=
  ∃ L L' L'', Represents h L ∧ Represents h' L' ∧ Represents h'' L'' ∧
    total L' = total L ∧ total L'' = total L ∧ unusedSize L'' = unusedSize L

/-- A call that meets no broken link and cuts a block for no byte only. -/
def BalanceCall (h : HeapState) : HeapCall → Prop
  | .malloc size => LinksOk h (.malloc size) ∧
      ∀ P b Q, FirstUnused h P b Q → Cuts b size.toNat → size.toNat = 0
  | .free ptr => LinksOk h (.free ptr)

section Sums

variable {P Q L : List HeapBlock} {b c d : HeapBlock}

theorem total_append : total (P ++ Q) = total P + total Q := by
  simp [total]

theorem total_cons : total (b :: Q) = b.size + 16 + total Q := by
  simp [total]

/-- A merge keeps the total when the sizes do not wrap. -/
theorem total_merge (h : b.size + (c.size + 16) < 0x100000000) :
    total (b.merge c :: Q) = total (b :: c :: Q) := by
  have hsize : (b.merge c).size = b.size + (c.size + 16) := Nat.mod_eq_of_lt h
  rw [total_cons, total_cons, total_cons, hsize]
  omega

theorem total_freePrev (h : total P + total (c :: Q) < 0x100000010) :
    total (freePrev P c Q) = total P + total (c :: Q) := by
  obtain ⟨-, heq⟩ | ⟨R, e, rfl, -, heq⟩ := freePrev_cases P c Q
  · rw [heq, total_append]
  · have hcons : total [e] = e.size + 16 := by simp [total]
    rw [total_append, hcons, total_cons] at h
    rw [heq, total_append, total_merge (by omega), total_append, hcons, total_cons]
    omega

/-- Freeing keeps the total. -/
theorem total_freeList (h : total (P ++ c :: d :: Q) < 0x100000010) :
    total (freeList P c (d :: Q)) = total (P ++ c :: d :: Q) := by
  have hfree : ∀ R, total ({ c with used := false } :: R) = total (c :: R) := fun R => by
    rw [total_cons, total_cons]
  rw [total_append] at h ⊢
  cases hd : d.used with
  | true =>
    rw [freeList_used hd, total_freePrev (by rwa [hfree]), hfree]
  | false =>
    have hmerge : total ({ c with used := false }.merge d :: Q) = total (c :: d :: Q) := by
      rw [total_cons, total_cons] at h
      rw [total_merge (by show c.size + (d.size + 16) < _; omega), hfree]
    rw [freeList_unused hd, total_freePrev (by rwa [hmerge]), hmerge]

end Sums

section Steps

variable {base pages : ℕ} {s t : Client} {L L' P Q : List HeapBlock} {b : HeapBlock}
  {old : ℕ → AllocT} {h : HeapState} {call : HeapCall}

/-- A cut adds the size asked for. -/
theorem total_cut {size : ℕ} (hcut : Cuts b size) (hlt : b.size < 0x100000000)
    (hsize : size < 0x100000000) :
    total (P ++ ⟨b.addr, size, true⟩ :: ⟨b.addr + 16, u32 (b.size + 0x100000000 - 16), false⟩ :: Q) =
      total (P ++ b :: Q) + size := by
  obtain ⟨hgt, hfit⟩ := hcut
  have hrest : u32 (b.size + 0x100000000 - 16) = b.size - 16 ∧ 16 ≤ b.size := by
    unfold u32 at *
    omega
  rw [total_append, total_append, total_cons, total_cons, total_cons, hrest.1]
  dsimp only
  omega

/-! ### `malloc` and `free` of the pointer it returned -/

/-- A call of `malloc` that returns a pointer and does not move `heap_end` takes the first
    unused block whole or cuts it. -/
theorem malloc_fixed (hr : HeapRegion base pages) (hI : HeapInv base pages s L)
    {size : BitVec 32} (hlinks : LinksOk s.heap (.malloc size)) {fuel p : ℕ} {h' : HeapState}
    (hres : malloc fuel size.toNat s.heap = some (.returned p h')) (hp : p ≠ 0)
    (hend : h'.curHeap.heapEnd = s.heap.curHeap.heapEnd) :
    ∃ P b Q, L = P ++ b :: Q ∧ FirstUnused s.heap P b Q ∧ p = b.addr + 16 ∧
      (¬ Cuts b size.toNat ∧ Q ≠ [] ∧ h' = s.heap.use b.addr ∨
        Cuts b size.toNat ∧ h' = s.heap.split b.addr size.toNat ∧
          Represents h' (P ++ ⟨b.addr, size.toNat, true⟩ ::
            ⟨b.addr + 16, u32 (b.size + 0x100000000 - 16), false⟩ :: Q)) := by
  have hstep : HeapStep (fun h c => LinksOk h c ∧ c = .malloc size) s _ :=
    HeapStep.malloc ⟨hlinks, rfl⟩ hres
  obtain ⟨call, L', ⟨-, rfl⟩, hb⟩ := heapStep_cases hr hI (fun _ hok => hok.1) hstep
  have hrep := (hb.heapInv hI).toRepresents
  rw [if_neg hp] at hb
  generalize ht : (⟨h', ⟨p, size.toNat⟩ :: s.live⟩ : Client) = t at hb
  cases hb with
  | @take P Q b _ hf hQ hsize hfit =>
    obtain ⟨rfl, hlive⟩ := Client.mk.inj ht
    obtain ⟨hp, -⟩ := List.cons.inj hlive
    refine ⟨P, b, Q, rfl, hf, (Allocation.mk.inj hp).1, Or.inl ⟨fun hcut => ?_, hQ, rfl⟩⟩
    obtain ⟨hlt, hle⟩ := hcut
    omega
  | @cut P Q b _ hf hQ hcut hnew =>
    obtain ⟨rfl, hlive⟩ := Client.mk.inj ht
    obtain ⟨hp, -⟩ := List.cons.inj hlive
    exact ⟨P, b, Q, rfl, hf, (Allocation.mk.inj hp).1, Or.inr ⟨hcut, rfl, hrep⟩⟩
  | fail _ _ =>
    obtain ⟨-, hlive⟩ := Client.mk.inj ht
    exact absurd hlive (List.cons_ne_self _ _)
  | @cutLast P b _ k hf hnew _ hk =>
    obtain ⟨rfl, hlive⟩ := Client.mk.inj ht
    obtain ⟨hp, -⟩ := List.cons.inj hlive
    rw [HeapState.split_heapEnd] at hend
    obtain ⟨rfl, hcut⟩ := hk.resolve_right fun hne => hne hend
    rw [HeapState.grownBy, hf.represents.mem_self.1] at hrep
    exact ⟨P, b, [], rfl, hf, (Allocation.mk.inj hp).1, Or.inr ⟨hcut, rfl, hrep⟩⟩

theorem freePrev_eq {c : HeapBlock} (hP : ∀ e ∈ P.getLast?, e.used = true) :
    freePrev P c Q = P ++ c :: Q := by
  obtain ⟨-, heq⟩ | ⟨R, e, rfl, he, -⟩ := freePrev_cases P c Q
  · exact heq
  · have hused := hP e List.getLast?_concat
    rw [he] at hused
    exact absurd hused (by decide)

/-- Taking the first unused block whole and freeing it leaves the list as it was. -/
theorem represents_free_use (hf : FirstUnused h P b Q) (hQ : Q ≠ []) (hset : Settled (P ++ b :: Q))
    (hprev : PrevOk h P b) : Represents (free (b.addr + 16) (h.use b.addr)) (P ++ b :: Q) := by
  obtain ⟨hlast, hhead⟩ := hset.neighbours hf.unused
  obtain ⟨d, R, rfl⟩ := List.exists_cons_of_ne_nil hQ
  have hprev' : PrevOk (h.use b.addr) P ⟨b.addr, b.size, true⟩ := by
    rw [PrevOk, HeapState.use, HeapState.modify_self]
    exact hprev
  have hfree := free_represents (hf.represents.setUsed true) hprev'
  have hb : (⟨b.addr, b.size, false⟩ : HeapBlock) = b := HeapBlock.ext rfl rfl hf.unused.symm
  rw [freeList_used (hhead d (List.head?_cons ..)), freePrev_eq hlast, hb] at hfree
  exact hfree

/-- Cutting it for no byte and freeing it does, too. -/
theorem represents_free_split (hf : FirstUnused h P b Q) (hset : Settled (P ++ b :: Q))
    (hprev : PrevOk h P b) (hcut : Cuts b 0) (hlt : b.size < 0x100000000)
    (hrep : Represents (h.split b.addr 0) (P ++ ⟨b.addr, 0, true⟩ ::
      ⟨b.addr + 16, u32 (b.size + 0x100000000 - 16), false⟩ :: Q)) :
    Represents (free (b.addr + 16) (h.split b.addr 0)) (P ++ b :: Q) := by
  obtain ⟨hlast, -⟩ := hset.neighbours hf.unused
  have hprev' : PrevOk (h.split b.addr 0) P ⟨b.addr, 0, true⟩ := by
    rw [PrevOk, HeapState.split_self]
    exact hprev
  have hfree := free_represents hrep hprev'
  have hsize : u32 (0 + (u32 (b.size + 0x100000000 - 16) + 16)) = b.size := by
    have hfit : 16 ≤ b.size := hcut.2
    simp only [u32]
    omega
  have hb : (⟨b.addr, b.size, false⟩ : HeapBlock) = b := HeapBlock.ext rfl rfl hf.unused.symm
  rw [freeList_unused rfl, freePrev_eq hlast, HeapBlock.merge, hsize, hb] at hfree
  exact hfree

/-- The sums are kept exactly when a cut block is cut for no byte. -/
theorem balanced_iff (hr : HeapRegion base pages) (hI : HeapInv base pages s L) {size : BitVec 32}
    (hlinks : LinksOk s.heap (.malloc size))
    (hprev : ∀ P b Q, FirstUnused s.heap P b Q → PrevOk s.heap P b) {fuel p : ℕ} {h' : HeapState}
    (hres : malloc fuel size.toNat s.heap = some (.returned p h')) (hp : p ≠ 0)
    (hend : h'.curHeap.heapEnd = s.heap.curHeap.heapEnd) :
    Balanced s.heap h' (free p h') ↔
      ∀ P b Q, FirstUnused s.heap P b Q → Cuts b size.toNat → size.toNat = 0 := by
  obtain ⟨P, b, Q, rfl, hf, rfl, hcase⟩ := malloc_fixed hr hI hlinks hres hp hend
  have hlt := hI.sizes b (by simp)
  obtain ⟨hno, hQ, rfl⟩ | ⟨hcut, rfl, hrep⟩ := hcase
  · refine iff_of_true ?_ fun P' b' Q' hf' hcut => ?_
    · have htake : total (P ++ ⟨b.addr, b.size, true⟩ :: Q) = total (P ++ b :: Q) := by
        rw [total_append, total_append, total_cons, total_cons]
      exact ⟨_, _, _, hf.represents, hf.represents.setUsed true,
        represents_free_use hf hQ hI.settled (hprev P b Q hf), htake, rfl, rfl⟩
    · obtain ⟨-, rfl, -⟩ := hf.unique hf'
      exact absurd hcut hno
  · have hsum := total_cut (P := P) (Q := Q) hcut hlt size.isLt
    constructor
    · rintro ⟨L, L', L'', hL, hL', -, htotal, -, -⟩ - - - - -
      obtain rfl := hL.unique hf.represents
      obtain rfl := hL'.unique hrep
      omega
    · intro hzero
      have h0 := hzero P b Q hf hcut
      rw [h0] at hcut hrep hsum ⊢
      exact ⟨_, _, _, hf.represents, hrep,
        represents_free_split hf hI.settled (hprev P b Q hf) hcut hlt hrep, hsum, rfl, rfl⟩

/-! ### The sum along a run -/

theorem BalanceCall.linksOk (hok : BalanceCall h call) : LinksOk h call := by
  cases call with
  | malloc size => exact hok.1
  | free ptr => exact hok

/-- A step that does not move `heap_end` keeps the total. -/
theorem BlockStep.total_eq (hs : BlockStep s L call t L') (hI : HeapInv base pages s L)
    (hok : BalanceCall s.heap call) (hend : t.heap.curHeap.heapEnd = s.heap.curHeap.heapEnd)
    (hsum : total L < 0x100000010) : total L' = total L := by
  have hsizes := hI.sizes
  cases hs with
  | @take P Q b size hf _ _ _ => rw [total_append, total_append, total_cons, total_cons]
  | @cut P Q b size hf _ hcut _ =>
    rw [total_cut hcut (hsizes b (by simp)) size.isLt, hok.2 P b Q hf hcut, Nat.add_zero]
  | fail _ hmoved => exact absurd hend hmoved
  | @cutLast P b size k hf _ _ hk =>
    rw [HeapState.split_heapEnd] at hend
    obtain ⟨rfl, hcut⟩ := hk.resolve_right fun hne => hne hend
    rw [HeapState.grownBy, hf.represents.mem_self.1,
      total_cut hcut (hsizes b (by simp)) size.isLt, hok.2 P b [] hf hcut, Nat.add_zero]
  | free _ _ _ _ _ => exact total_freeList hsum

/-- A settled list without used blocks has one block at most. -/
theorem Settled.eq_singleton (hset : Settled L) (hL : L ≠ []) (hunused : ∀ b ∈ L, b.used = false) :
    ∃ b, L = [b] := by
  cases L with
  | nil => exact absurd rfl hL
  | cons b L =>
    cases L with
    | nil => exact ⟨b, rfl⟩
    | cons c L =>
      obtain ⟨hbc, -⟩ := List.isChain_cons_cons.mp hset
      rw [hunused b (by simp), hunused c (by simp)] at hbc
      exact absurd hbc (by decide)

/-- When nothing is live, the list is one block. -/
theorem HeapInv.eq_root (hI : HeapInv base pages s L) (hlive : s.live = [])
    (hsum : total L = pages * 0x1000 + 16) : L = [⟨base, pages * 0x1000, false⟩] := by
  have hperm := hI.live
  rw [hlive, List.map_nil, List.nil_perm, usedPtrs, List.map_eq_nil_iff, List.filter_eq_nil_iff]
    at hperm
  have hne : L ≠ [] := fun hnil => by
    have hlast := hI.lastUnused
    rw [hnil] at hlast
    exact absurd hlast (by decide)
  have hunused : ∀ b ∈ L, b.used = false := fun b hb => Bool.eq_false_of_not_eq_true (hperm b hb)
  obtain ⟨b, rfl⟩ := hI.settled.eq_singleton hne hunused
  have hlinked := hI.linked
  rw [hI.heapStart, List.map_cons, Seg.cons_iff] at hlinked
  rw [total_cons] at hsum
  have hsize : b.size = pages * 0x1000 := by
    have hnil : total [] = 0 := rfl
    omega
  rw [List.cons.injEq]
  exact ⟨HeapBlock.ext hlinked.1.symm hsize (hunused b (by simp)), rfl⟩

/-- In a run of calls that meet no broken link, `malloc` and `free` of its pointer keep the
    sums exactly when no block is cut for a byte or more. In a run whose calls cut no block
    for a byte or more and do not move `heap_end`, the first block is all that is left when
    nothing is live. -/
theorem heap_balanced (hr : HeapRegion base pages) :
    (HeapRun LinksOk old base pages s → ∀ (size : BitVec 32) (fuel p : ℕ) (h' : HeapState),
      LinksOk s.heap (.malloc size) → (∀ P b Q, FirstUnused s.heap P b Q → PrevOk s.heap P b) →
      malloc fuel size.toNat s.heap = some (.returned p h') → p ≠ 0 →
      h'.curHeap.heapEnd = s.heap.curHeap.heapEnd →
      (Balanced s.heap h' (free p h') ↔
        ∀ P b Q, FirstUnused s.heap P b Q → Cuts b size.toNat → size.toNat = 0)) ∧
    (ReflTransGen (FixedStep BalanceCall) (Client.start old base pages) s → s.live = [] →
      Represents s.heap [⟨base, pages * 0x1000, false⟩]) := by
  constructor
  · intro hrun size fuel p h' hlinks hprev hres hp hend
    obtain ⟨L, hI⟩ := heapInv_of_run hr (fun _ _ hok => hok) hrun
    exact balanced_iff hr hI hlinks hprev hres hp hend
  · intro hrun hlive
    have hinv : ∃ L, HeapInv base pages s L ∧ total L = pages * 0x1000 + 16 := by
      refine Run.invariant (I := fun s => ∃ L, HeapInv base pages s L ∧
        total L = pages * 0x1000 + 16) (fun s t hs hI => ?_) hrun
        ⟨_, heapInv_start hr old, by simp [total]⟩
      obtain ⟨L, hI, hsum⟩ := hI
      obtain ⟨hs, hend⟩ := hs
      obtain ⟨call, L', hok, hb⟩ := heapStep_cases hr hI (fun _ hok => hok.linksOk) hs
      have hpos := hr.pos
      have hbound := hr.bounded
      exact ⟨L', hb.heapInv hI, (hb.total_eq hI hok hend (by omega)).trans hsum⟩
    obtain ⟨L, hI, hsum⟩ := hinv
    have hrep := hI.toRepresents
    rwa [hI.eq_root hlive hsum] at hrep

/-! ### A heap just created -/

theorem start_linksOk (size : BitVec 32) :
    LinksOk (Client.start noHeaders 0x100000 1).heap (.malloc size) :=
  linksOk_last (firstUnused_start heapRegion_page noHeaders) (by decide)

theorem start_prevOk {P Q : List HeapBlock} {b : HeapBlock}
    (hf : FirstUnused (Client.start noHeaders 0x100000 1).heap P b Q) :
    PrevOk (Client.start noHeaders 0x100000 1).heap P b := by
  obtain ⟨rfl, rfl, rfl⟩ := hf.unique (firstUnused_start heapRegion_page noHeaders)
  rfl

/-- A request for no byte is balanced where it is served from the last block. -/
theorem balanceCall_last {h : HeapState} {P : List HeapBlock} {b : HeapBlock}
    (hf : FirstUnused h P b []) (hb : b.addr + 16 < 0x100000000) :
    BalanceCall h (.malloc 0#32) :=
  ⟨linksOk_last hf hb, fun _ _ _ _ _ => rfl⟩

/-- Of three pointers the first, the third and then the second one are freed. -/
theorem run_freed : ∃ s, ReflTransGen (FixedStep BalanceCall) (Client.start noHeaders 0x100000 1) s ∧
    s.live = [] ∧ s.heap = free 0x100020 (free 0x100030 freedFirst) := by
  have hrun := fixedRun_freedFirst BalanceCall
    (balanceCall_last (firstUnused_start heapRegion_page noHeaders) (by decide))
    (balanceCall_last firstUnused_cutOne (by decide))
    (balanceCall_last firstUnused_cutTwo (by decide))
    (linksOk_free (P := []) represents_cutThree rfl rfl)
  have hmerged : Represents (free 0x100030 freedFirst)
      [⟨0x100000, 0, false⟩, ⟨0x100010, 0, true⟩, ⟨0x100020, 0xFE0, false⟩] :=
    ⟨⟨rfl, rfl, rfl, rfl⟩, by decide, by decide, by decide, rfl⟩
  have hthird : FixedStep BalanceCall ⟨freedFirst, [⟨0x100030, 0⟩, ⟨0x100020, 0⟩]⟩
      ⟨free 0x100030 freedFirst, [⟨0x100020, 0⟩]⟩ :=
    ⟨@HeapStep.free _ ⟨freedFirst, _⟩ ⟨0x100030, 0⟩ (by simp)
      (linksOk_free (P := [_, _]) firstUnused_freedFirst.represents rfl rfl), rfl⟩
  have hsecond : FixedStep BalanceCall ⟨free 0x100030 freedFirst, [⟨0x100020, 0⟩]⟩
      ⟨free 0x100020 (free 0x100030 freedFirst), []⟩ :=
    ⟨@HeapStep.free _ ⟨free 0x100030 freedFirst, _⟩ ⟨0x100020, 0⟩ (by simp)
      (linksOk_free (P := [_]) hmerged rfl rfl), rfl⟩
  exact ⟨_, (hrun.tail hthird).tail hsecond, rfl, rfl⟩

/-- With a free block of no byte in front a request for no byte is balanced, and freeing all
    pointers leaves the first block. -/
theorem heap_balanced_three :
    (∃ h', malloc 4 0 freedFirst = some (.returned 0x100010 h') ∧
      Balanced freedFirst h' (free 0x100010 h')) ∧
    Represents (free 0x100020 (free 0x100030 freedFirst)) [⟨0x100000, 1 * 0x1000, false⟩] := by
  constructor
  · have hrun := heapRun_freedFirst LinksOk
      (linksOk_last (firstUnused_start heapRegion_page noHeaders) (by decide))
      (linksOk_last firstUnused_cutOne (by decide)) (linksOk_last firstUnused_cutTwo (by decide))
      (linksOk_free (P := []) represents_cutThree rfl rfl)
    have hlinks : LinksOk freedFirst (.malloc 0#32) := by
      intro P b Q hf
      obtain ⟨rfl, rfl, rfl⟩ := hf.unique firstUnused_freedFirst
      exact ⟨fun hnil => absurd hnil (by simp), fun c _ hcut => absurd hcut.1 (by decide)⟩
    have hprev : ∀ P b Q, FirstUnused freedFirst P b Q → PrevOk freedFirst P b := by
      intro P b Q hf
      obtain ⟨rfl, rfl, rfl⟩ := hf.unique firstUnused_freedFirst
      rfl
    obtain ⟨hfree, -⟩ := @heap_balanced _ _ ⟨freedFirst, _⟩ noHeaders heapRegion_page
    exact ⟨freedFirst.use 0x100000, rfl, (hfree hrun 0#32 4 _ _ hlinks hprev rfl (by decide)
      rfl).mpr fun _ _ _ _ _ => rfl⟩
  · obtain ⟨s, hrun, hlive, hheap⟩ := run_freed
    obtain ⟨-, hall⟩ := @heap_balanced _ _ s noHeaders heapRegion_page
    rw [← hheap]
    exact hall hrun hlive

/-- The sums are not kept by every call. -/
theorem not_heap_balanced : ¬ ∀ (old : ℕ → AllocT) (base pages : ℕ), HeapRegion base pages →
    ∀ s, HeapRun AnyCall old base pages s → ∀ (size : BitVec 32) (fuel p : ℕ) (h' : HeapState),
      malloc fuel size.toNat s.heap = some (.returned p h') → p ≠ 0 →
      h'.curHeap.heapEnd = s.heap.curHeap.heapEnd → Balanced s.heap h' (free p h') := by
  intro hall
  obtain ⟨p, h', hres, hp, hend⟩ : ∃ p h', malloc 4 (1#32).toNat
      (Client.start noHeaders 0x100000 1).heap = some (.returned p h') ∧ p ≠ 0 ∧
      h'.curHeap.heapEnd = (Client.start noHeaders 0x100000 1).heap.curHeap.heapEnd :=
    ⟨_, _, rfl, by decide, rfl⟩
  have hbal := hall noHeaders 0x100000 1 heapRegion_page _ ReflTransGen.refl 1#32 4 p h' hres hp hend
  have hzero := (balanced_iff heapRegion_page (heapInv_start heapRegion_page noHeaders)
    (start_linksOk 1#32) (fun P b Q => start_prevOk) hres hp hend).mp hbal
  exact absurd (hzero _ _ _ (firstUnused_start heapRegion_page noHeaders)
    ⟨by decide, by decide⟩) (by decide)

end Steps

end FirstOs
