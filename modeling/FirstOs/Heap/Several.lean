import FirstOs.Heap.Safety
import FirstOs.Memory.Undo

/-!
# Several heaps

`heap_create` takes the pages of a new heap from `alloc_page`, `set_current_heap` makes a heap the
current one, `get_current_heap` gives back its descriptor as `malloc` and `free` have left it, and
`heap_free` returns the pages. A client that keeps the descriptor of a heap while another one is
current finds the heap again as it was: a call writes to the headers of the current heap only. The
headers of a heap stay in its pages as long as no call cuts one off behind them.

## Main definitions

- `heapFree`, `getCurrentHeap`, `setCurrentHeap` — the three functions
- `Heaps`, `HeapsStep` — the heaps of a client beside other blocks of pages, and one step
- `OwnCall` — a call that meets no broken link and keeps to the pages of the heap

## Main results

- `BlockStep.mem_of_ne` — what a call leaves alone
- `heapsInv_of_run` — runs over several heaps
-/

namespace FirstOs

open AddressSpace Relation

/-- `heap_free`. -/
def heapFree {σ : Type} [AddressSpace σ] (s : σ) (heap : HeapT) : σ :=
  freePage s heap.heapStart heap.heapSize

/-- `get_current_heap`. -/
def getCurrentHeap (h : HeapState) : HeapT := h.curHeap

/-- `set_current_heap`. -/
def setCurrentHeap (heap : HeapT) (h : HeapState) : HeapState := { h with curHeap := heap }

/-- A heap the client holds the descriptor of, and its live allocations. -/
structure HeapUser where
  heap : HeapT
  live : List Allocation

namespace HeapUser

/-- The heap with the headers in memory. -/
def client (mem : ℕ → AllocT) (u : HeapUser) : Client := ⟨⟨u.heap, mem, []⟩, u.live⟩

/-- The pages of the heap. -/
def block (u : HeapUser) : Block := ⟨u.heap.heapStart, u.heap.heapSize⟩

/-- Where the pages of the heap end. -/
def limit (u : HeapUser) : ℕ := u.heap.heapStart + u.heap.heapSize * 0x1000

end HeapUser

/-- The page tables, `cur_heap` and the headers in memory, the live allocations of the current heap
    if there is one, the heaps beside it, and the other blocks of pages that were handed out. -/
structure Heaps where
  pages : Flat
  heap : HeapState
  live : Option (List Allocation)
  parked : List HeapUser
  others : List Block

namespace Heaps

variable (s : Heaps)

/-- The current heap, as `get_current_heap` gives it. -/
def current : Option HeapUser := s.live.map fun live => ⟨getCurrentHeap s.heap, live⟩

/-- All heaps. -/
def users : List HeapUser := s.current.toList ++ s.parked

/-- All blocks of pages that are handed out. -/
def held : List Block := s.users.map HeapUser.block ++ s.others

/-- No heap yet: `cur_heap` is zero. -/
def start (pages : Flat) (mem : ℕ → AllocT) : Heaps := ⟨pages, ⟨⟨0, 0, 0, 0⟩, mem, []⟩, none, [], []⟩

end Heaps

/-- A call that meets no broken link, and that cuts off no header behind the pages of the heap. -/
def OwnCall (h : HeapState) (call : HeapCall) : Prop :=
  LinksOk h call ∧ ∀ size, call = .malloc size → ∀ P b, FirstUnused h P b [] →
    ¬ Starves h b.addr size.toNat →
      b.addr + 32 ≤ h.curHeap.heapStart + h.curHeap.heapSize * 0x1000

/-- A step of a client with several heaps, beside other users of the page allocator. -/
inductive HeapsStep : Heaps → Heaps → Prop
  | create {s : Heaps} {n : ℕ} (hv : Block.Valid ⟨(allocPage s.pages n).1, n⟩) :
      HeapsStep s
        { s with
          pages := (allocPage s.pages n).2
          heap := { s.heap with mem := (heapCreate s.heap.mem (allocPage s.pages n).1 n).mem }
          parked := ⟨(heapCreate s.heap.mem (allocPage s.pages n).1 n).curHeap, []⟩ :: s.parked }
  | select {s : Heaps} {A B : List HeapUser} {u : HeapUser} (hu : s.parked = A ++ u :: B) :
      HeapsStep s
        { s with
          heap := setCurrentHeap u.heap s.heap
          live := some u.live
          parked := s.current.toList ++ (A ++ B) }
  | call {s : Heaps} {live : List Allocation} {t : Client} (hlive : s.live = some live)
      (hs : HeapStep OwnCall ⟨s.heap, live⟩ t) :
      HeapsStep s { s with heap := t.heap, live := some t.live }
  | dispose {s : Heaps} {live : List Allocation} (hlive : s.live = some live) :
      HeapsStep s { s with pages := heapFree s.pages (getCurrentHeap s.heap), live := none }
  | destroy {s : Heaps} {A B : List HeapUser} {u : HeapUser} (hu : s.parked = A ++ u :: B) :
      HeapsStep s { s with pages := heapFree s.pages u.heap, parked := A ++ B }
  | request {s : Heaps} {q : Request} (hv : (q.exec s.pages).1.Valid) :
      HeapsStep s
        { s with pages := (q.exec s.pages).2, others := (q.exec s.pages).1 :: s.others }
  | give {s : Heaps} {A B : List Block} {b : Block} (hb : s.others = A ++ b :: B) :
      HeapsStep s { s with pages := freePage s.pages b.addr b.pages, others := A ++ B }

-- ════════════════════════════════════════════════════════════════════════
-- What a call leaves alone
-- ════════════════════════════════════════════════════════════════════════

section Frame

variable {s t : Client} {L L' P Q : List HeapBlock} {c : HeapBlock} {call : HeapCall} {x : ℕ}

theorem HeapState.absorbIf_of_ne {h : HeapState} {p a n : ℕ} (hx : p ≠ 0 → x ≠ a) :
    (h.absorbIf p a n).mem x = h.mem x := by
  rw [absorbIf]
  split_ifs with hp
  · exact h.absorb_of_ne a n (hx hp.1)
  · rfl

/-- `free` writes to the header of the block, and to the one before when it names it. -/
theorem free_mem_of_ne {h : HeapState} {ptr : ℕ} (hL : Represents h (P ++ c :: Q))
    (hprev : PrevOk h P c) (hptr : ptr = c.addr + 16) (hx : ∀ b ∈ P ++ c :: Q, x ≠ b.addr) :
    (free ptr h).mem x = h.mem x := by
  have hlt := (hL.range c (by simp)).2.1
  have hcur : u32 (ptr + 0x100000000 - 16) = c.addr := by
    rw [hptr, u32]
    omega
  have hself : x ≠ c.addr := hx c (by simp)
  rw [free, hcur, HeapState.absorbIf_of_ne, HeapState.absorbIf_of_ne fun _ => hself,
    HeapState.modify_of_ne _ _ _ hself]
  intro hne
  have hname : ((h.modify c.addr fun y => { y with used := false }).mem c.addr).prev =
      (P.getLast?.map HeapBlock.addr).getD 0 := by
    rw [HeapState.modify_self]
    exact hprev
  rw [hname] at hne ⊢
  obtain rfl | ⟨R, e, rfl⟩ := List.eq_nil_or_concat' P
  · exact absurd rfl hne
  · rw [List.getLast?_concat]
    exact hx e (by simp)

/-- A call writes to the headers that are on the list before or after it. -/
theorem BlockStep.mem_of_ne (hs : BlockStep s L call t L') (hL : ∀ b ∈ L, x ≠ b.addr)
    (hL' : ∀ b ∈ L', x ≠ b.addr) : t.heap.mem x = s.heap.mem x := by
  cases hs with
  | @take P Q b _ _ _ _ _ =>
    exact s.heap.modify_of_ne b.addr (fun y => { y with used := true }) (hL b (by simp))
  | @cut P Q b size hf hQ _ hnew =>
    have hnew' : x ≠ b.addr + 16 :=
      hL' _ (List.mem_append_right _ (List.mem_cons_of_mem _ List.mem_cons_self))
    rw [← hf.represents.u32_add_sixteen hQ] at hnew'
    exact s.heap.split_of_ne b.addr size.toNat (hL b (by simp)) hnew'
  | @fail P b _ k _ _ =>
    change ((s.heap.grownBy b.addr k).setEnd _).mem x = s.heap.mem x
    rw [HeapState.setEnd_mem]
    exact s.heap.grownBy_of_ne b.addr k (hL b (by simp))
  | @cutLast P b size k hf hnew _ _ =>
    have hb : x ≠ b.addr := hL b (by simp)
    have hnew' : x ≠ b.addr + 16 :=
      hL' _ (List.mem_append_right _ (List.mem_cons_of_mem _ List.mem_cons_self))
    have hu : u32 (b.addr + 16) = b.addr + 16 := Nat.mod_eq_of_lt hnew
    rw [← hu] at hnew'
    exact ((s.heap.grownBy b.addr k).split_of_ne b.addr size.toNat hb hnew').trans
      (s.heap.grownBy_of_ne b.addr k hb)
  | @free P Q c d a hrep _ _ hptr hprev =>
    -- stated for any heap, so that `free` is not unfolded
    have hheap : ∀ g : HeapState, g.mem x = s.heap.mem x →
        (Client.mk g (s.live.erase a)).heap.mem x = s.heap.mem x := fun _ h => h
    exact hheap _ (free_mem_of_ne hrep hprev hptr hL)

/-- Freeing leaves headers where there were some. -/
theorem exists_addr_of_mem_freeList {d : HeapBlock} {b : HeapBlock}
    (hb : b ∈ freeList P c (d :: Q)) : ∃ e ∈ P ++ c :: d :: Q, e.addr = b.addr := by
  have hprev : ∀ (c' : HeapBlock) (R : List HeapBlock), c'.addr = c.addr →
      (∀ e ∈ R, e ∈ d :: Q) → b ∈ freePrev P c' R → ∃ e ∈ P ++ c :: d :: Q, e.addr = b.addr := by
    intro c' R hc hR hb
    obtain ⟨-, heq⟩ | ⟨S, e, rfl, -, heq⟩ := freePrev_cases P c' R
    · rw [heq, List.mem_append, List.mem_cons] at hb
      obtain hb | rfl | hb := hb
      · exact ⟨b, List.mem_append_left _ hb, rfl⟩
      · exact ⟨c, by simp, hc.symm⟩
      · exact ⟨b, List.mem_append_right _ (List.mem_cons_of_mem _ (hR b hb)), rfl⟩
    · rw [heq, List.mem_append, List.mem_cons] at hb
      obtain hb | rfl | hb := hb
      · exact ⟨b, by simp [hb], rfl⟩
      · exact ⟨e, by simp, rfl⟩
      · exact ⟨b, List.mem_append_right _ (List.mem_cons_of_mem _ (hR b hb)), rfl⟩
  cases hd : d.used with
  | true =>
    rw [freeList_used hd] at hb
    exact hprev { c with used := false } _ rfl (fun _ he => he) hb
  | false =>
    rw [freeList_unused hd] at hb
    exact hprev ({ c with used := false }.merge d) _ rfl
      (fun _ he => List.mem_cons_of_mem _ he) hb

/-- The headers on the list end at `limit` or before. -/
def EndsBy (limit : ℕ) (L : List HeapBlock) : Prop := ∀ b ∈ L, b.addr + 16 ≤ limit

/-- A call of its own keeps the headers of a heap in its pages. -/
theorem BlockStep.endsBy (hs : BlockStep s L call t L') (hok : OwnCall s.heap call)
    (hL : EndsBy (s.heap.curHeap.heapStart + s.heap.curHeap.heapSize * 0x1000) L) :
    EndsBy (s.heap.curHeap.heapStart + s.heap.curHeap.heapSize * 0x1000) L' := by
  generalize hend : s.heap.curHeap.heapStart + s.heap.curHeap.heapSize * 0x1000 = limit at hL ⊢
  cases hs with
  | take _ _ _ _ =>
    rw [EndsBy, List.forall_mem_append, List.forall_mem_cons] at hL ⊢
    exact hL
  | @cut P Q b size hf hQ hcut hnew =>
    obtain ⟨c, R, rfl⟩ := List.exists_cons_of_ne_nil hQ
    have hlt := hnew c List.mem_cons_self
    have hc := hL c (by simp)
    rw [EndsBy, List.forall_mem_append, List.forall_mem_cons] at hL
    rw [EndsBy, List.forall_mem_append, List.forall_mem_cons, List.forall_mem_cons]
    exact ⟨hL.1, hL.2.1, by dsimp only; omega, hL.2.2⟩
  | fail _ _ =>
    rw [EndsBy, List.forall_mem_append, List.forall_mem_singleton] at hL ⊢
    exact hL
  | @cutLast P b size k hf hnew hroom _ =>
    have hroom' := hok.2 size rfl P b hf hroom
    rw [EndsBy, List.forall_mem_append, List.forall_mem_singleton] at hL
    rw [EndsBy, List.forall_mem_append, List.forall_mem_cons, List.forall_mem_singleton]
    exact ⟨hL.1, hL.2, by dsimp only; omega⟩
  | free _ _ _ _ _ =>
    intro b hb
    obtain ⟨e, he, heq⟩ := exists_addr_of_mem_freeList hb
    rw [← heq]
    exact hL e he

/-- A heap is the same to its client when its own headers are. -/
theorem HeapInv.of_agree {base pages : ℕ} {heap : HeapT} {mem mem' : ℕ → AllocT}
    {st st' : List ℕ} {live : List Allocation} (hI : HeapInv base pages ⟨⟨heap, mem, st⟩, live⟩ L)
    (hmem : ∀ b ∈ L, mem' b.addr = mem b.addr) :
    HeapInv base pages ⟨⟨heap, mem', st'⟩, live⟩ L := by
  obtain ⟨⟨hlinked, hfields, hinc, hrange, hlast⟩, hunused, hset, hlive, hsizes, hstart, hsize⟩ := hI
  refine ⟨⟨?_, fun b hb => ?_, hinc, hrange, hlast⟩, hunused, hset, hlive, hsizes, hstart, hsize⟩
  · refine (Seg.congr fun a ha => ?_).mp hlinked
    obtain ⟨b, hb, rfl⟩ := List.mem_map.mp ha
    exact congrArg AllocT.next (hmem b hb).symm
  · change (mem' b.addr).size = _ ∧ (mem' b.addr).used = _
    rw [hmem b hb]
    exact hfields b hb

end Frame

-- ════════════════════════════════════════════════════════════════════════
-- Blocks of pages
-- ════════════════════════════════════════════════════════════════════════

/-- `pages` is `start` with the blocks `bs` handed out. -/
structure HandedOut (start pages : Flat) (bs : List Block) : Prop where
  lends : Lends start pages (lentPages bs)
  apart : Disjointed bs
  valid : ∀ b ∈ bs, b.Valid

namespace HandedOut

variable {start pages : Flat} {bs bs' : List Block} {b : Block}

theorem nil (start : Flat) : HandedOut start start [] :=
  ⟨lends_empty start, List.Pairwise.nil, fun _ hb => absurd hb List.not_mem_nil⟩

theorem perm (h : HandedOut start pages bs) (hp : bs.Perm bs') : HandedOut start pages bs' := by
  have hpages : lentPages bs' = lentPages bs := by
    rw [lentPages, lentPages, List.toFinset_eq_of_perm _ _ hp]
  exact ⟨hpages ▸ h.lends, (hp.pairwise_iff fun hd => hd.symm).mp h.apart,
    fun b hb => h.valid b (hp.mem_iff.mpr hb)⟩

theorem take (h : HandedOut start pages bs) (q : Request) (hv : (q.exec pages).1.Valid) :
    HandedOut start (q.exec pages).2 ((q.exec pages).1 :: bs) := by
  obtain ⟨hdis, hL⟩ := lends_exec h.lends q hv
  refine ⟨?_, List.Pairwise.cons (fun c hc => ?_) h.apart, List.forall_mem_cons.mpr ⟨hv, h.valid⟩⟩
  · rwa [lentPages_cons, Finset.union_comm]
  · refine Finset.disjoint_of_subset_right ?_ hdis.symm
    exact Finset.subset_biUnion_of_mem Block.window (List.mem_toFinset.mpr hc)

theorem give (h : HandedOut start pages (b :: bs)) (hz : AbsentZero start) :
    HandedOut start (freePage pages b.addr b.pages) bs := by
  obtain ⟨hb, hrest⟩ := List.pairwise_cons.mp h.apart
  have hvalid := List.forall_mem_cons.mp h.valid
  exact ⟨lends_freePageFrom (i := 0) h.lends hz (lentPages_cons b bs) (disjoint_lentPages hb)
    hvalid.1.2 (Nat.zero_le _), hrest, hvalid.2⟩

/-- The frames of the blocks are the ones that are not free any more. -/
theorem freePages_add (h : HandedOut start pages bs) :
    freePages pages.pmemUsed + (bs.map Block.pages).sum = freePages start.pmemUsed := by
  have hcount := h.lends.freePages_add_card
  rwa [card_lentPages bs h.apart] at hcount

end HandedOut

/-- A block of whole pages is a region. -/
theorem heapRegion_of_valid {pages : Flat} {n : ℕ} (hv : Block.Valid ⟨(allocPage pages n).1, n⟩) :
    HeapRegion (allocPage pages n).1 n := by
  obtain ⟨hne, hend⟩ := hv
  dsimp only at hne hend
  have hn : n ≠ 0 := by
    rintro rfl
    exact hne (by rw [allocPage, if_pos rfl])
  have halign : (allocPage pages n).1 % 0x1000 = 0 := by
    obtain ⟨he, -⟩ | ⟨i, -, -, -, -, he⟩ := allocPage_cases pages hn
    · exact absurd (by rw [he]) hne
    · rw [he] at hne ⊢
      rw [allocPageMap_fst pages i 0 hne, Nat.mul_mod_left]
  exact ⟨Nat.pos_of_ne_zero hne, halign, Nat.pos_of_ne_zero hn, by omega⟩

-- ════════════════════════════════════════════════════════════════════════
-- The invariant
-- ════════════════════════════════════════════════════════════════════════

/-- The headers of a heap form its list and lie in its pages, and its live pointers are those of
    its used blocks. -/
def Kept (mem : ℕ → AllocT) (u : HeapUser) : Prop :=
  HeapRegion u.heap.heapStart u.heap.heapSize ∧
    ∃ L, HeapInv u.heap.heapStart u.heap.heapSize (u.client mem) L ∧ EndsBy u.limit L

/-- The invariant of runs over several heaps. -/
structure HeapsInv (start : Flat) (s : Heaps) : Prop where
  handedOut : HandedOut start s.pages s.held
  kept : ∀ u ∈ s.users, Kept s.heap.mem u

section Invariant

variable {start : Flat} {s t : Heaps} {mem mem' : ℕ → AllocT} {u v : HeapUser} {x : ℕ}

theorem HeapRegion.mem_window {base pages : ℕ} (hr : HeapRegion base pages) :
    x / 0x1000 ∈ (Block.mk base pages).window ↔ base ≤ x ∧ x < base + pages * 0x1000 := by
  have halign := hr.aligned
  rw [Block.window, window, Finset.mem_Ico]
  dsimp only
  omega

/-- The headers of a heap are outside the pages of the others. -/
theorem Kept.of_agree (hu : Kept mem u)
    (hmem : ∀ x, x / 0x1000 ∈ u.block.window → mem' x = mem x) : Kept mem' u := by
  obtain ⟨hr, L, hI, hends⟩ := hu
  refine ⟨hr, L, hI.of_agree fun b hb => hmem _ (hr.mem_window.mpr ⟨hI.base_le hb, ?_⟩), hends⟩
  have hb16 := hends b hb
  rw [HeapUser.limit] at hb16
  omega

theorem users_pairwise (h : HandedOut start s.pages s.held) :
    s.users.Pairwise fun u v => Disjoint u.block.window v.block.window := by
  have happart := (List.pairwise_append.mp h.apart).1
  rwa [List.pairwise_map] at happart

theorem heapsInv_start (start : Flat) (mem : ℕ → AllocT) :
    HeapsInv start (Heaps.start start mem) :=
  ⟨HandedOut.nil start, fun _ hu => absurd hu List.not_mem_nil⟩

/-- The current heap comes first. -/
theorem users_of_live {live : List Allocation} (hlive : s.live = some live) :
    s.users = ⟨s.heap.curHeap, live⟩ :: s.parked := by
  rw [Heaps.users, Heaps.current, hlive]
  rfl

/-- A new heap is its root header. -/
theorem HeapsInv.create (hI : HeapsInv start s) {n : ℕ}
    (hv : Block.Valid ⟨(allocPage s.pages n).1, n⟩) :
    HeapsInv start
      { s with
        pages := (allocPage s.pages n).2
        heap := { s.heap with mem := (heapCreate s.heap.mem (allocPage s.pages n).1 n).mem }
        parked := ⟨(heapCreate s.heap.mem (allocPage s.pages n).1 n).curHeap, []⟩ :: s.parked } := by
  have hr := heapRegion_of_valid hv
  have htake := hI.handedOut.take ⟨false, n⟩ hv
  constructor
  · refine htake.perm ?_
    rw [Heaps.held, Heaps.users, Heaps.held, Heaps.users, ← List.cons_append, List.map_append,
      List.map_append, List.map_cons]
    exact (List.perm_middle.symm).append_right _
  · have hnew : Kept (heapCreate s.heap.mem (allocPage s.pages n).1 n).mem
        ⟨(heapCreate s.heap.mem (allocPage s.pages n).1 n).curHeap, []⟩ := by
      refine ⟨hr, _, (heapInv_start hr s.heap.mem).of_agree fun _ _ => rfl, fun b hb => ?_⟩
      obtain rfl := List.mem_singleton.mp hb
      have hne := hr.nonempty
      change (allocPage s.pages n).1 + 16 ≤ (allocPage s.pages n).1 + n * 0x1000
      omega
    intro u hu
    rw [Heaps.users, List.mem_append, List.mem_cons] at hu
    have hold : ∀ v ∈ s.users, Kept (heapCreate s.heap.mem (allocPage s.pages n).1 n).mem v := by
      intro v hv
      refine (hI.kept v hv).of_agree fun x hx => Function.update_of_ne ?_ _ _
      rintro rfl
      have hdis := (List.pairwise_cons.mp htake.apart).1 v.block
        (List.mem_append_left _ (List.mem_map_of_mem hv))
      refine Finset.disjoint_left.mp hdis (hr.mem_window.mpr ⟨le_rfl, ?_⟩) hx
      have hne := hr.nonempty
      omega
    obtain hu | rfl | hu := hu
    · exact hold u (List.mem_append_left _ hu)
    · exact hnew
    · exact hold u (List.mem_append_right _ hu)

/-- A call changes the current heap only. -/
theorem HeapsInv.call (hI : HeapsInv start s) {live : List Allocation} {c : Client}
    (hlive : s.live = some live) (hs : HeapStep OwnCall ⟨s.heap, live⟩ c) :
    HeapsInv start { s with heap := c.heap, live := some c.live } := by
  have husers := users_of_live hlive
  have hpair := users_pairwise hI.handedOut
  rw [husers, List.pairwise_cons] at hpair
  obtain ⟨hr, L, hL, hends⟩ := hI.kept ⟨s.heap.curHeap, live⟩ (by rw [husers]; simp)
  have hL : HeapInv _ _ ⟨s.heap, live⟩ L := hL.of_agree fun _ _ => rfl
  obtain ⟨call, L', hok, hb⟩ := heapStep_cases hr hL (fun _ hok => hok.1) hs
  have hL' := hb.heapInv hL
  have hends' := hb.endsBy hok hends
  have hstart : c.heap.curHeap.heapStart = s.heap.curHeap.heapStart := hL'.heapStart
  have hsize : c.heap.curHeap.heapSize = s.heap.curHeap.heapSize := hL'.heapSize
  constructor
  · have hheld := hI.handedOut
    rw [Heaps.held, husers] at hheld
    change HandedOut start s.pages
      (⟨c.heap.curHeap.heapStart, c.heap.curHeap.heapSize⟩ ::
        s.parked.map HeapUser.block ++ s.others)
    rw [hstart, hsize]
    exact hheld
  · refine List.forall_mem_cons.mpr ⟨?_, fun v hv => ?_⟩
    · change HeapRegion c.heap.curHeap.heapStart c.heap.curHeap.heapSize ∧
        ∃ L, HeapInv c.heap.curHeap.heapStart c.heap.curHeap.heapSize
            ⟨⟨c.heap.curHeap, c.heap.mem, []⟩, c.live⟩ L ∧
          EndsBy (c.heap.curHeap.heapStart + c.heap.curHeap.heapSize * 0x1000) L
      rw [hstart, hsize]
      exact ⟨hr, L', hL'.of_agree fun _ _ => rfl, hends'⟩
    · -- the headers before and after the call are in the pages of the current heap
      refine (hI.kept v (by rw [husers]; exact List.mem_cons_of_mem _ hv)).of_agree fun x hx => ?_
      have hout : ∀ {M : List HeapBlock} {d : Client},
          HeapInv s.heap.curHeap.heapStart s.heap.curHeap.heapSize d M →
          EndsBy (s.heap.curHeap.heapStart + s.heap.curHeap.heapSize * 0x1000) M →
          ∀ b ∈ M, x ≠ b.addr := by
        rintro M d hM hend b hb rfl
        refine Finset.disjoint_left.mp (hpair.1 v hv) (hr.mem_window.mpr ⟨hM.base_le hb, ?_⟩) hx
        have hb16 := hend b hb
        dsimp only
        omega
      exact hb.mem_of_ne (hout hL hends) (hout hL' hends')

/-- One step keeps the invariant. -/
theorem heapsInv_step (hz : AbsentZero start) (hI : HeapsInv start s) (hs : HeapsStep s t) :
    HeapsInv start t := by
  obtain ⟨hheld, hkept⟩ := hI
  cases hs with
  | create hv => exact HeapsInv.create ⟨hheld, hkept⟩ hv
  | @select A B u hu =>
    have hperm : s.users.Perm (u :: (s.current.toList ++ (A ++ B))) := by
      rw [Heaps.users, hu, ← List.append_assoc, ← List.append_assoc]
      exact List.perm_middle
    refine ⟨hheld.perm ((hperm.map _).append_right _), fun v hv => ?_⟩
    exact hkept v (hperm.mem_iff.mpr hv)
  | call hlive hs => exact HeapsInv.call ⟨hheld, hkept⟩ hlive hs
  | dispose hlive =>
    have husers := users_of_live hlive
    rw [Heaps.held, husers] at hheld
    rw [husers] at hkept
    exact ⟨hheld.give hz, (List.forall_mem_cons.mp hkept).2⟩
  | @destroy A B u hu =>
    have hperm : s.users.Perm (u :: (s.current.toList ++ (A ++ B))) := by
      rw [Heaps.users, hu, ← List.append_assoc, ← List.append_assoc]
      exact List.perm_middle
    refine ⟨(hheld.perm ((hperm.map _).append_right _)).give hz, fun v hv => ?_⟩
    exact hkept v (hperm.mem_iff.mpr (List.mem_cons_of_mem _ hv))
  | request hv => exact ⟨(hheld.take _ hv).perm List.perm_middle.symm, hkept⟩
  | @give A B b hb =>
    refine ⟨(hheld.perm ?_).give hz, hkept⟩
    rw [Heaps.held, hb, ← List.append_assoc]
    refine List.perm_middle.trans ?_
    rw [List.append_assoc]
    exact List.Perm.refl _

/-- **Heaps do not disturb each other, and give their pages back.** -/
theorem heapsInv_of_run (hz : AbsentZero start)
    (hrun : ReflTransGen HeapsStep (Heaps.start start mem) s) :
    (∀ u ∈ s.users, Kept s.heap.mem u) ∧
      (s.users.Pairwise fun u v =>
        Disjoint (Set.Ico u.heap.heapStart u.limit) (Set.Ico v.heap.heapStart v.limit)) ∧
      freePages s.pages.pmemUsed + (s.held.map Block.pages).sum = freePages start.pmemUsed ∧
      (s.held = [] → s.pages.tables = start.tables ∧ s.pages.pmemUsed = start.pmemUsed) := by
  have hI : HeapsInv start s :=
    Run.invariant (I := HeapsInv start) (fun _ _ hs hI => heapsInv_step hz hI hs) hrun
      (heapsInv_start start mem)
  obtain ⟨hheld, hkept⟩ := hI
  refine ⟨hkept, ?_, hheld.freePages_add, fun hnil => ?_⟩
  · refine (users_pairwise hheld).imp_of_mem fun {u v} hu hv hdis => ?_
    rw [Set.disjoint_left]
    intro x hxu hxv
    exact Finset.disjoint_left.mp hdis ((hkept u hu).1.mem_window.mpr hxu)
      ((hkept v hv).1.mem_window.mpr hxv)
  · have hlends := hheld.lends
    rw [hnil, lentPages_nil] at hlends
    exact hlends.eq_of_empty

end Invariant

/-! ### Two heaps -/

section Root

variable {base : ℕ} {mem : ℕ → AllocT} {st : List ℕ}

/-- A heap of one page that has only its root header, among other headers. -/
theorem heapInv_root (hr : HeapRegion base 1) (hroot : mem base = ⟨0x1000, false, 0, 0⟩) :
    HeapInv base 1 ⟨⟨⟨base, base, base, 1⟩, mem, st⟩, []⟩ [⟨base, 1 * 0x1000, false⟩] := by
  have hstart : HeapInv base 1
      ⟨⟨⟨base, base, base, 1⟩, (heapCreate noHeaders base 1).mem, []⟩, []⟩
      [⟨base, 1 * 0x1000, false⟩] := heapInv_start hr noHeaders
  refine hstart.of_agree fun b hb => ?_
  obtain rfl := List.mem_singleton.mp hb
  have hcreated : (heapCreate noHeaders base 1).mem base = ⟨0x1000, false, 0, 0⟩ :=
    Function.update_self ..
  exact hroot.trans hcreated.symm

/-- Every request to it is a call of its own. -/
theorem ownCall_root (hr : HeapRegion base 1) (hroot : mem base = ⟨0x1000, false, 0, 0⟩)
    (size : BitVec 32) : OwnCall ⟨⟨base, base, base, 1⟩, mem, st⟩ (.malloc size) := by
  have hbound := hr.bounded
  have hfirst : FirstUnused ⟨⟨base, base, base, 1⟩, mem, st⟩ [] ⟨base, 1 * 0x1000, false⟩ [] :=
    ⟨(heapInv_root hr hroot).toRepresents, fun c hc => absurd hc List.not_mem_nil, rfl⟩
  constructor
  · intro P b Q hf
    obtain ⟨rfl, rfl, rfl⟩ := hf.unique hfirst
    exact ⟨fun _ => .inl (by dsimp only; omega), fun c hc => absurd hc List.not_mem_nil⟩
  · intro size _ P b hf _
    obtain ⟨rfl, rfl, -⟩ := hf.unique hfirst
    dsimp only
    omega

/-- A request for four bytes cuts the root block. -/
theorem malloc_root (hr : HeapRegion base 1) (hroot : mem base = ⟨0x1000, false, 0, 0⟩) :
    HeapStep OwnCall ⟨⟨⟨base, base, base, 1⟩, mem, st⟩, []⟩
      ⟨(⟨⟨base, base, base, 1⟩, mem, st⟩ : HeapState).split base 4, [⟨u32 (base + 16), 4⟩]⟩ := by
  have hpos := hr.pos
  have hrun : malloc 2 4 ⟨⟨base, base, base, 1⟩, mem, st⟩ = some (.returned (u32 (base + 16))
      ((⟨⟨base, base, base, 1⟩, mem, st⟩ : HeapState).split base 4)) := by
    simp [malloc, mallocFrom, skipUsed, fitEqual, fitLarger, hroot, hpos.ne', u32]
  have hstep := @HeapStep.malloc OwnCall ⟨⟨⟨base, base, base, 1⟩, mem, st⟩, []⟩ 4#32 2 _ _
    (ownCall_root hr hroot 4#32) hrun
  have hne : u32 (base + 16) ≠ 0 := by
    have haligned := hr.aligned
    have hbound := hr.bounded
    simp only [u32]
    omega
  rwa [if_neg hne] at hstep

end Root

/-- The second page is the one behind the first. -/
theorem allocPage_fresh_second :
    (allocPage (mapAddr Flat.fresh 0xC0000000 0x800000) 1).1 = 0xC0001000 := by
  have hpresent : ∀ i, ((mapAddr Flat.fresh 0xC0000000 0x800000).tables i).present =
      decide (i = 0xC0000) := by
    intro i
    rw [mapAddr_present]
    rfl
  have hwindow : FirstWindow (mapAddr Flat.fresh 0xC0000000 0x800000) 1 0xC0001 := by
    refine ⟨by decide, by decide, fun k hk => ?_, fun v hv hv' => ⟨0, by decide, ?_⟩⟩
    · obtain rfl : k = 0 := by omega
      rw [hpresent]
      decide
    · obtain rfl : v = 0xC0000 := by omega
      rw [hpresent]
      decide
  have hcard : 0 < (freeFrames (mapAddr Flat.fresh 0xC0000000 0x800000).pmemUsed).card := by
    refine Finset.card_pos.mpr ⟨0x801, mem_freeFrames.mpr ⟨⟨by decide, by decide⟩, ?_⟩⟩
    have hused : (mapAddr Flat.fresh 0xC0000000 0x800000).pmemUsed =
        claimPhysPage (fun _ => 0) (0x800 * 0x1000) := Flat.mapAddr_pmemUsed ..
    rw [hused, claimPhysPage_frame, Bitmap.bit_set, Bitmap.bit_of_byte_eq_zero rfl]
    decide
  rw [allocPage_eq_of_window hwindow (by decide) hcard]

section Two

/-- The heaps at `0xC0000000` and `0xC0001000`, as created. -/
def rootHeap (base : ℕ) : HeapT := ⟨base, base, base, 1⟩

/-- The headers of the two new heaps. -/
def twoRoots : ℕ → AllocT := (heapCreate (heapCreate noHeaders 0xC0000000 1).mem 0xC0001000 1).mem

/-- The heaps after a request to the first one. -/
def firstCut : HeapState :=
  HeapState.split ⟨rootHeap 0xC0000000, twoRoots, []⟩ 0xC0000000 4

/-- The heaps after a request to the second one, too. -/
def secondCut : HeapState :=
  HeapState.split ⟨rootHeap 0xC0001000, firstCut.mem, firstCut.stored⟩ 0xC0001000 4

theorem heapRegion_first : HeapRegion 0xC0000000 1 :=
  ⟨by decide, by decide, by decide, by decide⟩

theorem heapRegion_second : HeapRegion 0xC0001000 1 :=
  ⟨by decide, by decide, by decide, by decide⟩

/-- Both heaps in use, the second one current. -/
def twoUsed : Heaps where
  pages := (allocPage (mapAddr Flat.fresh 0xC0000000 0x800000) 1).2
  heap := secondCut
  live := some [⟨0xC0001010, 4⟩]
  parked := [⟨⟨0xC0000000, 0xC0000000, 0xC0000010, 1⟩, [⟨0xC0000010, 4⟩]⟩]
  others := []

/-- Two heaps are created and used in turn. -/
theorem run_twoUsed : ReflTransGen HeapsStep (Heaps.start Flat.fresh noHeaders) twoUsed := by
  have hv₁ : Block.Valid ⟨(allocPage Flat.fresh 1).1, 1⟩ := by
    rw [allocPage_fresh_one]
    exact ⟨by decide, by decide⟩
  have hcreate₁ := @HeapsStep.create (Heaps.start Flat.fresh noHeaders) 1 hv₁
  rw [Heaps.start] at hcreate₁
  dsimp only at hcreate₁
  rw [allocPage_fresh_one] at hcreate₁
  have hv₂ : Block.Valid ⟨(allocPage (mapAddr Flat.fresh 0xC0000000 0x800000) 1).1, 1⟩ := by
    rw [allocPage_fresh_second]
    exact ⟨by decide, by decide⟩
  have hcreate₂ := @HeapsStep.create ⟨mapAddr Flat.fresh 0xC0000000 0x800000,
    ⟨⟨0, 0, 0, 0⟩, (heapCreate noHeaders 0xC0000000 1).mem, []⟩, none,
    [⟨rootHeap 0xC0000000, []⟩], []⟩ 1 hv₂
  dsimp only at hcreate₂
  rw [allocPage_fresh_second] at hcreate₂
  have hselect₁ := (ReflTransGen.single hcreate₁).tail hcreate₂ |>.tail
    (HeapsStep.select (A := [⟨rootHeap 0xC0001000, []⟩]) (B := []) rfl)
  have hcall₁ := hselect₁.tail (HeapsStep.call rfl (malloc_root heapRegion_first
    (show twoRoots 0xC0000000 = _ from rfl)))
  have hselect₂ := hcall₁.tail (HeapsStep.select (A := []) (B := []) rfl)
  have hcall₂ := hselect₂.tail (HeapsStep.call rfl (malloc_root heapRegion_second
    (show firstCut.mem 0xC0001000 = _ from rfl)))
  exact hcall₂

/-- They do not disturb each other, and their pages come back. -/
theorem heapsInv_of_run_two : (∀ u ∈ twoUsed.users, Kept secondCut.mem u) ∧
    ∃ t, ReflTransGen HeapsStep twoUsed t ∧ t.pages.tables = Flat.fresh.tables := by
  obtain ⟨hkept, -⟩ := heapsInv_of_run (fun _ _ _ => ⟨rfl, rfl⟩) run_twoUsed
  have hdispose : HeapsStep twoUsed _ := HeapsStep.dispose rfl
  have hend := (ReflTransGen.single hdispose).tail (HeapsStep.destroy (A := []) (B := []) rfl)
  have hback := (heapsInv_of_run (fun _ _ _ => ⟨rfl, rfl⟩) (run_twoUsed.trans hend)).2.2.2 rfl
  exact ⟨hkept, _, hend, hback.1⟩

end Two

end FirstOs
