import FirstOs.Heap.Cases
import FirstOs.Library.Run

/-!
# Runs of heap calls

A run is a sequence of `malloc` calls that return and of `free` calls on live
pointers. As long as no call meets one of the heap's broken links, the heap keeps
its list of blocks: the last block is unused, no two neighbours are unused, and the
live pointers are the payloads of the used blocks.

## Main definitions

- `Client`, `HeapStep` — a heap with its live allocations, and one call
- `FixedStep` — a call that does not move `heap_end`
- `LinksOk` — the calls that do not meet a broken link
- `HeapInv` — the invariant
- `BlockStep` — what a call does to the list of blocks

## Main results

- `heapStep_cases` — a call on a heap with the invariant is a `BlockStep`
- `heapInv_of_run` — the invariant holds along every run
-/

namespace FirstOs

open Relation

/-- A pointer `malloc` returned and the size it was asked for. -/
structure Allocation where
  ptr : ℕ
  size : ℕ
deriving DecidableEq

/-- The heap and the live allocations. -/
structure Client where
  heap : HeapState
  live : List Allocation

/-- A call of the heap code. -/
inductive HeapCall where
  | malloc (size : BitVec 32)
  | free (ptr : ℕ)

/-- A call that meets the condition `ok` and returns. -/
inductive HeapStep (ok : HeapState → HeapCall → Prop) : Client → Client → Prop
  | malloc {s : Client} {size : BitVec 32} {fuel p : ℕ} {h : HeapState}
      (hok : ok s.heap (.malloc size))
      (hr : malloc fuel size.toNat s.heap = some (.returned p h)) :
      HeapStep ok s ⟨h, if p = 0 then s.live else ⟨p, size.toNat⟩ :: s.live⟩
  | free {s : Client} {a : Allocation} (ha : a ∈ s.live) (hok : ok s.heap (.free a.ptr)) :
      HeapStep ok s ⟨free a.ptr s.heap, s.live.erase a⟩

/-- A call that does not move `heap_end`. -/
def FixedStep (ok : HeapState → HeapCall → Prop) (s t : Client) : Prop :=
  HeapStep ok s t ∧ t.heap.curHeap.heapEnd = s.heap.curHeap.heapEnd

/-- `b` is the first unused block on the list of `h`, between `P` and `Q`. -/
structure FirstUnused (h : HeapState) (P : List HeapBlock) (b : HeapBlock) (Q : List HeapBlock) :
    Prop where
  represents : Represents h (P ++ b :: Q)
  before : ∀ c ∈ P, c.used = true
  unused : b.used = false

/-- A block that is not the last one is cut for a request when 16 bytes and more remain. -/
def Cuts (b : HeapBlock) (size : ℕ) : Prop := size < b.size ∧ u32 (size + 16) ≤ b.size

/-- A call that does not meet a broken link: the header `malloc` cuts off does not fall on
    the next one or behind the address space, and the back pointer `free` follows names
    the block before. -/
def LinksOk (h : HeapState) : HeapCall → Prop
  | .malloc size => ∀ P b Q, FirstUnused h P b Q →
      (Q = [] → b.addr + 16 < 0x100000000 ∨ Starves h b.addr size.toNat) ∧
        ∀ c ∈ Q, Cuts b size.toNat → b.addr + 16 < c.addr
  | .free ptr => ∀ P c Q, Represents h (P ++ c :: Q) → c.addr + 16 = ptr → PrevOk h P c

/-- No two neighbours are unused. -/
def Settled (L : List HeapBlock) : Prop := L.IsChain fun b c => b.used = true ∨ c.used = true

/-- The pointers to the payloads of the used blocks. -/
def usedPtrs (L : List HeapBlock) : List ℕ := (L.filter HeapBlock.used).map fun b => b.addr + 16

/-- The invariant of a heap made by `heap_create`, with the list `L` of its blocks. -/
structure HeapInv (base pages : ℕ) (s : Client) (L : List HeapBlock) : Prop extends
    Represents s.heap L where
  lastUnused : L.getLast?.map HeapBlock.used = some false
  settled : Settled L
  live : (s.live.map Allocation.ptr).Perm (usedPtrs L)
  sizes : ∀ b ∈ L, b.size < 0x100000000
  heapStart : s.heap.curHeap.heapStart = base
  heapSize : s.heap.curHeap.heapSize = pages

/-- The pages of a heap are a range of the address space, as `alloc_page` returns it. -/
structure HeapRegion (base pages : ℕ) : Prop where
  pos : 0 < base
  aligned : base % 0x1000 = 0
  nonempty : 0 < pages
  bounded : base + pages * 0x1000 ≤ 0x100000000

/-- The client of a heap just created. -/
def Client.start (old : ℕ → AllocT) (base pages : ℕ) : Client := ⟨heapCreate old base pages, []⟩

/-- The clients a run of calls that meet the condition `ok` leads to. -/
def HeapRun (ok : HeapState → HeapCall → Prop) (old : ℕ → AllocT) (base pages : ℕ) (s : Client) :
    Prop :=
  ReflTransGen (HeapStep ok) (Client.start old base pages) s

/-- Every call is allowed. -/
def AnyCall : HeapState → HeapCall → Prop := fun _ _ => True

/-- Memory without a header, for runs on fixed inputs. -/
def noHeaders : ℕ → AllocT := fun _ => ⟨0, false, 0, 0⟩

theorem heapRegion_page : HeapRegion 0x100000 1 :=
  ⟨by decide, by decide, by decide, by decide⟩

section Lists

variable {P Q L : List HeapBlock} {b c d : HeapBlock}

theorem isChain_append_cons {R : HeapBlock → HeapBlock → Prop} : (P ++ b :: Q).IsChain R ↔
    P.IsChain R ∧ Q.IsChain R ∧ (∀ e ∈ P.getLast?, R e b) ∧ ∀ d ∈ Q.head?, R b d := by
  rw [List.isChain_append, List.isChain_cons]
  simp only [List.head?_cons, Option.mem_some_iff, forall_eq']
  tauto

theorem settled_append_cons : Settled (P ++ b :: Q) ↔ Settled P ∧ Settled Q ∧
    (∀ e ∈ P.getLast?, e.used = true ∨ b.used = true) ∧
      ∀ d ∈ Q.head?, b.used = true ∨ d.used = true :=
  isChain_append_cons

@[simp] theorem usedPtrs_append (P Q : List HeapBlock) :
    usedPtrs (P ++ Q) = usedPtrs P ++ usedPtrs Q := by
  simp [usedPtrs]

theorem usedPtrs_cons_used (hb : b.used = true) (Q : List HeapBlock) :
    usedPtrs (b :: Q) = (b.addr + 16) :: usedPtrs Q := by
  simp [usedPtrs, hb]

theorem usedPtrs_cons_unused (hb : b.used = false) (Q : List HeapBlock) :
    usedPtrs (b :: Q) = usedPtrs Q := by
  simp [usedPtrs, hb]

theorem getLast_append_cons (P : List HeapBlock) (b c : HeapBlock) (Q : List HeapBlock) :
    (P ++ b :: c :: Q).getLast? = (c :: Q).getLast? := by
  rw [List.getLast?_append_of_ne_nil _ (List.cons_ne_nil _ _), List.getLast?_cons_cons]

/-- A list that ends in an unused block has a first one. -/
theorem exists_first_unused (h : L.getLast?.map HeapBlock.used = some false) :
    ∃ P b Q, L = P ++ b :: Q ∧ (∀ c ∈ P, c.used = true) ∧ b.used = false := by
  induction L with
  | nil => exact absurd h (by simp)
  | cons b L ih =>
    cases hb : b.used with
    | false => exact ⟨[], b, L, rfl, fun c hc => absurd hc List.not_mem_nil, hb⟩
    | true =>
      cases L with
      | nil => simp [hb] at h
      | cons c L =>
        rw [List.getLast?_cons_cons] at h
        obtain ⟨P, d, Q, hL, hP, hd⟩ := ih h
        refine ⟨b :: P, d, Q, by rw [hL]; rfl, fun x hx => ?_, hd⟩
        obtain rfl | hx := List.mem_cons.mp hx
        · exact hb
        · exact hP x hx

/-- There is only one first unused block. -/
theorem first_unused_unique {P' Q' : List HeapBlock} {b' : HeapBlock}
    (h : P ++ b :: Q = P' ++ b' :: Q') (hP : ∀ c ∈ P, c.used = true) (hb : b.used = false)
    (hP' : ∀ c ∈ P', c.used = true) (hb' : b'.used = false) : P = P' ∧ b = b' ∧ Q = Q' := by
  induction P generalizing P' with
  | nil =>
    cases P' with
    | nil => exact ⟨rfl, List.cons.inj h⟩
    | cons c P' =>
      obtain ⟨rfl, -⟩ := List.cons.inj h
      rw [hP' b (List.mem_cons_self ..)] at hb
      exact absurd hb (by decide)
  | cons c P ih =>
    cases P' with
    | nil =>
      obtain ⟨rfl, -⟩ := List.cons.inj h
      rw [hP c (List.mem_cons_self ..)] at hb'
      exact absurd hb' (by decide)
    | cons c' P' =>
      obtain ⟨rfl, htail⟩ := List.cons.inj h
      obtain ⟨rfl, hbQ⟩ := ih htail (fun x hx => hP x (List.mem_cons_of_mem c hx))
        fun x hx => hP' x (List.mem_cons_of_mem c hx)
      exact ⟨rfl, hbQ⟩

/-- Of a settled list, the neighbours of an unused block are used. -/
theorem Settled.neighbours (h : Settled (P ++ b :: Q)) (hb : b.used = false) :
    (∀ e ∈ P.getLast?, e.used = true) ∧ ∀ d ∈ Q.head?, d.used = true := by
  obtain ⟨-, -, hP, hQ⟩ := settled_append_cons.mp h
  refine ⟨fun e he => (hP e he).resolve_right ?_, fun d hd => (hQ d hd).resolve_left ?_⟩
  · rw [hb]
    decide
  · rw [hb]
    decide

/-! ### The list after `free` -/

/-- What the merge with the previous block leaves, in the two cases. -/
theorem freePrev_cases (P : List HeapBlock) (c : HeapBlock) (Q : List HeapBlock) :
    ((∀ e ∈ P.getLast?, e.used = true) ∧ freePrev P c Q = P ++ c :: Q) ∨
      ∃ R e, P = R ++ [e] ∧ e.used = false ∧ freePrev P c Q = R ++ e.merge c :: Q := by
  obtain rfl | ⟨R, e, rfl⟩ := List.eq_nil_or_concat' P
  · exact Or.inl ⟨fun e he => absurd he (by simp), rfl⟩
  · cases he : e.used with
    | true =>
      refine Or.inl ⟨fun x hx => ?_, ?_⟩
      · rw [List.getLast?_concat, Option.mem_some_iff] at hx
        exact hx ▸ he
      · rw [freePrev_concat, if_pos he, List.append_assoc, List.singleton_append]
    | false =>
      refine Or.inr ⟨R, e, rfl, he, ?_⟩
      rw [freePrev_concat, he, if_neg (by decide)]

theorem settled_freePrev (hP : Settled P) (hQ : Settled Q)
    (hhead : ∀ d ∈ Q.head?, d.used = true) : Settled (freePrev P c Q) := by
  obtain ⟨hlast, heq⟩ | ⟨R, e, rfl, he, heq⟩ := freePrev_cases P c Q
  · rw [heq, settled_append_cons]
    exact ⟨hP, hQ, fun e he => Or.inl (hlast e he), fun d hd => Or.inr (hhead d hd)⟩
  · rw [heq, settled_append_cons]
    exact ⟨(settled_append_cons.mp hP).1, hQ, fun x hx => Or.inl ((hP.neighbours he).1 x hx),
      fun d hd => Or.inr (hhead d hd)⟩

/-- Freeing settles the list. -/
theorem settled_freeList (h : Settled (P ++ c :: d :: Q)) : Settled (freeList P c (d :: Q)) := by
  obtain ⟨hP, hQ, -, -⟩ := settled_append_cons.mp h
  cases hd : d.used with
  | true =>
    rw [freeList_used hd]
    exact settled_freePrev hP hQ fun x hx => by
      rw [List.head?_cons, Option.mem_some_iff] at hx
      exact hx ▸ hd
  | false =>
    rw [freeList_unused hd]
    exact settled_freePrev hP (settled_append_cons (P := []).mp hQ).2.1
      (Settled.neighbours (P := []) hQ hd).2

theorem usedPtrs_freePrev (hc : c.used = false) :
    usedPtrs (freePrev P c Q) = usedPtrs P ++ usedPtrs Q := by
  obtain ⟨-, heq⟩ | ⟨R, e, rfl, he, heq⟩ := freePrev_cases P c Q
  · rw [heq, usedPtrs_append, usedPtrs_cons_unused hc]
  · rw [heq, usedPtrs_append, usedPtrs_append, usedPtrs_cons_unused (b := e.merge c) he,
      usedPtrs_cons_unused he]
    simp [usedPtrs]

/-- Freeing takes the block away from the used ones. -/
theorem usedPtrs_freeList : usedPtrs (freeList P c (d :: Q)) = usedPtrs P ++ usedPtrs (d :: Q) := by
  cases hd : d.used with
  | true => rw [freeList_used hd, usedPtrs_freePrev rfl]
  | false => rw [freeList_unused hd, usedPtrs_freePrev rfl, usedPtrs_cons_unused hd]

theorem freePrev_getLast (hc : c.used = false)
    (hQ : Q ≠ [] → Q.getLast?.map HeapBlock.used = some false) :
    (freePrev P c Q).getLast?.map HeapBlock.used = some false := by
  have hlast : ∀ x : HeapBlock, x.used = false → ∀ R : List HeapBlock,
      (R ++ x :: Q).getLast?.map HeapBlock.used = some false := by
    intro x hx R
    cases Q with
    | nil => simp [hx]
    | cons d Q => rw [getLast_append_cons, hQ (List.cons_ne_nil d Q)]
  obtain ⟨-, heq⟩ | ⟨R, e, rfl, he, heq⟩ := freePrev_cases P c Q
  · rw [heq]
    exact hlast c hc P
  · rw [heq]
    exact hlast (e.merge c) he R

theorem freeList_getLast (h : (d :: Q).getLast?.map HeapBlock.used = some false) :
    (freeList P c (d :: Q)).getLast?.map HeapBlock.used = some false := by
  cases hd : d.used with
  | true =>
    rw [freeList_used hd]
    exact freePrev_getLast rfl fun _ => h
  | false =>
    rw [freeList_unused hd]
    refine freePrev_getLast rfl fun hne => ?_
    obtain ⟨e, R, rfl⟩ := List.exists_cons_of_ne_nil hne
    rwa [List.getLast?_cons_cons] at h

theorem forall_freePrev {p : HeapBlock → Prop} (hP : ∀ x ∈ P, p x) (hc : p c) (hQ : ∀ x ∈ Q, p x)
    (hmerge : ∀ a n, p (HeapBlock.merge a n)) : ∀ x ∈ freePrev P c Q, p x := by
  obtain ⟨-, heq⟩ | ⟨R, e, rfl, -, heq⟩ := freePrev_cases P c Q
  · rw [heq, List.forall_mem_append, List.forall_mem_cons]
    exact ⟨hP, hc, hQ⟩
  · rw [heq, List.forall_mem_append, List.forall_mem_cons]
    exact ⟨(List.forall_mem_append.mp hP).1, hmerge e c, hQ⟩

/-- What holds of all blocks, of the freed block and of merged blocks, holds after freeing. -/
theorem forall_freeList {p : HeapBlock → Prop} (h : ∀ x ∈ P ++ c :: d :: Q, p x)
    (hc : p { c with used := false }) (hmerge : ∀ a n, p (HeapBlock.merge a n)) :
    ∀ x ∈ freeList P c (d :: Q), p x := by
  obtain ⟨hP, hcQ⟩ := List.forall_mem_append.mp h
  obtain ⟨-, hQ⟩ := List.forall_mem_cons.mp hcQ
  cases hd : d.used with
  | true =>
    rw [freeList_used hd]
    exact forall_freePrev hP hc hQ hmerge
  | false =>
    rw [freeList_unused hd]
    exact forall_freePrev hP (hmerge _ _) (List.forall_mem_cons.mp hQ).2 hmerge

end Lists

/-- What a call does: the list `L` of the heap of `s` becomes the list of the heap of `t`. -/
inductive BlockStep (s : Client) :
    (L : List HeapBlock) → HeapCall → (t : Client) → List HeapBlock → Prop
  | take {P Q : List HeapBlock} {b : HeapBlock} {size : BitVec 32} (hf : FirstUnused s.heap P b Q)
      (hQ : Q ≠ []) (hsize : size.toNat ≤ b.size)
      (hfit : b.size = size.toNat ∨ b.size < u32 (size.toNat + 16)) :
      BlockStep s (P ++ b :: Q) (.malloc size)
        ⟨s.heap.use b.addr, ⟨b.addr + 16, size.toNat⟩ :: s.live⟩
        (P ++ ⟨b.addr, b.size, true⟩ :: Q)
  | cut {P Q : List HeapBlock} {b : HeapBlock} {size : BitVec 32} (hf : FirstUnused s.heap P b Q)
      (hQ : Q ≠ []) (hcut : Cuts b size.toNat) (hnew : ∀ c ∈ Q, b.addr + 16 < c.addr) :
      BlockStep s (P ++ b :: Q) (.malloc size)
        ⟨s.heap.split b.addr size.toNat, ⟨b.addr + 16, size.toNat⟩ :: s.live⟩
        (P ++ ⟨b.addr, size.toNat, true⟩ ::
          ⟨b.addr + 16, u32 (b.size + 0x100000000 - 16), false⟩ :: Q)
  | fail {P : List HeapBlock} {b : HeapBlock} {size : BitVec 32} {k : ℕ}
      (hf : FirstUnused s.heap P b [])
      (hmoved : (s.heap.grownBy b.addr (k + 1)).curHeap.heapEnd ≠ s.heap.curHeap.heapEnd) :
      BlockStep s (P ++ [b]) (.malloc size) ⟨(s.heap.grownBy b.addr k).growHeap, s.live⟩
        (P ++ [⟨b.addr, ((s.heap.grownBy b.addr k).mem b.addr).size, false⟩])
  | cutLast {P : List HeapBlock} {b : HeapBlock} {size : BitVec 32} {k : ℕ}
      (hf : FirstUnused s.heap P b []) (hnew : b.addr + 16 < 0x100000000)
      (hroom : ¬ Starves s.heap b.addr size.toNat)
      (hk : k = 0 ∧ Cuts b size.toNat ∨
        (s.heap.grownBy b.addr k).curHeap.heapEnd ≠ s.heap.curHeap.heapEnd) :
      BlockStep s (P ++ [b]) (.malloc size)
        ⟨(s.heap.grownBy b.addr k).split b.addr size.toNat, ⟨b.addr + 16, size.toNat⟩ :: s.live⟩
        (P ++ [⟨b.addr, size.toNat, true⟩,
          ⟨b.addr + 16, u32 (((s.heap.grownBy b.addr k).mem b.addr).size + 0x100000000 - 16), false⟩])
  | free {P Q : List HeapBlock} {c d : HeapBlock} {a : Allocation}
      (hrep : Represents s.heap (P ++ c :: d :: Q)) (ha : a ∈ s.live) (hc : c.used = true)
      (hptr : a.ptr = c.addr + 16) (hprev : PrevOk s.heap P c) :
      BlockStep s (P ++ c :: d :: Q) (.free a.ptr) ⟨FirstOs.free a.ptr s.heap, s.live.erase a⟩
        (freeList P c (d :: Q))

section Steps

variable {base pages : ℕ} {s t : Client} {L P Q : List HeapBlock} {b c d : HeapBlock}

theorem heapInv_start (hr : HeapRegion base pages) (old : ℕ → AllocT) :
    HeapInv base pages (Client.start old base pages) [⟨base, pages * 0x1000, false⟩] := by
  obtain ⟨hpos, halign, hne, hbound⟩ := hr
  have hmem : (heapCreate old base pages).mem base =
      { size := u32 (pages * 0x1000), used := false, next := 0, prev := 0 } :=
    Function.update_self ..
  have hsize : u32 (pages * 0x1000) = pages * 0x1000 := by
    simp only [u32]
    omega
  refine ⟨⟨⟨rfl, ?_⟩, ?_, List.pairwise_singleton _ _, ?_, rfl⟩, rfl,
    List.isChain_singleton _, List.Perm.refl _, ?_, rfl, rfl⟩
  · show ((heapCreate old base pages).mem base).next = 0
    rw [hmem]
  · intro b hb
    rw [List.mem_singleton] at hb
    subst hb
    show ((heapCreate old base pages).mem base).size = _ ∧
      ((heapCreate old base pages).mem base).used = _
    rw [hmem, hsize]
    exact ⟨rfl, rfl⟩
  · intro b hb
    rw [List.mem_singleton] at hb
    subst hb
    exact ⟨hpos, by show base < _; omega, by show base % 16 = 0; omega⟩
  · intro b hb
    rw [List.mem_singleton] at hb
    subst hb
    show pages * 0x1000 < 0x100000000
    omega

/-- Addresses of neighbours are 16 bytes apart or more. -/
theorem Represents.add_sixteen_le {h : HeapState} (hL : Represents h (P ++ b :: Q))
    (hc : c ∈ Q) : b.addr + 16 ≤ c.addr := by
  obtain ⟨-, hinc, -⟩ := List.pairwise_append.mp hL.increasing
  have hlt := (List.pairwise_cons.mp hinc).1 c hc
  have hb := (hL.range b (by simp)).2.2
  have hc' := (hL.range c (by simp [hc])).2.2
  omega

theorem Represents.u32_add_sixteen {h : HeapState} (hL : Represents h (P ++ b :: Q)) (hQ : Q ≠ []) :
    u32 (b.addr + 16) = b.addr + 16 := by
  obtain ⟨c, R, rfl⟩ := List.exists_cons_of_ne_nil hQ
  have hle := hL.add_sixteen_le (List.mem_cons_self ..)
  have hlt := (hL.range c (by simp)).2.1
  exact Nat.mod_eq_of_lt (hle.trans_lt hlt)

theorem getLast_map_used_of_mem (h : (P ++ b :: Q).getLast?.map HeapBlock.used = some false)
    (hb : b.used = true) : ∃ d R, Q = d :: R := by
  cases Q with
  | nil => simp [hb] at h
  | cons d R => exact ⟨d, R, rfl⟩

/-- A live pointer belongs to a used block. -/
theorem HeapInv.block_of_live (hI : HeapInv base pages s L) {a : Allocation} (ha : a ∈ s.live) :
    ∃ P c d Q, L = P ++ c :: d :: Q ∧ c.used = true ∧ a.ptr = c.addr + 16 := by
  have hmem := hI.live.mem_iff.mp (List.mem_map_of_mem ha)
  obtain ⟨c, hc, hptr⟩ := List.mem_map.mp hmem
  obtain ⟨hcL, hused⟩ := List.mem_filter.mp hc
  obtain ⟨P, Q, rfl⟩ := List.append_of_mem hcL
  obtain ⟨d, R, rfl⟩ := getLast_map_used_of_mem hI.lastUnused hused
  exact ⟨P, c, d, R, rfl, hused, hptr.symm⟩

/-- One more used block, one more live pointer. -/
theorem live_cons {live : List Allocation} {X Y : List HeapBlock} {a : Allocation}
    (h : (live.map Allocation.ptr).Perm (usedPtrs X ++ usedPtrs Y)) :
    ((a :: live).map Allocation.ptr).Perm (usedPtrs X ++ a.ptr :: usedPtrs Y) :=
  (List.Perm.cons a.ptr h).trans List.perm_middle.symm

/-- One used block less, one live pointer less. -/
theorem live_erase {live : List Allocation} {X Y : List ℕ} {a : Allocation} (ha : a ∈ live)
    (h : (live.map Allocation.ptr).Perm (X ++ a.ptr :: Y)) :
    ((live.erase a).map Allocation.ptr).Perm (X ++ Y) := by
  have hperm := ((List.perm_cons_erase ha).map Allocation.ptr).symm.trans h
  exact (hperm.trans List.perm_middle).cons_inv

theorem HeapInv.exists_firstUnused (hI : HeapInv base pages s L) :
    ∃ P b Q, L = P ++ b :: Q ∧ FirstUnused s.heap P b Q := by
  obtain ⟨P, b, Q, rfl, hP, hb⟩ := exists_first_unused hI.lastUnused
  exact ⟨P, b, Q, rfl, hI.toRepresents, hP, hb⟩

/-! ### `heap_end` -/

theorem HeapRegion.pages_le (hr : HeapRegion base pages) : pages ≤ 0x100000 := by
  obtain ⟨-, -, -, hbound⟩ := hr
  omega

theorem HeapRegion.base_lt (hr : HeapRegion base pages) : base < 0x100000000 := by
  obtain ⟨-, -, hne, hbound⟩ := hr
  omega

theorem heapEnd_grownBy_succ (h : HeapState) (a k : ℕ) :
    (h.grownBy a (k + 1)).curHeap.heapEnd = u32 (h.curHeap.heapEnd + 0x1000 * (k + 1)) := by
  induction k with
  | zero => exact grownBy_succ_heapEnd h a 0
  | succ k ih =>
    rw [grownBy_succ_heapEnd, ih]
    simp only [u32]
    omega

/-- The heap does not grow often enough for `heap_end` to come back. -/
theorem heapEnd_moves {h : HeapState} {a k : ℕ} (hstart : h.curHeap.heapStart < 0x100000000)
    (hsize : h.curHeap.heapSize ≤ 0x100000) (hg : Grows h a 0 k) :
    (h.grownBy a (k + 1)).curHeap.heapEnd ≠ h.curHeap.heapEnd := by
  have hk : k ≤ 0x101 := by
    cases k with
    | zero => exact Nat.zero_le _
    | succ k =>
      have hlen := @grownLength_of_grows h a 0 k hstart (by omega)
        ⟨Nat.zero_le k, fun j hj hj' => hg.2 j hj (Nat.lt_succ_of_lt hj')⟩
      have hlast := (canGrow_iff _).mp (hg.2 k (Nat.zero_le k) (Nat.lt_add_one k))
      rw [h.grownBy_heapSize] at hlast
      omega
  rw [heapEnd_grownBy_succ]
  simp only [u32]
  omega

theorem FirstUnused.firstUnusedAt {h : HeapState} (hf : FirstUnused h P b Q) :
    FirstUnusedAt h b.addr :=
  hf.represents.firstUnusedAt hf.before hf.unused

theorem FirstUnused.unique {h : HeapState} {P' Q' : List HeapBlock} {b' : HeapBlock}
    (hf : FirstUnused h P b Q) (hf' : FirstUnused h P' b' Q') : P = P' ∧ b = b' ∧ Q = Q' :=
  first_unused_unique (hf.represents.unique hf'.represents) hf.before hf.unused hf'.before
    hf'.unused

/-- The first unused block of a heap just created is its only one. -/
theorem firstUnused_start (hr : HeapRegion base pages) (old : ℕ → AllocT) :
    FirstUnused (Client.start old base pages).heap [] ⟨base, pages * 0x1000, false⟩ [] :=
  ⟨(heapInv_start hr old).toRepresents, fun _ hc => absurd hc List.not_mem_nil, rfl⟩

/-! ### A call is a step on the list -/

/-- A request that ends at the last block. -/
theorem BlockStep.of_endsAtLast {size : BitVec 32} {p : ℕ} {h : HeapState}
    (hf : FirstUnused s.heap P b [])
    (hstart : s.heap.curHeap.heapStart < 0x100000000)
    (hsize : s.heap.curHeap.heapSize ≤ 0x100000)
    (hlast : b.addr + 16 < 0x100000000 ∨ Starves s.heap b.addr size.toNat)
    (hends : EndsAtLast s.heap b.addr size.toNat 0 (.returned p h)) :
    ∃ L', BlockStep s (P ++ [b]) (.malloc size)
      ⟨h, if p = 0 then s.live else ⟨p, size.toNat⟩ :: s.live⟩ L' := by
  have hfail : ∀ {k : ℕ}, Grows s.heap b.addr 0 k →
      MallocResult.returned p h = .returned 0 (s.heap.grownBy b.addr k).growHeap →
      ∃ L', BlockStep s (P ++ [b]) (.malloc size)
        ⟨h, if p = 0 then s.live else ⟨p, size.toNat⟩ :: s.live⟩ L' := by
    intro k hg hret
    obtain ⟨rfl, rfl⟩ := MallocResult.returned.inj hret
    rw [if_pos rfl]
    exact ⟨_, BlockStep.fail hf (heapEnd_moves hstart hsize hg)⟩
  obtain hnew | hstarves := hlast
  case inr =>
    obtain ⟨k, hg, hret⟩ := hends.of_starves hstarves
    exact hfail hg hret
  have hu : u32 (b.addr + 16) = b.addr + 16 := Nat.mod_eq_of_lt hnew
  have hne : b.addr + 16 ≠ 0 := Nat.succ_ne_zero _
  obtain ⟨k, hg, hret | ⟨hlt, ⟨hle, hret⟩ | hret⟩⟩ := hends
  · exact hfail hg hret
  · obtain ⟨rfl, rfl⟩ := MallocResult.returned.inj hret
    rw [hu, if_neg hne]
    refine ⟨_, BlockStep.cutLast hf hnew (not_starves hg hlt) ?_⟩
    cases k with
    | zero =>
      rw [HeapState.grownBy, hf.represents.mem_self.1] at hlt hle
      exact Or.inl ⟨rfl, hlt, hle⟩
    | succ k =>
      exact Or.inr (heapEnd_moves hstart hsize
        ⟨Nat.zero_le k, fun j hj hj' => hg.2 j hj (Nat.lt_succ_of_lt hj')⟩)
  · obtain ⟨rfl, rfl⟩ := MallocResult.returned.inj hret
    rw [hu, if_neg hne]
    exact ⟨_, BlockStep.cutLast hf hnew (not_starves hg hlt)
      (Or.inr (heapEnd_moves hstart hsize hg))⟩

/-- A call on a heap with the invariant that meets no broken link. -/
theorem heapStep_cases {ok : HeapState → HeapCall → Prop} (hr : HeapRegion base pages)
    (hI : HeapInv base pages s L) (hlinks : ∀ call, ok s.heap call → LinksOk s.heap call)
    (hs : HeapStep ok s t) : ∃ call L', ok s.heap call ∧ BlockStep s L call t L' := by
  cases hs with
  | @malloc size fuel p h hok hres =>
    obtain ⟨P, b, Q, rfl, hf⟩ := hI.exists_firstUnused
    obtain ⟨hlast, hinner⟩ := hlinks _ hok P b Q hf
    have hne : b.addr + 16 ≠ 0 := Nat.succ_ne_zero _
    have hmem := hf.represents.mem_self.1
    obtain ⟨hin, hle, hfit, hret⟩ | ⟨hin, hlt, hle, hret⟩ | ⟨hend, hends⟩ :=
      malloc_cases hf.firstUnusedAt hres
    · have hQ : Q ≠ [] := fun hnil => hin (hf.represents.last_iff.mpr hnil)
      rw [hmem] at hle hfit
      obtain ⟨rfl, rfl⟩ := MallocResult.returned.inj hret
      rw [hf.represents.u32_add_sixteen hQ, if_neg hne]
      exact ⟨_, _, hok, BlockStep.take hf hQ hle hfit⟩
    · have hQ : Q ≠ [] := fun hnil => hin (hf.represents.last_iff.mpr hnil)
      rw [hmem] at hlt hle
      obtain ⟨rfl, rfl⟩ := MallocResult.returned.inj hret
      rw [hf.represents.u32_add_sixteen hQ, if_neg hne]
      exact ⟨_, _, hok, BlockStep.cut hf hQ ⟨hlt, hle⟩ fun c hc => hinner c hc ⟨hlt, hle⟩⟩
    · obtain rfl := hf.represents.last_iff.mp hend
      obtain ⟨L', hstep⟩ := BlockStep.of_endsAtLast hf (hI.heapStart ▸ hr.base_lt)
        (hI.heapSize ▸ hr.pages_le) (hlast rfl) hends
      exact ⟨_, L', hok, hstep⟩
  | @free a ha hok =>
    obtain ⟨P, c, d, Q, rfl, hc, hptr⟩ := hI.block_of_live ha
    have hprev := hlinks _ hok P c (d :: Q) hI.toRepresents hptr.symm
    exact ⟨_, _, hok, BlockStep.free hI.toRepresents ha hc hptr hprev⟩

/-- Replacing an unused block by a used one and unused ones keeps the list settled. -/
theorem settled_take {R : List HeapBlock} (h : Settled (P ++ b :: Q)) (hc : c.used = true)
    (hR : Settled R) : Settled (P ++ c :: R) :=
  settled_append_cons.mpr ⟨(settled_append_cons.mp h).1, hR, fun _ _ => Or.inr hc,
    fun _ _ => Or.inl hc⟩

theorem settled_cut (h : Settled (P ++ b :: Q)) (hb : b.used = false) : Settled (d :: Q) :=
  settled_append_cons (P := []).mpr ⟨List.isChain_nil, (settled_append_cons.mp h).2.1,
    fun _ he => absurd he (by simp), fun x hx => Or.inr ((h.neighbours hb).2 x hx)⟩

theorem live_take {x : List Allocation} {R : List HeapBlock} {a : Allocation}
    (h : (x.map Allocation.ptr).Perm (usedPtrs (P ++ b :: Q))) (hb : b.used = false)
    (hc : c.used = true) (ha : a.ptr = c.addr + 16) (hR : usedPtrs R = usedPtrs Q) :
    ((a :: x).map Allocation.ptr).Perm (usedPtrs (P ++ c :: R)) := by
  rw [usedPtrs_append, usedPtrs_cons_unused hb] at h
  rw [usedPtrs_append, usedPtrs_cons_used hc, hR, ← ha]
  exact live_cons h

theorem u32_lt (n : ℕ) : u32 n < 0x100000000 := Nat.mod_lt n (by decide)

theorem grownBy_size_lt {h : HeapState} {a : ℕ} (ha : (h.mem a).size < 0x100000000) (k : ℕ) :
    ((h.grownBy a k).mem a).size < 0x100000000 := by
  cases k with
  | zero => exact ha
  | succ k =>
    rw [HeapState.grownBy_succ, HeapState.addSize, HeapState.modify_self]
    exact u32_lt _

/-- Sizes are machine words. -/
theorem BlockStep.sizes {call : HeapCall} {L' : List HeapBlock} (hs : BlockStep s L call t L')
    (hL : ∀ b ∈ L, b.size < 0x100000000) : ∀ b ∈ L', b.size < 0x100000000 := by
  cases hs with
  | @take P Q b size hf _ _ _ =>
    rw [List.forall_mem_append, List.forall_mem_cons] at hL ⊢
    exact hL
  | @cut P Q b size hf _ _ _ =>
    rw [List.forall_mem_append, List.forall_mem_cons] at hL
    rw [List.forall_mem_append, List.forall_mem_cons, List.forall_mem_cons]
    exact ⟨hL.1, size.isLt, u32_lt _, hL.2.2⟩
  | @fail P b size k hf _ =>
    rw [List.forall_mem_append, List.forall_mem_singleton] at hL ⊢
    have hb := hL.2
    rw [← hf.represents.mem_self.1] at hb
    exact ⟨hL.1, grownBy_size_lt hb k⟩
  | @cutLast P b size k hf _ _ _ =>
    rw [List.forall_mem_append] at hL
    rw [List.forall_mem_append, List.forall_mem_cons, List.forall_mem_singleton]
    exact ⟨hL.1, size.isLt, u32_lt _⟩
  | @free P Q c d a _ _ _ _ _ =>
    exact forall_freeList hL (hL c (by simp)) fun _ _ => u32_lt _

/-- A step keeps the invariant. -/
theorem BlockStep.heapInv {call : HeapCall} {L' : List HeapBlock} (hs : BlockStep s L call t L')
    (hI : HeapInv base pages s L) : HeapInv base pages t L' := by
  have hsizes := hs.sizes hI.sizes
  obtain ⟨hrep, hlast, hset, hlive, -, hstart, hsize⟩ := hI
  cases hs with
  | @take P Q b size hf hQ _ _ =>
    obtain ⟨c, R, rfl⟩ := List.exists_cons_of_ne_nil hQ
    refine ⟨hrep.setUsed true, ?_, settled_take hset rfl (settled_append_cons.mp hset).2.1,
      live_take hlive hf.unused rfl rfl rfl, hsizes, hstart, hsize⟩
    rw [getLast_append_cons] at hlast ⊢
    exact hlast
  | @cut P Q b size hf hQ _ hnew =>
    obtain ⟨c, R, rfl⟩ := List.exists_cons_of_ne_nil hQ
    have hlt : b.addr + 16 < 0x100000000 :=
      (hnew c (List.mem_cons_self ..)).trans (hrep.range c (by simp)).2.1
    refine ⟨hrep.split hlt hnew _, ?_, settled_take hset rfl (settled_cut hset hf.unused),
      live_take hlive hf.unused rfl rfl (usedPtrs_cons_unused rfl _), hsizes, ?_, ?_⟩
    · rw [getLast_append_cons] at hlast ⊢
      rwa [List.getLast?_cons_cons]
    · rw [HeapState.split_heapStart, hstart]
    · rw [HeapState.split_heapSize, hsize]
  | @fail P b size k hf _ =>
    have hgrow := hrep.grownBy k
    rw [hf.unused] at hgrow
    refine ⟨hgrow.congr (HeapState.setEnd_mem ..) (HeapState.setEnd_heapStart ..)
      (HeapState.setEnd_last ..), by simp, ?_, ?_, hsizes, ?_, ?_⟩
    · obtain ⟨hP, -, hPb, -⟩ := settled_append_cons.mp hset
      rw [hf.unused] at hPb
      exact settled_append_cons.mpr ⟨hP, List.isChain_nil, hPb, fun _ hd => absurd hd (by simp)⟩
    · rw [usedPtrs_append, usedPtrs_cons_unused hf.unused] at hlive
      rw [usedPtrs_append, usedPtrs_cons_unused rfl]
      exact hlive
    · rw [HeapState.growHeap, HeapState.setEnd_heapStart, HeapState.grownBy_heapStart, hstart]
    · rw [HeapState.growHeap, HeapState.setEnd_heapSize, HeapState.grownBy_heapSize, hsize]
  | @cutLast P b size k hf hnew _ _ =>
    refine ⟨(hrep.grownBy k).split hnew (fun c hc => absurd hc List.not_mem_nil) _, ?_,
      settled_take hset rfl (settled_cut hset hf.unused),
      live_take hlive hf.unused rfl rfl (usedPtrs_cons_unused rfl _), hsizes, ?_, ?_⟩
    · rw [getLast_append_cons]
      rfl
    · rw [HeapState.split_heapStart, HeapState.grownBy_heapStart, hstart]
    · rw [HeapState.split_heapSize, HeapState.grownBy_heapSize, hsize]
  | @free P Q c d a _ ha hc hptr hprev =>
    have hfree : Represents (FirstOs.free a.ptr s.heap) (freeList P c (d :: Q)) :=
      hptr ▸ free_represents hrep hprev
    rw [getLast_append_cons] at hlast
    rw [← free_heapStart a.ptr] at hstart
    rw [← free_heapSize a.ptr] at hsize
    rw [usedPtrs_append, usedPtrs_cons_used hc, ← hptr] at hlive
    generalize FirstOs.free a.ptr s.heap = g at hfree hstart hsize ⊢
    refine ⟨hfree, freeList_getLast hlast, settled_freeList hset, ?_, hsizes, hstart, hsize⟩
    rw [usedPtrs_freeList]
    exact live_erase ha hlive

/-- The invariant along every run whose calls meet no broken link. -/
theorem heapInv_of_run {ok : HeapState → HeapCall → Prop} (hr : HeapRegion base pages)
    (hlinks : ∀ h call, ok h call → LinksOk h call) {old : ℕ → AllocT}
    (hrun : HeapRun ok old base pages s) : ∃ L, HeapInv base pages s L := by
  refine Run.invariant (I := fun s => ∃ L, HeapInv base pages s L) (fun s t hs hI => ?_) hrun
    ⟨_, heapInv_start hr old⟩
  obtain ⟨L, hI⟩ := hI
  obtain ⟨call, L', -, hb⟩ := heapStep_cases hr hI (hlinks s.heap) hs
  exact ⟨L', hb.heapInv hI⟩

end Steps

/-! ### Calls on one page -/

/-- A pointer may be freed when the block of it has the right back pointer. -/
theorem linksOk_free {h : HeapState} {P Q : List HeapBlock} {c : HeapBlock} {ptr : ℕ}
    (hL : Represents h (P ++ c :: Q)) (hc : c.addr + 16 = ptr) (hprev : PrevOk h P c) :
    LinksOk h (.free ptr) := by
  intro P' c' Q' hL' hc'
  obtain ⟨rfl, rfl, -⟩ := hL.unique_split hL' (by omega)
  exact hprev

/-- A request served from the last block meets no broken link. -/
theorem linksOk_last {h : HeapState} {P : List HeapBlock} {b : HeapBlock} {size : BitVec 32}
    (hf : FirstUnused h P b []) (hb : b.addr + 16 < 0x100000000) : LinksOk h (.malloc size) := by
  intro P' b' Q' hf'
  obtain ⟨rfl, rfl, rfl⟩ := hf.unique hf'
  exact ⟨fun _ => .inl hb, fun c hc => absurd hc List.not_mem_nil⟩

/-- The heap of one page after one, two and three requests for no byte. -/
def cutOne : HeapState := (heapCreate noHeaders 0x100000 1).split 0x100000 0

def cutTwo : HeapState := cutOne.split 0x100010 0

def cutThree : HeapState := cutTwo.split 0x100020 0

/-- The first of the three pointers is freed. -/
def freedFirst : HeapState := free 0x100010 cutThree

theorem firstUnused_cutOne :
    FirstUnused cutOne [⟨0x100000, 0, true⟩] ⟨0x100010, 0xFF0, false⟩ [] :=
  ⟨⟨⟨rfl, rfl, rfl⟩, by decide, by decide, by decide, rfl⟩, by decide, rfl⟩

theorem firstUnused_cutTwo : FirstUnused cutTwo [⟨0x100000, 0, true⟩, ⟨0x100010, 0, true⟩]
    ⟨0x100020, 0xFE0, false⟩ [] :=
  ⟨⟨⟨rfl, rfl, rfl, rfl⟩, by decide, by decide, by decide, rfl⟩, by decide, rfl⟩

theorem represents_cutThree : Represents cutThree [⟨0x100000, 0, true⟩, ⟨0x100010, 0, true⟩,
    ⟨0x100020, 0, true⟩, ⟨0x100030, 0xFD0, false⟩] :=
  ⟨⟨rfl, rfl, rfl, rfl, rfl⟩, by decide, by decide, by decide, rfl⟩

theorem firstUnused_freedFirst : FirstUnused freedFirst [] ⟨0x100000, 0, false⟩
    [⟨0x100010, 0, true⟩, ⟨0x100020, 0, true⟩, ⟨0x100030, 0xFD0, false⟩] :=
  ⟨⟨⟨rfl, rfl, rfl, rfl, rfl⟩, by decide, by decide, by decide, rfl⟩, by decide, rfl⟩

/-- Three pointers are asked for and the first one is freed. -/
theorem fixedRun_freedFirst (ok : HeapState → HeapCall → Prop)
    (h₀ : ok (heapCreate noHeaders 0x100000 1) (.malloc 0#32)) (h₁ : ok cutOne (.malloc 0#32))
    (h₂ : ok cutTwo (.malloc 0#32)) (h₃ : ok cutThree (.free 0x100010)) :
    ReflTransGen (FixedStep ok) (Client.start noHeaders 0x100000 1)
      ⟨freedFirst, [⟨0x100030, 0⟩, ⟨0x100020, 0⟩]⟩ := by
  have hone : FixedStep ok (Client.start noHeaders 0x100000 1) ⟨cutOne, [⟨0x100010, 0⟩]⟩ :=
    ⟨@HeapStep.malloc ok (Client.start noHeaders 0x100000 1) 0#32 4 0x100010 cutOne h₀ rfl, rfl⟩
  have htwo : FixedStep ok ⟨cutOne, [⟨0x100010, 0⟩]⟩ ⟨cutTwo, [⟨0x100020, 0⟩, ⟨0x100010, 0⟩]⟩ :=
    ⟨@HeapStep.malloc ok ⟨cutOne, _⟩ 0#32 4 0x100020 cutTwo h₁ rfl, rfl⟩
  have hthree : FixedStep ok ⟨cutTwo, [⟨0x100020, 0⟩, ⟨0x100010, 0⟩]⟩
      ⟨cutThree, [⟨0x100030, 0⟩, ⟨0x100020, 0⟩, ⟨0x100010, 0⟩]⟩ :=
    ⟨@HeapStep.malloc ok ⟨cutTwo, _⟩ 0#32 5 0x100030 cutThree h₂ rfl, rfl⟩
  have hfree : FixedStep ok ⟨cutThree, [⟨0x100030, 0⟩, ⟨0x100020, 0⟩, ⟨0x100010, 0⟩]⟩
      ⟨freedFirst, [⟨0x100030, 0⟩, ⟨0x100020, 0⟩]⟩ :=
    ⟨@HeapStep.free ok ⟨cutThree, _⟩ ⟨0x100010, 0⟩ (by simp) h₃, rfl⟩
  exact (((ReflTransGen.single hone).tail htwo).tail hthree).tail hfree

theorem heapRun_freedFirst (ok : HeapState → HeapCall → Prop)
    (h₀ : ok (heapCreate noHeaders 0x100000 1) (.malloc 0#32)) (h₁ : ok cutOne (.malloc 0#32))
    (h₂ : ok cutTwo (.malloc 0#32)) (h₃ : ok cutThree (.free 0x100010)) :
    HeapRun ok noHeaders 0x100000 1 ⟨freedFirst, [⟨0x100030, 0⟩, ⟨0x100020, 0⟩]⟩ :=
  ReflTransGen.mono (fun _ _ hs => hs.1) _ _ (fixedRun_freedFirst ok h₀ h₁ h₂ h₃)

end FirstOs
