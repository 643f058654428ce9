import FirstOs.Heap.Runs

/-!
# The links of the list

Neither the cut of a block nor a merge updates the back pointer of the block that
follows. As long as `malloc` cuts the last block only, and `free` merges only where
the last block takes part, no such block is there and the list stays intact.

## Main definitions

- `ListIntact` — the list is finite, increasing, doubly linked and ends at `last_alloc_loc`
- `IntactCall` — the calls that keep this

## Main results

- `listIntact_of_run` — the list is intact along runs of such calls
- `not_listIntact` — after two merges a back pointer is stale
-/

namespace FirstOs

open Relation

/-- The blocks at the addresses `l` are all the blocks on the list, in increasing order; each
    has the one before it as `prev`, and the one without a `next` is at `last_alloc_loc`. -/
structure Intact (h : HeapState) (l : List ℕ) : Prop where
  linked : Seg (fun a => (h.mem a).next) h.curHeap.heapStart l 0
  nonzero : ∀ a ∈ l, a ≠ 0
  increasing : l.Pairwise (· < ·)
  back : Back (fun a => (h.mem a).prev) 0 l
  last : l.getLast? = some h.curHeap.lastAllocLoc

/-- The list ends and is intact. -/
def ListIntact (h : HeapState) : Prop := ∃ l, Intact h l

/-- A call after which no block has a stale back pointer: `malloc` does not cut a block that
    has a next one, and `free` does not merge blocks unless the last one is among them. -/
def IntactCall (h : HeapState) : HeapCall → Prop
  | .malloc size => ∀ P b Q, FirstUnused h P b Q →
      (Q = [] → b.addr + 16 < 0x100000000 ∨ Starves h b.addr size.toNat) ∧
        (Q ≠ [] → ¬ Cuts b size.toNat)
  | .free ptr => ∀ P c d Q, Represents h (P ++ c :: d :: Q) → c.addr + 16 = ptr →
      (d.used = false → Q = []) ∧ ∀ e ∈ P.getLast?, e.used = false → d.used = false

section Back

variable {h : HeapState} {L P Q : List HeapBlock} {c d : HeapBlock}

theorem Represents.intact (hL : Represents h L) (hD : DoublyLinked h L) :
    Intact h (L.map HeapBlock.addr) := by
  refine ⟨hL.linked, fun a => hL.pos, ?_, hD, ?_⟩
  · rw [List.pairwise_map]
    exact hL.increasing
  · rw [List.getLast?_map]
    exact hL.last

/-- On a doubly linked list the back pointers are right. -/
theorem DoublyLinked.prevOk (hD : DoublyLinked h (P ++ c :: Q)) : PrevOk h P c := by
  rw [DoublyLinked, List.map_append, List.map_cons, Back.split, List.getLast?_map] at hD
  exact hD.2.1

/-- `malloc` and `free` write the back pointer of a new header only. -/
theorem grownBy_prev (h : HeapState) (a k x : ℕ) :
    ((h.grownBy a k).mem x).prev = (h.mem x).prev := by
  by_cases hx : x = a
  · rw [hx, h.grownBy_self]
  · rw [h.grownBy_of_ne a k hx]

theorem modify_prev (h : HeapState) (a : ℕ) {f : AllocT → AllocT} (hf : ∀ x, (f x).prev = x.prev)
    (x : ℕ) : ((h.modify a f).mem x).prev = (h.mem x).prev := by
  by_cases hx : x = a
  · rw [hx, HeapState.modify_self, hf]
  · rw [h.modify_of_ne a f hx]

theorem absorbIf_prev (h : HeapState) (p a n x : ℕ) :
    ((h.absorbIf p a n).mem x).prev = (h.mem x).prev := by
  simp only [HeapState.absorbIf]
  split_ifs
  · by_cases hx : x = a
    · rw [hx, h.absorb_self]
    · rw [h.absorb_of_ne a n hx]
  · rfl

theorem free_prev (h : HeapState) (ptr x : ℕ) : ((free ptr h).mem x).prev = (h.mem x).prev := by
  rw [free, absorbIf_prev, absorbIf_prev, modify_prev]
  exact fun _ => rfl

/-- Under the condition of `IntactCall`, freeing cuts off the end of the list. -/
theorem freeList_prefix (hnext : d.used = false → Q = [])
    (hprev : ∀ e ∈ P.getLast?, e.used = false → d.used = false) :
    (freeList P c (d :: Q)).map HeapBlock.addr <+: (P ++ c :: d :: Q).map HeapBlock.addr := by
  cases hd : d.used with
  | true =>
    rw [freeList_used hd]
    obtain ⟨-, heq⟩ | ⟨R, e, rfl, he, -⟩ :=
      freePrev_cases P { c with used := false } (d :: Q)
    · rw [heq]
      simp
    · have hd' := hprev e List.getLast?_concat he
      rw [hd] at hd'
      exact absurd hd' (by decide)
  | false =>
    rw [freeList_unused hd, hnext hd]
    obtain ⟨-, heq⟩ | ⟨R, e, rfl, -, heq⟩ :=
      freePrev_cases P ({ c with used := false }.merge d) []
    · rw [heq]
      exact ⟨[d.addr], by simp [HeapBlock.merge]⟩
    · rw [heq]
      exact ⟨[c.addr, d.addr], by simp [HeapBlock.merge]⟩

end Back

section Steps

variable {base pages : ℕ} {s t : Client} {L L' P Q : List HeapBlock} {old : ℕ → AllocT}
  {call : HeapCall}

/-- On an intact list such a call meets no broken link. -/
theorem IntactCall.linksOk (hL : Represents s.heap L) (hD : DoublyLinked s.heap L)
    (hok : IntactCall s.heap call) : LinksOk s.heap call := by
  cases call with
  | malloc size =>
    intro P b Q hf
    obtain ⟨hlast, hcut⟩ := hok P b Q hf
    exact ⟨hlast, fun c hc hcuts => absurd hcuts (hcut (List.ne_nil_of_mem hc))⟩
  | free ptr =>
    intro P c Q hL' _
    obtain rfl := hL.unique hL'
    exact hD.prevOk

/-- Such a call keeps the list doubly linked. -/
theorem BlockStep.doublyLinked (hs : BlockStep s L call t L') (hD : DoublyLinked s.heap L)
    (hok : IntactCall s.heap call) : DoublyLinked t.heap L' := by
  cases hs with
  | @take P Q b size hf _ _ _ =>
    have hmap : (P ++ ⟨b.addr, b.size, true⟩ :: Q).map HeapBlock.addr =
        (P ++ b :: Q).map HeapBlock.addr := by simp
    rw [DoublyLinked, hmap]
    refine (Back.congr fun a _ => ?_).mp hD
    exact (modify_prev s.heap b.addr (f := fun x => { x with used := true }) (fun _ => rfl) a).symm
  | @cut P Q b size hf hQ hcut _ => exact absurd hcut ((hok P b Q hf).2 hQ)
  | @fail P b size k hf _ =>
    have hmap : ∀ z, (P ++ [(⟨b.addr, z, false⟩ : HeapBlock)]).map HeapBlock.addr =
        (P ++ [b]).map HeapBlock.addr := by simp
    rw [DoublyLinked, hmap, HeapState.growHeap, HeapState.setEnd_mem]
    exact (Back.congr fun a _ => (grownBy_prev s.heap b.addr k a).symm).mp hD
  | @cutLast P b size k hf hnew _ _ =>
    have hu : u32 (b.addr + 16) = b.addr + 16 := Nat.mod_eq_of_lt hnew
    have hself := (s.heap.grownBy b.addr k).split_self b.addr size.toNat
    have hnewmem := (s.heap.grownBy b.addr k).split_new b.addr size.toNat
    rw [hu] at hnewmem
    rw [DoublyLinked, List.map_append, List.map_cons, Back.split] at hD ⊢
    obtain ⟨hP, hb, -⟩ := hD
    refine ⟨(Back.congr fun a ha => ?_).mp hP, ?_, ?_⟩
    · obtain ⟨c, hc, rfl⟩ := List.mem_map.mp ha
      have hlt := (List.pairwise_append.mp hf.represents.increasing).2.2 c hc b
        (List.mem_cons_self ..)
      rw [HeapState.split_of_ne _ _ _ hlt.ne (by rw [hu]; omega), grownBy_prev]
    · rw [hself, ← hb]
      exact grownBy_prev s.heap b.addr k b.addr
    · exact ⟨congrArg AllocT.prev hnewmem, trivial⟩
  | @free P Q c d a hrep _ _ hptr _ =>
    obtain ⟨hnext, hprev⟩ := hok P c d Q hrep hptr.symm
    obtain ⟨m, hm⟩ := freeList_prefix (c := c) hnext hprev
    rw [DoublyLinked, ← hm] at hD
    have hsame : ∀ h : HeapState, (∀ x, (h.mem x).prev = (s.heap.mem x).prev) →
        DoublyLinked h (freeList P c (d :: Q)) :=
      fun h hh => (Back.congr fun x _ => (hh x).symm).mp hD.of_append
    have hfree := hsame (FirstOs.free a.ptr s.heap) (free_prev s.heap a.ptr)
    dsimp only
    exact hfree

/-- The list is intact in every state of a run of such calls. -/
theorem listIntact_of_run (hr : HeapRegion base pages)
    (hrun : HeapRun IntactCall old base pages s) : ListIntact s.heap := by
  have hinv : ∃ L, HeapInv base pages s L ∧ DoublyLinked s.heap L := by
    refine Run.invariant (I := fun s => ∃ L, HeapInv base pages s L ∧ DoublyLinked s.heap L)
      (fun s t hs hI => ?_) hrun ⟨_, heapInv_start hr old, ?_⟩
    · obtain ⟨L, hI, hD⟩ := hI
      obtain ⟨call, L', hok, hb⟩ :=
        heapStep_cases hr hI (fun call hok => hok.linksOk hI.toRepresents hD) hs
      exact ⟨L', hb.heapInv hI, hb.doublyLinked hD hok⟩
    · refine ⟨?_, trivial⟩
      show ((Function.update old base _) base).prev = 0
      rw [Function.update_self]
  obtain ⟨L, hI, hD⟩ := hinv
  exact ⟨_, hI.toRepresents.intact hD⟩

/-- A request served from the last block keeps the list intact. -/
theorem intactCall_last {h : HeapState} {b : HeapBlock} {size : BitVec 32}
    (hf : FirstUnused h P b []) (hb : b.addr + 16 < 0x100000000) : IntactCall h (.malloc size) := by
  intro P' b' Q' hf'
  obtain ⟨rfl, rfl, rfl⟩ := hf.unique hf'
  exact ⟨fun _ => .inl hb, fun hne => absurd rfl hne⟩

/-- Freeing keeps the list intact where only the last block is merged. -/
theorem intactCall_free {h : HeapState} {c d : HeapBlock} {ptr : ℕ}
    (hL : Represents h (P ++ c :: d :: Q)) (hc : c.addr + 16 = ptr) (hnext : d.used = false → Q = [])
    (hprev : ∀ e ∈ P.getLast?, e.used = false → d.used = false) : IntactCall h (.free ptr) := by
  intro P' c' d' Q' hL' hc'
  obtain ⟨rfl, rfl, hQ⟩ := hL.unique_split hL' (by omega)
  obtain ⟨rfl, rfl⟩ := List.cons.inj hQ
  exact ⟨hnext, hprev⟩

/-- Of three blocks the first and the last one are freed, and the first one is used again. -/
theorem listIntact_of_run_reuse : ∃ s, HeapRun IntactCall noHeaders 0x100000 1 s ∧
    s.live = [⟨0x100010, 0⟩, ⟨0x100020, 0⟩] ∧ ListIntact s.heap := by
  have hthree : IntactCall cutThree (.free 0x100010) :=
    intactCall_free (P := []) represents_cutThree rfl (fun hu => absurd hu (by decide))
      fun e he => absurd he (by simp)
  have hrun := heapRun_freedFirst IntactCall
    (intactCall_last (firstUnused_start heapRegion_page noHeaders) (by decide))
    (intactCall_last firstUnused_cutOne (by decide))
    (intactCall_last firstUnused_cutTwo (by decide)) hthree
  have hfree : IntactCall freedFirst (.free 0x100030) :=
    intactCall_free (P := [_, _]) firstUnused_freedFirst.represents rfl (fun _ => rfl)
      fun _ _ _ => rfl
  have hmerged : FirstUnused (free 0x100030 freedFirst) [] ⟨0x100000, 0, false⟩
      [⟨0x100010, 0, true⟩, ⟨0x100020, 0xFE0, false⟩] :=
    ⟨⟨⟨rfl, rfl, rfl, rfl⟩, by decide, by decide, by decide, rfl⟩, by decide, rfl⟩
  have hreuse : IntactCall (free 0x100030 freedFirst) (.malloc 0#32) := by
    intro P b Q hf
    obtain ⟨rfl, rfl, rfl⟩ := hf.unique hmerged
    exact ⟨fun hnil => absurd hnil (by simp), fun _ hcut => absurd hcut.1 (by decide)⟩
  have hlast := (hrun.tail (@HeapStep.free _ ⟨freedFirst, _⟩ ⟨0x100030, 0⟩ (by simp) hfree)).tail
    (@HeapStep.malloc _ ⟨free 0x100030 freedFirst, _⟩ 0#32 4 0x100010
      ((free 0x100030 freedFirst).use 0x100000) hreuse rfl)
  exact ⟨_, hlast, rfl, listIntact_of_run heapRegion_page hlast⟩

/-- After three requests, freeing the second and then the first pointer leaves the third
    block with the address of the second as `prev`. -/
theorem stale_prev : ∃ s, HeapRun AnyCall noHeaders 0x100000 1 s ∧
    Seg (fun a => (s.heap.mem a).next) s.heap.curHeap.heapStart [0x100000, 0x100020, 0x100030] 0 ∧
    (s.heap.mem 0x100020).prev = 0x100010 := by
  refine ⟨_, ((((ReflTransGen.refl.tail (@HeapStep.malloc _ _ 1#32 4 _ _ trivial rfl)).tail
    (@HeapStep.malloc _ _ 1#32 5 _ _ trivial rfl)).tail
    (@HeapStep.malloc _ _ 1#32 6 _ _ trivial rfl)).tail
    (@HeapStep.free _ _ ⟨0x100020, 1⟩ ?_ trivial)).tail
    (@HeapStep.free _ _ ⟨0x100010, 1⟩ ?_ trivial), ?_, rfl⟩
  · exact List.mem_cons_of_mem _ (List.mem_cons_self ..)
  · exact List.mem_cons_of_mem _ (List.mem_cons_self ..)
  · exact ⟨rfl, rfl, rfl, rfl⟩

/-- The list does not stay intact in every run. -/
theorem not_listIntact : ¬ ∀ (old : ℕ → AllocT) (base pages : ℕ), HeapRegion base pages →
    ∀ s, HeapRun AnyCall old base pages s → ListIntact s.heap := by
  intro hall
  obtain ⟨s, hrun, hseg, hprev⟩ := stale_prev
  obtain ⟨l, hl⟩ := hall noHeaders 0x100000 1 heapRegion_page s hrun
  obtain rfl := hl.linked.unique hseg (fun h0 => hl.nonzero 0 h0 rfl) (by decide)
  have hback : (s.heap.mem 0x100020).prev = 0x100000 := hl.back.2.1
  rw [hprev] at hback
  exact absurd hback (by decide)

end Steps

end FirstOs
