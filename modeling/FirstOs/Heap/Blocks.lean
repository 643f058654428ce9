import FirstOs.Heap.Malloc
import FirstOs.Library.LinkedList
import Mathlib.Order.Defs.LinearOrder

/-!
# The heap as a list of blocks

`Represents h L` says that the blocks on the list of the heap `h` are those of `L`, in
increasing order of address and ending at `last_alloc_loc`. Each change the code
makes to the headers is a change of one or two neighbours in `L`: a block gets new
contents, a block is cut in two, two blocks become one.

## Main definitions

- `HeapBlock`, `Represents` — the list of blocks and the heap it describes
- `DoublyLinked` — the back pointers agree with the list

## Main results

- `Represents.replace` — a block and some behind it are replaced
- `Represents.modify`, `Represents.split`, `Represents.absorb` — the three changes
-/

namespace FirstOs

/-- A block of the heap: where its header is, and what it says. -/
@[ext] structure HeapBlock where
  addr : ℕ
  size : ℕ
  used : Bool

/-- The blocks on the list of `h` are those of `L`. -/
structure Represents (h : HeapState) (L : List HeapBlock) : Prop where
  linked : Seg (fun a => (h.mem a).next) h.curHeap.heapStart (L.map HeapBlock.addr) 0
  fields : ∀ b ∈ L, (h.mem b.addr).size = b.size ∧ (h.mem b.addr).used = b.used
  increasing : L.Pairwise fun b c => b.addr < c.addr
  range : ∀ b ∈ L, 0 < b.addr ∧ b.addr < 0x100000000 ∧ b.addr % 16 = 0
  last : L.getLast?.map HeapBlock.addr = some h.curHeap.lastAllocLoc

/-- The back pointers of the blocks on the list; the first one is `NULL`. -/
def DoublyLinked (h : HeapState) (L : List HeapBlock) : Prop :=
  Back (fun a => (h.mem a).prev) 0 (L.map HeapBlock.addr)

namespace HeapState

variable (h : HeapState) (a n : ℕ) (f : AllocT → AllocT)

@[simp] theorem modify_self : (h.modify a f).mem a = f (h.mem a) := Function.update_self ..

theorem modify_of_ne {b : ℕ} (hb : b ≠ a) : (h.modify a f).mem b = h.mem b :=
  Function.update_of_ne hb ..

@[simp] theorem modify_curHeap : (h.modify a f).curHeap = h.curHeap := rfl

@[simp] theorem modify_stored : (h.modify a f).stored = h.stored := rfl

@[simp] theorem storeHeader_self (x : AllocT) : (h.storeHeader a x).mem a = x :=
  Function.update_self ..

theorem storeHeader_of_ne (x : AllocT) {b : ℕ} (hb : b ≠ a) :
    (h.storeHeader a x).mem b = h.mem b :=
  Function.update_of_ne hb ..

@[simp] theorem setLast_mem : (h.setLast a).mem = h.mem := rfl

@[simp] theorem setLast_stored : (h.setLast a).stored = h.stored := rfl

@[simp] theorem setEnd_mem : (h.setEnd n).mem = h.mem := rfl

@[simp] theorem setEnd_stored : (h.setEnd n).stored = h.stored := rfl

@[simp] theorem setEnd_heapStart : (h.setEnd n).curHeap.heapStart = h.curHeap.heapStart := rfl

@[simp] theorem setEnd_heapEnd : (h.setEnd n).curHeap.heapEnd = n := rfl

@[simp] theorem setEnd_heapSize : (h.setEnd n).curHeap.heapSize = h.curHeap.heapSize := rfl

@[simp] theorem setEnd_last : (h.setEnd n).curHeap.lastAllocLoc = h.curHeap.lastAllocLoc := rfl

/-- Beside the header of `a`, only `last_alloc_loc` can change when `a` takes in `n`. -/
theorem absorb_self : (h.absorb a n).mem a =
    { h.mem a with
      next := (h.mem n).next, size := u32 ((h.mem a).size + ((h.mem n).size + 16)) } := by
  rw [absorb]
  dsimp only
  split_ifs <;> simp

theorem absorb_of_ne {b : ℕ} (hb : b ≠ a) : (h.absorb a n).mem b = h.mem b := by
  unfold absorb
  dsimp only
  split_ifs
  · rw [setLast_mem, modify_of_ne h a _ hb]
  · rw [modify_of_ne h a _ hb]

theorem absorb_heapStart : (h.absorb a n).curHeap.heapStart = h.curHeap.heapStart := by
  unfold absorb
  dsimp only
  split_ifs <;> rfl

theorem absorb_heapSize : (h.absorb a n).curHeap.heapSize = h.curHeap.heapSize := by
  unfold absorb
  dsimp only
  split_ifs <;> rfl

theorem absorb_last : (h.absorb a n).curHeap.lastAllocLoc =
    if (h.mem n).next = 0 then a else h.curHeap.lastAllocLoc := by
  simp only [absorb]
  simp only [modify_self]
  split_ifs <;> rfl

theorem absorbIf_heapStart (p : ℕ) :
    (h.absorbIf p a n).curHeap.heapStart = h.curHeap.heapStart := by
  simp only [absorbIf]
  split_ifs
  · exact h.absorb_heapStart a n
  · rfl

theorem absorbIf_heapSize (p : ℕ) : (h.absorbIf p a n).curHeap.heapSize = h.curHeap.heapSize := by
  simp only [absorbIf]
  split_ifs
  · exact h.absorb_heapSize a n
  · rfl

theorem ne_add_sixteen : u32 (a + 16) ≠ a := by
  simp only [u32]
  omega

theorem split_self (size : ℕ) : (h.split a size).mem a =
    { h.mem a with used := true, size := size, next := u32 (a + 16) } := by
  have hne := ne_add_sixteen a
  rw [split]
  dsimp only
  split_ifs <;> simp [storeHeader_of_ne _ _ _ hne.symm]

theorem split_new (size : ℕ) : (h.split a size).mem (u32 (a + 16)) =
    { used := false, size := u32 ((h.mem a).size + 0x100000000 - 16), next := (h.mem a).next,
      prev := a } := by
  have hne := ne_add_sixteen a
  unfold split
  dsimp only
  split_ifs <;> simp [modify_of_ne _ _ _ hne]

theorem split_of_ne (size : ℕ) {b : ℕ} (hb : b ≠ a) (hb' : b ≠ u32 (a + 16)) :
    (h.split a size).mem b = h.mem b := by
  unfold split
  dsimp only
  split_ifs <;> simp [modify_of_ne _ _ _ hb, storeHeader_of_ne _ _ _ hb']

theorem split_heapStart (size : ℕ) :
    (h.split a size).curHeap.heapStart = h.curHeap.heapStart := by
  unfold split
  dsimp only
  split_ifs <;> rfl

theorem split_heapEnd (size : ℕ) : (h.split a size).curHeap.heapEnd = h.curHeap.heapEnd := by
  unfold split
  dsimp only
  split_ifs <;> rfl

theorem split_heapSize (size : ℕ) : (h.split a size).curHeap.heapSize = h.curHeap.heapSize := by
  unfold split
  dsimp only
  split_ifs <;> rfl

theorem split_last (size : ℕ) : (h.split a size).curHeap.lastAllocLoc =
    if (h.mem a).next = 0 then u32 (a + 16) else h.curHeap.lastAllocLoc := by
  simp only [split]
  simp only [storeHeader_self]
  split_ifs <;> rfl

theorem split_stored (size : ℕ) : (h.split a size).stored = u32 (a + 16) :: h.stored := by
  unfold split
  dsimp only
  split_ifs <;> rfl

end HeapState

section Lists

variable {h : HeapState} {L P Q : List HeapBlock} {b : HeapBlock}

theorem Represents.ne_of_mem (hL : Represents h (P ++ b :: Q)) :
    (∀ c ∈ P, c.addr ≠ b.addr) ∧ ∀ c ∈ Q, c.addr ≠ b.addr := by
  obtain ⟨-, hQ, hPQ⟩ := List.pairwise_append.mp hL.increasing
  refine ⟨fun c hc => (hPQ c hc b (List.mem_cons_self ..)).ne, fun c hc => ?_⟩
  exact ((List.pairwise_cons.mp hQ).1 c hc).ne'

theorem Represents.mem_self (hL : Represents h (P ++ b :: Q)) :
    (h.mem b.addr).size = b.size ∧ (h.mem b.addr).used = b.used :=
  hL.fields b (by simp)

theorem Represents.range_self (hL : Represents h (P ++ b :: Q)) :
    0 < b.addr ∧ b.addr < 0x100000000 ∧ b.addr % 16 = 0 :=
  hL.range b (by simp)

/-- A block is followed by the next one of the list. -/
theorem Represents.next_eq {c : HeapBlock} (hL : Represents h (P ++ b :: c :: Q)) :
    (h.mem b.addr).next = c.addr := by
  have hlinked := hL.linked
  rw [List.map_append, List.map_cons, Seg.split, List.map_cons, Seg.cons_iff] at hlinked
  exact hlinked.2.1

theorem Represents.next_last (hL : Represents h (P ++ [b])) : (h.mem b.addr).next = 0 := by
  have hlinked := hL.linked
  rw [List.map_append, List.map_cons, Seg.split] at hlinked
  exact hlinked.2

/-- The last block is where `last_alloc_loc` points. -/
theorem Represents.last_iff (hL : Represents h (P ++ b :: Q)) :
    b.addr = h.curHeap.lastAllocLoc ↔ Q = [] := by
  have hlast := hL.last
  rw [List.getLast?_append_of_ne_nil _ (List.cons_ne_nil b Q)] at hlast
  cases Q with
  | nil => simpa using hlast
  | cons c Q =>
    rw [List.getLast?_cons_cons] at hlast
    obtain ⟨d, hd, hda⟩ := Option.map_eq_some_iff.mp hlast
    have hne := hL.ne_of_mem.2 d (List.mem_of_getLast? hd)
    rw [← hda]
    exact ⟨fun heq => absurd heq.symm hne, fun hnil => absurd hnil (List.cons_ne_nil c Q)⟩

theorem Represents.pos (hL : Represents h L) {a : ℕ} (ha : a ∈ L.map HeapBlock.addr) : a ≠ 0 := by
  obtain ⟨b, hb, rfl⟩ := List.mem_map.mp ha
  exact (hL.range b hb).1.ne'

/-- A heap has one list of blocks. -/
theorem Represents.unique (hL : Represents h L) {M : List HeapBlock} (hM : Represents h M) :
    L = M := by
  have haddr : L.map HeapBlock.addr = M.map HeapBlock.addr :=
    hL.linked.unique hM.linked (fun h0 => hL.pos h0 rfl) fun h0 => hM.pos h0 rfl
  have hof : ∀ N : List HeapBlock, Represents h N →
      N = (N.map HeapBlock.addr).map fun a => ⟨a, (h.mem a).size, (h.mem a).used⟩ := by
    intro N hN
    rw [List.map_map]
    refine (List.map_id N).symm.trans (List.map_congr_left fun b hb => ?_)
    obtain ⟨hsize, hused⟩ := hN.fields b hb
    exact HeapBlock.ext rfl hsize.symm hused.symm
  rw [hof L hL, haddr, ← hof M hM]

/-- A block of the heap stands in one place of its list. -/
theorem Represents.unique_split {P' Q' : List HeapBlock} {b' : HeapBlock}
    (hL : Represents h (P ++ b :: Q)) (hM : Represents h (P' ++ b' :: Q'))
    (haddr : b'.addr = b.addr) : P = P' ∧ b = b' ∧ Q = Q' := by
  obtain ⟨hP, hQ⟩ := hL.ne_of_mem
  exact (List.append_cons_inj_of_notMem (fun hb => hP b' hb haddr) fun hb => hQ b' hb haddr).mp
    (hL.unique hM)

/-- The list does not depend on `heap_end` and `heap_size`. -/
theorem Represents.congr (hL : Represents h L) {h' : HeapState} (hmem : h'.mem = h.mem)
    (hstart : h'.curHeap.heapStart = h.curHeap.heapStart)
    (hlast : h'.curHeap.lastAllocLoc = h.curHeap.lastAllocLoc) : Represents h' L := by
  obtain ⟨hlinked, hfields, hinc, hrange, hl⟩ := hL
  refine ⟨?_, ?_, hinc, hrange, ?_⟩
  · rw [hmem, hstart]
    exact hlinked
  · rw [hmem]
    exact hfields
  · rw [hlast]
    exact hl

/-- The list ends behind a block without a next one. -/
theorem Represents.next_eq_zero_iff (hL : Represents h (P ++ b :: Q)) :
    (h.mem b.addr).next = 0 ↔ Q = [] := by
  cases Q with
  | nil => exact iff_of_true hL.next_last rfl
  | cons c Q =>
    rw [hL.next_eq]
    exact iff_of_false (hL.range c (by simp)).1.ne' (List.cons_ne_nil c Q)

/-- A block and some behind it are replaced by blocks of which the first has the same address. -/
theorem Represents.replace {h' : HeapState} {b' : HeapBlock} {X Y : List HeapBlock} {z : ℕ}
    (hL : Represents h (P ++ b :: (X ++ Q))) (haddr : b'.addr = b.addr)
    (hstart : h'.curHeap.heapStart = h.curHeap.heapStart)
    (hkeep : ∀ c, c ∈ P ∨ c ∈ Q → h'.mem c.addr = h.mem c.addr)
    (hlinked : ∀ e, Seg (fun a => (h.mem a).next) (h.mem b.addr).next (X.map HeapBlock.addr) e →
      Seg (fun a => (h'.mem a).next) (h'.mem b.addr).next (Y.map HeapBlock.addr) e)
    (hfields : ∀ c ∈ b' :: Y, (h'.mem c.addr).size = c.size ∧ (h'.mem c.addr).used = c.used)
    (hinc : (b' :: Y).Pairwise fun c d => c.addr < d.addr)
    (hbehind : ∀ c ∈ Y, ∀ d ∈ Q, c.addr < d.addr)
    (hrange : ∀ c ∈ Y, c.addr < 0x100000000 ∧ c.addr % 16 = 0)
    (hend : (b' :: Y).getLast?.map HeapBlock.addr = some z)
    (hlast : h'.curHeap.lastAllocLoc = if Q = [] then z else h.curHeap.lastAllocLoc) :
    Represents h' (P ++ b' :: (Y ++ Q)) := by
  obtain ⟨hincP, hincb, hincPb⟩ := List.pairwise_append.mp hL.increasing
  obtain ⟨hincb, hincX⟩ := List.pairwise_cons.mp hincb
  have hbefore : ∀ c ∈ P, c.addr < b.addr := fun c hc => hincPb c hc b List.mem_cons_self
  have hfrom : ∀ d ∈ Y, b.addr < d.addr := fun d hd => haddr ▸ (List.pairwise_cons.mp hinc).1 d hd
  have hrest : ∀ d ∈ Q, b.addr < d.addr := fun d hd => hincb d (List.mem_append_right X hd)
  constructor
  · have hseg := hL.linked
    rw [List.map_append, List.map_cons, Seg.split, List.map_append, Seg.append] at hseg
    obtain ⟨hP, e, hX, hQ⟩ := hseg
    rw [List.map_append, List.map_cons, haddr, Seg.split, List.map_append, Seg.append, hstart]
    refine ⟨(Seg.congr fun a ha => ?_).mp hP, e, hlinked e hX, (Seg.congr fun a ha => ?_).mp hQ⟩
    · obtain ⟨c, hc, rfl⟩ := List.mem_map.mp ha
      rw [hkeep c (.inl hc)]
    · obtain ⟨c, hc, rfl⟩ := List.mem_map.mp ha
      rw [hkeep c (.inr hc)]
  · intro c hc
    rw [List.mem_append, ← List.cons_append, List.mem_append] at hc
    obtain hc | hc | hc := hc
    · rw [hkeep c (.inl hc)]
      exact hL.fields c (by simp [hc])
    · exact hfields c hc
    · rw [hkeep c (.inr hc)]
      exact hL.fields c (by simp [hc])
  · rw [← List.cons_append]
    refine List.pairwise_append.mpr ⟨hincP, List.pairwise_append.mpr ⟨hinc,
      (List.pairwise_append.mp hincX).2.1, fun c hc d hd => ?_⟩, fun c hc d hd => ?_⟩
    · obtain rfl | hc := List.mem_cons.mp hc
      · exact haddr ▸ hrest d hd
      · exact hbehind c hc d hd
    · rw [List.mem_append, List.mem_cons] at hd
      obtain (rfl | hd) | hd := hd
      · exact haddr ▸ hbefore c hc
      · exact (hbefore c hc).trans (hfrom d hd)
      · exact (hbefore c hc).trans (hrest d hd)
  · intro c hc
    rw [List.mem_append, List.mem_cons, List.mem_append] at hc
    obtain hc | rfl | hc | hc := hc
    · exact hL.range c (by simp [hc])
    · exact haddr ▸ hL.range_self
    · exact ⟨Nat.zero_lt_of_lt (hfrom c hc), hrange c hc⟩
    · exact hL.range c (by simp [hc])
  · rw [hlast, List.getLast?_append_of_ne_nil _ (List.cons_ne_nil _ _), ← List.cons_append]
    split_ifs with hnil
    · rw [hnil, List.append_nil, hend]
    · rw [List.getLast?_append_of_ne_nil _ hnil, ← hL.last,
        List.getLast?_append_of_ne_nil _ (List.cons_ne_nil _ _), ← List.cons_append,
        List.getLast?_append_of_ne_nil _ hnil]

/-- One block gets new contents. -/
theorem Represents.modify (hL : Represents h (P ++ b :: Q)) {f : AllocT → AllocT}
    (hnext : ∀ x, (f x).next = x.next) {z : ℕ} {u : Bool} (hz : (f (h.mem b.addr)).size = z)
    (hu : (f (h.mem b.addr)).used = u) :
    Represents (h.modify b.addr f) (P ++ ⟨b.addr, z, u⟩ :: Q) := by
  obtain ⟨hneP, hneQ⟩ := hL.ne_of_mem
  refine hL.replace (X := []) (Y := []) (z := b.addr) rfl rfl ?_ ?_ ?_
    (List.pairwise_singleton _ _) (List.forall_mem_nil _) (List.forall_mem_nil _) rfl ?_
  · rintro c (hc | hc)
    · exact HeapState.modify_of_ne h _ f (hneP c hc)
    · exact HeapState.modify_of_ne h _ f (hneQ c hc)
  · intro e he
    rw [HeapState.modify_self, hnext]
    exact he
  · intro c hc
    obtain rfl := List.mem_singleton.mp hc
    rw [HeapState.modify_self]
    exact ⟨hz, hu⟩
  · rw [HeapState.modify_curHeap]
    split_ifs with hnil
    · exact (hL.last_iff.mpr hnil).symm
    · rfl

theorem Represents.addSize (hL : Represents h (P ++ b :: Q)) (n : ℕ) :
    Represents (h.addSize b.addr n) (P ++ ⟨b.addr, u32 (b.size + n), b.used⟩ :: Q) := by
  obtain ⟨hz, hu⟩ := hL.mem_self
  exact hL.modify (f := fun x => { x with size := u32 (x.size + n) }) (fun _ => rfl)
    (by rw [← hz]) hu

theorem Represents.setUsed (hL : Represents h (P ++ b :: Q)) (u : Bool) :
    Represents (h.modify b.addr fun x => { x with used := u }) (P ++ ⟨b.addr, b.size, u⟩ :: Q) :=
  hL.modify (f := fun x => { x with used := u }) (fun _ => rfl) hL.mem_self.1 rfl

/-- A block is cut in two. -/
theorem Represents.split (hL : Represents h (P ++ b :: Q)) (hnew : b.addr + 16 < 0x100000000)
    (hQ : ∀ c ∈ Q, b.addr + 16 < c.addr) (size : ℕ) :
    Represents (h.split b.addr size) (P ++ ⟨b.addr, size, true⟩ ::
      ⟨b.addr + 16, u32 (b.size + 0x100000000 - 16), false⟩ :: Q) := by
  obtain ⟨hneP, hneQ⟩ := hL.ne_of_mem
  have hu : u32 (b.addr + 16) = b.addr + 16 := Nat.mod_eq_of_lt hnew
  have hself := h.split_self b.addr size
  have hnewmem := h.split_new b.addr size
  rw [hu] at hself hnewmem
  refine hL.replace (X := []) (Y := [⟨b.addr + 16, u32 (b.size + 0x100000000 - 16), false⟩])
    (z := b.addr + 16) rfl (h.split_heapStart b.addr size) ?_ ?_ ?_ ?_ ?_ ?_ rfl ?_
  · rintro c (hc | hc)
    · have hlt := (List.pairwise_append.mp hL.increasing).2.2 c hc b List.mem_cons_self
      exact h.split_of_ne b.addr size (hneP c hc) (by omega)
    · have hlt := hQ c hc
      exact h.split_of_ne b.addr size (hneQ c hc) (by omega)
  · intro e he
    rw [hself]
    refine ⟨rfl, ?_⟩
    dsimp only
    rw [hnewmem]
    exact he
  · intro c hc
    rw [List.mem_cons, List.mem_singleton] at hc
    obtain rfl | rfl := hc
    · rw [hself]
      exact ⟨rfl, rfl⟩
    · rw [hnewmem, hL.mem_self.1]
      exact ⟨rfl, rfl⟩
  · exact List.pairwise_pair.mpr (Nat.lt_add_of_pos_right (by decide))
  · intro c hc
    rw [List.mem_singleton.mp hc]
    exact hQ
  · intro c hc
    have hmod := hL.range_self.2.2
    rw [List.mem_singleton.mp hc]
    exact ⟨hnew, show (b.addr + 16) % 16 = 0 by omega⟩
  · rw [h.split_last, hu, if_congr hL.next_eq_zero_iff rfl rfl]

/-- Two neighbours become one block. -/
theorem Represents.absorb {n : HeapBlock} (hL : Represents h (P ++ b :: n :: Q)) :
    Represents (h.absorb b.addr n.addr)
      (P ++ ⟨b.addr, u32 (b.size + (n.size + 16)), b.used⟩ :: Q) := by
  obtain ⟨hneP, hneQ⟩ := hL.ne_of_mem
  have hn := hL.fields n (by simp)
  have hself := h.absorb_self b.addr n.addr
  have hafter : Represents h ((P ++ [b]) ++ n :: Q) := by
    rw [List.append_assoc]
    exact hL
  refine hL.replace (X := [n]) (Y := []) (z := b.addr) rfl (h.absorb_heapStart b.addr n.addr) ?_ ?_
    ?_ (List.pairwise_singleton _ _) (List.forall_mem_nil _) (List.forall_mem_nil _) rfl ?_
  · rintro c (hc | hc)
    · exact h.absorb_of_ne _ _ (hneP c hc)
    · exact h.absorb_of_ne _ _ (hneQ c (List.mem_cons_of_mem n hc))
  · intro e he
    rw [hself]
    exact he.2
  · intro c hc
    obtain rfl := List.mem_singleton.mp hc
    rw [hself, hL.mem_self.1, hn.1]
    exact ⟨rfl, hL.mem_self.2⟩
  · rw [h.absorb_last, if_congr hafter.next_eq_zero_iff rfl rfl]

end Lists

end FirstOs
