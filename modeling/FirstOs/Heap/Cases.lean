import FirstOs.Heap.Blocks

/-!
# What `malloc` does to the list

On a heap with a list of blocks, `malloc` looks at one block only, the first unused
one. If that block is not the last one, it is taken whole, cut in two, or `malloc`
never ends. If it is the last one, it is enlarged by some number of pages and then
cut, unless the heap may not grow that far.

## Main results

- `skipUsed_eq` — the walk over used blocks ends at the first unused one
- `malloc_cases` — the ways `malloc` can end
- `malloc_returns_iff` — when it ends
- `free_represents` — what `free` does
-/

namespace FirstOs

namespace HeapState

/-- The state after `k` rounds of growing the block at `a`. -/
def grownBy (h : HeapState) (a : ℕ) : ℕ → HeapState
  | 0 => h
  | k + 1 => (h.grownBy a k).growHeap.addSize a 0x1000

section Grown

variable (h : HeapState) (a k : ℕ)

theorem grownBy_succ :
    h.grownBy a (k + 1) = (h.grownBy a k).growHeap.addSize a 0x1000 := rfl

@[simp] theorem addSize_curHeap (n : ℕ) : (h.addSize a n).curHeap = h.curHeap := rfl

theorem grownBy_heapStart : (h.grownBy a k).curHeap.heapStart = h.curHeap.heapStart := by
  induction k with
  | zero => rfl
  | succ k ih => rw [grownBy_succ, addSize_curHeap, growHeap, setEnd_heapStart, ih]

theorem grownBy_heapSize : (h.grownBy a k).curHeap.heapSize = h.curHeap.heapSize := by
  induction k with
  | zero => rfl
  | succ k ih => rw [grownBy_succ, addSize_curHeap, growHeap, setEnd_heapSize, ih]

theorem grownBy_last : (h.grownBy a k).curHeap.lastAllocLoc = h.curHeap.lastAllocLoc := by
  induction k with
  | zero => rfl
  | succ k ih => rw [grownBy_succ, addSize_curHeap, growHeap, setEnd_last, ih]

theorem grownBy_stored : (h.grownBy a k).stored = h.stored := by
  induction k with
  | zero => rfl
  | succ k ih => rw [grownBy_succ, addSize, modify_stored, growHeap, setEnd_stored, ih]

theorem grownBy_of_ne {b : ℕ} (hb : b ≠ a) : (h.grownBy a k).mem b = h.mem b := by
  induction k with
  | zero => rfl
  | succ k ih => rw [grownBy_succ, addSize, modify_of_ne _ _ _ hb, growHeap, setEnd_mem, ih]

theorem grownBy_self :
    (h.grownBy a k).mem a = { h.mem a with size := ((h.grownBy a k).mem a).size } := by
  induction k with
  | zero => rfl
  | succ k ih =>
    rw [grownBy_succ, addSize, modify_self, growHeap, setEnd_mem, ih]

theorem grownBy_used : ((h.grownBy a k).mem a).used = (h.mem a).used := by
  rw [grownBy_self]

end Grown

end HeapState

/-- A grown block is on the same list with its new size. -/
theorem Represents.grownBy {h : HeapState} {P Q : List HeapBlock} {b : HeapBlock}
    (hL : Represents h (P ++ b :: Q)) (k : ℕ) :
    Represents (h.grownBy b.addr k)
      (P ++ ⟨b.addr, ((h.grownBy b.addr k).mem b.addr).size, b.used⟩ :: Q) := by
  induction k with
  | zero =>
    show Represents h (P ++ ⟨b.addr, (h.mem b.addr).size, b.used⟩ :: Q)
    rw [hL.mem_self.1]
    exact hL
  | succ k ih =>
    have hgrow : Represents (h.grownBy b.addr k).growHeap _ :=
      ih.congr (HeapState.setEnd_mem ..) (HeapState.setEnd_heapStart ..) (HeapState.setEnd_last ..)
    have hsize : ((h.grownBy b.addr (k + 1)).mem b.addr).size =
        u32 (((h.grownBy b.addr k).mem b.addr).size + 0x1000) := by
      rw [HeapState.grownBy_succ, HeapState.addSize, HeapState.modify_self, HeapState.growHeap,
        HeapState.setEnd_mem]
    rw [hsize, HeapState.grownBy_succ]
    exact hgrow.addSize 0x1000

/-! ### The walk -/

theorem skipUsed_eq {mem : ℕ → AllocT} {l : List ℕ} {a b : ℕ}
    (hseg : Seg (fun x => (mem x).next) a l b)
    (hl : ∀ x ∈ l, x ≠ 0 ∧ (mem x).used = true) (hb : b ≠ 0) (hu : (mem b).used = false)
    (fuel : ℕ) :
    skipUsed mem fuel a = if l.length < fuel then some (some b) else none := by
  induction l generalizing a fuel with
  | nil =>
    obtain rfl : a = b := hseg
    cases fuel with
    | zero => rfl
    | succ fuel => simp [skipUsed, hb, hu]
  | cons c l ih =>
    obtain ⟨rfl, hseg⟩ := hseg
    obtain ⟨hne, hused⟩ := hl a (List.mem_cons_self ..)
    cases fuel with
    | zero => rfl
    | succ fuel =>
      rw [skipUsed, if_neg hne, if_pos hused, ih hseg fun x hx => hl x (List.mem_cons_of_mem a hx)]
      simp only [List.length_cons, Nat.add_lt_add_iff_right]

/-- `cur` leads to `a`: a walk from it that ends, ends there. -/
def LeadsTo (mem : ℕ → AllocT) (cur a : ℕ) : Prop :=
  ∀ fuel, skipUsed mem fuel cur = none ∨ skipUsed mem fuel cur = some (some a)

theorem leadsTo_self {mem : ℕ → AllocT} {a : ℕ} (ha : a ≠ 0) (hu : (mem a).used = false) :
    LeadsTo mem a a := by
  intro fuel
  rw [skipUsed_eq (l := []) rfl (fun x hx => absurd hx List.not_mem_nil) ha hu]
  split_ifs
  · exact Or.inr rfl
  · exact Or.inl rfl

/-- A walk that ends at a block went over used ones. -/
theorem skipUsed_some {mem : ℕ → AllocT} {fuel cur a : ℕ}
    (h : skipUsed mem fuel cur = some (some a)) :
    ∃ l, Seg (fun x => (mem x).next) cur l a ∧ (∀ x ∈ l, x ≠ 0 ∧ (mem x).used = true) ∧
      a ≠ 0 ∧ (mem a).used = false := by
  induction fuel generalizing cur with
  | zero => exact absurd h (by simp [skipUsed])
  | succ fuel ih =>
    rw [skipUsed] at h
    split_ifs at h with hcur hused
    · exact absurd h (by simp)
    · obtain ⟨l, hseg, hl, ha⟩ := ih h
      refine ⟨cur :: l, ⟨rfl, hseg⟩, fun x hx => ?_, ha⟩
      obtain rfl | hx := List.mem_cons.mp hx
      · exact ⟨hcur, hused⟩
      · exact hl x hx
    · obtain rfl : cur = a := by simpa using h
      exact ⟨[], rfl, fun x hx => absurd hx List.not_mem_nil, hcur, by simpa using hused⟩

/-- The first unused block is at `a`: the list leads over used blocks to it. -/
def FirstUnusedAt (h : HeapState) (a : ℕ) : Prop :=
  ∃ l, Seg (fun x => (h.mem x).next) h.curHeap.heapStart l a ∧
    (∀ x ∈ l, x ≠ 0 ∧ (h.mem x).used = true) ∧ a ≠ 0 ∧ (h.mem a).used = false

theorem FirstUnusedAt.skipUsed {h : HeapState} {a : ℕ} (ha : FirstUnusedAt h a) :
    ∃ n, ∀ fuel, FirstOs.skipUsed h.mem fuel h.curHeap.heapStart =
      if n < fuel then some (some a) else none := by
  obtain ⟨l, hseg, hl, hpos, hu⟩ := ha
  exact ⟨l.length, skipUsed_eq hseg hl hpos hu⟩

theorem FirstUnusedAt.leadsTo {h : HeapState} {a : ℕ} (ha : FirstUnusedAt h a) :
    LeadsTo h.mem h.curHeap.heapStart a := by
  intro fuel
  obtain ⟨n, hn⟩ := ha.skipUsed
  rw [hn]
  split_ifs
  · exact Or.inr rfl
  · exact Or.inl rfl

theorem Represents.firstUnusedAt {h : HeapState} {P Q : List HeapBlock} {b : HeapBlock}
    (hL : Represents h (P ++ b :: Q)) (hP : ∀ c ∈ P, c.used = true) (hb : b.used = false) :
    FirstUnusedAt h b.addr := by
  have hlinked := hL.linked
  rw [List.map_append, List.map_cons, Seg.split] at hlinked
  refine ⟨P.map HeapBlock.addr, hlinked.1, fun x hx => ?_, hL.range_self.1.ne',
    hL.mem_self.2.trans hb⟩
  obtain ⟨c, hc, rfl⟩ := List.mem_map.mp hx
  have hmem : c ∈ P ++ b :: Q := List.mem_append_left _ hc
  exact ⟨(hL.range c hmem).1.ne', (hL.fields c hmem).2.trans (hP c hc)⟩

/-! ### A block that is not the last one -/

section Inner

variable {h : HeapState} {a cur size fuel : ℕ} {r : MallocResult}

theorem fitEqual_inner (ha : a ≠ h.curHeap.lastAllocLoc) : fitEqual size a h =
    if (h.mem a).size = size then .error (.returned (u32 (a + 16)) (h.use a)) else .ok h := by
  rw [fitEqual, if_neg ha]

theorem fitLarger_inner (ha : a ≠ h.curHeap.lastAllocLoc) : fitLarger size a h =
    if size < (h.mem a).size then
      if (h.mem a).size < u32 (size + 16) then .error (.returned (u32 (a + 16)) (h.use a))
      else .error (.returned (u32 (a + 16)) (h.split a size))
    else .ok h := by
  rw [fitLarger, if_neg ha]

theorem fitLast_inner (ha : a ≠ h.curHeap.lastAllocLoc) : fitLast size a fuel h = some (.ok h) := by
  rw [fitLast, if_neg fun hand => ha hand.1]

/-- Nothing changes when the block is too small, so the loop runs forever. -/
theorem mallocFrom_inner_none (ha : a ≠ h.curHeap.lastAllocLoc) (ha0 : a ≠ 0)
    (hu : (h.mem a).used = false) (hsize : (h.mem a).size < size) (hlead : LeadsTo h.mem cur a) :
    mallocFrom size fuel cur h = none := by
  induction fuel generalizing cur with
  | zero => rfl
  | succ fuel ih =>
    rw [mallocFrom]
    obtain hskip | hskip := hlead fuel
    · rw [hskip]
    · rw [hskip]
      simp only [fitEqual_inner ha, fitLarger_inner ha, fitLast_inner ha, if_neg hsize.ne,
        if_neg hsize.le.not_gt]
      exact ih (leadsTo_self ha0 hu)

theorem mallocFrom_inner (ha : a ≠ h.curHeap.lastAllocLoc) (hsize : size ≤ (h.mem a).size)
    (hskip : skipUsed h.mem fuel cur = some (some a)) : mallocFrom size (fuel + 1) cur h =
      some (.returned (u32 (a + 16))
        (if (h.mem a).size = size ∨ (h.mem a).size < u32 (size + 16) then h.use a
          else h.split a size)) := by
  rw [mallocFrom, hskip]
  by_cases heq : (h.mem a).size = size
  · simp only [fitEqual_inner ha, heq, true_or, if_true]
  · have hlt : size < (h.mem a).size := by omega
    by_cases hfit : (h.mem a).size < u32 (size + 16)
    · simp only [fitEqual_inner ha, fitLarger_inner ha, if_neg heq, if_pos hlt, hfit, or_true,
        if_true]
    · simp only [fitEqual_inner ha, fitLarger_inner ha, if_pos hlt, heq, hfit, or_self, if_false]

end Inner

/-! ### The last block -/

section Last

variable {h : HeapState} {a cur size fuel k k' : ℕ} {r : MallocResult}

/-- Growing leads from `k` to `k'` rounds, each time with success. -/
def Grows (h : HeapState) (a k k' : ℕ) : Prop :=
  k ≤ k' ∧ ∀ j, k ≤ j → j < k' → (h.grownBy a j).canGrow = true

theorem Grows.refl (h : HeapState) (a k : ℕ) : Grows h a k k :=
  ⟨le_refl k, fun _ hj hj' => absurd hj' hj.not_gt⟩

theorem Grows.single (hk : (h.grownBy a k).canGrow = true) : Grows h a k (k + 1) :=
  ⟨Nat.le_succ k, fun _ hj hj' => Nat.le_antisymm hj (Nat.le_of_lt_succ hj') ▸ hk⟩

theorem Grows.trans {k'' : ℕ} (h₁ : Grows h a k k') (h₂ : Grows h a k' k'') : Grows h a k k'' :=
  ⟨h₁.1.trans h₂.1, fun j hj hj' =>
    (Nat.lt_or_ge j k').elim (fun hlt => h₁.2 j hj hlt) fun hge => h₂.2 j hge hj'⟩

/-- How `malloc` ends at the last block when it has been grown `k` times: after more
    growths it fails, or has more than `size` bytes and is cut, perhaps after one more
    growth that may have failed. -/
def EndsAtLast (h : HeapState) (a size k : ℕ) (r : MallocResult) : Prop :=
  ∃ k', Grows h a k k' ∧ (r = .returned 0 (h.grownBy a k').growHeap ∨
    size < ((h.grownBy a k').mem a).size ∧
      (u32 (size + 16) ≤ ((h.grownBy a k').mem a).size ∧
          r = .returned (u32 (a + 16)) ((h.grownBy a k').split a size) ∨
        r = .returned (u32 (a + 16)) ((h.grownBy a (k' + 1)).split a size)))

theorem EndsAtLast.of_grows (hg : Grows h a k k') (he : EndsAtLast h a size k' r) :
    EndsAtLast h a size k r := by
  obtain ⟨k'', hg', hr⟩ := he
  exact ⟨k'', hg.trans hg', hr⟩

/-- The growing loop goes on with an enlarged block, or fails. -/
theorem growUntil_cases {x : Except MallocResult HeapState}
    (hx : growUntil size a fuel (h.grownBy a k) = some x) :
    (∃ k', k < k' ∧ Grows h a k k' ∧ x = .ok (h.grownBy a k')) ∨
      ∃ r, x = .error r ∧ EndsAtLast h a size k r := by
  induction fuel generalizing k with
  | zero => exact absurd hx (by simp [growUntil])
  | succ fuel ih =>
    rw [growUntil] at hx
    cases hgrow : (h.grownBy a k).canGrow with
    | false =>
      rw [hgrow, Bool.not_false, if_pos rfl, Option.some.injEq] at hx
      exact Or.inr ⟨_, hx.symm, k, Grows.refl h a k, Or.inl rfl⟩
    | true =>
      rw [hgrow, if_neg (by decide), ← HeapState.grownBy_succ] at hx
      split_ifs at hx with hsize
      · rw [Option.some.injEq] at hx
        exact Or.inl ⟨k + 1, Nat.lt_succ_self k, Grows.single hgrow, hx.symm⟩
      · obtain ⟨k', hlt, hg, rfl⟩ | ⟨r, rfl, hr⟩ := ih hx
        · exact Or.inl ⟨k', Nat.lt_of_succ_lt hlt, (Grows.single hgrow).trans hg, rfl⟩
        · exact Or.inr ⟨r, rfl, hr.of_grows (Grows.single hgrow)⟩

/-- Unless it fails, the branch for an equal size goes on with a block that was enlarged or
    is not of that size. -/
theorem fitEqual_last (size k : ℕ) (ha : a = h.curHeap.lastAllocLoc) :
    (∃ k', Grows h a k k' ∧ (k' = k → ((h.grownBy a k).mem a).size ≠ size) ∧
        fitEqual size a (h.grownBy a k) = .ok (h.grownBy a k')) ∨
      ∃ r, fitEqual size a (h.grownBy a k) = .error r ∧ EndsAtLast h a size k r := by
  rw [fitEqual, h.grownBy_last, if_pos ha, ← HeapState.grownBy_succ]
  cases hgrow : (h.grownBy a k).canGrow with
  | false =>
    split_ifs with heq hno
    · exact Or.inr ⟨_, rfl, k, Grows.refl h a k, Or.inl rfl⟩
    · exact absurd rfl hno
    · exact Or.inl ⟨k, Grows.refl h a k, fun _ => heq, rfl⟩
  | true =>
    split_ifs with heq hno
    · exact absurd hno (by decide)
    · exact Or.inl ⟨k + 1, Grows.single hgrow, fun h => absurd h (Nat.succ_ne_self k), rfl⟩
    · exact Or.inl ⟨k, Grows.refl h a k, fun _ => heq, rfl⟩

theorem fitLarger_last (size k : ℕ) (ha : a = h.curHeap.lastAllocLoc) :
    (fitLarger size a (h.grownBy a k) = .ok (h.grownBy a k) ∧
        ((h.grownBy a k).mem a).size ≤ size) ∨
      ∃ r, fitLarger size a (h.grownBy a k) = .error r ∧ EndsAtLast h a size k r := by
  rw [fitLarger, h.grownBy_last, if_pos ha, ← HeapState.grownBy_succ]
  split_ifs with hlt hfit
  · exact Or.inr ⟨_, rfl, k, Grows.refl h a k, Or.inr ⟨hlt, Or.inr rfl⟩⟩
  · exact Or.inr ⟨_, rfl, k, Grows.refl h a k,
      Or.inr ⟨hlt, Or.inl ⟨Nat.le_of_not_lt hfit, rfl⟩⟩⟩
  · exact Or.inl ⟨rfl, Nat.le_of_not_lt hlt⟩

theorem fitLast_last {x : Except MallocResult HeapState} (ha : a = h.curHeap.lastAllocLoc)
    (hx : fitLast size a fuel (h.grownBy a k) = some x) :
    (∃ k', Grows h a k k' ∧ (k' = k → size ≤ ((h.grownBy a k).mem a).size) ∧
        x = .ok (h.grownBy a k')) ∨
      ∃ r, x = .error r ∧ EndsAtLast h a size k r := by
  rw [fitLast, h.grownBy_last] at hx
  split_ifs at hx with hsmall
  · obtain ⟨k', hlt, hg, rfl⟩ | hr := growUntil_cases hx
    · exact Or.inl ⟨k', hg, fun heq => absurd heq hlt.ne', rfl⟩
    · exact Or.inr hr
  · rw [Option.some.injEq] at hx
    rw [not_and, Nat.not_lt] at hsmall
    exact Or.inl ⟨k, Grows.refl h a k, fun _ => hsmall ha, hx.symm⟩

/-- One round at the last block: it ends, or goes on with a block that was enlarged. -/
theorem mallocFrom_last_step (size : ℕ) (ha : a = h.curHeap.lastAllocLoc)
    (hskip : skipUsed (h.grownBy a k).mem fuel cur = some (some a)) :
    (mallocFrom size (fuel + 1) cur (h.grownBy a k) = none ∧
      ∃ k', Grows h a k k' ∧ fitLast size a fuel (h.grownBy a k') = none) ∨
    (∃ r, mallocFrom size (fuel + 1) cur (h.grownBy a k) = some r ∧ EndsAtLast h a size k r) ∨
    ∃ k', k < k' ∧ Grows h a k k' ∧ mallocFrom size (fuel + 1) cur (h.grownBy a k) =
      mallocFrom size fuel a (h.grownBy a k') := by
  rw [mallocFrom, hskip]
  dsimp only
  obtain ⟨k₁, hg₁, hne₁, h₁⟩ | ⟨r, h₁, hends⟩ := fitEqual_last size k ha
  case inr =>
    rw [h₁]
    exact Or.inr (Or.inl ⟨r, rfl, hends⟩)
  rw [h₁]
  dsimp only
  obtain ⟨h₂, hle⟩ | ⟨r, h₂, hends⟩ := fitLarger_last size k₁ ha
  case inr =>
    rw [h₂]
    exact Or.inr (Or.inl ⟨r, rfl, hends.of_grows hg₁⟩)
  rw [h₂]
  dsimp only
  cases h₃ : fitLast size a fuel (h.grownBy a k₁) with
  | none => exact Or.inl ⟨rfl, k₁, hg₁, h₃⟩
  | some x =>
    obtain ⟨k₃, hg₃, hge, rfl⟩ | ⟨r, rfl, hends⟩ := fitLast_last ha h₃
    · refine Or.inr (Or.inr ⟨k₃, ?_, hg₁.trans hg₃, rfl⟩)
      -- without a growth the size would be below, above and equal to `size`
      refine lt_of_le_of_ne (hg₁.1.trans hg₃.1) fun heq => ?_
      have hk₁ : k₁ = k := Nat.le_antisymm (heq ▸ hg₃.1) hg₁.1
      subst hk₁
      exact hne₁ rfl (Nat.le_antisymm hle (hge heq.symm))
    · exact Or.inr (Or.inl ⟨r, rfl, hends.of_grows hg₁⟩)

theorem mallocFrom_last (ha : a = h.curHeap.lastAllocLoc) (ha0 : a ≠ 0)
    (hu : (h.mem a).used = false) (hlead : LeadsTo (h.grownBy a k).mem cur a)
    (hr : mallocFrom size fuel cur (h.grownBy a k) = some r) : EndsAtLast h a size k r := by
  induction fuel generalizing cur k with
  | zero => exact absurd hr (by simp [mallocFrom])
  | succ fuel ih =>
    obtain hskip | hskip := hlead fuel
    · rw [mallocFrom, hskip] at hr
      exact absurd hr (by simp)
    obtain ⟨hnone, -⟩ | ⟨r', hr', hends⟩ | ⟨k', -, hg, heq⟩ := mallocFrom_last_step size ha hskip
    · rw [hnone] at hr
      exact absurd hr (by simp)
    · rw [hr'] at hr
      exact Option.some.inj hr ▸ hends
    · rw [heq] at hr
      exact (ih (leadsTo_self ha0 ((h.grownBy_used a k').trans hu)) hr).of_grows hg

end Last

/-! ### Ending -/

section Ending

variable {h : HeapState} {a k k' : ℕ}

theorem canGrow_iff (h : HeapState) : h.canGrow = true ↔ h.grownLength < h.curHeap.heapSize :=
  decide_eq_true_iff

theorem u32_add_page {e s n : ℕ} (hs : s < 0x100000000) (hn : n ≤ 0xFFFFF000)
    (hlt : u32 (u32 (e + 0x1000) + 0x100000000 - s) < n) :
    u32 (u32 (u32 (e + 0x1000) + 0x1000) + 0x100000000 - s) =
      u32 (u32 (e + 0x1000) + 0x100000000 - s) + 0x1000 := by
  unfold u32 at *
  omega

theorem grownBy_succ_heapEnd (h : HeapState) (a k : ℕ) :
    (h.grownBy a (k + 1)).curHeap.heapEnd = u32 ((h.grownBy a k).curHeap.heapEnd + 0x1000) := by
  rw [HeapState.grownBy_succ, HeapState.addSize_curHeap, HeapState.growHeap,
    HeapState.setEnd_heapEnd]

/-- A growth that succeeds adds a page to the length, which does not wrap. -/
theorem grownLength_succ (hstart : h.curHeap.heapStart < 0x100000000)
    (hsize : h.curHeap.heapSize ≤ 0xFFFFF000) (hk : (h.grownBy a k).canGrow = true) :
    (h.grownBy a (k + 1)).grownLength = (h.grownBy a k).grownLength + 0x1000 := by
  rw [canGrow_iff, h.grownBy_heapSize, HeapState.grownLength, h.grownBy_heapStart] at hk
  rw [HeapState.grownLength, HeapState.grownLength, grownBy_succ_heapEnd, h.grownBy_heapStart,
    h.grownBy_heapStart]
  exact u32_add_page hstart hsize hk

theorem grownLength_of_grows (hstart : h.curHeap.heapStart < 0x100000000)
    (hsize : h.curHeap.heapSize ≤ 0xFFFFF000) (hg : Grows h a k k') :
    (h.grownBy a k').grownLength = (h.grownBy a k).grownLength + 0x1000 * (k' - k) := by
  obtain ⟨hle, hall⟩ := hg
  induction k', hle using Nat.le_induction with
  | base => simp
  | succ k' hle ih =>
    rw [grownLength_succ hstart hsize (hall k' hle (Nat.lt_succ_self k')),
      ih fun j hj hj' => hall j hj (Nat.lt_succ_of_lt hj')]
    omega

/-- The number of pages by which the heap can still grow, or more. -/
def growthsLeft (h : HeapState) (a k : ℕ) : ℕ := h.curHeap.heapSize - (h.grownBy a k).grownLength

theorem growthsLeft_lt (hstart : h.curHeap.heapStart < 0x100000000)
    (hsize : h.curHeap.heapSize ≤ 0xFFFFF000) (hlt : k < k') (hg : Grows h a k k') :
    growthsLeft h a k' < growthsLeft h a k := by
  have hlen := grownLength_of_grows hstart hsize hg
  have hfirst := (canGrow_iff _).mp (hg.2 k (le_refl k) hlt)
  rw [h.grownBy_heapSize] at hfirst
  simp only [growthsLeft]
  omega

theorem growUntil_ne_none (hstart : h.curHeap.heapStart < 0x100000000)
    (hsize : h.curHeap.heapSize ≤ 0xFFFFF000) {fuel : ℕ} (size : ℕ)
    (hfuel : growthsLeft h a k < fuel) : growUntil size a fuel (h.grownBy a k) ≠ none := by
  induction fuel generalizing k with
  | zero => exact absurd hfuel (Nat.not_lt_zero _)
  | succ fuel ih =>
    rw [growUntil, ← HeapState.grownBy_succ]
    cases hgrow : (h.grownBy a k).canGrow with
    | false => simp
    | true =>
      have hlt := growthsLeft_lt hstart hsize (Nat.lt_add_one k) (Grows.single hgrow)
      rw [if_neg (by decide)]
      split_ifs
      · exact Option.some_ne_none _
      · exact ih (by omega)

theorem mallocFrom_last_ne_none (hstart : h.curHeap.heapStart < 0x100000000)
    (hsize : h.curHeap.heapSize ≤ 0xFFFFF000) (ha : a = h.curHeap.lastAllocLoc) (ha0 : a ≠ 0)
    (hu : (h.mem a).used = false) {fuel cur : ℕ} (size : ℕ)
    (hskip : skipUsed (h.grownBy a k).mem fuel cur = some (some a))
    (hfuel : growthsLeft h a k < fuel) : mallocFrom size (fuel + 1) cur (h.grownBy a k) ≠ none := by
  induction fuel generalizing cur k with
  | zero => exact absurd hfuel (Nat.not_lt_zero _)
  | succ fuel ih =>
    obtain ⟨-, k', hg, hnone⟩ | ⟨r, hr, -⟩ | ⟨k', hlt, hg, heq⟩ :=
      mallocFrom_last_step size ha hskip
    · -- the growing loop has fuel for all the growths that are left
      have hleft : growthsLeft h a k' ≤ growthsLeft h a k := by
        obtain rfl | hlt := Nat.eq_or_lt_of_le hg.1
        · exact le_refl _
        · exact (growthsLeft_lt hstart hsize hlt hg).le
      rw [fitLast] at hnone
      split_ifs at hnone
      exact absurd hnone (growUntil_ne_none hstart hsize size (hleft.trans_lt hfuel))
    · rw [hr]
      exact Option.some_ne_none r
    · have hless := growthsLeft_lt hstart hsize hlt hg
      have hused : ((h.grownBy a k').mem a).used = false := (h.grownBy_used a k').trans hu
      rw [heq]
      cases fuel with
      | zero => omega
      | succ fuel =>
        refine ih ?_ (by omega)
        rw [skipUsed_eq (l := []) rfl (fun x hx => absurd hx List.not_mem_nil) ha0 hused,
          List.length_nil, if_pos (Nat.succ_pos fuel)]

end Ending

/-! ### The outcomes -/

section Outcomes

variable {h : HeapState} {a size fuel : ℕ} {r : MallocResult}

/-- Without a first unused block, `malloc` does not return. -/
theorem firstUnusedAt_of_returned {p : ℕ} {h' : HeapState}
    (hr : malloc fuel size h = some (.returned p h')) : ∃ a, FirstUnusedAt h a := by
  cases fuel with
  | zero => exact absurd hr (by simp [malloc, mallocFrom])
  | succ fuel =>
    rw [malloc, mallocFrom] at hr
    cases hskip : skipUsed h.mem fuel h.curHeap.heapStart with
    | none =>
      rw [hskip] at hr
      exact absurd hr (by simp)
    | some x =>
      rw [hskip] at hr
      cases x with
      | none => exact absurd hr (by simp)
      | some a => exact ⟨a, skipUsed_some hskip⟩

/-- The ways `malloc` can end when the first unused block is at `a`: it takes the block,
    cuts it, or, at the last block, ends as `EndsAtLast` says. -/
theorem malloc_cases (ha : FirstUnusedAt h a) (hr : malloc fuel size h = some r) :
    (a ≠ h.curHeap.lastAllocLoc ∧ size ≤ (h.mem a).size ∧
      ((h.mem a).size = size ∨ (h.mem a).size < u32 (size + 16)) ∧
      r = .returned (u32 (a + 16)) (h.use a)) ∨
    (a ≠ h.curHeap.lastAllocLoc ∧ size < (h.mem a).size ∧ u32 (size + 16) ≤ (h.mem a).size ∧
      r = .returned (u32 (a + 16)) (h.split a size)) ∨
    (a = h.curHeap.lastAllocLoc ∧ EndsAtLast h a size 0 r) := by
  have hlead := ha.leadsTo
  obtain ⟨-, -, -, hpos, hused⟩ := ha
  by_cases hlast : a = h.curHeap.lastAllocLoc
  · exact Or.inr (Or.inr ⟨hlast, mallocFrom_last (k := 0) hlast hpos hused hlead hr⟩)
  · by_cases hsize : size ≤ (h.mem a).size
    · cases fuel with
      | zero => exact absurd hr (by simp [malloc, mallocFrom])
      | succ fuel =>
        obtain hskip | hskip := hlead fuel
        · rw [malloc, mallocFrom, hskip] at hr
          exact absurd hr (by simp)
        rw [malloc, mallocFrom_inner hlast hsize hskip, Option.some.injEq] at hr
        split_ifs at hr with hfit
        · exact Or.inl ⟨hlast, hsize, hfit, hr.symm⟩
        · rw [not_or, Nat.not_lt] at hfit
          exact Or.inr (Or.inl ⟨hlast, lt_of_le_of_ne hsize (Ne.symm hfit.1), hfit.2, hr.symm⟩)
    · rw [malloc, mallocFrom_inner_none hlast hpos hused (Nat.lt_of_not_le hsize) hlead] at hr
      exact absurd hr (by simp)

/-- With a first unused block at `a`, `malloc` returns exactly when that is the last block
    or has the bytes asked for. -/
theorem malloc_returns_iff (ha : FirstUnusedAt h a) (hstart : h.curHeap.heapStart < 0x100000000)
    (hsize : h.curHeap.heapSize ≤ 0xFFFFF000) :
    (∃ fuel p h', malloc fuel size h = some (.returned p h')) ↔
      a = h.curHeap.lastAllocLoc ∨ size ≤ (h.mem a).size := by
  constructor
  · rintro ⟨fuel, p, h', hr⟩
    obtain ⟨-, hle, -⟩ | ⟨-, hlt, -⟩ | ⟨hlast, -⟩ := malloc_cases ha hr
    · exact Or.inr hle
    · exact Or.inr hlt.le
    · exact Or.inl hlast
  · intro hcond
    have hsome : ∃ fuel, malloc fuel size h ≠ none := by
      obtain ⟨n, hskip⟩ := ha.skipUsed
      obtain ⟨-, -, -, hpos, hused⟩ := ha
      by_cases hlast : a = h.curHeap.lastAllocLoc
      · refine ⟨growthsLeft h a 0 + n + 1 + 1, ?_⟩
        refine mallocFrom_last_ne_none (k := 0) hstart hsize hlast hpos hused size ?_ (by omega)
        exact (hskip _).trans (if_pos (by omega))
      · refine ⟨n + 1 + 1, ?_⟩
        rw [malloc, mallocFrom_inner hlast (hcond.resolve_left hlast)
          ((hskip _).trans (if_pos (by omega)))]
        exact Option.some_ne_none _
    obtain ⟨fuel, hne⟩ := hsome
    obtain ⟨r, hr⟩ := Option.ne_none_iff_exists'.mp hne
    obtain ⟨-, -, -, rfl⟩ | ⟨-, -, -, rfl⟩ | ⟨-, k, -, rfl | ⟨-, ⟨-, rfl⟩ | rfl⟩⟩ :=
      malloc_cases ha hr
    all_goals exact ⟨fuel, _, _, hr⟩

/-- `grow_heap` refuses before the last block at `a` has more than `size` bytes. -/
def Starves (h : HeapState) (a size : ℕ) : Prop :=
  ∃ k, (∀ j ≤ k, ((h.grownBy a j).mem a).size ≤ size) ∧ (h.grownBy a k).canGrow = false

/-- It does not when growing with success leaves more than `size` bytes. -/
theorem not_starves {k : ℕ} (hg : Grows h a 0 k) (hlt : size < ((h.grownBy a k).mem a).size) :
    ¬ Starves h a size := by
  rintro ⟨n, hle, hno⟩
  have hkn : k ≤ n := by
    refine Nat.le_of_not_lt fun hnk => ?_
    rw [hg.2 n (Nat.zero_le n) hnk] at hno
    exact absurd hno (by decide)
  exact absurd (hle k hkn) (Nat.not_le_of_lt hlt)

/-- If it does, `malloc` fails at the last block. -/
theorem EndsAtLast.of_starves (he : EndsAtLast h a size 0 r) (hs : Starves h a size) :
    ∃ k, Grows h a 0 k ∧ r = .returned 0 (h.grownBy a k).growHeap := by
  obtain ⟨k, hg, hfail | ⟨hlt, -⟩⟩ := he
  · exact ⟨k, hg, hfail⟩
  · exact absurd hs (not_starves hg hlt)

end Outcomes

/-! ### `free` -/

/-- Two neighbours as one block. -/
def HeapBlock.merge (a n : HeapBlock) : HeapBlock := ⟨a.addr, u32 (a.size + (n.size + 16)), a.used⟩

/-- The freed block `c` and what follows it, merged when the next block is unused. -/
def freeNext (c : HeapBlock) : List HeapBlock → List HeapBlock
  | [] => [c]
  | d :: Q => if d.used then c :: d :: Q else c.merge d :: Q

/-- The blocks `P` in front of the list `c :: Q`, merged when the last of `P` is unused. -/
def freePrev (P : List HeapBlock) (c : HeapBlock) (Q : List HeapBlock) : List HeapBlock :=
  match P.getLast? with
  | none => c :: Q
  | some e => if e.used then P ++ c :: Q else P.dropLast ++ e.merge c :: Q

/-- The list after freeing `c` between `P` and `Q`. -/
def freeList (P : List HeapBlock) (c : HeapBlock) (Q : List HeapBlock) : List HeapBlock :=
  match freeNext { c with used := false } Q with
  | [] => P
  | c :: Q => freePrev P c Q

/-- The back pointer of `c` names the block before it, or is `NULL` for the first one. -/
def PrevOk (h : HeapState) (P : List HeapBlock) (c : HeapBlock) : Prop :=
  (h.mem c.addr).prev = (P.getLast?.map HeapBlock.addr).getD 0

section Free

variable {h : HeapState} {P Q : List HeapBlock} {c d e : HeapBlock}

@[simp] theorem freePrev_concat : freePrev (P ++ [e]) c Q =
    if e.used then P ++ e :: c :: Q else P ++ e.merge c :: Q := by
  rw [freePrev, List.getLast?_concat, List.dropLast_concat]
  simp

theorem freeList_used (hd : d.used = true) :
    freeList P c (d :: Q) = freePrev P { c with used := false } (d :: Q) := by
  simp [freeList, freeNext, hd]

theorem freeList_unused (hd : d.used = false) :
    freeList P c (d :: Q) = freePrev P ({ c with used := false }.merge d) Q := by
  simp [freeList, freeNext, hd]

/-- The second half of `free`: merge into the previous block when it is unused. -/
theorem represents_freePrev (hL : Represents h (P ++ c :: Q)) {prev : ℕ}
    (hprev : prev = (P.getLast?.map HeapBlock.addr).getD 0) :
    Represents (h.absorbIf prev prev c.addr) (freePrev P c Q) := by
  simp only [HeapState.absorbIf]
  obtain rfl | ⟨P, e, rfl⟩ := List.eq_nil_or_concat' P
  · rw [if_neg fun hne => hne.1 hprev]
    exact hL
  · rw [List.getLast?_concat, Option.map_some, Option.getD_some] at hprev
    subst hprev
    rw [List.append_assoc, List.singleton_append] at hL
    have hused := (hL.fields e (by simp)).2
    have hpos := (hL.range e (by simp)).1
    rw [freePrev_concat]
    cases he : e.used with
    | true =>
      rw [he] at hused
      rw [if_neg (by rw [hused]; simp), if_pos rfl]
      exact hL
    | false =>
      rw [he] at hused
      rw [if_pos ⟨hpos.ne', hused⟩, if_neg (by decide)]
      exact hL.absorb

/-- `free` of a used block, whose back pointer is right, frees it on the list. -/
theorem free_represents (hL : Represents h (P ++ c :: d :: Q)) (hprev : PrevOk h P c) :
    Represents (free (c.addr + 16) h) (freeList P c (d :: Q)) := by
  obtain ⟨-, hlt, -⟩ := hL.range_self
  have hcur : u32 (c.addr + 16 + 0x100000000 - 16) = c.addr := by
    simp only [u32]
    omega
  have hrel := hL.setUsed false
  have hnext : ((h.modify c.addr fun x => { x with used := false }).mem c.addr).next = d.addr := by
    rw [HeapState.modify_self]
    exact hL.next_eq
  have hback : ((h.modify c.addr fun x => { x with used := false }).mem c.addr).prev =
      (P.getLast?.map HeapBlock.addr).getD 0 := by
    rw [HeapState.modify_self]
    exact hprev
  have hpos := (hrel.range d (by simp)).1
  have hused := (hrel.fields d (by simp)).2
  simp only [free, hcur, hnext, hback]
  generalize (h.modify c.addr fun x => { x with used := false }) = g at hrel hused ⊢
  cases hd : d.used with
  | true =>
    have hno : g.absorbIf d.addr c.addr d.addr = g :=
      if_neg fun hand => by rw [hused, hd] at hand; exact absurd hand.2 (by decide)
    rw [freeList_used hd, hno]
    exact represents_freePrev hrel rfl
  | false =>
    have hyes : g.absorbIf d.addr c.addr d.addr = g.absorb c.addr d.addr :=
      if_pos ⟨hpos.ne', hused.trans hd⟩
    rw [freeList_unused hd, hyes]
    exact represents_freePrev hrel.absorb rfl

theorem free_heapStart (p : ℕ) (h : HeapState) :
    (free p h).curHeap.heapStart = h.curHeap.heapStart := by
  rw [free, HeapState.absorbIf_heapStart, HeapState.absorbIf_heapStart, HeapState.modify_curHeap]

theorem free_heapSize (p : ℕ) (h : HeapState) :
    (free p h).curHeap.heapSize = h.curHeap.heapSize := by
  rw [free, HeapState.absorbIf_heapSize, HeapState.absorbIf_heapSize, HeapState.modify_curHeap]

end Free

end FirstOs
