import FirstOs.Memory.FirstFit

/-!
# Freeing undoes allocating

`Lends s s' P` says that `s'` is `s` with the absent pages in `P` mapped to distinct
frames that were free in `s`. Mapping one more page of a window adds it to `P`,
unmapping a page of `P` removes it, and a state that lends nothing is the original
one. Blocks handed out one after the other lend disjoint sets of pages, so giving
them back in any order ends at the start.

## Main results

- `Lends.freePages_add_card` — the counter sees exactly the lent pages
- `lends_allocPageMap`, `lends_sequentialMap`, `lends_freePageFrom` — the loops on `Lends`
- `freeBlocks_runRequests` — freeing all blocks in any order restores the state
-/

namespace FirstOs

/-- `s'` is `s` with the absent pages `P` mapped to distinct frames free in `s`. -/
structure Lends (s s' : Flat) (P : Finset ℕ) : Prop where
  lt : ∀ i ∈ P, i < 0x100000
  absent : ∀ i ∈ P, (s.tables i).present = false
  other : ∀ i ∉ P, s'.tables i = s.tables i
  lent : ∀ i ∈ P, s'.tables i = mappedEntry (s.tables i) ((s'.tables i).frame * 0x1000)
  adds : Bitmap.Adds s.pmemUsed s'.pmemUsed (fun i => (s'.tables i).frame) P

/-- Absent entries are not writable and name frame 0. -/
def AbsentZero (s : Flat) : Prop :=
  ∀ i < 0x100000, (s.tables i).present = false →
    (s.tables i).readwrite = false ∧ (s.tables i).address = 0

section Lends

variable {s s' : Flat} {P : Finset ℕ}

theorem lends_empty (s : Flat) : Lends s s ∅ := by
  refine ⟨?_, ?_, fun _ _ => rfl, ?_, Bitmap.Adds.refl _ _⟩ <;> simp

theorem Lends.present (h : Lends s s' P) {i : ℕ} (hi : i ∈ P) :
    (s'.tables i).present = true := by
  rw [h.lent i hi]
  rfl

/-- Mapping one more absent page to a free frame. -/
theorem lends_mapAddr (h : Lends s s' P) (vaddr : ℕ) {f : ℕ} (hv : vaddr / 0x1000 < 0x100000)
    (hp : (s'.tables (vaddr / 0x1000)).present = false) (hf : f < 0x100000)
    (hfree : s'.pmemUsed.bit f = false) :
    Lends s (mapAddr s' vaddr (f * 0x1000)) (insert (vaddr / 0x1000) P) := by
  have hvP : vaddr / 0x1000 ∉ P := by
    intro hmem
    rw [h.present hmem] at hp
    exact absurd hp (by decide)
  have hself : (mapAddr s' vaddr (f * 0x1000)).tables (vaddr / 0x1000) =
      mappedEntry (s.tables (vaddr / 0x1000)) (f * 0x1000) := by
    rw [Flat.mapAddr_tables, Function.update_self, h.other _ hvP]
  have hframe : ((mapAddr s' vaddr (f * 0x1000)).tables (vaddr / 0x1000)).frame = f := by
    rw [hself, mappedEntry_frame _ hf]
  have hne : ∀ i, i ≠ vaddr / 0x1000 →
      (mapAddr s' vaddr (f * 0x1000)).tables i = s'.tables i := by
    intro i hi
    rw [Flat.mapAddr_tables, Function.update_of_ne hi]
  have hneP : ∀ i ∈ P, i ≠ vaddr / 0x1000 := fun i hi heq => hvP (heq ▸ hi)
  refine ⟨?_, ?_, ?_, ?_, ?_⟩
  · intro i hi
    obtain rfl | hi := Finset.mem_insert.mp hi
    · exact hv
    · exact h.lt i hi
  · intro i hi
    obtain rfl | hi := Finset.mem_insert.mp hi
    · rw [← h.other _ hvP]
      exact hp
    · exact h.absent i hi
  · intro i hi
    rw [Finset.mem_insert, not_or] at hi
    rw [hne i hi.1, h.other i hi.2]
  · intro i hi
    obtain rfl | hi := Finset.mem_insert.mp hi
    · rw [hframe, hself]
    · rw [hne i (hneP i hi)]
      exact h.lent i hi
  · have hadds : Bitmap.Adds s.pmemUsed s'.pmemUsed
        (fun i => ((mapAddr s' vaddr (f * 0x1000)).tables i).frame) P :=
      h.adds.congr fun i hi => by rw [hne i (hneP i hi)]
    have hins := hadds.insert (v := vaddr / 0x1000) (by rw [hframe]; exact hfree)
    rwa [hframe, ← claimPhysPage_frame] at hins

/-- Unmapping a page that absent entries leave zero undoes mapping it. -/
theorem unmappedEntry_mappedEntry {e : PageTableEntry} {paddr : ℕ} (hp : e.present = false)
    (hrw : e.readwrite = false) (ha : e.address = 0) :
    unmappedEntry (mappedEntry e paddr) = e := by
  cases e
  subst hp hrw ha
  rfl

/-- Unmapping a lent page gives it back. -/
theorem lends_unmapVaddr (h : Lends s s' P) (hz : AbsentZero s) {vaddr : ℕ}
    (hmem : vaddr / 0x1000 ∈ P) :
    Lends s (unmapVaddr s' vaddr) (P.erase (vaddr / 0x1000)) := by
  have hne : ∀ i, i ≠ vaddr / 0x1000 → (unmapVaddr s' vaddr).tables i = s'.tables i := by
    intro i hi
    rw [Flat.unmapVaddr_tables, Function.update_of_ne hi]
  refine ⟨?_, ?_, ?_, ?_, ?_⟩
  · exact fun i hi => h.lt i (Finset.mem_of_mem_erase hi)
  · exact fun i hi => h.absent i (Finset.mem_of_mem_erase hi)
  · intro i hi
    by_cases hiv : i = vaddr / 0x1000
    · have habs := h.absent _ hmem
      obtain ⟨hrw, ha⟩ := hz _ (h.lt _ hmem) habs
      rw [hiv, Flat.unmapVaddr_tables, Function.update_self, h.lent _ hmem,
        unmappedEntry_mappedEntry habs hrw ha]
    · rw [hne i hiv]
      exact h.other i fun hP => hi (Finset.mem_erase.mpr ⟨hiv, hP⟩)
  · intro i hi
    rw [hne i (Finset.ne_of_mem_erase hi)]
    exact h.lent i (Finset.mem_of_mem_erase hi)
  · rw [Flat.unmapVaddr_pmemUsed]
    exact (h.adds.erase hmem).congr fun i hi => by rw [hne i (Finset.ne_of_mem_erase hi)]

/-- A state that lends nothing is the original one, memory contents apart. -/
theorem Lends.eq_of_empty (h : Lends s s' ∅) :
    s'.tables = s.tables ∧ s'.pmemUsed = s.pmemUsed :=
  ⟨funext fun i => h.other i (by simp), h.adds.eq_of_empty⟩

/-- The free frames of the lending state and the lent ones are the original free frames. -/
theorem Lends.freePages_add_card (h : Lends s s' P) :
    freePages s'.pmemUsed + P.card = freePages s.pmemUsed := by
  rw [freePages_eq_card, freePages_eq_card]
  exact h.adds.card_zeros fun i _ => PageTableEntry.frame_lt _

end Lends

/-- The pages of a window. -/
abbrev window (i pages : ℕ) : Finset ℕ := Finset.Ico i (i + pages)

theorem window_succ (i k : ℕ) : window i (k + 1) = insert (i + k) (window i k) := by
  ext x
  simp only [window, Finset.mem_Ico, Finset.mem_insert]
  omega

section Calls

variable {s s' : Flat} {P : Finset ℕ} {n : ℕ}

theorem allocPageMap_fst {σ : Type} [AddressSpace σ] (t : σ) (i k : ℕ)
    (hr : (allocPageMap t i n k).1 ≠ 0) : (allocPageMap t i n k).1 = i * 0x1000 := by
  fun_induction allocPageMap t i n k with
  | case1 t k hlt paddr hz => exact absurd rfl hr
  | case2 t k hlt paddr hne ih => exact ih hr
  | case3 t k hge => rfl

/-- The mapping loop of `alloc_page` from step `k`, with the first `k` pages of the
    window already lent. -/
theorem lends_allocPageMap {i k : ℕ} (h : Lends s s' (P ∪ window i k)) (hk : k ≤ n)
    (hin : i + n ≤ 0x100000)
    (hp : ∀ t, k ≤ t → t < n → (s'.tables (i + t)).present = false)
    (hr : (allocPageMap s' i n k).1 ≠ 0) :
    Lends s (allocPageMap s' i n k).2 (P ∪ window i n) := by
  fun_induction allocPageMap s' i n k with
  | case1 t k hlt paddr hz => exact absurd rfl hr
  | case2 t k hlt paddr hne ih =>
    obtain ⟨f, hf, hf', hfree, he⟩ := findFreePhysPage_spec hne
    have hpage : u32 ((i + k) * 0x1000) / 0x1000 = i + k := by
      rw [page_of_u32, Nat.mod_eq_of_lt (by omega)]
    have hmap := lends_mapAddr h (u32 ((i + k) * 0x1000)) (by omega)
      (by rw [hpage]; exact hp k (le_refl k) hlt) hf' hfree
    rw [hpage, ← Finset.union_insert, ← window_succ, ← he] at hmap
    refine ih hmap (by omega) (fun u hu hu' => ?_) hr
    rw [Flat.mapAddr_tables, hpage, Function.update_of_ne (by omega)]
    exact hp u (by omega) hu'
  | case3 t k hge =>
    have hkn : k = n := by omega
    exact hkn ▸ h

theorem lends_sequentialMap {i j k : ℕ} (h : Lends s s' (P ∪ window i k)) (hk : k ≤ n)
    (hin : i + n ≤ 0x100000)
    (hp : ∀ t, k ≤ t → t < n → (s'.tables (i + t)).present = false)
    (hfree : ∀ t, k ≤ t → t < n → s'.pmemUsed.bit ((j + t) % 0x100000) = false) :
    Lends s (sequentialMap s' i j n k) (P ∪ window i n) := by
  fun_induction sequentialMap s' i j n k with
  | case1 t k hlt ih =>
    have hpage : u32 ((i + k) * 0x1000) / 0x1000 = i + k := by
      rw [page_of_u32, Nat.mod_eq_of_lt (by omega)]
    have hframe : u32 ((j + k) * 0x1000) = (j + k) % 0x100000 * 0x1000 := by
      simp only [u32]
      omega
    have hmap := lends_mapAddr h (u32 ((i + k) * 0x1000)) (by omega)
      (by rw [hpage]; exact hp k (le_refl k) hlt) (Nat.mod_lt _ (by omega))
      (hfree k (le_refl k) hlt)
    rw [hpage, ← Finset.union_insert, ← window_succ] at hmap
    rw [hframe] at ih ⊢
    refine ih hmap (by omega) (fun u hu hu' => ?_) fun u hu hu' => ?_
    · rw [Flat.mapAddr_tables, hpage, Function.update_of_ne (by omega)]
      exact hp u (by omega) hu'
    · have hne : (j + u) % 0x100000 ≠ (j + k) % 0x100000 := by omega
      rw [Flat.mapAddr_pmemUsed, claimPhysPage_frame, Bitmap.bit_set, hfree u (by omega) hu']
      simpa using hne
  | case2 t k hge =>
    have hkn : k = n := by omega
    exact hkn ▸ h

theorem Lends.disjoint_window (h : Lends s s' P) {i : ℕ}
    (hp : ∀ t < n, (s'.tables (i + t)).present = false) : Disjoint P (window i n) := by
  rw [Finset.disjoint_left]
  intro x hx hw
  rw [window, Finset.mem_Ico] at hw
  have habs := hp (x - i) (by omega)
  rw [show i + (x - i) = x by omega, h.present hx] at habs
  exact absurd habs (by decide)

/-- The pages of a window inside the table that the test accepts are absent. -/
theorem absent_of_windowAt_le {i : ℕ} (hw : windowAt s' n i = true) (hi : i < 0x100000)
    (hin : i + n ≤ 0x100000) : ∀ t < n, (s'.tables (i + t)).present = false := by
  intro t ht
  have habs := absent_of_windowAt hw hi t ht
  rwa [u32, Nat.mod_eq_of_lt (by omega)] at habs

end Calls

/-- A block handed out by an allocator: its address and its number of pages. -/
structure Block where
  addr : ℕ
  pages : ℕ
deriving DecidableEq

namespace Block

/-- The virtual pages of a block. -/
def window (b : Block) : Finset ℕ := FirstOs.window (b.addr / 0x1000) b.pages

/-- The call that handed out the block succeeded inside the table. -/
def Valid (b : Block) : Prop := b.addr ≠ 0 ∧ b.addr / 0x1000 + b.pages ≤ 0x100000

end Block

/-- A call to one of the two allocators. -/
structure Request where
  sequential : Bool
  pages : ℕ

/-- Serve one request. -/
def Request.exec (q : Request) (s : Flat) : Block × Flat :=
  let (addr, s) := if q.sequential then allocSequential s q.pages else allocPage s q.pages
  (⟨addr, q.pages⟩, s)

/-- Serve the requests one after the other. -/
def runRequests (s : Flat) : List Request → List Block × Flat
  | [] => ([], s)
  | q :: qs =>
    let (b, s) := q.exec s
    let (bs, s) := runRequests s qs
    (b :: bs, s)

/-- Give the blocks back one after the other. -/
def freeBlocks (s : Flat) (bs : List Block) : Flat :=
  bs.foldl (fun s b => freePage s b.addr b.pages) s

/-- The pages of all blocks. -/
def lentPages (bs : List Block) : Finset ℕ := bs.toFinset.biUnion Block.window

@[simp] theorem lentPages_nil : lentPages [] = ∅ := rfl

@[simp] theorem lentPages_cons (b : Block) (bs : List Block) :
    lentPages (b :: bs) = b.window ∪ lentPages bs := by
  simp [lentPages, Finset.biUnion_insert]

/-- Blocks of which no two have a page in common. -/
def Disjointed (bs : List Block) : Prop := bs.Pairwise fun b c => Disjoint b.window c.window

section Requests

variable {s s' : Flat} {P : Finset ℕ}

/-- A successful request lends the window of the block it returns. -/
theorem lends_exec (h : Lends s s' P) (q : Request) (hv : (q.exec s').1.Valid) :
    Disjoint P (q.exec s').1.window ∧ Lends s (q.exec s').2 (P ∪ (q.exec s').1.window) := by
  obtain ⟨sequential, n⟩ := q
  obtain ⟨hr, hend⟩ := hv
  have hempty : ∀ i, Lends s s' (P ∪ window i 0) := by simpa [window] using h
  cases sequential with
  | true =>
    change (allocSequential s' n).1 ≠ 0 at hr
    change (allocSequential s' n).1 / 0x1000 + n ≤ 0x100000 at hend
    change Disjoint P (window ((allocSequential s' n).1 / 0x1000) n) ∧
      Lends s (allocSequential s' n).2 (P ∪ window ((allocSequential s' n).1 / 0x1000) n)
    have hn : n ≠ 0 := by
      rintro rfl
      exact hr (by rw [allocSequential, if_pos rfl])
    obtain ⟨he, -⟩ | ⟨i, j, -, hi, hw, -, -, hj, hat, -, he⟩ := allocSequential_cases s' hn
    · exact absurd (by rw [he]) hr
    · rw [he, Nat.mul_div_cancel i (by omega)] at hend ⊢
      have habs := absent_of_windowAt_le hw hi hend
      refine ⟨h.disjoint_window habs, lends_sequentialMap (hempty i) (by omega) hend ?_ ?_⟩
      · exact fun t _ ht => habs t ht
      · exact fun t _ ht => free_of_sequentialAt hat hj t ht
  | false =>
    change (allocPage s' n).1 ≠ 0 at hr
    change (allocPage s' n).1 / 0x1000 + n ≤ 0x100000 at hend
    change Disjoint P (window ((allocPage s' n).1 / 0x1000) n) ∧
      Lends s (allocPage s' n).2 (P ∪ window ((allocPage s' n).1 / 0x1000) n)
    have hn : n ≠ 0 := by
      rintro rfl
      exact hr (by rw [allocPage, if_pos rfl])
    obtain ⟨he, -⟩ | ⟨i, -, hi, hw, -, he⟩ := allocPage_cases s' hn
    · exact absurd (by rw [he]) hr
    · rw [he] at hr hend ⊢
      rw [allocPageMap_fst s' i 0 hr, Nat.mul_div_cancel i (by omega)] at hend ⊢
      have habs := absent_of_windowAt_le hw hi hend
      exact ⟨h.disjoint_window habs,
        lends_allocPageMap (hempty i) (by omega) hend (fun t _ ht => habs t ht) hr⟩

/-- Successful requests lend disjoint windows, one after the other. -/
theorem lends_runRequests (h : Lends s s' P) (qs : List Request)
    (hv : ∀ b ∈ (runRequests s' qs).1, b.Valid) :
    Disjoint P (lentPages (runRequests s' qs).1) ∧ Disjointed (runRequests s' qs).1 ∧
      Lends s (runRequests s' qs).2 (P ∪ lentPages (runRequests s' qs).1) := by
  induction qs generalizing s' P with
  | nil =>
    refine ⟨Finset.disjoint_empty_right P, List.Pairwise.nil, ?_⟩
    simpa [runRequests] using h
  | cons q qs ih =>
    obtain ⟨hdis, hL⟩ := lends_exec h q (hv _ (List.mem_cons_self ..))
    obtain ⟨hrest, hpair, hL'⟩ := ih hL fun b hb => hv b (List.mem_cons_of_mem _ hb)
    rw [Finset.disjoint_union_left] at hrest
    change Disjoint P (lentPages ((q.exec s').1 :: (runRequests (q.exec s').2 qs).1)) ∧
      Disjointed ((q.exec s').1 :: (runRequests (q.exec s').2 qs).1) ∧
      Lends s (runRequests (q.exec s').2 qs).2
        (P ∪ lentPages ((q.exec s').1 :: (runRequests (q.exec s').2 qs).1))
    rw [lentPages_cons, ← Finset.union_assoc, Finset.disjoint_union_right]
    refine ⟨⟨hdis, hrest.1⟩, List.Pairwise.cons (fun c hc => ?_) hpair, hL'⟩
    refine Finset.disjoint_of_subset_right ?_ hrest.2
    exact Finset.subset_biUnion_of_mem Block.window (List.mem_toFinset.mpr hc)

/-- `free_page` gives back the pages of its range from the `i`-th on. -/
theorem lends_freePageFrom (h : Lends s s' P) (hz : AbsentZero s) {start n i : ℕ} {Q : Finset ℕ}
    (hP : P = Finset.Ico (start / 0x1000 + i) (start / 0x1000 + n) ∪ Q)
    (hQ : Disjoint (Finset.Ico (start / 0x1000 + i) (start / 0x1000 + n)) Q)
    (hin : start / 0x1000 + n ≤ 0x100000) (hi : i ≤ n) :
    Lends s (freePageFrom s' start n i) Q := by
  fun_induction freePageFrom s' start n i generalizing P with
  | case1 t i hlt ih =>
    have hpage : u32 (start + i * 0x1000) / 0x1000 = start / 0x1000 + i := by
      simp only [u32]
      omega
    have hstep : Finset.Ico (start / 0x1000 + i) (start / 0x1000 + n) =
        insert (start / 0x1000 + i)
          (Finset.Ico (start / 0x1000 + (i + 1)) (start / 0x1000 + n)) := by
      ext x
      simp only [Finset.mem_Ico, Finset.mem_insert]
      omega
    rw [hstep, Finset.disjoint_insert_left] at hQ
    rw [hstep, Finset.insert_union] at hP
    have hmem : u32 (start + i * 0x1000) / 0x1000 ∈ P := by
      rw [hpage, hP]
      exact Finset.mem_insert_self _ _
    have hun := lends_unmapVaddr h hz hmem
    rw [hpage, hP, Finset.erase_insert] at hun
    · exact ih hun rfl hQ.2 (by omega)
    · rw [Finset.mem_union, not_or]
      refine ⟨?_, hQ.1⟩
      simp
  | case2 t i hge =>
    rw [Finset.Ico_eq_empty (by omega), Finset.empty_union] at hP
    exact hP ▸ h

theorem disjoint_lentPages {b : Block} {bs : List Block}
    (hb : ∀ c ∈ bs, Disjoint b.window c.window) : Disjoint b.window (lentPages bs) := by
  rw [lentPages, Finset.disjoint_biUnion_right]
  exact fun c hc => hb c (List.mem_toFinset.mp hc)

/-- Giving back all blocks in any order leaves nothing lent. -/
theorem lends_freeBlocks (hz : AbsentZero s) (bs : List Block) (h : Lends s s' (lentPages bs))
    (hdis : Disjointed bs) (hv : ∀ b ∈ bs, b.Valid) : Lends s (freeBlocks s' bs) ∅ := by
  induction bs generalizing s' with
  | nil => exact h
  | cons b bs ih =>
    obtain ⟨hb, hdis⟩ := List.pairwise_cons.mp hdis
    have hdisj := disjoint_lentPages hb
    have hfree := lends_freePageFrom (i := 0) h hz (lentPages_cons b bs) hdisj
      (hv b (List.mem_cons_self ..)).2 (Nat.zero_le _)
    exact ih hfree hdis fun c hc => hv c (List.mem_cons_of_mem _ hc)

theorem card_lentPages (bs : List Block) (hdis : Disjointed bs) :
    (lentPages bs).card = (bs.map Block.pages).sum := by
  induction bs with
  | nil => rfl
  | cons b bs ih =>
    obtain ⟨hb, hdis⟩ := List.pairwise_cons.mp hdis
    have hdisj := disjoint_lentPages hb
    have hcard : b.window.card = b.pages := by simp [Block.window]
    rw [lentPages_cons, Finset.card_union_of_disjoint hdisj, ih hdis, hcard, List.map_cons,
      List.sum_cons]

theorem runRequests_pages (t : Flat) (qs : List Request) :
    (runRequests t qs).1.map Block.pages = qs.map Request.pages := by
  induction qs generalizing t with
  | nil => rfl
  | cons q qs ih =>
    change q.pages :: (runRequests (q.exec t).2 qs).1.map Block.pages = _
    rw [ih, List.map_cons]

end Requests

/-- **Freeing undoes allocating, in any order.** -/
theorem freeBlocks_runRequests {s : Flat} (hz : AbsentZero s) (qs : List Request)
    (hv : ∀ b ∈ (runRequests s qs).1, b.Valid) {bs : List Block}
    (hperm : bs.Perm (runRequests s qs).1) :
    (qs.map Request.pages).sum ≤ freePages s.pmemUsed ∧
      freePages (runRequests s qs).2.pmemUsed =
        freePages s.pmemUsed - (qs.map Request.pages).sum ∧
      (freeBlocks (runRequests s qs).2 bs).pmemUsed = s.pmemUsed ∧
      (freeBlocks (runRequests s qs).2 bs).tables = s.tables := by
  obtain ⟨-, hdis, hL⟩ := lends_runRequests (lends_empty s) qs hv
  rw [Finset.empty_union] at hL
  have hcount := hL.freePages_add_card
  rw [card_lentPages _ hdis, runRequests_pages] at hcount
  have hpages : lentPages bs = lentPages (runRequests s qs).1 := by
    rw [lentPages, lentPages, List.toFinset_eq_of_perm _ _ hperm]
  have hdis' : Disjointed bs := (hperm.pairwise_iff fun h => h.symm).mpr hdis
  obtain ⟨htables, hused⟩ := (lends_freeBlocks hz bs (hpages ▸ hL) hdis'
    fun b hb => hv b (hperm.mem_iff.mp hb)).eq_of_empty
  exact ⟨by omega, by omega, hused, htables⟩

/-- Two pages by `alloc_page`, then one by `alloc_sequential`: it gets the hole below them. -/
theorem runRequests_scattered : (runRequests Flat.scattered [⟨false, 2⟩, ⟨true, 1⟩]).1 =
    [⟨0xC0004000, 2⟩, ⟨0xC0002000, 1⟩] := by
  have hfirst := allocPage_eq_of_window
    (firstWindow_of_isLeast (by decide) isLeast_scattered) (by decide) two_le_freeFrames_scattered
  obtain ⟨-, hout, hbits⟩ := allocPageMap_maps (v := 0xC0004) (by decide) (Nat.zero_le 2)
    two_le_freeFrames_scattered
  rw [freeFrameList_scattered] at hbits
  generalize (allocPageMap Flat.scattered 0xC0004 2 0).2 = t at hfirst hout hbits
  have hbelow : ∀ i < 0xC0004, t.tables i = Flat.scattered.tables i := fun i hi =>
    hout i (Or.inl hi)
  have hwindow : FirstWindow t 1 0xC0002 := by
    refine ⟨by decide, by decide, fun k hk => ?_, fun v hv hvw => ⟨0, by decide, ?_⟩⟩
    · obtain rfl : k = 0 := Nat.lt_one_iff.mp hk
      exact (congrArg _ (hbelow 0xC0002 (by decide))).trans (scattered_present _)
    · rw [u32, Nat.mod_eq_of_lt (by omega), Nat.add_zero, hbelow v (by omega), scattered_present,
        decide_eq_true]
      omega
  have hrun : FreeRun t.pmemUsed 1 := by
    refine ⟨0x1000, by decide, by decide, fun k hk => ?_⟩
    obtain rfl : k = 0 := Nat.lt_one_iff.mp hk
    rw [hbits, scattered_bit]
    rfl
  obtain ⟨j, -, -, -, hsecond⟩ :=
    allocSequential_eq_of_window hwindow (by decide) (by decide) hrun
  have hblock : ((⟨true, 1⟩ : Request).exec t).1 = ⟨0xC0002000, 1⟩ := by
    change Block.mk (allocSequential t 1).1 1 = _
    rw [hsecond]
  have hexec : (⟨false, 2⟩ : Request).exec Flat.scattered = (⟨0xC0004000, 2⟩, t) := by
    change (Block.mk (allocPage Flat.scattered 2).1 2, (allocPage Flat.scattered 2).2) = _
    rw [hfirst]
  rw [runRequests, hexec]
  change [_, ((⟨true, 1⟩ : Request).exec t).1] = _
  rw [hblock]

theorem absentZero_scattered : AbsentZero Flat.scattered := by
  intro i hi habsent
  rw [scattered_present, decide_eq_false_iff_not] at habsent
  push Not at habsent
  rw [Flat.scattered, Flat.mapAddr_tables, Function.update_of_ne habsent.2.2, Flat.mapAddr_tables,
    Function.update_of_ne habsent.2.1, Flat.mapAddr_tables, Function.update_of_ne habsent.1]
  exact ⟨rfl, rfl⟩

/-- The blocks are given back in the order they came, or the other way round. -/
theorem freeBlocks_runRequests_scattered :
    (freeBlocks (runRequests Flat.scattered [⟨false, 2⟩, ⟨true, 1⟩]).2
        [⟨0xC0004000, 2⟩, ⟨0xC0002000, 1⟩]).tables = Flat.scattered.tables ∧
      (freeBlocks (runRequests Flat.scattered [⟨false, 2⟩, ⟨true, 1⟩]).2
        [⟨0xC0002000, 1⟩, ⟨0xC0004000, 2⟩]).tables = Flat.scattered.tables := by
  have hvalid : ∀ b ∈ (runRequests Flat.scattered [⟨false, 2⟩, ⟨true, 1⟩]).1, b.Valid := by
    rw [runRequests_scattered]
    simp [Block.Valid]
  have horder := freeBlocks_runRequests absentZero_scattered _ hvalid
    (List.Perm.of_eq runRequests_scattered.symm)
  have hswap : [⟨0xC0002000, 1⟩, ⟨0xC0004000, 2⟩].Perm
      (runRequests Flat.scattered [⟨false, 2⟩, ⟨true, 1⟩]).1 := by
    rw [runRequests_scattered]
    exact List.Perm.swap _ _ _
  exact ⟨horder.2.2.2, (freeBlocks_runRequests absentZero_scattered _ hvalid hswap).2.2.2⟩

end FirstOs
