import FirstOs.Memory.Alloc

/-!
# The indices of the table

`kernel_tables` has 2^20 entries. Pages are mapped and unmapped by address, which keeps the
index below 2^20, but the searches count on from the start of a window, and `realloc_page` from
the end of a block, with nothing that stops them at the last entry.

The functions here list the indices that the code reads and writes. They follow the code step
by step; that no other entry is read is shown for the searches.

## Main definitions

- `searchReads`, `searchWindow` — the search that the allocators share
- `allocPageIndices`, `allocSequentialIndices`, `mapPaddrIndices`, `reallocPageIndices`
- `AllocFits`, `SequentialFits`, `ReallocFits` — when all indices are below 2^20

## Main results

- `searchWindow_congr` — the search reads no other entry
- `searchReads_lt_iff` — the bounds of a search
- `table_bounds_iff` — the bounds of the four functions
-/

namespace FirstOs

open AddressSpace

section Indices

variable {σ : Type} [AddressSpace σ]

/-- The indices the counting loop reads, from `t = j - i` on. -/
def countReads (free : ℕ → Bool) (i pages t successful : ℕ) : List ℕ :=
  if t < u32 (pages + 1) then
    if successful = pages then []
    else if free (u32 (i + t)) then
      u32 (i + t) :: countReads free i pages (t + 1) (successful + 1)
    else [u32 (i + t)]
  else []
termination_by u32 (pages + 1) - t

/-- The indices read at virtual page `i`. -/
def windowReads (s : σ) (pages i : ℕ) : List ℕ :=
  i :: if absent s i then countReads (absent s) i pages 1 1 else []

/-- The indices the outer loop of an allocator reads from virtual page `i` on. It ends at the first
    window, if frames for it are found. -/
def searchReads (s : σ) (pages : ℕ) (found : Bool) (i : ℕ) : List ℕ :=
  if i < 0x100000 then
    if windowAt s pages i && found then windowReads s pages i
    else windowReads s pages i ++ searchReads s pages found (i + 1)
  else []
termination_by 0x100000 - i

/-- The window at which the outer loop ends. -/
def searchWindow (s : σ) (pages : ℕ) (found : Bool) (i : ℕ) : Option ℕ :=
  if i < 0x100000 then
    if windowAt s pages i && found then some i else searchWindow s pages found (i + 1)
  else none
termination_by 0x100000 - i

/-- The indices of `pages` pages by address. -/
def pageIndices (start pages : ℕ) : List ℕ :=
  (List.range pages).map fun i => u32 (start + i * 0x1000) / 0x1000

/-- The indices of the mapping loop of `alloc_page`, which ends when no frame is left. -/
def allocPageMapIndices (s : σ) (i pages step : ℕ) : List ℕ :=
  if step < pages then
    let paddr := findFreePhysPage (pmemUsed s)
    if paddr = 0 then []
    else u32 ((i + step) * 0x1000) / 0x1000 ::
      allocPageMapIndices (mapAddr s (u32 ((i + step) * 0x1000)) paddr) i pages (step + 1)
  else []
termination_by pages - step

/-- The window of `alloc_page`. -/
def allocPageWindow (s : σ) (pages : ℕ) : Option ℕ :=
  if pages = 0 then none else searchWindow s pages true 0xC0000

/-- The indices of `alloc_page`. -/
def allocPageIndices (s : σ) (pages : ℕ) : List ℕ :=
  if pages = 0 then []
  else searchReads s pages true 0xC0000 ++
    (allocPageWindow s pages).elim [] fun i => allocPageMapIndices s i pages 0

/-- The window of `map_paddr`. -/
def mapPaddrWindow (s : σ) (pages : ℕ) : Option ℕ := allocPageWindow s pages

/-- The indices of `map_paddr`. -/
def mapPaddrIndices (s : σ) (pages : ℕ) : List ℕ :=
  if pages = 0 then []
  else searchReads s pages true 0xC0000 ++
    (mapPaddrWindow s pages).elim [] fun i => pageIndices (i * 0x1000) pages

/-- The window of `alloc_sequential`. -/
def allocSequentialWindow (s : σ) (pages : ℕ) : Option ℕ :=
  if pages = 0 then none
  else searchWindow s pages (sequentialFrom (pmemUsed s) pages 0x1000).isSome 0xC0000

/-- The indices of `alloc_sequential`. -/
def allocSequentialIndices (s : σ) (pages : ℕ) : List ℕ :=
  if pages = 0 then []
  else searchReads s pages (sequentialFrom (pmemUsed s) pages 0x1000).isSome 0xC0000 ++
    (allocSequentialWindow s pages).elim [] fun i => pageIndices (i * 0x1000) pages

/-- The indices the first loop of `realloc_page` reads. -/
def reallocReads (s : σ) (first amtPages i : ℕ) : List ℕ :=
  if i < amtPages then
    if (entry s (u32 (first + i))).present then [u32 (first + i)]
    else u32 (first + i) :: reallocReads s first amtPages (i + 1)
  else []
termination_by amtPages - i

/-- The indices of `realloc_page`. -/
def reallocPageIndices (s : σ) (ptr oldPages newPages : ℕ) : List ℕ :=
  if oldPages = newPages then []
  else if oldPages < newPages then
    reallocReads s (ptr / 0x1000 + oldPages) (newPages - oldPages) 0 ++
      if reallocFails s (ptr / 0x1000 + oldPages) (newPages - oldPages) 0 then
        allocPageIndices s newPages ++ pageIndices ptr oldPages
      else pageIndices (ptr + oldPages * 0x1000) (newPages - oldPages)
  else pageIndices (ptr + newPages * 0x1000) (oldPages - newPages)

/-- The window in which `realloc_page` allocates. -/
def reallocPageWindow (s : σ) (ptr oldPages newPages : ℕ) : Option ℕ :=
  if oldPages < newPages ∧
      reallocFails s (ptr / 0x1000 + oldPages) (newPages - oldPages) 0 = true then
    allocPageWindow s newPages
  else none

/-! ### The indices and the code -/

theorem allocPageFrom_eq_search (s : σ) (pages i : ℕ) : allocPageFrom s pages i =
    (searchWindow s pages true i).elim (0, s) fun w => allocPageMap s w pages 0 := by
  fun_induction allocPageFrom s pages i with
  | case1 i hi hw => rw [searchWindow, if_pos hi, hw, Bool.and_true, if_pos rfl, Option.elim_some]
  | case2 i hi hw ih =>
    rw [searchWindow, if_pos hi, Bool.and_true, if_neg hw]
    exact ih
  | case3 i hi => rw [searchWindow, if_neg hi, Option.elim_none]

theorem mapPaddrFrom_eq_search (s : σ) (cr3 paddr pages i : ℕ) :
    mapPaddrFrom s cr3 paddr pages i = (searchWindow s pages true i).elim (0, s) fun w =>
      (w * 0x1000 + paddr % 0x1000, mapPaddrMap s cr3 w (paddr / 0x1000) pages) := by
  fun_induction mapPaddrFrom s cr3 paddr pages i with
  | case1 i hi hw => rw [searchWindow, if_pos hi, hw, Bool.and_true, if_pos rfl, Option.elim_some]
  | case2 i hi hw ih =>
    rw [searchWindow, if_pos hi, Bool.and_true, if_neg hw]
    exact ih
  | case3 i hi => rw [searchWindow, if_neg hi, Option.elim_none]

/-- The windows listed are those the code maps. -/
theorem allocPage_eq_window (s : σ) (pages : ℕ) : allocPage s pages =
    (allocPageWindow s pages).elim (0, s) fun w => allocPageMap s w pages 0 := by
  simp only [allocPage, allocPageWindow]
  split_ifs
  · rfl
  · exact allocPageFrom_eq_search s pages 0xC0000

theorem mapPaddr_eq_window (s : σ) (cr3 paddr pages : ℕ) : mapPaddr s cr3 paddr pages =
    (mapPaddrWindow s pages).elim (0, s) fun w =>
      (w * 0x1000 + paddr % 0x1000, mapPaddrMap s cr3 w (paddr / 0x1000) pages) := by
  simp only [mapPaddr, mapPaddrWindow, allocPageWindow]
  split_ifs
  · rfl
  · exact mapPaddrFrom_eq_search s cr3 paddr pages 0xC0000

theorem allocSequentialFrom_eq_search (s : σ) (pages i : ℕ) :
    allocSequentialFrom s pages i =
      (searchWindow s pages (sequentialFrom (pmemUsed s) pages 0x1000).isSome i).elim (0, s)
        fun w => (sequentialFrom (pmemUsed s) pages 0x1000).elim (0, s)
          fun j => (w * 0x1000, sequentialMap s w j pages 0) := by
  fun_induction allocSequentialFrom s pages i with
  | case1 i hi hw j hj =>
    rw [searchWindow, if_pos hi, hw, hj]
    rfl
  | case2 i hi hw hnone ih =>
    rw [searchWindow, if_pos hi, ih, hnone, Option.isSome_none, Bool.and_false, if_neg (by decide)]
  | case3 i hi hw ih =>
    have hw' : windowAt s pages i = false := by simpa using hw
    rw [searchWindow, if_pos hi, ih, hw', Bool.false_and, if_neg (by decide)]
  | case4 i hi => rw [searchWindow, if_neg hi, Option.elim_none]

theorem allocSequential_eq_window (s : σ) (pages : ℕ) : allocSequential s pages =
    (allocSequentialWindow s pages).elim (0, s) fun w =>
      (sequentialFrom (pmemUsed s) pages 0x1000).elim (0, s)
        fun j => (w * 0x1000, sequentialMap s w j pages 0) := by
  simp only [allocSequential, allocSequentialWindow]
  split_ifs
  · rfl
  · exact allocSequentialFrom_eq_search s pages 0xC0000

/-! ### The search reads no other entry -/

theorem successfulPages_congr {free free' : ℕ → Bool} {i pages t n : ℕ}
    (h : ∀ j ∈ countReads free i pages t n, free' j = free j) :
    successfulPages free' i pages t n = successfulPages free i pages t n := by
  fun_induction successfulPages free i pages t n with
  | case1 t hlt => rw [successfulPages, if_pos hlt, if_pos rfl]
  | case2 t n hlt hne hfree ih =>
    rw [countReads, if_pos hlt, if_neg hne, if_pos hfree] at h
    rw [successfulPages, if_pos hlt, if_neg hne, h _ List.mem_cons_self, if_pos hfree]
    exact ih fun j hj => h j (List.mem_cons_of_mem _ hj)
  | case3 t n hlt hne hfree =>
    rw [countReads, if_pos hlt, if_neg hne, if_neg hfree] at h
    rw [successfulPages, if_pos hlt, if_neg hne, h _ List.mem_cons_self, if_neg hfree]
  | case4 t n hlt => rw [successfulPages, if_neg hlt]

theorem windowAt_congr {s s' : σ} {pages i : ℕ}
    (h : ∀ j ∈ windowReads s pages i, absent s' j = absent s j) :
    windowAt s' pages i = windowAt s pages i := by
  have hi := h i List.mem_cons_self
  simp only [windowAt]
  rw [hi]
  cases habsent : absent s i with
  | false => rfl
  | true =>
    rw [successfulPages_congr fun j hj => h j (List.mem_cons_of_mem _ ?_)]
    rwa [habsent]

/-- The window depends on the entries listed and on no other. -/
theorem searchWindow_congr {s s' : σ} {pages i : ℕ} {found : Bool}
    (h : ∀ j ∈ searchReads s pages found i, absent s' j = absent s j) :
    searchWindow s' pages found i = searchWindow s pages found i := by
  fun_induction searchWindow s pages found i with
  | case1 i hi hw =>
    rw [searchReads, if_pos hi, if_pos hw] at h
    rw [searchWindow, if_pos hi, windowAt_congr h, if_pos hw]
  | case2 i hi hw ih =>
    rw [searchReads, if_pos hi, if_neg hw] at h
    rw [searchWindow, if_pos hi, windowAt_congr fun j hj => h j (List.mem_append_left _ hj),
      if_neg hw]
    exact ih fun j hj => h j (List.mem_append_right _ hj)
  | case3 i hi => rw [searchWindow, if_neg hi]

/-! ### The bounds of a search -/

/-- All indices are below 2^20, and the window ends at or below 2^20. -/
structure InBounds (indices : List ℕ) (window : Option ℕ) (pages : ℕ) : Prop where
  indices : ∀ j ∈ indices, j < 0x100000
  window : ∀ w, window = some w → 0xC0000 ≤ w ∧ w + pages ≤ 0x100000

/-- A window of absent pages from page `i` on that ends at or below 2^20. -/
def WindowBelow (s : σ) (pages i : ℕ) : Prop :=
  ∃ w, i ≤ w ∧ w + pages ≤ 0x100000 ∧ ∀ j, w ≤ j → j < w + pages → absent s j = true

theorem mem_countReads {free : ℕ → Bool} {i pages t j : ℕ} (hpages : pages < 0xFFFFFFFF)
    (ht : t ≤ pages) : j ∈ countReads free i pages t t ↔
      ∃ k, t ≤ k ∧ k < pages ∧ j = u32 (i + k) ∧
        ∀ k', t ≤ k' → k' < k → free (u32 (i + k')) = true := by
  have hu : u32 (pages + 1) = pages + 1 := Nat.mod_eq_of_lt (by omega)
  induction hn : pages - t generalizing t with
  | zero =>
    rw [countReads, if_pos (by omega), if_pos (by omega)]
    refine ⟨fun hj => absurd hj List.not_mem_nil, ?_⟩
    rintro ⟨k, hk, hk', -⟩
    omega
  | succ n ih =>
    have htail : t + 1 ≤ pages := by omega
    have hrest : pages - (t + 1) = n := by omega
    rw [countReads, if_pos (by omega), if_neg (by omega)]
    constructor
    · intro hj
      have hfirst : j = u32 (i + t) → ∃ k, t ≤ k ∧ k < pages ∧ j = u32 (i + k) ∧
          ∀ k', t ≤ k' → k' < k → free (u32 (i + k')) = true := fun hjt =>
        ⟨t, le_refl t, by omega, hjt, fun k' hk' hlt => absurd hlt (by omega)⟩
      split_ifs at hj with hfree
      · obtain hjt | hj := List.mem_cons.mp hj
        · exact hfirst hjt
        · obtain ⟨k, hk, hk', hjk, hall⟩ := (ih htail hrest).mp hj
          refine ⟨k, by omega, hk', hjk, fun k' hle hlt => ?_⟩
          obtain rfl | hne := eq_or_ne k' t
          · exact hfree
          · exact hall k' (by omega) hlt
      · exact hfirst (List.mem_singleton.mp hj)
    · rintro ⟨k, hk, hk', rfl, hall⟩
      obtain rfl | hne := eq_or_ne k t
      · split_ifs
        · exact List.mem_cons_self
        · exact List.mem_singleton_self _
      · rw [if_pos (hall t (le_refl t) (by omega))]
        exact List.mem_cons_of_mem _ ((ih htail hrest).mpr
          ⟨k, by omega, hk', rfl, fun k' hle hlt => hall k' (by omega) hlt⟩)

section Search

variable {s : σ} {pages i : ℕ} {found : Bool}

/-- The search looks behind the table exactly when all pages up to the top are absent and the
    window would go beyond it. -/
theorem windowReads_lt_iff (hpos : 0 < pages) (hpages : pages < 0xFFFFFFFF) (hi : i < 0x100000) :
    (∀ j ∈ windowReads s pages i, j < 0x100000) ↔
      ¬ ((∀ j, i ≤ j → j < 0x100000 → absent s j = true) ∧ 0x100000 < i + pages) := by
  have hlow : ∀ k, i + k < 0x100000 → u32 (i + k) = i + k := fun k hk =>
    Nat.mod_eq_of_lt (by omega)
  constructor
  · rintro hall ⟨htail, hbeyond⟩
    have htop : (0x100000 : ℕ) ∈ windowReads s pages i := by
      rw [windowReads, if_pos (htail i (le_refl i) hi)]
      refine List.mem_cons_of_mem _ ((mem_countReads hpages hpos).mpr
        ⟨0x100000 - i, by omega, by omega, ?_, fun k' hk' hlt => ?_⟩)
      · rw [show i + (0x100000 - i) = 0x100000 by omega]
      · rw [hlow k' (by omega)]
        exact htail _ (by omega) (by omega)
    exact absurd (hall _ htop) (by decide)
  · intro hnot j hj
    obtain rfl | hj := List.mem_cons.mp hj
    · exact hi
    · split_ifs at hj with habsent
      · obtain ⟨k, hk, hk', rfl, hfree⟩ := (mem_countReads hpages hpos).mp hj
        by_contra hge
        have hik : ¬ i + k < 0x100000 := fun hlt => hge ((hlow k hlt).trans_lt hlt)
        refine hnot ⟨fun j hij hj => ?_, by omega⟩
        obtain rfl | hne := eq_or_ne j i
        · exact habsent
        · have hj' := hfree (j - i) (by omega) (by omega)
          rwa [hlow _ (by omega), show i + (j - i) = j by omega] at hj'
      · exact absurd hj List.not_mem_nil

/-- When a search from page `i` on stays below 2^20. -/
def SearchFits (s : σ) (pages : ℕ) (found : Bool) (i : ℕ) : Prop :=
  pages = 1 ∨ (entry s 0xFFFFF).present = true ∨ found = true ∧ WindowBelow s pages i

theorem absent_false_iff {j : ℕ} : absent s j = false ↔ (entry s j).present = true := by
  simp [absent]

theorem windowBelow_of_succ (h : WindowBelow s pages (i + 1)) : WindowBelow s pages i := by
  obtain ⟨w, hw, hrest⟩ := h
  exact ⟨w, by omega, hrest⟩

/-- Where a window does not start, the windows from there on start behind. -/
theorem windowBelow_succ (hpos : 0 < pages) (hpages : pages < 0xFFFFFFFF) (hi : i < 0x100000)
    (hw : windowAt s pages i = false) (h : WindowBelow s pages i) :
    WindowBelow s pages (i + 1) := by
  obtain ⟨w, hle, hend, hall⟩ := h
  obtain rfl | hne := eq_or_ne i w
  · have hat : windowAt s pages i = true := by
      refine (windowAt_iff hpos hpages hi).mpr fun k hk => ?_
      rw [u32, Nat.mod_eq_of_lt (by omega)]
      simpa [absent] using hall (i + k) (by omega) (by omega)
    rw [hw] at hat
    exact absurd hat (by decide)
  · exact ⟨w, by omega, hend, hall⟩

/-- A page above a present one does not reach the top over absent pages. -/
theorem not_reaches {i : ℕ} (hi : i < 0x100000) (hlast : (entry s 0xFFFFF).present = true) :
    ¬ ((∀ j, i ≤ j → j < 0x100000 → absent s j = true) ∧ 0x100000 < i + pages) := by
  rintro ⟨htail, -⟩
  have habsent := htail 0xFFFFF (by omega) (by decide)
  rw [absent_false_iff.mpr hlast] at habsent
  exact absurd habsent (by decide)

/-- What the search adds where no window starts. -/
theorem searchFits_succ (hpos : 0 < pages) (hpages : pages < 0xFFFFFFFF) (hi : i < 0x100000)
    (hw : ¬ (windowAt s pages i && found) = true) :
    SearchFits s pages found i ↔
      ¬ ((∀ j, i ≤ j → j < 0x100000 → absent s j = true) ∧ 0x100000 < i + pages) ∧
        (i + 1 < 0x100000 → SearchFits s pages found (i + 1)) := by
  constructor
  · rintro (hone | hlast | ⟨hfound, hbelow⟩)
    · exact ⟨fun hbad => absurd hbad.2 (by omega), fun _ => .inl hone⟩
    · exact ⟨not_reaches hi hlast, fun _ => .inr (.inl hlast)⟩
    · have hat : windowAt s pages i = false := by
        rw [hfound, Bool.and_true] at hw
        exact Bool.eq_false_iff.mpr hw
      have hnext := windowBelow_succ hpos hpages hi hat hbelow
      obtain ⟨w, hiw, hend, -⟩ := hbelow
      exact ⟨fun hbad => absurd hbad.2 (by omega), fun _ => .inr (.inr ⟨hfound, hnext⟩)⟩
  · rintro ⟨hreach, hrest⟩
    by_cases hlt : i + 1 < 0x100000
    · obtain hone | hlast | ⟨hfound, hbelow⟩ := hrest hlt
      · exact .inl hone
      · exact .inr (.inl hlast)
      · exact .inr (.inr ⟨hfound, windowBelow_of_succ hbelow⟩)
    · obtain rfl : i = 0xFFFFF := by omega
      by_cases hone : pages = 1
      · exact .inl hone
      · refine .inr (.inl (absent_false_iff.mp (Bool.eq_false_iff.mpr fun habsent => ?_)))
        refine hreach ⟨fun j hij hj => ?_, by omega⟩
        obtain rfl : j = 0xFFFFF := by omega
        exact habsent

/-- The bounds of a search. -/
theorem searchReads_lt_iff (hpos : 0 < pages) (hpages : pages < 0xFFFFFFFF) (hi : i < 0x100000) :
    ((∀ j ∈ searchReads s pages found i, j < 0x100000) ∧
      ∀ w, searchWindow s pages found i = some w → w + pages ≤ 0x100000) ↔
        SearchFits s pages found i := by
  fun_induction searchReads s pages found i with
  | case1 i hlt hw =>
    obtain ⟨hat, hfound⟩ := Bool.and_eq_true_iff.mp hw
    have hwindow : searchWindow s pages found i = some i := by
      rw [searchWindow, if_pos hlt, if_pos hw]
    have habsent : ∀ j, i ≤ j → j < i + pages → j < 0x100000 → absent s j = true := by
      intro j hij hj hj'
      have hk := absent_of_windowAt hat hlt (j - i) (by omega)
      rw [u32, Nat.mod_eq_of_lt (by omega), show i + (j - i) = j by omega] at hk
      simp [absent, hk]
    rw [windowReads_lt_iff hpos hpages hlt, hwindow]
    constructor
    · rintro ⟨-, hend⟩
      exact .inr (.inr ⟨hfound, i, le_refl i, hend i rfl, fun j hij hj =>
        habsent j hij hj (by have := hend i rfl; omega)⟩)
    · intro hfits
      have hend : i + pages ≤ 0x100000 := by
        by_contra hnot
        have hbeyond : 0x100000 < i + pages := by omega
        obtain hone | hlast | ⟨-, w, hiw, hend, -⟩ := hfits
        · omega
        · exact not_reaches hlt hlast
            ⟨fun j hij hj => habsent j hij (by omega) hj, hbeyond⟩
        · omega
      exact ⟨fun hbad => absurd hbad.2 (by omega), fun w hw' => Option.some.inj hw' ▸ hend⟩
  | case2 i hlt hw ih =>
    have hwindow : searchWindow s pages found i = searchWindow s pages found (i + 1) := by
      rw [searchWindow, if_pos hlt, if_neg hw]
    have hsplit : (∀ j ∈ windowReads s pages i ++ searchReads s pages found (i + 1),
        j < 0x100000) ↔ (∀ j ∈ windowReads s pages i, j < 0x100000) ∧
          ∀ j ∈ searchReads s pages found (i + 1), j < 0x100000 := List.forall_mem_append
    rw [hsplit, hwindow, windowReads_lt_iff hpos hpages hlt, and_assoc,
      searchFits_succ hpos hpages hlt hw]
    refine and_congr_right fun _ => ?_
    by_cases hnext : i + 1 < 0x100000
    · rw [ih hnext]
      exact ⟨fun h _ => h, fun h => h hnext⟩
    · rw [searchReads, searchWindow, if_neg hnext, if_neg hnext]
      exact ⟨fun _ h => absurd h hnext, fun _ => ⟨fun j hj => absurd hj List.not_mem_nil,
        fun w hw' => absurd hw' (by simp)⟩⟩
  | case3 i hge => exact absurd hi hge

end Search

/-! ### The bounds of the four functions -/

section Functions

variable {s : σ}

theorem pageIndices_lt (start pages : ℕ) : ∀ j ∈ pageIndices start pages, j < 0x100000 := by
  intro j hj
  obtain ⟨i, -, rfl⟩ := List.mem_map.mp hj
  have hu : u32 (start + i * 0x1000) < 0x100000000 := Nat.mod_lt _ (by decide)
  omega

theorem allocPageMapIndices_lt (s : σ) (i pages step : ℕ) :
    ∀ j ∈ allocPageMapIndices s i pages step, j < 0x100000 := by
  fun_induction allocPageMapIndices s i pages step with
  | case1 s step hlt hz => exact fun j hj => absurd hj List.not_mem_nil
  | case2 s step hlt paddr hne ih =>
    intro j hj
    obtain rfl | hj := List.mem_cons.mp hj
    · have hu : u32 ((i + step) * 0x1000) < 0x100000000 := Nat.mod_lt _ (by decide)
      omega
    · exact ih j hj
  | case3 s step hge => exact fun j hj => absurd hj List.not_mem_nil

theorem le_of_searchWindow {pages i w : ℕ} {found : Bool}
    (h : searchWindow s pages found i = some w) : i ≤ w := by
  fun_induction searchWindow s pages found i with
  | case1 i hlt hw => exact (Option.some.inj h).le
  | case2 i hlt hw ih => exact (Nat.le_succ i).trans (ih h)
  | case3 i hge => exact absurd h (by simp)

/-- The search for 2^32 - 1 pages finds no window. -/
theorem search_max (s : σ) (found : Bool) (i : ℕ) : searchWindow s 0xFFFFFFFF found i = none ∧
    ∀ j ∈ searchReads s 0xFFFFFFFF found i, j < 0x100000 := by
  have hreads : ∀ i, windowReads s 0xFFFFFFFF i = [i] := by
    intro i
    have hcount : countReads (absent s) i 0xFFFFFFFF 1 1 = [] := by
      rw [countReads, if_neg (by decide)]
    rw [windowReads, hcount, ite_self]
  fun_induction searchWindow s 0xFFFFFFFF found i with
  | case1 i hlt hw =>
    rw [windowAt_max, Bool.false_and] at hw
    exact absurd hw (by decide)
  | case2 i hlt hw ih =>
    refine ⟨ih.1, ?_⟩
    rw [searchReads, if_pos hlt, if_neg hw, hreads]
    intro j hj
    obtain rfl | hj := List.mem_cons.mp hj
    · exact hlt
    · exact ih.2 j hj
  | case3 i hge =>
    refine ⟨rfl, ?_⟩
    rw [searchReads, if_neg hge]
    exact fun j hj => absurd hj List.not_mem_nil

/-- When `alloc_page` and `map_paddr` stay below 2^20: the last page is present, or the pages fit
    below 2^20. -/
def AllocFits (s : σ) (pages : ℕ) : Prop :=
  pages ≤ 1 ∨ pages = 0xFFFFFFFF ∨ (entry s 0xFFFFF).present = true ∨ WindowBelow s pages 0xC0000

/-- When `alloc_sequential` does: it has to find the frames as well. -/
def SequentialFits (s : σ) (pages : ℕ) : Prop :=
  pages ≤ 1 ∨ pages = 0xFFFFFFFF ∨ (entry s 0xFFFFF).present = true ∨
    (∃ f, 0x1000 ≤ f ∧ f < 0x100000 ∧ ∀ k < pages, (pmemUsed s).bit ((f + k) % 0x100000) = false) ∧
      WindowBelow s pages 0xC0000

/-- When `realloc_page` does: a growing block must meet a present page, or end, below 2^20, and
    where it moves the new pages must fit. -/
def ReallocFits (s : σ) (ptr oldPages newPages : ℕ) : Prop :=
  oldPages < newPages →
    (∀ k < newPages - oldPages,
        (∀ k' < k, absent s (u32 (ptr / 0x1000 + oldPages + k')) = true) →
          u32 (ptr / 0x1000 + oldPages + k) < 0x100000) ∧
      ((∃ k < newPages - oldPages,
          (entry s (u32 (ptr / 0x1000 + oldPages + k))).present = true) → AllocFits s newPages)

theorem inBounds_none {indices : List ℕ} {pages : ℕ} :
    InBounds indices none pages ↔ ∀ j ∈ indices, j < 0x100000 :=
  ⟨InBounds.indices, fun h => ⟨h, fun _ hw => absurd hw (by simp)⟩⟩

/-- No search is made for no pages. -/
theorem inBounds_nil (pages : ℕ) : InBounds [] none pages :=
  inBounds_none.mpr fun _ hj => absurd hj List.not_mem_nil

/-- The indices before a search. -/
theorem inBounds_append {indices indices' : List ℕ} {window : Option ℕ} {pages : ℕ} :
    InBounds (indices ++ indices') window pages ↔
      (∀ j ∈ indices, j < 0x100000) ∧ InBounds indices' window pages := by
  constructor
  · intro h
    exact ⟨fun j hj => h.indices j (List.mem_append_left _ hj),
      fun j hj => h.indices j (List.mem_append_right _ hj), h.window⟩
  · rintro ⟨hindices, h⟩
    refine ⟨fun j hj => ?_, h.window⟩
    obtain hj | hj := List.mem_append.mp hj
    · exact hindices j hj
    · exact h.indices j hj

/-- The indices behind a search that are in the table anyway. -/
theorem inBounds_append_of {indices indices' : List ℕ} {window : Option ℕ} {pages : ℕ}
    (h : ∀ j ∈ indices', j < 0x100000) :
    InBounds (indices ++ indices') window pages ↔ InBounds indices window pages := by
  rw [inBounds_append]
  exact ⟨fun hin => ⟨hin.1, hin.2.window⟩, fun hin => ⟨hin.indices, h, hin.window⟩⟩

/-- A search and the mapping behind it. -/
theorem inBounds_search_iff {pages : ℕ} {found : Bool} {indices : ℕ → List ℕ}
    (hpos : 0 < pages) (hpages : pages < 0x100000000)
    (hindices : ∀ w, ∀ j ∈ indices w, j < 0x100000) :
    InBounds (searchReads s pages found 0xC0000 ++
        (searchWindow s pages found 0xC0000).elim [] indices)
      (searchWindow s pages found 0xC0000) pages ↔
        pages = 0xFFFFFFFF ∨ SearchFits s pages found 0xC0000 := by
  have hmap : ∀ j ∈ (searchWindow s pages found 0xC0000).elim [] indices, j < 0x100000 := by
    intro j hj
    cases hw : searchWindow s pages found 0xC0000 with
    | none =>
      rw [hw] at hj
      exact absurd hj List.not_mem_nil
    | some w =>
      rw [hw] at hj
      exact hindices w j hj
  rw [inBounds_append_of hmap]
  by_cases hmax : pages = 0xFFFFFFFF
  · obtain ⟨hnone, hreads⟩ := search_max s found 0xC0000
    rw [← hmax] at hnone hreads
    rw [hnone]
    exact ⟨fun _ => .inl hmax, fun _ => inBounds_none.mpr hreads⟩
  · rw [← searchReads_lt_iff hpos (by omega) (by decide)]
    constructor
    · intro h
      exact .inr ⟨h.indices, fun w hw => (h.window w hw).2⟩
    · rintro (h | ⟨hreads, hwindow⟩)
      · exact absurd h hmax
      · exact ⟨hreads, fun w hw => ⟨le_of_searchWindow hw, hwindow w hw⟩⟩

/-- The condition of a search with the frames it needs at hand. -/
theorem searchFits_iff_allocFits {pages : ℕ} (hpos : 0 < pages) :
    pages = 0xFFFFFFFF ∨ SearchFits s pages true 0xC0000 ↔ AllocFits s pages := by
  simp only [SearchFits, AllocFits]
  have hone : pages = 1 ↔ pages ≤ 1 := by omega
  simp only [hone, true_and]
  tauto

theorem allocPage_inBounds_iff {pages : ℕ} (hpages : pages < 0x100000000) :
    InBounds (allocPageIndices s pages) (allocPageWindow s pages) pages ↔ AllocFits s pages := by
  simp only [allocPageIndices, allocPageWindow]
  by_cases hzero : pages = 0
  · rw [if_pos hzero, if_pos hzero]
    exact ⟨fun _ => .inl (by omega), fun _ => inBounds_nil pages⟩
  · rw [if_neg hzero, if_neg hzero, inBounds_search_iff (by omega) hpages
      fun w => allocPageMapIndices_lt s w pages 0]
    exact searchFits_iff_allocFits (by omega)

theorem mapPaddr_inBounds_iff {pages : ℕ} (hpages : pages < 0x100000000) :
    InBounds (mapPaddrIndices s pages) (mapPaddrWindow s pages) pages ↔ AllocFits s pages := by
  simp only [mapPaddrIndices, mapPaddrWindow, allocPageWindow]
  by_cases hzero : pages = 0
  · rw [if_pos hzero, if_pos hzero]
    exact ⟨fun _ => .inl (by omega), fun _ => inBounds_nil pages⟩
  · rw [if_neg hzero, if_neg hzero, inBounds_search_iff (by omega) hpages
      fun w => pageIndices_lt (w * 0x1000) pages]
    exact searchFits_iff_allocFits (by omega)

/-- The frames are found when some run of free frames starts in the table. -/
theorem sequentialFrom_isSome_iff {m : Bitmap} {pages : ℕ} (hpos : 0 < pages)
    (hpages : pages < 0xFFFFFFFF) : (sequentialFrom m pages 0x1000).isSome = true ↔
      ∃ f, 0x1000 ≤ f ∧ f < 0x100000 ∧ ∀ k < pages, m.bit ((f + k) % 0x100000) = false := by
  obtain ⟨hnone, hall⟩ | ⟨f, hf, hf', hat, -, hsome⟩ :=
    sequentialFrom_cases m pages 0x1000 (.inl (by decide))
  · rw [hnone]
    refine ⟨fun h => absurd h (by decide), ?_⟩
    rintro ⟨f, hf, hf', hfree⟩
    have hat := (sequentialAt_iff hpos hpages hf').mpr hfree
    rw [hall f hf hf'] at hat
    exact absurd hat (by decide)
  · rw [hsome]
    exact ⟨fun _ => ⟨f, hf, hf', (sequentialAt_iff hpos hpages hf').mp hat⟩, fun _ => rfl⟩

theorem allocSequential_inBounds_iff {pages : ℕ} (hpages : pages < 0x100000000) :
    InBounds (allocSequentialIndices s pages) (allocSequentialWindow s pages) pages ↔
      SequentialFits s pages := by
  simp only [allocSequentialIndices, allocSequentialWindow]
  by_cases hzero : pages = 0
  · rw [if_pos hzero, if_pos hzero]
    exact ⟨fun _ => .inl (by omega), fun _ => inBounds_nil pages⟩
  · rw [if_neg hzero, if_neg hzero, inBounds_search_iff (by omega) hpages
      fun w => pageIndices_lt (w * 0x1000) pages]
    simp only [SearchFits, SequentialFits]
    by_cases hmax : pages = 0xFFFFFFFF
    · exact ⟨fun _ => .inr (.inl hmax), fun _ => .inl hmax⟩
    · rw [sequentialFrom_isSome_iff (by omega) (by omega)]
      have hone : pages = 1 ↔ pages ≤ 1 := by omega
      rw [hone]
      tauto

/-- The first loop of `realloc_page` reads up to the first present page. -/
theorem mem_reallocReads {first amtPages i j : ℕ} : j ∈ reallocReads s first amtPages i ↔
    ∃ k, i ≤ k ∧ k < amtPages ∧ j = u32 (first + k) ∧
      ∀ k', i ≤ k' → k' < k → absent s (u32 (first + k')) = true := by
  fun_induction reallocReads s first amtPages i with
  | case1 i hlt hpresent =>
    rw [List.mem_singleton]
    constructor
    · rintro rfl
      exact ⟨i, le_refl i, hlt, rfl, fun k' hk' hlt' => absurd hlt' (by omega)⟩
    · rintro ⟨k, hik, -, rfl, hall⟩
      obtain rfl | hne := eq_or_ne k i
      · rfl
      · have habsent := hall i (le_refl i) (by omega)
        rw [absent_false_iff.mpr hpresent] at habsent
        exact absurd habsent (by decide)
  | case2 i hlt hpresent ih =>
    have habsent : absent s (u32 (first + i)) = true := by simpa [absent] using hpresent
    rw [List.mem_cons, ih]
    constructor
    · rintro (rfl | ⟨k, hik, hk, rfl, hall⟩)
      · exact ⟨i, le_refl i, hlt, rfl, fun k' hk' hlt' => absurd hlt' (by omega)⟩
      · refine ⟨k, by omega, hk, rfl, fun k' hk' hlt' => ?_⟩
        obtain rfl | hne := eq_or_ne k' i
        · exact habsent
        · exact hall k' (by omega) hlt'
    · rintro ⟨k, hik, hk, rfl, hall⟩
      obtain rfl | hne := eq_or_ne k i
      · exact .inl rfl
      · exact .inr ⟨k, by omega, hk, rfl, fun k' hk' hlt' => hall k' (by omega) hlt'⟩
  | case3 i hge =>
    refine ⟨fun hj => absurd hj List.not_mem_nil, ?_⟩
    rintro ⟨k, hik, hk, -⟩
    omega

theorem reallocFails_iff {first amtPages i : ℕ} : reallocFails s first amtPages i = true ↔
    ∃ k, i ≤ k ∧ k < amtPages ∧ (entry s (u32 (first + k))).present = true := by
  fun_induction reallocFails s first amtPages i with
  | case1 i hlt hpresent => exact ⟨fun _ => ⟨i, le_refl i, hlt, hpresent⟩, fun _ => rfl⟩
  | case2 i hlt hpresent ih =>
    rw [ih]
    constructor
    · rintro ⟨k, hik, hrest⟩
      exact ⟨k, by omega, hrest⟩
    · rintro ⟨k, hik, hk, hpk⟩
      obtain rfl | hne := eq_or_ne k i
      · exact absurd hpk hpresent
      · exact ⟨k, by omega, hk, hpk⟩
  | case3 i hge =>
    refine ⟨fun h => absurd h (by decide), ?_⟩
    rintro ⟨k, hik, hk, -⟩
    omega

/-- The bounds of the first loop of `realloc_page`. -/
theorem reallocReads_lt_iff {first amtPages : ℕ} :
    (∀ j ∈ reallocReads s first amtPages 0, j < 0x100000) ↔ ∀ k < amtPages,
      (∀ k' < k, absent s (u32 (first + k')) = true) → u32 (first + k) < 0x100000 := by
  simp only [mem_reallocReads]
  constructor
  · intro hall k hk habsent
    exact hall _ ⟨k, Nat.zero_le k, hk, rfl, fun k' _ hlt => habsent k' hlt⟩
  · rintro hall j ⟨k, -, hk, rfl, habsent⟩
    exact hall k hk fun k' hlt => habsent k' (Nat.zero_le k') hlt

theorem reallocPage_inBounds_iff {ptr oldPages newPages : ℕ} (hpages : newPages < 0x100000000) :
    InBounds (reallocPageIndices s ptr oldPages newPages)
        (reallocPageWindow s ptr oldPages newPages) newPages ↔
      ReallocFits s ptr oldPages newPages := by
  simp only [reallocPageIndices, reallocPageWindow, ReallocFits]
  by_cases hgrow : oldPages < newPages
  · rw [if_neg hgrow.ne, if_pos hgrow, inBounds_append, reallocReads_lt_iff,
      forall_prop_of_true hgrow]
    refine and_congr_right fun _ => ?_
    cases hfails : reallocFails s (ptr / 0x1000 + oldPages) (newPages - oldPages) 0 with
    | true =>
      obtain ⟨k, -, hk, hpresent⟩ := reallocFails_iff.mp hfails
      rw [if_pos rfl, if_pos ⟨hgrow, rfl⟩, inBounds_append_of (pageIndices_lt _ _),
        allocPage_inBounds_iff hpages, forall_prop_of_true ⟨k, hk, hpresent⟩]
    | false =>
      rw [if_neg (by decide), if_neg (by simp)]
      refine iff_of_true (inBounds_none.mpr (pageIndices_lt _ _)) ?_
      rintro ⟨k, hk, hpresent⟩
      rw [reallocFails_iff.mpr ⟨k, Nat.zero_le k, hk, hpresent⟩] at hfails
      exact absurd hfails (by decide)
  · have hstay : ¬ (oldPages < newPages ∧
        reallocFails s (ptr / 0x1000 + oldPages) (newPages - oldPages) 0 = true) :=
      fun h => hgrow h.1
    rw [if_neg hstay]
    refine iff_of_true (inBounds_none.mpr fun j hj => ?_) fun h => absurd h hgrow
    split_ifs at hj
    · exact absurd hj List.not_mem_nil
    · exact pageIndices_lt _ _ j hj

end Functions

/-- The indices of the four functions and the windows they map stay in the table exactly when the
    pages fit below the top of the address space, or the last page is present. -/
theorem table_bounds_iff (s : σ) (ptr n oldPages newPages : BitVec 32) :
    (InBounds (allocPageIndices s n.toNat) (allocPageWindow s n.toNat) n.toNat ↔
        AllocFits s n.toNat) ∧
      (InBounds (allocSequentialIndices s n.toNat) (allocSequentialWindow s n.toNat) n.toNat ↔
        SequentialFits s n.toNat) ∧
      (InBounds (mapPaddrIndices s n.toNat) (mapPaddrWindow s n.toNat) n.toNat ↔
        AllocFits s n.toNat) ∧
      (InBounds (reallocPageIndices s ptr.toNat oldPages.toNat newPages.toNat)
          (reallocPageWindow s ptr.toNat oldPages.toNat newPages.toNat) newPages.toNat ↔
        ReallocFits s ptr.toNat oldPages.toNat newPages.toNat) :=
  ⟨allocPage_inBounds_iff n.isLt, allocSequential_inBounds_iff n.isLt,
    mapPaddr_inBounds_iff n.isLt, reallocPage_inBounds_iff newPages.isLt⟩

end Indices

/-- Only the last page of the address space, and what lies behind the table, is absent. -/
def lastPageTable : Flat where
  tables := fun i => { PageTableEntry.decode 0 with present := decide (i < 0xFFFFF) }
  pmemUsed := fun _ => 0
  phys := fun _ => 0
  unmapped := fun _ => 0

/-- Two pages are asked for where only the last one is absent. -/
theorem not_table_bounds : ¬ ∀ (s : Flat) (n : BitVec 32),
    InBounds (allocPageIndices s n.toNat) (allocPageWindow s n.toNat) n.toNat := by
  intro hall
  obtain h | h | h | ⟨w, hw, hend, habsent⟩ :=
    (allocPage_inBounds_iff (BitVec.isLt 2)).mp (hall lastPageTable 2)
  · exact absurd h (by decide)
  · exact absurd h (by decide)
  · exact absurd h (by decide)
  · have hlow : w < 0xFFFFF := by
      have htwo : (2 : BitVec 32).toNat = 2 := rfl
      omega
    have hpresent : absent lastPageTable w = false :=
      absent_false_iff.mpr (decide_eq_true hlow)
    rw [habsent w (le_refl w) (Nat.lt_add_of_pos_right (by decide))] at hpresent
    exact absurd hpresent (by decide)

end FirstOs
