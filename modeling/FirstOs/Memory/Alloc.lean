import FirstOs.Memory.Paging

/-!
# What the allocators find and what they do with it

Specifications of the searches in `alloc_page` and `alloc_sequential`, and one
induction rule for each loop that changes the state: a property kept by the single
`map_addr` or `unmap_vaddr` calls of a loop is kept by the loop.

## Main results

- `windowAt_iff` — the virtual test holds when all pages of the window are absent
- `allocPage_cases`, `allocSequential_cases` — the search result and what follows it
- `allocPageMap_induct`, `sequentialMap_induct`, `freePageFrom_induct` — the loop rules
-/

namespace FirstOs

open AddressSpace

variable {σ : Type} [AddressSpace σ]

-- ════════════════════════════════════════════════════════════════════════
-- The counting loop
-- ════════════════════════════════════════════════════════════════════════

/-- A count that reaches `pages` has passed free positions only. -/
theorem free_of_successfulPages_eq {free : ℕ → Bool} {i pages t : ℕ}
    (h : successfulPages free i pages t t = pages) :
    ∀ k, t ≤ k → k < pages → free (u32 (i + k)) = true := by
  induction hn : pages - t generalizing t with
  | zero => intro k hk hk'; omega
  | succ n ih =>
    intro k hk hk'
    rw [successfulPages] at h
    split_ifs at h with hlt heq hfree
    · omega
    · by_cases hkt : k = t
      · exact hkt ▸ hfree
      · exact ih h (by omega) k (by omega) hk'
    · omega
    · omega

/-- The count reaches `pages` over free positions, unless its bound has wrapped. -/
theorem successfulPages_eq_of_free {free : ℕ → Bool} {i pages t : ℕ}
    (hpages : pages < 0xFFFFFFFF) (ht : t ≤ pages)
    (h : ∀ k, t ≤ k → k < pages → free (u32 (i + k)) = true) :
    successfulPages free i pages t t = pages := by
  induction hn : pages - t generalizing t with
  | zero =>
    rw [successfulPages]
    split_ifs <;> omega
  | succ n ih =>
    have hlt : t < u32 (pages + 1) := by
      rw [u32, Nat.mod_eq_of_lt (by omega)]
      omega
    rw [successfulPages, if_pos hlt, if_neg (by omega), if_pos (h t (le_refl t) (by omega))]
    exact ih (by omega) (fun k hk hk' => h k (by omega) hk') (by omega)

section Search

variable {s : σ} {pages i : ℕ}

/-- The pages of a window the test accepts are absent. -/
theorem absent_of_windowAt (h : windowAt s pages i = true) (hi : i < 0x100000) :
    ∀ k < pages, (entry s (u32 (i + k))).present = false := by
  intro k hk
  rw [windowAt, Bool.and_eq_true, decide_eq_true_iff] at h
  by_cases hk0 : k = 0
  · have hi' : u32 (i + k) = i := by rw [hk0, u32, Nat.add_zero, Nat.mod_eq_of_lt (by omega)]
    rw [hi']
    simpa [absent] using h.1
  · simpa [absent] using free_of_successfulPages_eq h.2 k (by omega) hk

/-- The virtual test holds exactly when all pages of the window are absent. -/
theorem windowAt_iff (hpos : 0 < pages) (hpages : pages < 0xFFFFFFFF) (hi : i < 0x100000) :
    windowAt s pages i = true ↔ ∀ k < pages, (entry s (u32 (i + k))).present = false := by
  constructor
  · exact fun h => absent_of_windowAt h hi
  · intro h
    rw [windowAt, Bool.and_eq_true, decide_eq_true_iff]
    constructor
    · have h0 := h 0 hpos
      rw [u32, Nat.add_zero, Nat.mod_eq_of_lt (by omega)] at h0
      simp [absent, h0]
    · refine successfulPages_eq_of_free hpages (by omega) fun k _ hk => ?_
      simp [absent, h k hk]

/-- No window has 2^32 - 1 pages, as the bound of the counting loop is 0 for it. -/
theorem windowAt_max (s : σ) (i : ℕ) : windowAt s 0xFFFFFFFF i = false := by
  rw [windowAt, successfulPages, if_neg (by decide)]
  exact Bool.and_false _

variable {m : Bitmap} {j : ℕ}

/-- The frames of a run the test accepts are free. -/
theorem free_of_sequentialAt (h : sequentialAt m pages j = true) (hj : j < 0x100000) :
    ∀ k < pages, m.bit ((j + k) % 0x100000) = false := by
  intro k hk
  rw [sequentialAt, Bool.and_eq_true, decide_eq_true_iff] at h
  by_cases hk0 : k = 0
  · have hj' : (j + k) % 0x100000 = j := by rw [hk0, Nat.add_zero, Nat.mod_eq_of_lt hj]
    rw [hj']
    simpa using h.1
  · have hfree := free_of_successfulPages_eq h.2 k (by omega) hk
    rw [checkPhysPage_eq_bit] at hfree
    rw [page_of_u32_frame] at hfree
    simpa using hfree

/-- The physical test holds exactly when all frames of the run are free. -/
theorem sequentialAt_iff (hpos : 0 < pages) (hpages : pages < 0xFFFFFFFF) (hj : j < 0x100000) :
    sequentialAt m pages j = true ↔ ∀ k < pages, m.bit ((j + k) % 0x100000) = false := by
  constructor
  · exact fun h => free_of_sequentialAt h hj
  · intro h
    rw [sequentialAt, Bool.and_eq_true, decide_eq_true_iff]
    constructor
    · have h0 := h 0 hpos
      rw [Nat.add_zero, Nat.mod_eq_of_lt hj] at h0
      simp [h0]
    · refine successfulPages_eq_of_free hpages (by omega) fun k _ hk => ?_
      rw [checkPhysPage_eq_bit, page_of_u32_frame, h k hk]
      rfl

/-- The physical search returns the first frame the test accepts. As in
    `findFreePhysPageFrom_spec`, a full byte is only skipped from its start. -/
theorem sequentialFrom_cases (m : Bitmap) (pages j : ℕ) (hj : j % 8 = 0 ∨ m (j / 8) ≠ 255#8) :
    (sequentialFrom m pages j = none ∧
      ∀ f, j ≤ f → f < 0x100000 → sequentialAt m pages f = false) ∨
    ∃ f, j ≤ f ∧ f < 0x100000 ∧ sequentialAt m pages f = true ∧
      (∀ g, j ≤ g → g < f → sequentialAt m pages g = false) ∧
      sequentialFrom m pages j = some f := by
  fun_induction sequentialFrom m pages j with
  | case1 j hlt hfull ih =>
    rw [checkPageCluster_frame] at hfull
    have hj8 : j % 8 = 0 := by tauto
    have hbyte : ∀ g, j ≤ g → g < j + 8 → sequentialAt m pages g = false := by
      intro g hg hg'
      have hdiv : g / 8 = j / 8 := by omega
      have hbit : m.bit g = true := Bitmap.bit_of_byte_eq_allOnes (by rw [hdiv]; exact hfull)
      simp [sequentialAt, hbit]
    rcases ih (Or.inl (by omega)) with ⟨hnone, hall⟩ | ⟨f, hf, hf', hat, hmin, he⟩
    · refine Or.inl ⟨hnone, fun f hf hf' => ?_⟩
      by_cases h : f < j + 8
      · exact hbyte f hf h
      · exact hall f (by omega) hf'
    · refine Or.inr ⟨f, by omega, hf', hat, fun g hg hgf => ?_, he⟩
      by_cases h : g < j + 8
      · exact hbyte g hg h
      · exact hmin g (by omega) hgf
  | case2 j hlt hfull hat => exact Or.inr ⟨j, le_refl j, hlt, hat, by omega, rfl⟩
  | case3 j hlt hfull hat ih =>
    rw [checkPageCluster_frame] at hfull
    have hfalse : sequentialAt m pages j = false := by simpa using hat
    have hnext : (j + 1) % 8 = 0 ∨ m ((j + 1) / 8) ≠ 255#8 := by
      by_cases h : (j + 1) % 8 = 0
      · exact Or.inl h
      · have hdiv : (j + 1) / 8 = j / 8 := by omega
        exact Or.inr (by rw [hdiv]; exact hfull)
    rcases ih hnext with ⟨hnone, hall⟩ | ⟨f, hf, hf', hat', hmin, he⟩
    · refine Or.inl ⟨hnone, fun f hf hf' => ?_⟩
      by_cases h : f = j
      · exact h ▸ hfalse
      · exact hall f (by omega) hf'
    · refine Or.inr ⟨f, by omega, hf', hat', fun g hg hgf => ?_, he⟩
      by_cases h : g = j
      · exact h ▸ hfalse
      · exact hmin g (by omega) hgf
  | case4 j hge => exact Or.inl ⟨rfl, fun f hf hf' => absurd hf' (by omega)⟩

theorem allocPageFrom_cases (s : σ) (pages i : ℕ) :
    (allocPageFrom s pages i = (0, s) ∧
      ∀ w, i ≤ w → w < 0x100000 → windowAt s pages w = false) ∨
    ∃ w, i ≤ w ∧ w < 0x100000 ∧ windowAt s pages w = true ∧
      (∀ v, i ≤ v → v < w → windowAt s pages v = false) ∧
      allocPageFrom s pages i = allocPageMap s w pages 0 := by
  fun_induction allocPageFrom s pages i with
  | case1 i hlt hw => exact Or.inr ⟨i, le_refl i, hlt, hw, by omega, rfl⟩
  | case2 i hlt hw ih =>
    have hfalse : windowAt s pages i = false := by simpa using hw
    rcases ih with ⟨hz, hall⟩ | ⟨w, hw1, hw2, hw3, hmin, he⟩
    · refine Or.inl ⟨hz, fun w hw1 hw2 => ?_⟩
      by_cases h : w = i
      · exact h ▸ hfalse
      · exact hall w (by omega) hw2
    · refine Or.inr ⟨w, by omega, hw2, hw3, fun v hv1 hv2 => ?_, he⟩
      by_cases h : v = i
      · exact h ▸ hfalse
      · exact hmin v (by omega) hv2
  | case3 i hge => exact Or.inl ⟨rfl, fun w hw1 hw2 => absurd hw2 (by omega)⟩

/-- `alloc_page` returns 0 and changes nothing when there is no window, and runs its
    mapping loop on the first window otherwise. -/
theorem allocPage_cases (s : σ) (hpages : pages ≠ 0) :
    (allocPage s pages = (0, s) ∧
      ∀ w, 0xC0000 ≤ w → w < 0x100000 → windowAt s pages w = false) ∨
    ∃ w, 0xC0000 ≤ w ∧ w < 0x100000 ∧ windowAt s pages w = true ∧
      (∀ v, 0xC0000 ≤ v → v < w → windowAt s pages v = false) ∧
      allocPage s pages = allocPageMap s w pages 0 := by
  simp only [allocPage]
  rw [if_neg hpages]
  exact allocPageFrom_cases s pages 0xC0000

theorem allocSequentialFrom_cases (s : σ) (pages i : ℕ) :
    allocSequentialFrom s pages i = (0, s) ∧
      (sequentialFrom (pmemUsed s) pages 0x1000 = none ∨
        ∀ w, i ≤ w → w < 0x100000 → windowAt s pages w = false) ∨
    ∃ w j, i ≤ w ∧ w < 0x100000 ∧ windowAt s pages w = true ∧
      (∀ v, i ≤ v → v < w → windowAt s pages v = false) ∧
      sequentialFrom (pmemUsed s) pages 0x1000 = some j ∧
      allocSequentialFrom s pages i = (w * 0x1000, sequentialMap s w j pages 0) := by
  fun_induction allocSequentialFrom s pages i with
  | case1 i hlt hw j hj => exact Or.inr ⟨i, j, le_refl i, hlt, hw, by omega, hj, rfl⟩
  | case2 i hlt hw hnone ih =>
    rcases ih with ⟨hz, -⟩ | ⟨w, j, -, -, -, -, hj, -⟩
    · exact Or.inl ⟨hz, Or.inl hnone⟩
    · rw [hnone] at hj
      exact absurd hj (by simp)
  | case3 i hlt hw ih =>
    have hfalse : windowAt s pages i = false := by simpa using hw
    rcases ih with ⟨hz, hnone | hall⟩ | ⟨w, j, hw1, hw2, hw3, hmin, hj, he⟩
    · exact Or.inl ⟨hz, Or.inl hnone⟩
    · refine Or.inl ⟨hz, Or.inr fun w hw1 hw2 => ?_⟩
      by_cases h : w = i
      · exact h ▸ hfalse
      · exact hall w (by omega) hw2
    · refine Or.inr ⟨w, j, by omega, hw2, hw3, fun v hv1 hv2 => ?_, hj, he⟩
      by_cases h : v = i
      · exact h ▸ hfalse
      · exact hmin v (by omega) hv2
  | case4 i hge => exact Or.inl ⟨rfl, Or.inr fun w hw1 hw2 => absurd hw2 (by omega)⟩

/-- `alloc_sequential` changes nothing when a search fails, and maps the first window
    to the first run of frames otherwise. -/
theorem allocSequential_cases (s : σ) (hpages : pages ≠ 0) :
    allocSequential s pages = (0, s) ∧
      ((∀ f, 0x1000 ≤ f → f < 0x100000 → sequentialAt (pmemUsed s) pages f = false) ∨
        ∀ w, 0xC0000 ≤ w → w < 0x100000 → windowAt s pages w = false) ∨
    ∃ w j, 0xC0000 ≤ w ∧ w < 0x100000 ∧ windowAt s pages w = true ∧
      (∀ v, 0xC0000 ≤ v → v < w → windowAt s pages v = false) ∧
      0x1000 ≤ j ∧ j < 0x100000 ∧ sequentialAt (pmemUsed s) pages j = true ∧
      (∀ g, 0x1000 ≤ g → g < j → sequentialAt (pmemUsed s) pages g = false) ∧
      allocSequential s pages = (w * 0x1000, sequentialMap s w j pages 0) := by
  simp only [allocSequential]
  rw [if_neg hpages]
  have hseq := sequentialFrom_cases (pmemUsed s) pages 0x1000 (Or.inl (by omega))
  rcases allocSequentialFrom_cases s pages 0xC0000 with
    ⟨hz, hnone | hall⟩ | ⟨w, j, hw1, hw2, hw3, hmin, hj, he⟩
  · rcases hseq with ⟨-, hall⟩ | ⟨f, -, -, -, -, hf⟩
    · exact Or.inl ⟨hz, Or.inl hall⟩
    · rw [hnone] at hf
      exact absurd hf (by simp)
  · exact Or.inl ⟨hz, Or.inr hall⟩
  · rcases hseq with ⟨hnone, -⟩ | ⟨f, hf1, hf2, hf3, hfmin, hf⟩
    · rw [hnone] at hj
      exact absurd hj (by simp)
    · have hfj : f = j := by simpa [hj] using hf.symm
      subst hfj
      exact Or.inr ⟨w, f, hw1, hw2, hw3, hmin, hf1, hf2, hf3, hfmin, he⟩

end Search

section Rules

variable {P : σ → Prop} {s : σ} {pages : ℕ}

/-- What each `map_addr` of the mapping loop of `alloc_page` keeps, the loop keeps. -/
theorem allocPageMap_induct {i step : ℕ}
    (hmap : ∀ s step, step < pages → findFreePhysPage (pmemUsed s) ≠ 0 → P s →
      P (mapAddr s (u32 ((i + step) * 0x1000)) (findFreePhysPage (pmemUsed s))))
    (h : P s) : P (allocPageMap s i pages step).2 := by
  fun_induction allocPageMap s i pages step with
  | case1 s step hlt hz => exact h
  | case2 s step hlt paddr hne ih => exact ih (hmap s step hlt hne h)
  | case3 s step hge => exact h

/-- What each `map_addr` of the mapping loop of `alloc_sequential` keeps, the loop keeps. -/
theorem sequentialMap_induct {i j k : ℕ}
    (hmap : ∀ s k, k < pages → P s →
      P (mapAddr s (u32 ((i + k) * 0x1000)) (u32 ((j + k) * 0x1000))))
    (h : P s) : P (sequentialMap s i j pages k) := by
  fun_induction sequentialMap s i j pages k with
  | case1 s k hlt ih => exact ih (hmap s k hlt h)
  | case2 s k hge => exact h

/-- What each `unmap_vaddr` of `free_page` keeps, the loop keeps. -/
theorem freePageFrom_induct {start i : ℕ}
    (hunmap : ∀ s i, i < pages → P s → P (unmapVaddr s (u32 (start + i * 0x1000))))
    (h : P s) : P (freePageFrom s start pages i) := by
  fun_induction freePageFrom s start pages i with
  | case1 s i hlt ih => exact ih (hunmap s i hlt h)
  | case2 s i hge => exact h

/-- What `map_page_to` keeps, the growing loop of `realloc_page` keeps. -/
theorem reallocGrow_induct {start amtPages i : ℕ}
    (hmap : ∀ s vaddr, P s → P (mapPageTo s (u32 vaddr)).2)
    (h : P s) : P (reallocGrow s start amtPages i) := by
  fun_induction reallocGrow s start amtPages i with
  | case1 s i hlt ih => exact ih (hmap s _ h)
  | case2 s i hge => exact h

/-- What each store of `memcpy` keeps, the copy keeps. -/
theorem memcpyFrom_induct {src : σ → ℕ → BitVec 8} {dst size i : ℕ}
    (hstore : ∀ s i, i < size → P s → P (store s (u32 (dst + i)) (src s i)))
    (h : P s) : P (memcpyFrom src s dst size i) := by
  fun_induction memcpyFrom src s dst size i with
  | case1 s i hlt ih => exact ih (hstore s i hlt h)
  | case2 s i hge => exact h

end Rules

end FirstOs
