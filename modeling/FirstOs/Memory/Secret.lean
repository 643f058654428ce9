import FirstOs.Memory.Undo

/-!
# Mapping physical memory without claiming it

`map_paddr` is to give a view of any physical memory: it takes the first window of absent pages and
maps it, without looking at the bitmap or changing it. The address may lie inside a page; the view
starts at the same place of its first page. `unmap_secret_page` takes the view back, also by an
address inside its first page.

Only the first page is sure to be mapped to the frame asked for: the assembly of
`map_page_secretly` overwrites the register in which the loop keeps the physical address.

## Main definitions

- `unmapSecretPage` — taking the view back
- `viewFrame` — the frame a page of the window is mapped to
- `PhysView` — what a view of physical memory is

## Main results

- `mapPaddr_eq_of_window` — the window taken
- `mapPaddrMap_tables`, `unmapSecretFrom_tables` — the loops
- `mapPaddr_view_iff` — when `map_paddr` gives the view asked for
-/

namespace FirstOs

open AddressSpace

section Code

variable {σ : Type} [AddressSpace σ]

/-- The loop of `unmap_secret_page` from `i` on. -/
def unmapSecretFrom (s : σ) (vaddrPage pages i : ℕ) : σ :=
  if i < pages then
    let page := u32 (vaddrPage + i)
    unmapSecretFrom (setEntry s page (unmappedEntry (entry s page))) vaddrPage pages (i + 1)
  else s
termination_by pages - i

/-- `unmap_secret_page`. -/
def unmapSecretPage (s : σ) (vaddr pages : ℕ) : σ := unmapSecretFrom s (vaddr / 0x1000) pages 0

end Code

/-- The frame of page `k` of the window at page `v`, up to 2^20. -/
def viewFrame (cr3 v paddrPage k : ℕ) : ℕ :=
  if k = 0 then paddrPage else if k = 1 then cr3 + 1 else v + k + cr3 / 0x1000

/-- The pages returned show the physical memory from `paddr` on. They were absent, nothing else
    has changed, and `unmap_secret_page` restores the table. -/
structure PhysView (s : Flat) (paddr n : ℕ) (r : ℕ × Flat) : Prop where
  view : ∀ d < n * 0x1000 - paddr % 0x1000,
    getPhysAddr r.2 (u32 (r.1 + d)) = u32 (paddr + d)
  absent : ∃ P : Finset ℕ, P.card = n ∧ (∀ i ∈ P, (s.tables i).present = false) ∧
    ∀ i ∉ P, r.2.tables i = s.tables i
  pmemUsed : r.2.pmemUsed = s.pmemUsed
  unmapped : (unmapSecretPage r.2 r.1 n).tables = s.tables

section View

variable {s : Flat} {n v w i k cr3 ecx paddr paddrPage : ℕ}

/-- The first window is the one the search finds. -/
theorem searchWindow_of_window (h : FirstWindow s n w) (hpos : 0 < n) (hn : n < 0xFFFFFFFF)
    (hi : 0xC0000 ≤ i) (hiw : i ≤ w) : searchWindow s n true i = some w := by
  fun_induction searchWindow s n true i with
  | case1 i hlt hat =>
    rw [Bool.and_true] at hat
    obtain hlt | rfl := Nat.lt_or_eq_of_le hiw
    · obtain ⟨t, ht, hpresent⟩ := h.first i hi hlt
      have habsent := absent_of_windowAt hat (by omega) t ht
      rw [Flat.entry_eq, hpresent] at habsent
      cases habsent
    · rfl
  | case2 i hlt hat ih =>
    rw [Bool.and_true] at hat
    have hne : i ≠ w := fun heq => hat (heq ▸ h.windowAt hpos hn)
    exact ih (by omega) (by omega)
  | case3 i hge => exact absurd (hiw.trans_lt h.upper) hge

/-- `map_paddr` takes the first window. -/
theorem mapPaddr_eq_of_window (h : FirstWindow s n w) (hpos : 0 < n) (hn : n < 0xFFFFFFFF) :
    mapPaddr s cr3 paddr n =
      (w * 0x1000 + paddr % 0x1000, mapPaddrMap s cr3 w (paddr / 0x1000) n) := by
  rw [mapPaddr_eq_window, mapPaddrWindow, allocPageWindow, if_neg hpos.ne',
    searchWindow_of_window h hpos hn le_rfl h.lower, Option.elim_some]

/-- An entry depends on the frame only. -/
theorem mappedEntry_congr (e : PageTableEntry) {a b : ℕ} (h : a / 0x1000 = b / 0x1000) :
    mappedEntry e a = mappedEntry e b := by
  rw [mappedEntry, mappedEntry, h]

theorem mapPageSecretly_tables (s : Flat) (cr3 vaddr paddr i : ℕ) :
    (mapPageSecretly s cr3 vaddr paddr).2.tables i =
      if i = vaddr / 0x1000 then mappedEntry (s.tables i) paddr else s.tables i := by
  simp only [mapPageSecretly, Flat.entry_eq, Flat.setEntry_eq, Flat.withTables_tables,
    Function.update_apply]
  split_ifs with hi
  · rw [hi]
  · rfl

/-- The page of step `k` gets the distance in `%ecx`, the ones behind it the distance `%cr3`. -/
theorem mapPaddrFromStep_tables (hin : v + n ≤ 0x100000) (i : ℕ) :
    (mapPaddrFromStep s cr3 v n k ecx).tables i =
      if v + k ≤ i ∧ i < v + n then
        mappedEntry (s.tables i)
          ((i + (if i = v + k then ecx else cr3) / 0x1000) % 0x100000 * 0x1000)
      else s.tables i := by
  fun_induction mapPaddrFromStep s cr3 v n k ecx with
  | case1 s k ecx hlt vaddr ecx' s' hstep ih =>
    obtain rfl : cr3 = ecx' := congrArg Prod.fst hstep
    have hs' : (mapPageSecretly s cr3 vaddr (u32 (vaddr + ecx))).2 = s' := congrArg Prod.snd hstep
    have hvaddr : vaddr = (v + k) * 0x1000 := Nat.mod_eq_of_lt (by omega)
    have hframe : u32 (vaddr + ecx) / 0x1000 =
        (v + k + ecx / 0x1000) % 0x100000 * 0x1000 / 0x1000 := by
      simp only [u32]
      omega
    rw [ih, ite_self, ← hs', mapPageSecretly_tables, mappedEntry_congr _ hframe, hvaddr,
      Nat.mul_div_cancel _ (by decide)]
    by_cases hi : i = v + k
    · rw [if_neg (by omega), if_pos hi, if_pos (by omega), if_pos hi, hi]
    · rw [if_neg hi, if_neg hi]
      exact if_congr (by omega) rfl rfl
  | case2 s k ecx hge => rw [if_neg (by omega)]

/-- The pages of the window are mapped, each to its frame. -/
theorem mapPaddrMap_tables (hin : v + n ≤ 0x100000) (hpos : 0 < n) (hcr3 : cr3 < 0x100000000)
    (i : ℕ) : (mapPaddrMap s cr3 v paddrPage n).tables i =
      if v ≤ i ∧ i < v + n then
        mappedEntry (s.tables i) (viewFrame cr3 v paddrPage (i - v) % 0x100000 * 0x1000)
      else s.tables i := by
  have hpage : u32 (v * 0x1000) / 0x1000 = v := by
    rw [page_of_u32, Nat.mod_eq_of_lt (by omega)]
  have hframe : u32 (paddrPage * 0x1000) / 0x1000 = paddrPage % 0x100000 * 0x1000 / 0x1000 := by
    rw [page_of_u32, Nat.mul_div_cancel _ (by decide)]
  have hmap : mapPaddrMap s cr3 v paddrPage n = mapPaddrFromStep
      (mapPageSecretly s cr3 (u32 (v * 0x1000)) (u32 (paddrPage * 0x1000))).2 cr3 v n 1
      (u32 ((cr3 + 0x100000000 - v) * 0x1000)) := rfl
  rw [hmap, mapPaddrFromStep_tables hin, mapPageSecretly_tables, hpage,
    mappedEntry_congr _ hframe]
  by_cases hi : i = v
  · rw [if_neg (by omega), if_pos hi, if_pos (by omega), hi, Nat.sub_self, viewFrame, if_pos rfl]
  rw [if_neg hi]
  refine ite_congr (propext (by omega)) (fun hmem => ?_) fun _ => rfl
  rw [viewFrame, if_neg (show i - v ≠ 0 by omega)]
  by_cases hsecond : i = v + 1
  · -- the distance behind the first page is computed from `%cr3`
    have hsum : (i + (cr3 + 0x100000000 - v) % 0x100000) % 0x100000 = (cr3 + 1) % 0x100000 := by
      omega
    rw [if_pos hsecond, if_pos (show i - v = 1 by omega), page_of_u32, hsum]
  · rw [if_neg hsecond, if_neg (show i - v ≠ 1 by omega), show v + (i - v) = i by omega]

theorem mapPaddrFromStep_pmemUsed :
    (mapPaddrFromStep s cr3 v n k ecx).pmemUsed = s.pmemUsed := by
  fun_induction mapPaddrFromStep s cr3 v n k ecx with
  | case1 s k ecx hlt vaddr ecx' s' hstep ih =>
    have hs' : (mapPageSecretly s cr3 vaddr (u32 (vaddr + ecx))).2 = s' := congrArg Prod.snd hstep
    rw [ih, ← hs']
    rfl
  | case2 s k ecx hge => rfl

theorem mapPaddrMap_pmemUsed : (mapPaddrMap s cr3 v paddrPage n).pmemUsed = s.pmemUsed :=
  mapPaddrFromStep_pmemUsed

theorem unmapSecretFrom_tables (hin : v + n ≤ 0x100000) (i : ℕ) :
    (unmapSecretFrom s v n k).tables i =
      if v + k ≤ i ∧ i < v + n then unmappedEntry (s.tables i) else s.tables i := by
  fun_induction unmapSecretFrom s v n k with
  | case1 s k hlt page ih =>
    have hpage : page = v + k := Nat.mod_eq_of_lt (by omega)
    have hstep : ∀ j, (setEntry s page (unmappedEntry (entry s page))).tables j =
        if j = v + k then unmappedEntry (s.tables j) else s.tables j := by
      intro j
      simp only [hpage, Flat.entry_eq, Flat.setEntry_eq, Flat.withTables_tables,
        Function.update_apply]
      split_ifs with hj
      · rw [hj]
      · rfl
    rw [ih, hstep]
    by_cases hi : i = v + k
    · rw [if_neg (by omega), if_pos hi, if_pos (by omega)]
    · rw [if_neg hi]
      exact if_congr (by omega) rfl rfl
  | case2 s k hge => rw [if_neg (by omega)]

/-- The frames asked for are those from the one of `paddr` on. -/
theorem viewFrame_iff {f : ℕ} (hf : f < 0x100000) :
    (∀ k < n, viewFrame cr3 v f k % 0x100000 = (f + k) % 0x100000) ↔
      n ≤ 1 ∨ cr3 % 0x100000 = f ∧ (n = 2 ∨ (v + cr3 / 0x1000) % 0x100000 = f) := by
  constructor
  · intro hall
    obtain hlt | hle := Nat.lt_or_ge 1 n
    swap
    · exact Or.inl hle
    have hsecond := hall 1 hlt
    rw [viewFrame, if_neg (by decide), if_pos rfl] at hsecond
    refine Or.inr ⟨by omega, ?_⟩
    by_cases htwo : n = 2
    · exact Or.inl htwo
    have hthird := hall 2 (by omega)
    rw [viewFrame, if_neg (by decide), if_neg (by decide)] at hthird
    exact Or.inr (by omega)
  · intro hcond k hk
    rw [viewFrame]
    split_ifs with h0 h1
    · rw [h0, Nat.add_zero]
    · omega
    · omega

/-- The address read through the page of an offset. -/
theorem getPhysAddr_view (hin : v + n ≤ 0x100000) (hpos : 0 < n) (hcr3 : cr3 < 0x100000000) {d : ℕ}
    (hd : paddr % 0x1000 + d < n * 0x1000) :
    getPhysAddr (mapPaddrMap s cr3 v (paddr / 0x1000) n) (u32 (v * 0x1000 + paddr % 0x1000 + d)) =
      viewFrame cr3 v (paddr / 0x1000) ((paddr % 0x1000 + d) / 0x1000) % 0x100000 * 0x1000 +
        (paddr + d) % 0x1000 := by
  have haddr : u32 (v * 0x1000 + paddr % 0x1000 + d) = v * 0x1000 + paddr % 0x1000 + d :=
    Nat.mod_eq_of_lt (by omega)
  have hpage : (v * 0x1000 + paddr % 0x1000 + d) / 0x1000 = v + (paddr % 0x1000 + d) / 0x1000 := by
    omega
  have hlt : (paddr % 0x1000 + d) / 0x1000 < n := by omega
  rw [haddr, getPhysAddr, Flat.entry_eq, hpage, mapPaddrMap_tables hin hpos hcr3,
    if_pos (by omega), Nat.add_sub_cancel_left, mappedEntry, Nat.mul_div_cancel _ (by decide),
    BitVec.toNat_ofNat]
  omega

/-- The view is the one asked for when all its frames are. -/
theorem physView_iff (hz : AbsentZero s) (hcr3 : cr3 < 0x100000000) (hpos : 0 < n)
    (hv : IsLeast {i | AbsentRun s n i} v) : PhysView s paddr n (mapPaddr s cr3 paddr n) ↔
      ∀ k < n, viewFrame cr3 v (paddr / 0x1000) k % 0x100000 =
        (paddr / 0x1000 + k) % 0x100000 := by
  have hfit : AbsentRun s n v := hv.1
  have hin := hfit.upper
  have hpage : (v * 0x1000 + paddr % 0x1000) / 0x1000 = v := by omega
  rw [mapPaddr_eq_of_window (firstWindow_of_isLeast hpos hv) hpos (by omega)]
  constructor
  · intro h k hk
    -- the first offset in page `k`
    have hd := h.view (k * 0x1000 - paddr % 0x1000) (by omega)
    have hk' : (paddr % 0x1000 + (k * 0x1000 - paddr % 0x1000)) / 0x1000 = k := by omega
    rw [getPhysAddr_view hin hpos hcr3 (by omega), hk', u32] at hd
    omega
  · intro hframes
    refine ⟨fun d hd => ?_, ⟨window v n, ?_, fun i hi => ?_, fun i hi => ?_⟩,
      mapPaddrMap_pmemUsed, ?_⟩
    · rw [getPhysAddr_view hin hpos hcr3 (by omega), hframes _ (by omega), u32]
      omega
    · rw [Nat.card_Ico, Nat.add_sub_cancel_left]
    · rw [window, Finset.mem_Ico] at hi
      have habsent := hfit.absent (i - v) (by omega)
      rwa [show v + (i - v) = i by omega] at habsent
    · rw [window, Finset.mem_Ico] at hi
      exact (mapPaddrMap_tables hin hpos hcr3 i).trans (if_neg (by omega))
    · funext i
      rw [unmapSecretPage, hpage, unmapSecretFrom_tables hin, Nat.add_zero,
        mapPaddrMap_tables hin hpos hcr3]
      split_ifs with hi
      · have habsent := hfit.absent (i - v) (by omega)
        rw [show v + (i - v) = i by omega] at habsent
        obtain ⟨hrw, haddr⟩ := hz i (by omega) habsent
        exact unmappedEntry_mappedEntry habsent hrw haddr
      · rfl

end View

/-- **When `map_paddr` gives a view of physical memory.** It always does for one page. Two pages
    need the frame behind `%cr3` to be the second one; from three on, `%cr3` added to the address of
    the window at page `v` has to hit the others. -/
theorem mapPaddr_view_iff {s : Flat} (hz : AbsentZero s) (cr3 paddr : BitVec 32) {n v : ℕ}
    (hpos : 0 < n) (hv : IsLeast {i | AbsentRun s n i} v) :
    PhysView s paddr.toNat n (mapPaddr s cr3.toNat paddr.toNat n) ↔
      n = 1 ∨ cr3.toNat % 0x100000 = paddr.toNat / 0x1000 ∧
        (n = 2 ∨ (v + cr3.toNat / 0x1000) % 0x100000 = paddr.toNat / 0x1000) := by
  rw [physView_iff hz cr3.isLt hpos hv, viewFrame_iff (by omega)]
  exact or_congr_left (by omega)

/-- With `%cr3` at `0x105000`, two pages from `0x5000FF0` on are in view. -/
theorem mapPaddr_view_iff_scattered :
    PhysView Flat.scattered 0x5000FF0 2 (mapPaddr Flat.scattered 0x105000 0x5000FF0 2) :=
  (mapPaddr_view_iff absentZero_scattered 0x105000#32 0x5000FF0#32 (by decide)
    isLeast_scattered).mpr (Or.inr ⟨by decide, Or.inl rfl⟩)

/-- The second page of a device's registers at `0xFEBF0000` is mapped to another frame. -/
theorem not_mapPaddr_view : ¬ ∀ (s : Flat) (cr3 paddr : BitVec 32) (n : ℕ), AbsentZero s → 0 < n →
    (∃ i, AbsentRun s n i) → PhysView s paddr.toNat n (mapPaddr s cr3.toNat paddr.toNat n) := by
  intro hall
  have hview := hall Flat.scattered 0x105000#32 0xFEBF0000#32 2 absentZero_scattered (by decide)
    ⟨_, isLeast_scattered.1⟩
  rw [physView_iff absentZero_scattered (BitVec.isLt _) (by decide) isLeast_scattered] at hview
  exact absurd (hview 1 (by decide)) (by decide)

end FirstOs
