import FirstOs.Machine.Clone
import FirstOs.Machine.MemoryMap

/-!
# Back to the kernel's address space

`use_kernel_map` leaves the address space of a clone. It sets `kernel_tables` back first and looks
up the physical address of `kernel_page_dir` after that, in the array at the kernel's address but
still by the directory of the clone. That works as long as the clone maps the pages of the kernel's
array as the kernel does. `clone_tables` has copied them, and the page allocator never changes a
page that is present and that it has not handed out.

## Main definitions

- `useKernelMap` — the switch
- `PageRule` — what holds of a machine and of the pages its blocks have
- `PresentKept` — the present pages of a machine are kept
- `OwnSpace` — the kernel's address space is in force

## Main results

- `PageRule.step` — a call of the page allocator keeps what its single-page steps keep
- `CloneWindow.child` — the clone's array is its hardware table
- `useKernelMap_returns` — the kernel's tables are in force again, as they were
-/

namespace FirstOs

open AddressSpace Machine Relation

/-- `use_kernel_map`. -/
def useKernelMap (img : Image) (m : Machine) : Machine :=
  let m := { m with kernelTables := 0xC0400000 }
  m.loadCr3 (getPhysAddr m img.kernelPageDir.addr)

-- ════════════════════════════════════════════════════════════════════════
-- Calls of the page allocator
-- ════════════════════════════════════════════════════════════════════════

/-- `P` holds as long as pages with `Q` are mapped and unmapped only, and absent pages have `Q`. -/
structure PageRule (P : Machine → Prop) (Q : ℕ → Prop) : Prop where
  absent : ∀ s i, P s → i < 0x100000 → (entry s i).present = false → Q i
  map : ∀ s v paddr, P s → v / 0x1000 < 0x100000 → Q (v / 0x1000) → P (mapAddr s v paddr)
  unmap : ∀ s v, P s → v / 0x1000 < 0x100000 → Q (v / 0x1000) → P (unmapVaddr s v)

/-- `P` holds of the machine, and `Q` of the pages of its blocks. -/
structure PageClient.Has (P : Machine → Prop) (Q : ℕ → Prop) (s : PageClient) : Prop where
  machine : P s.machine
  returned : ∀ b ∈ s.returned, ∀ t < b.pages, Q (u32 (b.addr + t * 0x1000) / 0x1000)

section Rule

variable {P : Machine → Prop} {Q : ℕ → Prop} {s s' : PageClient} {m : Machine} {i n w : ℕ}

/-- The pages of a window that fits. -/
theorem PageRule.window (h : PageRule P Q) (hm : P m) (hat : windowAt m n w = true)
    (hw : w < 0x100000) (hfits : w + n ≤ 0x100000) : ∀ t < n, Q (w + t) := by
  intro t ht
  have habs := absent_of_windowAt hat hw t ht
  rw [show u32 (w + t) = w + t from Nat.mod_eq_of_lt (by omega)] at habs
  exact h.absent m (w + t) hm (by omega) habs

theorem PageRule.allocPage (h : PageRule P Q) (hm : P m) (hfits : WindowFits m n) :
    P (allocPage m n).2 ∧ ((FirstOs.allocPage m n).1 ≠ 0 →
      ∀ t < n, Q (u32 ((FirstOs.allocPage m n).1 + t * 0x1000) / 0x1000)) := by
  by_cases hn : n = 0
  · rw [FirstOs.allocPage, if_pos hn]
    exact ⟨hm, fun hne => absurd rfl hne⟩
  obtain ⟨he, -⟩ | ⟨w, hw, hw', hat, hmin, he⟩ := allocPage_cases m hn
  · rw [he]
    exact ⟨hm, fun hne => absurd rfl hne⟩
  have hfit := hfits w hw hw' hat hmin
  have hpages := h.window hm hat hw' hfit
  rw [he]
  refine ⟨allocPageMap_induct (P := P) (fun s k hk _ hs => ?_) hm, fun hne t ht => ?_⟩
  · have hpage := page_window hfit hk
    exact h.map s _ _ hs (by omega) (by rw [hpage]; exact hpages k hk)
  · rw [allocPageMap_fst m w 0 hne, ← Nat.add_mul, page_window hfit ht]
    exact hpages t ht

theorem PageRule.allocSequential (h : PageRule P Q) (hm : P m) (hfits : WindowFits m n) :
    P (allocSequential m n).2 ∧ ((FirstOs.allocSequential m n).1 ≠ 0 →
      ∀ t < n, Q (u32 ((FirstOs.allocSequential m n).1 + t * 0x1000) / 0x1000)) := by
  by_cases hn : n = 0
  · rw [FirstOs.allocSequential, if_pos hn]
    exact ⟨hm, fun hne => absurd rfl hne⟩
  obtain ⟨he, -⟩ | ⟨w, j, hw, hw', hat, hmin, -, -, -, -, he⟩ := allocSequential_cases m hn
  · rw [he]
    exact ⟨hm, fun hne => absurd rfl hne⟩
  have hfit := hfits w hw hw' hat hmin
  have hpages := h.window hm hat hw' hfit
  rw [he]
  refine ⟨sequentialMap_induct (P := P) (fun s k hk hs => ?_) hm, fun _ t ht => ?_⟩
  · have hpage := page_window hfit hk
    exact h.map s _ _ hs (by omega) (by rw [hpage]; exact hpages k hk)
  · rw [← Nat.add_mul, page_window hfit ht]
    exact hpages t ht

theorem PageRule.mapPageTo (h : PageRule P Q) (hm : P m) {v : ℕ} (hv : v < 0x100000000) :
    P (mapPageTo m v).2 ∧ ((FirstOs.mapPageTo m v).1 ≠ 0 →
      ∀ t < 1, Q (u32 ((FirstOs.mapPageTo m v).1 + t * 0x1000) / 0x1000)) := by
  rw [FirstOs.mapPageTo]
  dsimp only
  split_ifs with hpres hnone
  · exact ⟨hm, fun hne => absurd rfl hne⟩
  · exact ⟨hm, fun hne => absurd rfl hne⟩
  · have hpage := h.absent m (v / 0x1000) hm (by omega) (Bool.eq_false_of_not_eq_true hpres)
    refine ⟨h.map m v _ hm (by omega) hpage, fun _ t ht => ?_⟩
    obtain rfl : t = 0 := by omega
    rwa [Nat.zero_mul, Nat.add_zero, u32, Nat.mod_eq_of_lt hv]

theorem PageClient.Has.after (h : s.Has P Q) {r : ℕ × Machine} (hr : P r.2)
    (hblock : r.1 ≠ 0 → ∀ t < n, Q (u32 (r.1 + t * 0x1000) / 0x1000)) : (s.after r n).Has P Q := by
  refine ⟨hr, fun b hb => ?_⟩
  simp only [PageClient.after] at hb
  split_ifs at hb with hz
  · exact h.returned b hb
  · obtain rfl | hb := List.mem_cons.mp hb
    · exact hblock hz
    · exact h.returned b hb

/-- A call keeps what its single-page steps keep. -/
theorem PageRule.step (h : PageRule P Q) (hs : PageStep s s') (hP : s.Has P Q) : s'.Has P Q := by
  cases hs with
  | allocPage n hfits =>
    obtain ⟨hr, hblock⟩ := h.allocPage hP.machine hfits
    exact hP.after hr hblock
  | allocSequential n hfits =>
    obtain ⟨hr, hblock⟩ := h.allocSequential hP.machine hfits
    exact hP.after hr hblock
  | mapPageTo v =>
    obtain ⟨hr, hblock⟩ := h.mapPageTo hP.machine v.isLt
    exact hP.after hr hblock
  | freePage b hb =>
    refine ⟨freePageFrom_induct (P := P) (fun m t ht hm => ?_) hP.machine, hP.returned⟩
    refine h.unmap m _ hm ?_ (hP.returned b hb t ht)
    simp only [u32]
    omega

theorem PageRule.run (h : PageRule P Q) (hrun : ReflTransGen PageStep s s') (hP : s.Has P Q) :
    s'.Has P Q :=
  Run.invariant (I := PageClient.Has P Q) (fun _ _ hs hP => h.step hs hP) hrun hP

end Rule

-- ════════════════════════════════════════════════════════════════════════
-- Present pages
-- ════════════════════════════════════════════════════════════════════════

/-- `s` has the registers of `m`, and all of its memory but the entries of absent pages. -/
structure PresentKept (m : Machine) (tab : ℕ → ℕ) (s : Machine) : Prop where
  mapped : Mapped s tab
  cr3 : s.cr3 = m.cr3
  kernelTables : s.kernelTables = m.kernelTables
  word : ∀ a, a % 4 = 0 → (∀ i < 0x100000, (entry m i).present = false → a ≠ entryAddr tab i) →
    s.word a = m.word a

section Present

variable {m s : Machine} {tab : ℕ → ℕ} {i : ℕ}

theorem PresentKept.refl (h : Mapped m tab) : PresentKept m tab m := ⟨h, rfl, rfl, fun _ _ _ => rfl⟩

/-- The entries of the present pages stay. -/
theorem PresentKept.entry_eq (h : PresentKept m tab s) (hm : Mapped m tab)
    (hinj : ∀ d < 1024, ∀ e < 1024, tab d = tab e → d = e) (hi : i < 0x100000)
    (hp : (entry m i).present = true) : entry s i = entry m i := by
  rw [h.mapped.entry_eq hi, hm.entry_eq hi, h.word _ (entryAddr_mod tab i) fun k hk habs heq => ?_]
  obtain rfl := entryAddr_inj hinj hi hk heq
  rw [hp] at habs
  exact Bool.noConfusion habs

theorem PresentKept.set (h : PresentKept m tab s) (hm : Mapped m tab) (hi : i < 0x100000)
    (habs : (entry m i).present = false) (b : Bitmap) (w : BitVec 32) :
    PresentKept m tab (s.set b (entryAddr tab i) w) := by
  have hwrite := (writable_of_absent hm hi habs).congr h.cr3 h.kernelTables
  refine ⟨h.mapped.set hwrite b w, h.cr3, h.kernelTables, fun a ha hout => ?_⟩
  rw [set_word_of_ne _ _ _ _ (entryAddr_mod tab i) ha (hout i hi habs)]
  exact h.word a ha hout

theorem keptRule (hm : Mapped m tab) (hinj : ∀ d < 1024, ∀ e < 1024, tab d = tab e → d = e) :
    PageRule (PresentKept m tab) fun i => (entry m i).present = false := by
  constructor
  · intro s i hs hi habs
    by_contra hp
    rw [hs.entry_eq hm hinj hi (Bool.eq_true_of_not_eq_false hp)] at habs
    exact hp habs
  · intro s v paddr hs hv habs
    rw [hs.mapped.mapAddr_eq hv]
    exact hs.set hm hv habs _ _
  · intro s v hs hv habs
    rw [hs.mapped.unmapVaddr_eq hv]
    exact hs.set hm hv habs _ _

/-- A word outside the tables stays. -/
theorem PresentKept.word_of_ne (h : PresentKept m tab s) {a : ℕ} (ha : a % 4 = 0)
    (hframe : ∀ d < 1024, a / 0x1000 ≠ tab d) : s.word a = m.word a := by
  refine h.word a ha fun i hi _ heq => hframe (i / 1024) (by omega) ?_
  rw [heq, entryAddr, tableAddr]
  omega

end Present

-- ════════════════════════════════════════════════════════════════════════
-- The clone
-- ════════════════════════════════════════════════════════════════════════

/-- The kernel's address space is in force, and maps its directory. -/
structure OwnSpace (img : Image) (m : Machine) : Prop where
  kernelTables : m.kernelTables = 0xC0400000
  present : (entry m (img.kernelPageDir.addr / 0x1000)).present = true
  cr3 : getPhysAddr m img.kernelPageDir.addr = m.cr3

section Child

variable {p q s : Machine} {tab tab' : ℕ → ℕ} {w j v : ℕ}

/-- The machine after `clone_tables`, when its window is at page `w` and at frame `j`. -/
def childOf (p : Machine) (w j : ℕ) : Machine :=
  switchTables (filledTables p (w * 0x1000)) (u32 (w * 0x1000 + 0x1000)) (j * 0x1000)

/-- The parts of its table. -/
def childTab (j d : ℕ) : ℕ := j + (1 + d)

theorem childOf_walk (h : CloneWindow p tab w (fun k => j + k)) (hj : j + 1024 < 0x100000)
    (hv : v < 0x100000000) :
    (childOf p w j).walk (j * 0x1000) v = some (entry p (v / 0x1000)) := by
  have hwalk := h.walk_eq (fun _ _ => rfl) hj hv
  simp only [Nat.add_zero] at hwalk
  rw [childOf, switchTables_walk]
  exact hwalk

theorem childOf_cr3 (p : Machine) (w j : ℕ) : (childOf p w j).cr3 = j * 0x1000 := rfl

theorem childOf_kernelTables (p : Machine) (w j : ℕ) :
    (childOf p w j).kernelTables = u32 (w * 0x1000 + 0x1000) := rfl

theorem childOf_word (p : Machine) (w j a : ℕ) :
    (childOf p w j).word a = (filledTables p (w * 0x1000)).word a := by
  rw [Machine.word, childOf, switchTables_phys, Machine.word]

/-- The array of the clone is the table the processor walks. -/
theorem CloneWindow.child (h : CloneWindow p tab w (fun k => j + k)) (hj : j + 1024 < 0x100000) :
    Mapped (childOf p w j) (childTab j) := by
  have hfits := h.fits
  constructor
  · intro d hd
    have hword := h.dir_word hd
    simp only [Nat.add_zero] at hword
    rw [childOf_cr3, childOf_word, hword, PageDirEntry.decode_encode]
    have hframe := linkedEntry_frame (f := j + 1) (d := d) (by omega)
    refine ⟨rfl, rfl, hframe.trans ?_⟩
    rw [childTab]
    omega
  · intro k hk
    have hv : u32 ((childOf p w j).kernelTables + k) = (w + 1) * 0x1000 + k := by
      rw [childOf_kernelTables]
      simp only [u32]
      omega
    have hpage : ((w + 1) * 0x1000 + k) / 0x1000 = w + (1 + k / 0x1000) := by omega
    have hframe := h.frame_eq (1 + k / 0x1000) (by omega)
    have hwalk := childOf_walk h hj (v := (w + 1) * 0x1000 + k) (by omega)
    rw [← childOf_cr3 p w j] at hwalk
    rw [hv, translate_of_walk hwalk, hpage,
      if_pos (h.present (1 + k / 0x1000) (by omega)), hframe, Flat.frameByte, childTab,
      Option.some.injEq]
    omega

theorem childOf_entry (h : CloneWindow p tab w (fun k => j + k)) (hj : j + 1024 < 0x100000)
    {i : ℕ} (hi : i < 0x100000) : entry (childOf p w j) i = entry p i := by
  have hwalk := (h.child hj).walk_eq_entry (v := i * 0x1000) (by omega)
  rw [childOf_cr3, childOf_walk h hj (by omega), Option.some.injEq,
    Nat.mul_div_cancel i (by decide)] at hwalk
  exact hwalk.symm

theorem childTab_inj : ∀ d < 1024, ∀ e < 1024, childTab j d = childTab j e → d = e := by
  simp only [childTab]
  omega

/-- The words of the parent's directory and tables, while the clone runs. -/
theorem parent_word (h : CloneWindow p tab w (fun k => j + k))
    (hs : PresentKept (childOf p w j) (childTab j) s) :
    (∀ d < 1024, s.word (dirAddr p.cr3 d) = p.word (dirAddr p.cr3 d)) ∧
      ∀ i < 0x100000, s.word (entryAddr tab i) = p.word (entryAddr tab i) := by
  constructor
  · intro d hd
    rw [hs.word_of_ne (dirAddr_mod _ _) fun e he heq => ?_]
    · rw [childOf_word]
      exact h.keeps.word_dir hd
    · refine h.notDir (1 + e) (by omega) ?_
      rw [dirAddr, childTab] at heq
      omega
  · intro i hi
    rw [hs.word_of_ne (entryAddr_mod _ _) fun e he heq => ?_]
    · rw [childOf_word]
      exact h.keeps.word_entry hi
    · refine h.notTab (1 + e) (by omega) (i / 1024) (by omega) ?_
      rw [entryAddr, tableAddr, childTab] at heq
      omega

/-- Two machines with the same entry for an address translate it in the same way. -/
theorem Mapped.translate_congr (hs : Mapped s tab') (hp : Mapped p tab) (hv : v < 0x100000000)
    (h : entry s (v / 0x1000) = entry p (v / 0x1000)) : s.translate v = p.translate v := by
  rw [translate_of_walk (hs.walk_eq_entry hv), translate_of_walk (hp.walk_eq_entry hv), h]

/-- The parent's array, read through the clone's directory. -/
theorem parent_entry (h : CloneWindow p tab w (fun k => j + k)) (hj : j + 1024 < 0x100000)
    (hkt : p.kernelTables = 0xC0400000) (hs : PresentKept (childOf p w j) (childTab j) s) {i : ℕ}
    (hi : i < 0x100000) : entry { s with kernelTables := 0xC0400000 } i = entry p i := by
  have hself : selfPage p (4 * i) = u32 (0xC0400000 + 4 * i) / 0x1000 := by rw [selfPage, hkt]
  have hlt : u32 (0xC0400000 + 4 * i) < 0x100000000 := Nat.mod_lt _ (by decide)
  have hpres : (entry p (u32 (0xC0400000 + 4 * i) / 0x1000)).present = true := by
    rw [← hself, h.mapped.entry_eq (by omega)]
    exact h.mapped.self_present (by omega)
  have hchild := childOf_entry h hj (i := u32 (0xC0400000 + 4 * i) / 0x1000) (by omega)
  have hkept : entry s (u32 (0xC0400000 + 4 * i) / 0x1000) = _ :=
    hs.entry_eq (h.child hj) childTab_inj (by omega) (by rw [hchild]; exact hpres)
  have htr : s.translate (u32 (0xC0400000 + 4 * i)) = some (entryAddr tab i) := by
    rw [hs.mapped.translate_congr h.mapped hlt (hkept.trans hchild), ← hkt]
    exact h.mapped.translate_entry hi
  have hread : Machine.readWord { s with kernelTables := 0xC0400000 } (u32 (0xC0400000 + 4 * i)) =
      s.readWord (u32 (0xC0400000 + 4 * i)) := rfl
  change PageTableEntry.decode (Machine.readWord _ (u32 (0xC0400000 + 4 * i))) = _
  rw [hread, Machine.readWord, htr, h.mapped.entry_eq hi, ← (parent_word h hs).2 i hi]

/-- The machine after `clone_tables`. -/
theorem cloneTables_eq_childOf {m : Machine} (hnew : (allocSequential m 1025).1 = w * 0x1000)
    (h : CloneWindow (allocSequential m 1025).2 tab w (fun k => j + k)) :
    (cloneTables m).2 = childOf (allocSequential m 1025).2 w j := by
  have haddr := h.getPhysAddr_eq h.keeps (k := 0) (by omega)
  have hdst : u32 (w * 0x1000 + 0 * 0x1000) = w * 0x1000 := by
    rw [Nat.zero_mul, Nat.add_zero]
    exact Nat.mod_eq_of_lt h.dst_lt
  simp only [Nat.add_zero] at haddr
  rw [hdst] at haddr
  rw [cloneTables_eq, hnew, haddr, childOf]

theorem fits_of_windowFits {m : Machine} {n : ℕ} (hfits : WindowFits m n)
    (hok : (allocSequential m n).1 ≠ 0) : (allocSequential m n).1 / 0x1000 + n ≤ 0x100000 := by
  have hn : n ≠ 0 := by
    rintro rfl
    exact hok (by rw [allocSequential, if_pos rfl])
  obtain ⟨he, -⟩ | ⟨w, j, hw, hw', hat, hmin, -, -, -, -, he⟩ := allocSequential_cases m hn
  · exact absurd (by rw [he]) hok
  · rw [he]
    dsimp only
    rw [Nat.mul_div_cancel w (by decide)]
    exact hfits w hw hw' hat hmin

end Child

section Return

variable {img : Image} {m p s : Machine} {tab : ℕ → ℕ} {w j : ℕ}

/-- The machine after `use_kernel_map`. -/
theorem useKernelMap_eq (hown : OwnSpace img p) (h : CloneWindow p tab w (fun k => j + k))
    (hj : j + 1024 < 0x100000) (hs : PresentKept (childOf p w j) (childTab j) s) :
    useKernelMap img s = { s with kernelTables := p.kernelTables, cr3 := p.cr3 } := by
  have hupper := img.kernelPageDir.upper
  have hentry := parent_entry h hj hown.kernelTables hs
    (i := img.kernelPageDir.addr / 0x1000) (by rw [ImagePage.addr]; omega)
  have hphys : getPhysAddr { s with kernelTables := 0xC0400000 } img.kernelPageDir.addr = p.cr3 := by
    rw [← hown.cr3, getPhysAddr, getPhysAddr, hentry]
  rw [useKernelMap, hown.kernelTables]
  rw [hphys, Machine.loadCr3]

theorem mapped_returned (h : CloneWindow p tab w (fun k => j + k))
    (hs : PresentKept (childOf p w j) (childTab j) s) :
    Mapped { s with kernelTables := p.kernelTables, cr3 := p.cr3 } tab ∧
      ∀ i < 0x100000, entry { s with kernelTables := p.kernelTables, cr3 := p.cr3 } i =
        entry p i := by
  obtain ⟨hdir, hword⟩ := parent_word h hs
  have hmapped : Mapped { s with kernelTables := p.kernelTables, cr3 := p.cr3 } tab := by
    refine h.mapped.of_words rfl rfl hdir fun k hk => hword _ ?_
    simp only [selfPage, u32]
    omega
  refine ⟨hmapped, fun i hi => ?_⟩
  rw [hmapped.entry_eq hi, h.mapped.entry_eq hi, ← hword i hi]
  rfl

/-- The pages of the kernel are the same when its window has been allocated. -/
theorem OwnSpace.kept (hown : OwnSpace img m) (hm : Mapped m tab)
    (hinj : ∀ d < 1024, ∀ e < 1024, tab d = tab e → d = e) (hs : PresentKept m tab s) :
    OwnSpace img s := by
  have hupper := img.kernelPageDir.upper
  have hentry := hs.entry_eq hm hinj (i := img.kernelPageDir.addr / 0x1000)
    (by rw [ImagePage.addr]; omega) hown.present
  refine ⟨hs.kernelTables.trans hown.kernelTables, by rw [hentry]; exact hown.present, ?_⟩
  rw [hs.cr3, ← hown.cr3, getPhysAddr, getPhysAddr, hentry]

/-- After `clone_tables` and any calls of the page allocator in the clone, `use_kernel_map` puts
    the kernel's tables in force again, as they were when they were cloned. -/
theorem useKernelMap_returns {s : PageClient} (h : CloneReady m tab) (hown : OwnSpace img m)
    (hfits : WindowFits m 1025) (hok : (allocSequential m 1025).1 ≠ 0)
    (hrun : ReflTransGen PageStep ⟨(cloneTables m).2, []⟩ s) :
    (∀ i < 0x100000, (entry (allocSequential m 1025).2 i).present = true →
        entry s.machine i = entry (allocSequential m 1025).2 i) ∧
      Mapped (useKernelMap img s.machine) tab ∧ OwnSpace img (useKernelMap img s.machine) ∧
      (useKernelMap img s.machine).cr3 = m.cr3 ∧
      (useKernelMap img s.machine).pmemUsed = s.machine.pmemUsed ∧
      ∀ i < 0x100000, entry (useKernelMap img s.machine) i =
        entry (allocSequential m 1025).2 i := by
  obtain ⟨w, j, hnew, hj, hcr3, hwin⟩ := h.window hok (fits_of_windowFits hfits hok)
  have hp := ((keptRule h.mapped h.distinct).allocSequential (PresentKept.refl h.mapped) hfits).1
  have hown' := hown.kept h.mapped h.distinct hp
  rw [cloneTables_eq_childOf hnew hwin] at hrun
  generalize (allocSequential m 1025).2 = p at hcr3 hwin hp hown' hrun ⊢
  have hchild := hwin.child hj
  have hs := ((keptRule hchild childTab_inj).run hrun
    ⟨PresentKept.refl hchild, fun b hb => absurd hb List.not_mem_nil⟩).machine
  obtain ⟨hmapped, hentry⟩ := mapped_returned hwin hs
  rw [useKernelMap_eq hown' hwin hj hs]
  refine ⟨fun i hi hpres => ?_, hmapped, ?_, hcr3, rfl, hentry⟩
  · have hsame := childOf_entry hwin hj hi
    rw [← hsame] at hpres
    rw [hs.entry_eq hchild childTab_inj hi hpres, hsame]
  · have hupper := img.kernelPageDir.upper
    have hdir := hentry (img.kernelPageDir.addr / 0x1000) (by rw [ImagePage.addr]; omega)
    refine ⟨hown'.kernelTables, by rw [hdir]; exact hown'.present, ?_⟩
    rw [getPhysAddr, hdir]
    exact hown'.cr3

end Return

-- ════════════════════════════════════════════════════════════════════════
-- After the boot
-- ════════════════════════════════════════════════════════════════════════

section Boot

variable {img : Image} {m m' : Machine} {mbi fuel i : ℕ}

/-- The image maps its directory. -/
theorem Filled.entry_dir (hb : Booted img m) (h : Filled m) :
    (entry m (img.kernelPageDir.addr / 0x1000)).present = true ∧
      (entry m (img.kernelPageDir.addr / 0x1000)).frame = img.kernelPageDir.frame := by
  have hlower := img.kernelPageDir.lower
  have hupper := img.kernelPageDir.upper
  have hdiv : img.kernelPageDir.addr / 0x1000 / 1024 = 768 := by
    rw [ImagePage.addr]
    omega
  have hmod : img.kernelPageDir.addr / 0x1000 % 1024 = img.kernelPageDir.frame := by
    rw [ImagePage.addr]
    omega
  have hmaps := h.mapsImage img.kernelPageDir.frame hlower (by omega)
  rw [hb.mapped.entry_eq (by rw [ImagePage.addr]; omega), entryAddr, hdiv, hmod]
  exact ⟨hmaps.present, hmaps.frame⟩

/-- `paging_init` leaves the kernel's address space in force, and a machine that can be cloned. -/
theorem ownSpace_pagingInit (h : Boots img m) (hmbi : mbi < 0xC0000000)
    (hret : pagingInit img fuel m mbi = some m') : CloneReady m' newTab ∧ OwnSpace img m' := by
  have hlower := img.kernelPageDir.lower
  have hupper := img.kernelPageDir.upper
  have hb := booted_pagingInit h hmbi hret
  obtain ⟨hbuilt, hfilled, -⟩ := booted_buildTables h
  obtain ⟨hpres, hframe⟩ := hfilled.entry_dir hbuilt
  have hsame := hbuilt.identityMap_entry hmbi (i := img.kernelPageDir.addr / 0x1000)
    (by rw [ImagePage.addr]; omega) (by rw [ImagePage.addr]; omega)
  have hentry : entry m' (img.kernelPageDir.addr / 0x1000) =
      entry (buildTables img m) (img.kernelPageDir.addr / 0x1000) := by
    obtain ⟨b, rfl⟩ := pagingInit_eq_setPmemUsed hret
    rw [entry_setPmemUsed, hsame]
  have hused : ∀ f < 0x800, m'.pmemUsed.bit f = true := by
    intro f hf
    have hfree := pagingInit_free_iff hret (f := f) (by omega)
    rw [checkPhysPage_frame] at hfree
    by_contra hbit
    have hlow := (hfree.mp (Bool.eq_false_of_not_eq_true hbit)).1
    omega
  refine ⟨⟨hb.mapped, newTab_inj, hused _ ?_, fun d hd => hused _ ?_, hused 0 (by decide)⟩,
    hb.kernelTables, by rw [hentry]; exact hpres, ?_⟩
  · rw [hb.cr3, Nat.mul_div_cancel _ (by decide)]
    omega
  · rw [newTab]
    omega
  · have hoff : img.kernelPageDir.addr % 0x1000 = 0 := by
      rw [ImagePage.addr]
      omega
    rw [getPhysAddr, hentry, hoff, hb.cr3, ← hframe, Nat.add_zero, PageTableEntry.frame]

end Boot

-- ════════════════════════════════════════════════════════════════════════
-- A machine that maps its directory
-- ════════════════════════════════════════════════════════════════════════

/-- The machine with its table only, and its directory mapped where the image has it. -/
def ownMachine : Machine := mapAddr (bareMachine spreadTab) 0xC0111000 0x1000

theorem spreadTab_inj : ∀ d < 1024, ∀ e < 1024, spreadTab d = spreadTab e → d = e := by
  intro d hd e he heq
  simp only [spreadTab] at heq
  split_ifs at heq <;> omega

theorem bare_writable : Writable (bareMachine spreadTab) spreadTab (0xC0111000 / 0x1000) :=
  writable_of_absent bareTab_spreadTab.mapped (by decide)
    (by rw [(bareTab_spreadTab.entry_eq (by decide)).2 (by decide)]; rfl)

theorem ownMachine_eq : ownMachine = (bareMachine spreadTab).set
    (claimPhysPage (bareMachine spreadTab).pmemUsed (1 * 0x1000))
    (entryAddr spreadTab (0xC0111000 / 0x1000))
    (mappedEntry (entry (bareMachine spreadTab) (0xC0111000 / 0x1000)) 0x1000).encode :=
  bareTab_spreadTab.mapped.mapAddr_eq (by decide) 0x1000

theorem mapped_ownMachine : Mapped ownMachine spreadTab :=
  bareTab_spreadTab.mapped.mapAddr (by decide) bare_writable 0x1000

theorem ownMachine_entry {i : ℕ} (hi : i < 0x100000) : entry ownMachine i =
    if i = 0xC0111 then mappedEntry (entry (bareMachine spreadTab) 0xC0111) 0x1000
    else entry (bareMachine spreadTab) i := by
  have hword := bareTab_spreadTab.mapped.mapAddr_word (v := 0xC0111000) (by decide) 0x1000
    (entryAddr_mod spreadTab i)
  rw [mapped_ownMachine.entry_eq hi, ownMachine, hword]
  by_cases heq : i = 0xC0111
  · rw [if_pos heq, if_pos (by rw [heq]), PageTableEntry.decode_encode]
  · rw [if_neg heq, if_neg fun h => heq ?_, bareTab_spreadTab.mapped.entry_eq hi]
    exact entryAddr_inj spreadTab_inj hi (by decide) h

theorem ownMachine_bit (f : ℕ) : ownMachine.pmemUsed.bit f = decide (f < 0x1000) := by
  rw [ownMachine_eq, set_pmemUsed, claimPhysPage_frame, Bitmap.bit_set, bareMachine_bit]
  by_cases hf : f = 1
  · rw [hf]
    rfl
  · simp [hf]

theorem cloneReady_ownMachine : CloneReady ownMachine spreadTab := by
  refine ⟨mapped_ownMachine, spreadTab_inj, ?_, fun d hd => ?_, ?_⟩
  · rw [ownMachine_bit, ownMachine_eq]
    rfl
  · rw [ownMachine_bit]
    exact decide_eq_true (bareTab_spreadTab.upper d hd)
  · rw [ownMachine_bit]
    rfl

theorem ownSpace_ownMachine : OwnSpace smallImage ownMachine := by
  have hpage : smallImage.kernelPageDir.addr / 0x1000 = 0xC0111 := by decide
  have hoff : smallImage.kernelPageDir.addr % 0x1000 = 0 := by decide
  have hentry := ownMachine_entry (i := 0xC0111) (by decide)
  rw [if_pos rfl] at hentry
  refine ⟨by rw [ownMachine_eq]; rfl, by rw [hpage, hentry]; rfl, ?_⟩
  rw [getPhysAddr, hpage, hoff, hentry, ownMachine_eq]
  rfl

theorem ownMachine_window : windowAt ownMachine 1025 0xC0800 = true := by
  rw [windowAt_iff (by omega) (by omega) (by omega)]
  intro k hk
  rw [show u32 (0xC0800 + k) = 0xC0800 + k from Nat.mod_eq_of_lt (by omega),
    ownMachine_entry (by omega), if_neg (by omega),
    (bareTab_spreadTab.entry_eq (by omega)).2 (by omega)]
  rfl

theorem windowFits_ownMachine : WindowFits ownMachine 1025 := by
  intro w hw hw' hat hmin
  by_contra hbig
  have hno := hmin 0xC0800 (by decide) (by omega)
  rw [ownMachine_window] at hno
  exact Bool.noConfusion hno

theorem allocSequential_ownMachine : (allocSequential ownMachine 1025).1 ≠ 0 := by
  have hframes : sequentialAt (AddressSpace.pmemUsed ownMachine) 1025 0x1000 = true := by
    rw [sequentialAt_iff (by omega) (by omega) (by omega)]
    intro k hk
    rw [pmemUsed_eq, ownMachine_bit]
    exact decide_eq_false (by omega)
  obtain ⟨-, hno | hno⟩ | ⟨w, j, hw, -, -, -, -, -, -, -, he⟩ :=
    allocSequential_cases ownMachine (show 1025 ≠ 0 by omega)
  · rw [hno 0x1000 (le_refl _) (by omega)] at hframes
    exact absurd hframes (by decide)
  · have hwindow := hno 0xC0800 (by decide) (by decide)
    rw [ownMachine_window] at hwindow
    exact absurd hwindow (by decide)
  · rw [he]
    dsimp only
    omega

/-- Back from a clone that has allocated a page. -/
theorem useKernelMap_returns_page : ∃ s : PageClient,
    ReflTransGen PageStep ⟨(cloneTables ownMachine).2, []⟩ s ∧
      Mapped (useKernelMap smallImage s.machine) spreadTab := by
  refine ⟨_, ReflTransGen.single (PageStep.mapPageTo 0xD0000000), ?_⟩
  exact (useKernelMap_returns cloneReady_ownMachine ownSpace_ownMachine windowFits_ownMachine
    allocSequential_ownMachine (ReflTransGen.single (PageStep.mapPageTo 0xD0000000))).2.1

end FirstOs
