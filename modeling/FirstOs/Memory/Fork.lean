import FirstOs.Memory.FirstFit
import FirstOs.Memory.Window

/-!
# Duplicating an address space

`clone_tables` gives the child the entries of the parent, `clone_user_pages` moves
every user page of the child to a fresh frame with the same bytes, and
`free_all_user_pages` gives the frames of the user pages back. The relation
`Cloned c s P` says that `s` is `c` with the pages in `P` moved to private frames.

Nothing here needs `kernel_tables` to be mapped in a particular way: the states are
flat, so that the table lies outside the memory the copies are made through.

## Main results

- `cloneTables_flat` — the child of `clone_tables` has the entries of its parent
- `cloned_cloneUserPages` — every user page is moved to a private copy
- `freeAllUserPages_bit` — teardown clears exactly the frames of the user pages
- `fork_isolated`, `failed_fork_harmful` — a fork that succeeds and one that fails
-/

namespace FirstOs

open AddressSpace

/-- A present page of the user. -/
def IsUserPage (e : PageTableEntry) : Prop := (e.user && e.present) = true

theorem IsUserPage.user {e : PageTableEntry} (h : IsUserPage e) : e.user = true := by
  rw [IsUserPage, Bool.and_eq_true] at h
  exact h.1

theorem IsUserPage.present {e : PageTableEntry} (h : IsUserPage e) : e.present = true := by
  rw [IsUserPage, Bool.and_eq_true] at h
  exact h.2

/-- Every present entry's frame is marked used. -/
def FramesUsed (s : Flat) : Prop :=
  ∀ i < 0x100000, (s.tables i).present = true → s.pmemUsed.bit (s.tables i).frame = true

/-! ### The window of `alloc_sequential` -/

section Sequential

variable {s : Flat} {i j n k : ℕ}

theorem framesUsed_mapAddr (h : FramesUsed s) (vaddr : ℕ) {f : ℕ} (hf : f < 0x100000) :
    FramesUsed (mapAddr s vaddr (f * 0x1000)) := by
  intro p hp hpres
  rw [Flat.mapAddr_tables] at hpres ⊢
  rw [Flat.mapAddr_pmemUsed, claimPhysPage_frame, Bitmap.bit_set, Bool.or_eq_true]
  by_cases hpv : p = vaddr / 0x1000
  · rw [hpv, Function.update_self, mappedEntry_frame _ hf]
    simp
  · rw [Function.update_of_ne hpv] at hpres ⊢
    exact Or.inl (h p hp hpres)

theorem framesUsed_sequentialMap (h : FramesUsed s) : FramesUsed (sequentialMap s i j n k) := by
  fun_induction sequentialMap s i j n k with
  | case1 s k hk ih =>
    rw [sequentialMap_frame j k] at ih ⊢
    exact ih (framesUsed_mapAddr h _ (Nat.mod_lt _ (by omega)))
  | case2 s k hk => exact h

theorem sequentialMap_phys : (sequentialMap s i j n k).phys = s.phys := by
  fun_induction sequentialMap s i j n k with
  | case1 s k hk ih => rw [ih, Flat.mapAddr_phys]
  | case2 s k hk => rfl

end Sequential

/-! ### The child of `clone_tables` -/

/-- `c` is a child with the entries and the bitmap of its parent `p`, whose memory
    differs from that of `s` in frames only that are free in `s`. -/
structure ChildOf (s p c : Flat) : Prop where
  tables : ∀ i < 0x100000, c.tables i = p.tables i
  pmemUsed : c.pmemUsed = p.pmemUsed
  phys : ∀ a, s.pmemUsed.bit (a / 0x1000) = true → c.phys a = s.phys a

/-- The addresses behind the window of `alloc_sequential`: the bytes of the frames `j`,
    `j + 1`, … modulo 2^20. -/
def runAddr (j x : ℕ) : ℕ := (j + x / 0x1000) % 0x100000 * 0x1000 + x % 0x1000

theorem runAddr_inj (j : ℕ) :
    ∀ x < 0x1000 * 1025, ∀ y < 0x1000 * 1025, runAddr j x = runAddr j y → x = y :=
  frameOffset_inj (fun k => (j + k) % 0x100000) fun k hk l hl heq => by
    have : (j + k) % 0x100000 = (j + l) % 0x100000 := heq
    omega

theorem runAddr_frame (j x : ℕ) : runAddr j x / 0x1000 = (j + x / 0x1000) % 0x100000 := by
  simp only [runAddr]
  omega

theorem sequentialMap_window {s p : Flat} {i j : ℕ} (hp : p = sequentialMap s i j 1025 0) :
    ByteWindow Flat.phys (Flat.HasTables p.tables p.pmemUsed) (i * 0x1000) (0x1000 * 1025)
      (runAddr j) := by
  have hentry : ∀ k, k * 0x1000 < 0x1000 * 1025 → p.tables ((i + k) % 0x100000) =
      mappedEntry (s.tables ((i + k) % 0x100000)) ((j + k) % 0x100000 * 0x1000) := by
    intro k hk
    rw [hp]
    exact sequentialMap_inside (by omega) (by omega) (Nat.zero_le k)
  refine Flat.byteWindow _ _ (fun k => (j + k) % 0x100000) (fun k hk => ?_) fun k hk => ?_
  · rw [hentry k hk]
    rfl
  · rw [hentry k hk, mappedEntry_frame _ (Nat.mod_lt _ (by omega))]

/-- A successful `clone_tables` copies every entry, the new window's included. -/
theorem cloneTables_flat {s : Flat} (h : (allocSequential s 1025).1 ≠ 0) :
    ChildOf s (allocSequential s 1025).2 (cloneTables s).2 := by
  obtain ⟨he, -⟩ | ⟨i, j, -, hi, -, -, -, hj, hat, -, he⟩ :=
    allocSequential_cases s (show 1025 ≠ 0 by omega)
  · exact absurd (by rw [he]) h
  rw [cloneTables_eq, he]
  dsimp only
  generalize hp : sequentialMap s i j 1025 0 = p
  have hwin := sequentialMap_window hp.symm
  have hdst : i * 0x1000 < 0x100000000 := by omega
  have hJ : Flat.HasTables p.tables p.pmemUsed p := ⟨rfl, rfl⟩
  have hkeep := filledTables_keeps hwin hdst hJ
  have htable := filledTables_table hwin (runAddr_inj j) hdst hJ
    (c := fun x => ByteMemory.byteOf (p.tables (x / 4)).encode (x % 4))
    fun t ht x _ => by rw [← ht.1]; rfl
  have hout := fun a => filledTables_outside (a := a) hwin hdst hJ
  generalize filledTables p (i * 0x1000) = q at hkeep htable hout ⊢
  rw [Flat.switchTables_eq]
  refine ⟨fun x hx => ?_, ?_, fun a ha => ?_⟩
  · have hbyte : ∀ k < 4, q.load (u32 (u32 (i * 0x1000 + 0x1000) + 4 * x + k)) =
        ByteMemory.byteOf (p.tables x).encode k := by
      intro k hk
      have haddr : u32 (u32 (i * 0x1000 + 0x1000) + 4 * x + k) =
          u32 (i * 0x1000 + (0x1000 + (4 * x + k))) := by
        simp only [u32]
        omega
      rw [haddr]
      refine (hwin.load_eq _ hkeep _ (by omega)).trans ((htable (4 * x + k) (by omega)).trans ?_)
      rw [show (4 * x + k) / 4 = x by omega, show (4 * x + k) % 4 = k by omega]
    rw [Flat.withTables_tables, Flat.tablesAt, ByteMemory.wordOf_congr hbyte,
      ByteMemory.wordOf_byteOf, PageTableEntry.decode_encode]
  · rw [Flat.withTables_pmemUsed]
    exact hkeep.2
  · rw [Flat.withTables_phys, hout a fun x hx heq => ?_, ← hp, sequentialMap_phys]
    -- the frames of the window are free in `s`
    have hfree := free_of_sequentialAt hat hj (x / 0x1000) (by omega)
    rw [← heq, runAddr_frame] at ha
    rw [Flat.pmemUsed_eq, ha] at hfree
    exact absurd hfree (by decide)

/-! ### Private copies -/

/-- `s` is `c` with the user pages `P` moved to distinct frames that are free in `c`. -/
structure Moved (c s : Flat) (P : Finset ℕ) : Prop where
  user : ∀ i ∈ P, i < 0x100000 ∧ IsUserPage (c.tables i)
  other : ∀ i ∉ P, s.tables i = c.tables i
  own : ∀ i ∈ P, s.tables i = { c.tables i with address := (s.tables i).address }
  adds : Bitmap.Adds c.pmemUsed s.pmemUsed (fun i => (s.tables i).frame) P

/-- Besides, the new frames hold the same bytes, and no frame used in `c` has changed. -/
structure Cloned (c s : Flat) (P : Finset ℕ) : Prop extends Moved c s P where
  copy : ∀ i ∈ P, ∀ o < 0x1000,
    s.phys (Flat.frameByte (s.tables i).frame o) = c.phys (Flat.frameByte (c.tables i).frame o)
  kept : ∀ a, c.pmemUsed.bit (a / 0x1000) = true → s.phys a = c.phys a

theorem moved_empty (c : Flat) : Moved c c ∅ := by
  refine ⟨?_, fun _ _ => rfl, ?_, Bitmap.Adds.refl _ _⟩ <;> simp

theorem cloned_empty (c : Flat) : Cloned c c ∅ := by
  refine ⟨moved_empty c, ?_, fun _ _ => rfl⟩
  simp

section Single

variable {s : Flat} {i f : ℕ}

/-- The state in which a round of `clone_user_pages` writes the new frame. -/
def writableFrame {σ : Type} [AddressSpace σ] (s : σ) (i paddr : ℕ) : σ :=
  let s := swapFrame s i paddr
  setEntry s i { entry s i with readwrite := true }

theorem cloneUserPage_eq {σ : Type} [AddressSpace σ] (s : σ) (i paddr : ℕ) :
    cloneUserPage s i paddr =
      let t := memcpyFrom (fun _ k => load s (u32 (i * 0x1000 + k))) (writableFrame s i paddr)
        (i * 0x1000) 0x1000 0
      setEntry t i { entry t i with readwrite := (entry (swapFrame s i paddr) i).readwrite } :=
  rfl

section Fields

variable (s : Flat) (i paddr : ℕ)

theorem swapFrame_tables : (swapFrame s i paddr).tables = Function.update s.tables i
    { s.tables i with address := BitVec.ofNat 20 (paddr / 0x1000) } := rfl

theorem writableFrame_tables : (writableFrame s i paddr).tables = Function.update s.tables i
    { s.tables i with address := BitVec.ofNat 20 (paddr / 0x1000), readwrite := true } := by
  show Function.update (swapFrame s i paddr).tables i _ = _
  rw [Flat.entry_eq, swapFrame_tables, Function.update_self, Function.update_idem]

theorem writableFrame_pmemUsed :
    (writableFrame s i paddr).pmemUsed = claimPhysPage s.pmemUsed paddr := rfl

theorem writableFrame_phys : (writableFrame s i paddr).phys = s.phys := rfl

end Fields

/-- What one round of `clone_user_pages` does to page `i` and the frame `f`. -/
theorem cloneUserPage_spec (hi : i < 0x100000) (hp : (s.tables i).present = true)
    (hf : f < 0x100000) :
    (cloneUserPage s i (f * 0x1000)).tables =
        Function.update s.tables i { s.tables i with address := BitVec.ofNat 20 f } ∧
      (cloneUserPage s i (f * 0x1000)).pmemUsed = s.pmemUsed.set f ∧
      (∀ o < 0x1000, (cloneUserPage s i (f * 0x1000)).phys (Flat.frameByte f o) =
        s.phys (Flat.frameByte (s.tables i).frame o)) ∧
      ∀ a, a / 0x1000 ≠ f → (cloneUserPage s i (f * 0x1000)).phys a = s.phys a := by
  let e : PageTableEntry := { s.tables i with address := BitVec.ofNat 20 f }
  have hswap := swapFrame_tables s i (f * 0x1000)
  have hwritable := writableFrame_tables s i (f * 0x1000)
  have hused := writableFrame_pmemUsed s i (f * 0x1000)
  have hphys := writableFrame_phys s i (f * 0x1000)
  rw [Nat.mul_div_cancel f (by omega)] at hswap hwritable
  rw [claimPhysPage_frame] at hused
  -- the new frame is written through the entry just changed
  have hself : (writableFrame s i (f * 0x1000)).tables i = { e with readwrite := true } := by
    rw [hwritable, Function.update_self]
  have hwin := Flat.pageWindow (writableFrame s i (f * 0x1000)).tables
    (writableFrame s i (f * 0x1000)).pmemUsed hi (by rw [hself]; exact hp)
  rw [hself, show ({ e with readwrite := true } : PageTableEntry).frame = f by
    rw [PageTableEntry.frame, BitVec.toNat_ofNat, Nat.mod_eq_of_lt hf]] at hwin
  rw [cloneUserPage_eq]
  dsimp only
  generalize hdata : (fun k => load s (u32 (i * 0x1000 + k))) = data
  generalize writableFrame s i (f * 0x1000) = t at hwritable hused hphys hwin ⊢
  have hJ : Flat.HasTables t.tables t.pmemUsed t := ⟨rfl, rfl⟩
  have hkeep := memcpyFrom_keeps (i := 0) (fun _ => data) hwin hJ (le_refl _)
  have hinside := memcpyFrom_inside (c := data) (i := 0) (fun _ => data) hwin
    (fun x _ y _ => Nat.add_left_cancel) hJ (le_refl _) (fun _ _ _ _ => rfl)
    fun x hx => absurd hx (by omega)
  have hout := fun a => memcpyFrom_outside (i := 0) (a := a) (fun _ => data) hwin hJ
    (le_refl _)
  generalize memcpyFrom (fun _ => data) t (i * 0x1000) 0x1000 0 = t' at hkeep hinside hout ⊢
  have hrestored : ({ entry t' i with readwrite := (entry (swapFrame s i (f * 0x1000)) i).readwrite } :
      PageTableEntry) = e := by
    rw [Flat.entry_eq, Flat.entry_eq, hkeep.1, hwritable, hswap, Function.update_self,
      Function.update_self]
  rw [hrestored, Flat.setEntry_eq, Flat.withTables_tables, Flat.withTables_pmemUsed,
    Flat.withTables_phys]
  refine ⟨?_, hkeep.2.trans hused, fun o ho => ?_, fun a ha => ?_⟩
  · rw [hkeep.1, hwritable, Function.update_idem]
  · rw [hinside o ho, ← hdata]
    exact (Flat.pageWindow s.tables s.pmemUsed hi hp).load_eq s ⟨rfl, rfl⟩ o ho
  · rw [hout a fun x hx heq => ha (by rw [← heq, Flat.frameByte_frame f hx]), hphys]

end Single

section Clone

variable {c s : Flat} {P : Finset ℕ} {i f : ℕ}

/-- One more user page is moved to a frame that is free. -/
theorem moved_cloneUserPage (h : Moved c s P) (hi : i < 0x100000) (hiP : i ∉ P)
    (hu : IsUserPage (c.tables i)) (hf : f < 0x100000) (hfree : s.pmemUsed.bit f = false) :
    Moved c (cloneUserPage s i (f * 0x1000)) (insert i P) ∧
      ((cloneUserPage s i (f * 0x1000)).tables i).frame = f ∧
      ∀ x ∈ P, (cloneUserPage s i (f * 0x1000)).tables x = s.tables x := by
  have hp : (s.tables i).present = true := by rw [h.other i hiP, hu.present]
  obtain ⟨htab, hused, -, -⟩ := cloneUserPage_spec hi hp hf
  generalize cloneUserPage s i (f * 0x1000) = s' at htab hused ⊢
  have hself : s'.tables i = { c.tables i with address := BitVec.ofNat 20 f } := by
    rw [htab, Function.update_self, h.other i hiP]
  have hframe : (s'.tables i).frame = f := by
    rw [hself, PageTableEntry.frame, BitVec.toNat_ofNat, Nat.mod_eq_of_lt hf]
  have hne : ∀ x, x ≠ i → s'.tables x = s.tables x := fun x hx => by
    rw [htab, Function.update_of_ne hx]
  have hneP : ∀ x ∈ P, s'.tables x = s.tables x := fun x hx => hne x fun heq => hiP (heq ▸ hx)
  refine ⟨⟨?_, ?_, ?_, ?_⟩, hframe, hneP⟩
  · intro x hx
    obtain rfl | hx := Finset.mem_insert.mp hx
    · exact ⟨hi, hu⟩
    · exact h.user x hx
  · intro x hx
    rw [Finset.mem_insert, not_or] at hx
    rw [hne x hx.1, h.other x hx.2]
  · intro x hx
    obtain rfl | hx := Finset.mem_insert.mp hx
    · rw [hself]
    · rw [hneP x hx]
      exact h.own x hx
  · have hadds := (h.adds.congr (g := fun x => (s'.tables x).frame)
      fun x hx => by rw [hneP x hx]).insert (v := i) (by rw [hframe]; exact hfree)
    rw [hused]
    rwa [hframe] at hadds

/-- The page moved last has the bytes of the parent's page: the parent's frame is in use,
    so the copies made before have not touched it. -/
theorem cloned_cloneUserPage (hc : FramesUsed c) (h : Cloned c s P) (hi : i < 0x100000)
    (hiP : i ∉ P) (hu : IsUserPage (c.tables i)) (hf : f < 0x100000)
    (hfree : s.pmemUsed.bit f = false) :
    Cloned c (cloneUserPage s i (f * 0x1000)) (insert i P) := by
  obtain ⟨hcfree, hfP⟩ := h.adds.of_clear hfree
  have hp : (s.tables i).present = true := by rw [h.other i hiP, hu.present]
  obtain ⟨hmoved, hframe, hneP⟩ := moved_cloneUserPage h.toMoved hi hiP hu hf hfree
  obtain ⟨-, -, hcopy, hkept⟩ := cloneUserPage_spec hi hp hf
  generalize cloneUserPage s i (f * 0x1000) = s' at hmoved hframe hneP hcopy hkept ⊢
  refine ⟨hmoved, ?_, ?_⟩
  · intro x hx o ho
    obtain rfl | hx := Finset.mem_insert.mp hx
    · rw [hframe, hcopy o ho, h.other x hiP]
      refine h.kept _ ?_
      rw [Flat.frameByte_frame _ ho]
      exact hc x hi hu.present
    · rw [hneP x hx, hkept _ ?_]
      · exact h.copy x hx o ho
      · rw [Flat.frameByte_frame _ ho]
        exact hfP x hx
  · intro a ha
    rw [hkept a fun heq => ?_, h.kept a ha]
    rw [heq, hcfree] at ha
    exact absurd ha (by decide)

/-- The loop of `clone_user_pages` ends with all user pages moved, or without a free frame
    at a user page that is not. `K` is what the rounds keep. -/
theorem cloneUserPagesFrom_induct {K : Flat → Finset ℕ → Prop}
    (hK : ∀ s P, K s P → Moved c s P)
    (hstep : ∀ s P i f, K s P → i < 0x100000 → i ∉ P → IsUserPage (c.tables i) → f < 0x100000 →
      s.pmemUsed.bit f = false → K (cloneUserPage s i (f * 0x1000)) (insert i P))
    (h : K s P) (hP : ∀ x, x < 0x100000 → IsUserPage (c.tables x) → (x ∈ P ↔ x < i)) :
    ∃ Q, K (cloneUserPagesFrom s i).2 Q ∧
      ((cloneUserPagesFrom s i).1 = true ∧
          (∀ x, x < 0x100000 → IsUserPage (c.tables x) → x ∈ Q) ∨
        (cloneUserPagesFrom s i).1 = false ∧
          findFreePhysPage (cloneUserPagesFrom s i).2.pmemUsed = 0 ∧
          ∃ x, x ∉ Q ∧ x < 0x100000 ∧ IsUserPage (c.tables x)) := by
  fun_induction cloneUserPagesFrom s i generalizing P with
  | case1 =>
    rename_i s i hi hu paddr hz
    have hiP : i ∉ P := fun hiP =>
      absurd ((hP i hi ((hK s P h).user i hiP).2).mp hiP) (Nat.lt_irrefl i)
    rw [Flat.entry_eq, (hK s P h).other i hiP] at hu
    exact ⟨P, h, Or.inr ⟨rfl, hz, i, hiP, hi, hu⟩⟩
  | case2 =>
    rename_i s i hi hu paddr hne ih
    obtain ⟨f, -, hf, hfree, he⟩ := findFreePhysPage_spec hne
    have hiP : i ∉ P := fun hiP =>
      absurd ((hP i hi ((hK s P h).user i hiP).2).mp hiP) (Nat.lt_irrefl i)
    rw [Flat.entry_eq, (hK s P h).other i hiP] at hu
    have hnext := hstep s P i f h hi hiP hu hf hfree
    rw [← he] at hnext
    refine ih hnext fun x hx hxu => ?_
    rw [Finset.mem_insert, hP x hx hxu]
    omega
  | case3 s i hi hu ih =>
    have hnu : ¬ IsUserPage (c.tables i) := by
      intro hiu
      have hiP : i ∉ P := fun hiP => absurd ((hP i hi hiu).mp hiP) (Nat.lt_irrefl i)
      rw [Flat.entry_eq, (hK s P h).other i hiP] at hu
      exact hu hiu
    refine ih h fun x hx hxu => ?_
    have hxi : x ≠ i := fun heq => hnu (heq ▸ hxu)
    rw [hP x hx hxu]
    omega
  | case4 s i hi =>
    exact ⟨P, h, Or.inl ⟨rfl, fun x hx hxu => (hP x hx hxu).mpr (by omega)⟩⟩

theorem moved_cloneUserPages (c : Flat) :
    ∃ Q, Moved c (cloneUserPages c).2 Q ∧
      ((cloneUserPages c).1 = true ∧
          (∀ x, x < 0x100000 → IsUserPage (c.tables x) → x ∈ Q) ∨
        (cloneUserPages c).1 = false ∧ findFreePhysPage (cloneUserPages c).2.pmemUsed = 0 ∧
          ∃ x, x ∉ Q ∧ x < 0x100000 ∧ IsUserPage (c.tables x)) :=
  cloneUserPagesFrom_induct (fun _ _ h => h)
    (fun _ _ _ _ h hi hiP hu hf hfree => (moved_cloneUserPage h hi hiP hu hf hfree).1)
    (moved_empty c) fun x _ _ =>
      ⟨fun hx => absurd hx (Finset.notMem_empty x), fun hx => absurd hx (Nat.not_lt_zero x)⟩

theorem cloned_cloneUserPages (hc : FramesUsed c) :
    ∃ Q, Cloned c (cloneUserPages c).2 Q ∧
      ((cloneUserPages c).1 = true ∧
          (∀ x, x < 0x100000 → IsUserPage (c.tables x) → x ∈ Q) ∨
        (cloneUserPages c).1 = false ∧ findFreePhysPage (cloneUserPages c).2.pmemUsed = 0 ∧
          ∃ x, x ∉ Q ∧ x < 0x100000 ∧ IsUserPage (c.tables x)) :=
  cloneUserPagesFrom_induct (fun _ _ h => h.toMoved)
    (fun _ _ _ _ h hi hiP hu hf hfree => cloned_cloneUserPage hc h hi hiP hu hf hfree)
    (cloned_empty c) fun x _ _ =>
      ⟨fun hx => absurd hx (Finset.notMem_empty x), fun hx => absurd hx (Nat.not_lt_zero x)⟩

end Clone

/-! ### Teardown -/

theorem freePage_one (s : Flat) {i : ℕ} (hi : i < 0x100000) :
    freePage s (i * 0x1000) 1 = unmapVaddr s (i * 0x1000) := by
  have haddr : u32 (i * 0x1000 + 0 * 0x1000) = i * 0x1000 := by
    simp only [u32]
    omega
  rw [freePage, freePageFrom, if_pos (by omega), haddr, freePageFrom, if_neg (by omega)]

theorem freeAllUserPagesFrom_bit (s : Flat) (i g : ℕ) :
    (freeAllUserPagesFrom s i).pmemUsed.bit g = true ↔ s.pmemUsed.bit g = true ∧
      ∀ x, i ≤ x → x < 0x100000 → IsUserPage (s.tables x) → (s.tables x).frame ≠ g := by
  fun_induction freeAllUserPagesFrom s i with
  | case1 s i hi hu ih =>
    rw [ih, freePage_one s hi, Flat.unmapVaddr_pmemUsed, Bitmap.bit_clear,
      Nat.mul_div_cancel i (by omega)]
    have htab : ∀ x, i + 1 ≤ x →
        (unmapVaddr s (i * 0x1000)).tables x = s.tables x := by
      intro x hx
      rw [Flat.unmapVaddr_tables, Nat.mul_div_cancel i (by omega), Function.update_of_ne (by omega)]
    simp only [Bool.and_eq_true, Bool.not_eq_true', decide_eq_false_iff_not]
    constructor
    · rintro ⟨⟨hg, hgi⟩, hall⟩
      refine ⟨hg, fun x hx hx' hxu => ?_⟩
      obtain rfl | hlt := Nat.eq_or_lt_of_le hx
      · exact fun heq => hgi heq.symm
      · have := hall x hlt hx'
        rw [htab x hlt] at this
        exact this hxu
    · rintro ⟨hg, hall⟩
      refine ⟨⟨hg, fun heq => hall i (le_refl i) hi hu heq.symm⟩, fun x hx hx' hxu => ?_⟩
      rw [htab x hx] at hxu ⊢
      exact hall x (by omega) hx' hxu
  | case2 s i hi hu ih =>
    rw [ih]
    refine and_congr_right fun _ => ⟨fun hall x hx hx' hxu => ?_, fun hall x hx => hall x (by omega)⟩
    obtain rfl | hlt := Nat.eq_or_lt_of_le hx
    · exact absurd hxu hu
    · exact hall x hlt hx' hxu
  | case3 s i hi => exact ⟨fun h => ⟨h, fun x hx hx' => absurd hx' (by omega)⟩, fun h => h.1⟩

/-- Teardown clears exactly the frames of the user pages. -/
theorem freeAllUserPages_bit (s : Flat) (g : ℕ) :
    (freeAllUserPages s).pmemUsed.bit g = true ↔ s.pmemUsed.bit g = true ∧
      ∀ x < 0x100000, IsUserPage (s.tables x) → (s.tables x).frame ≠ g := by
  rw [freeAllUserPages, freeAllUserPagesFrom_bit]
  exact and_congr_right fun _ => ⟨fun h x => h x (Nat.zero_le x), fun h x _ => h x⟩

/-! ### A fork that succeeds -/

/-- The child `t` of the parent `p` shares no frame with it where the user may write, has
    the same user pages, and has left the parent's pages as they were in `c`. -/
structure Isolated (p c t : Flat) : Prop where
  separate : ∀ i < 0x100000, IsUserPage (t.tables i) → ∀ j < 0x100000,
    (p.tables j).present = true → (t.tables i).frame ≠ (p.tables j).frame
  bytes : ∀ i < 0x100000, IsUserPage (t.tables i) → ∀ o < 0x1000,
    t.phys (Flat.frameByte (t.tables i).frame o) = t.phys (Flat.frameByte (p.tables i).frame o)
  parentBytes : ∀ j < 0x100000, (p.tables j).present = true → ∀ o < 0x1000,
    t.phys (Flat.frameByte (p.tables j).frame o) = c.phys (Flat.frameByte (p.tables j).frame o)
  flags : ∀ i < 0x100000, t.tables i = { p.tables i with address := (t.tables i).address }
  other : ∀ i < 0x100000, ¬ IsUserPage (p.tables i) → t.tables i = p.tables i

theorem framesUsed_allocSequential {s : Flat} (h : FramesUsed s) (n : ℕ) :
    FramesUsed (allocSequential s n).2 := by
  by_cases hn : n = 0
  · rw [allocSequential, if_pos hn]
    exact h
  · obtain ⟨he, -⟩ | ⟨i, j, -, -, -, -, -, -, -, -, he⟩ := allocSequential_cases s hn
    · rw [he]
      exact h
    · rw [he]
      exact framesUsed_sequentialMap h

/-- The flags of an entry are those the user page test reads. -/
theorem isUserPage_congr {e e' : PageTableEntry} (h : e = { e' with address := e.address }) :
    IsUserPage e ↔ IsUserPage e' := by
  rw [h]
  rfl

section Success

variable {p c t : Flat} {Q : Finset ℕ}

/-- Moving a page changes its address only. -/
theorem Moved.flags (hm : Moved c t Q) (i : ℕ) :
    t.tables i = { c.tables i with address := (t.tables i).address } := by
  by_cases hi : i ∈ Q
  · exact hm.own i hi
  · rw [hm.other i hi]

theorem Moved.isUserPage_iff (hm : Moved c t Q) (i : ℕ) :
    IsUserPage (t.tables i) ↔ IsUserPage (c.tables i) :=
  isUserPage_congr (hm.flags i)

/-- When all user pages have been moved, teardown gives back the frames they were moved to. -/
theorem Moved.teardown (hm : Moved c t Q)
    (hall : ∀ x, x < 0x100000 → IsUserPage (c.tables x) → x ∈ Q) :
    (freeAllUserPages t).pmemUsed = c.pmemUsed := by
  refine Bitmap.ext_bit fun g => ?_
  rw [Bool.eq_iff_iff, freeAllUserPages_bit, hm.adds.bits g]
  constructor
  · rintro ⟨hg | ⟨i, hi, heq⟩, hno⟩
    · exact hg
    · obtain ⟨hlt, hu⟩ := hm.user i hi
      exact absurd heq (hno i hlt ((hm.isUserPage_iff i).mpr hu))
  · intro hg
    refine ⟨Or.inl hg, fun i hi hu heq => ?_⟩
    have hclear := hm.adds.clear i (hall i hi ((hm.isUserPage_iff i).mp hu))
    rw [heq, hg] at hclear
    exact absurd hclear (by decide)

/-- A child with the entries and the bitmap of its parent is isolated once its user pages have
    been moved. -/
theorem Cloned.isolated (hcl : Cloned c t Q)
    (hall : ∀ x, x < 0x100000 → IsUserPage (c.tables x) → x ∈ Q) (hp : FramesUsed p)
    (htab : ∀ i < 0x100000, c.tables i = p.tables i) (hused : c.pmemUsed = p.pmemUsed) :
    Isolated p c t := by
  have hmem : ∀ i < 0x100000, IsUserPage (t.tables i) → i ∈ Q := fun i hi hu =>
    hall i hi ((hcl.isUserPage_iff i).mp hu)
  -- the frames of the parent are used before the pages are moved
  have hbit : ∀ j < 0x100000, (p.tables j).present = true → ∀ o < 0x1000,
      c.pmemUsed.bit (Flat.frameByte (p.tables j).frame o / 0x1000) = true := by
    intro j hj hpres o ho
    rw [Flat.frameByte_frame _ ho, hused]
    exact hp j hj hpres
  constructor
  · intro i hi hu j hj hpres heq
    have hclear := hcl.adds.clear i (hmem i hi hu)
    rw [heq, hused, hp j hj hpres] at hclear
    exact absurd hclear (by decide)
  · intro i hi hu o ho
    have hpres : (p.tables i).present = true := by
      rw [← htab i hi]
      exact ((hcl.isUserPage_iff i).mp hu).present
    rw [hcl.copy i (hmem i hi hu) o ho, htab i hi, hcl.kept _ (hbit i hi hpres o ho)]
  · intro j hj hpres o ho
    exact hcl.kept _ (hbit j hj hpres o ho)
  · intro i hi
    rw [← htab i hi]
    exact hcl.flags i
  · intro i hi hnu
    rw [hcl.other i fun hiQ => hnu (htab i hi ▸ (hcl.user i hiQ).2), htab i hi]

end Success

theorem sequentialMap_user {s : Flat} {i j n k : ℕ} (p : ℕ) :
    ((sequentialMap s i j n k).tables p).user = (s.tables p).user := by
  fun_induction sequentialMap s i j n k with
  | case1 s k hk ih =>
    rw [ih, Flat.mapAddr_tables]
    by_cases hp : p = u32 ((i + k) * 0x1000) / 0x1000
    · rw [hp, Function.update_self]
      rfl
    · rw [Function.update_of_ne hp]
  | case2 s k hk => rfl

/-! ### A process with one user page -/

section MarkUser

variable (s : Flat) (vaddr : ℕ) (user : Bool) (i : ℕ)

theorem markUser_tables : (markUser s vaddr user).tables = Function.update s.tables
    (vaddr / 0x1000) { s.tables (vaddr / 0x1000) with user := user } := rfl

theorem markUser_present :
    ((markUser s vaddr user).tables i).present = (s.tables i).present := by
  rw [markUser_tables, Function.update_apply]
  split_ifs with hi <;> simp [hi]

theorem markUser_frame : ((markUser s vaddr user).tables i).frame = (s.tables i).frame := by
  rw [markUser_tables, Function.update_apply]
  split_ifs with hi <;> simp [hi, PageTableEntry.frame]

theorem mapAddr_user (paddr : ℕ) :
    ((mapAddr s vaddr paddr).tables i).user = (s.tables i).user := by
  rw [Flat.mapAddr_tables, Function.update_apply]
  split_ifs with hi <;> simp [hi, mappedEntry]

variable {s}

theorem FrameExclusive.markUser (h : FrameExclusive s) :
    FrameExclusive (FirstOs.markUser s vaddr user) := by
  constructor
  · intro i hi hp
    rw [markUser_present] at hp
    rw [markUser_frame]
    exact h.used i hi hp
  · intro i hi j hj hpi hpj heq
    rw [markUser_present] at hpi hpj
    rw [markUser_frame, markUser_frame] at heq
    exact h.distinct i hi j hj hpi hpj heq

end MarkUser

/-- Page 5 is a user page, in frame `0x900`. -/
def Flat.process : Flat :=
  markUser (mapAddr Flat.scattered 0x5000 (0x900 * 0x1000)) 0x5000 true

theorem process_bit (f : ℕ) : Flat.process.pmemUsed.bit f =
    decide (f = 0 ∨ f = 0x800 ∨ f = 0x801 ∨ f = 0x1001 ∨ f = 0x900) := by
  change (mapAddr Flat.scattered 0x5000 (0x900 * 0x1000)).pmemUsed.bit f = _
  rw [Flat.mapAddr_pmemUsed, claimPhysPage_frame, Bitmap.bit_set, scattered_bit, ← Bool.decide_or]
  exact decide_eq_decide.mpr (by tauto)

theorem process_present (i : ℕ) : (Flat.process.tables i).present =
    decide (i = 0xC0000 ∨ i = 0xC0001 ∨ i = 0xC0003 ∨ i = 5) := by
  rw [Flat.process, markUser_present, mapAddr_present, scattered_present, ← Bool.decide_or]
  exact decide_eq_decide.mpr (by omega)

theorem process_frame : (Flat.process.tables 5).frame = 0x900 := by
  rw [Flat.process, markUser_frame, Flat.mapAddr_tables, Function.update_self,
    mappedEntry_frame _ (by decide)]

theorem process_user {i : ℕ} (h : (Flat.process.tables i).user = true) : i = 5 := by
  by_contra hne
  rw [Flat.process, markUser_tables, Function.update_of_ne hne] at h
  simp only [Flat.scattered, mapAddr_user] at h
  exact Bool.noConfusion h

theorem frameExclusive_process : FrameExclusive Flat.process := by
  have h : Exclusive (mapAddr Flat.scattered 0x5000 (0x900 * 0x1000)) :=
    exclusive_mapAddr exclusive_scattered (by decide) (by decide) (scattered_bit _)
  exact h.toFrameExclusive.markUser _ _

/-- The tables of the child get the window behind the mapped pages, and frames above 16 MiB. -/
theorem allocSequential_process : ∃ j, 0x1000 ≤ j ∧ j + 1025 ≤ 0x100000 ∧
    allocSequential Flat.process 1025 =
      (0xC0004000, sequentialMap Flat.process 0xC0004 j 1025 0) := by
  have hwindow : FirstWindow Flat.process 1025 0xC0004 := by
    refine ⟨by decide, by decide, fun k hk => ?_, fun v hv hvw => ?_⟩
    · rw [u32, Nat.mod_eq_of_lt (by omega), process_present, decide_eq_false]
      omega
    · refine ⟨0xC0003 - v, by omega, ?_⟩
      rw [u32, Nat.mod_eq_of_lt (by omega), process_present, decide_eq_true]
      omega
  have hrun : FreeRun Flat.process.pmemUsed 1025 := by
    refine ⟨0x1002, by decide, by decide, fun k hk => ?_⟩
    rw [Nat.mod_eq_of_lt (by omega), process_bit, decide_eq_false]
    omega
  obtain ⟨j, hj, hj', hfree, he⟩ :=
    allocSequential_eq_of_window hwindow (by decide) (by decide) hrun
  have hlast := frame_lt_of_free_run (process_bit 0) hfree hj' 1024 (by decide)
  exact ⟨j, hj, by omega, he⟩

/-- The tables of the parent and of the fresh child agree where one of them has the user
    bit, which is nowhere in the kernel's half. -/
structure SharesUser (parent : ℕ → PageTableEntry) (c : Flat) : Prop where
  same : ∀ i < 0x100000, (c.tables i).user = true ∨ (parent i).user = true → c.tables i = parent i
  kernel : ∀ i, 0xC0000 ≤ i → i < 0x100000 → (c.tables i).user = false

/-- `clone_user_pages` leaves the child's table and the bitmap alone, and the cleanup after
    it leaves every frame the parent maps marked used. -/
def Harmless (parent : ℕ → PageTableEntry) (c : Flat) : Prop :=
  (∀ i < 0x100000, (cloneUserPages c).2.tables i = c.tables i) ∧
    (cloneUserPages c).2.pmemUsed = c.pmemUsed ∧
    ∀ i < 0x100000, (parent i).present = true →
      (freeAllUserPages (cloneUserPages c).2).pmemUsed.bit (parent i).frame = true

/-- After a failure the cleanup releases a frame the parent maps: the page at which
    `clone_user_pages` gave up still has the parent's frame. -/
theorem released_of_failure {parent : ℕ → PageTableEntry} {c : Flat} (h : SharesUser parent c)
    (hfail : (cloneUserPages c).1 = false) :
    ∃ i < 0x100000, (parent i).present = true ∧
      (freeAllUserPages (cloneUserPages c).2).pmemUsed.bit (parent i).frame = false := by
  obtain ⟨Q, hmoved, ⟨htrue, -⟩ | ⟨-, -, i, hiQ, hi, hu⟩⟩ := moved_cloneUserPages c
  · rw [hfail] at htrue
    exact absurd htrue (by decide)
  · have hsame := h.same i hi (Or.inl hu.user)
    refine ⟨i, hi, by rw [← hsame]; exact hu.present, ?_⟩
    rw [Bool.eq_false_iff, ne_eq, freeAllUserPages_bit]
    rintro ⟨-, hno⟩
    have htab := hmoved.other i hiQ
    exact hno i hi (by rw [htab]; exact hu) (by rw [htab, hsame])

/-- **A failed fork always harms the parent.** -/
theorem failed_fork_harmful {parent : ℕ → PageTableEntry} {c : Flat} (h : SharesUser parent c)
    (hfail : (cloneUserPages c).1 = false) : ¬ Harmless parent c := by
  rintro ⟨-, -, hused⟩
  obtain ⟨i, hi, hpres, hclear⟩ := released_of_failure h hfail
  rw [hused i hi hpres] at hclear
  exact absurd hclear (by decide)

/-- A child whose only user page, page 5, is shared with its parent, with no frame free. -/
def Flat.exhausted : Flat where
  tables i := if i = 5 then { PageTableEntry.decode 0 with
    present := true, user := true, address := 0x900 } else PageTableEntry.decode 0
  pmemUsed _ := 255#8
  phys _ := 0
  unmapped _ := 0

theorem exhausted_shares : SharesUser Flat.exhausted.tables Flat.exhausted := by
  refine ⟨fun _ _ _ => rfl, fun i hi _ => ?_⟩
  have hne : i ≠ 5 := by omega
  simp only [Flat.exhausted, hne]
  rfl

theorem exhausted_fails : (cloneUserPages Flat.exhausted).1 = false := by
  obtain ⟨Q, hmoved, ⟨-, hall⟩ | ⟨hfalse, -⟩⟩ := moved_cloneUserPages Flat.exhausted
  · -- page 5 cannot have moved, since no bit is clear
    have hclear := hmoved.adds.clear 5 (hall 5 (by omega) rfl)
    rw [Bitmap.bit_of_byte_eq_allOnes rfl] at hclear
    exact absurd hclear (by decide)
  · exact hfalse

theorem failed_fork_harmful_exhausted : ¬ Harmless Flat.exhausted.tables Flat.exhausted :=
  failed_fork_harmful exhausted_shares exhausted_fails

/-- Nothing has moved, and the cleanup releases frame 0x900, which the parent maps at page 5. -/
theorem not_harmless_exhausted :
    SharesUser Flat.exhausted.tables Flat.exhausted ∧ (cloneUserPages Flat.exhausted).1 = false ∧
      ¬ Harmless Flat.exhausted.tables Flat.exhausted := by
  refine ⟨exhausted_shares, exhausted_fails, fun hharmless => ?_⟩
  obtain ⟨htab, -, hused⟩ := hharmless
  have hbit : (freeAllUserPages (cloneUserPages Flat.exhausted).2).pmemUsed.bit 0x900 = true :=
    hused 5 (by omega) rfl
  rw [freeAllUserPages_bit] at hbit
  have h5 := htab 5 (by omega)
  exact hbit.2 5 (by omega) (by rw [h5]; rfl) (by rw [h5]; rfl)

end FirstOs
