import FirstOs.Machine.Walk
import FirstOs.Memory.Fork

/-!
# The address space a clone walks

After `clone_tables` the processor walks the new directory and the new tables, which
lie in the frames `alloc_sequential` found. Writing them goes through the parent's
translation: the stores miss the parent's directory and tables, whose frames are in
use, so that neither the translation nor what is copied changes on the way.

## Main results

- `Machine.byteWindow` — pages mapped to other frames than the tables form a window
- `clone_walks_parent` — the new directory translates as the parent's table says
- `not_clone_walks_parent` — not so when two directory entries name one table
-/

namespace FirstOs

open AddressSpace Machine

/-! ### The window of `alloc_sequential` -/

section Sequential

variable {m s : Machine} {tab : ℕ → ℕ} {i j n k : ℕ}

theorem Writable.congr (hw : Writable m tab i) (hcr3 : s.cr3 = m.cr3)
    (hkt : s.kernelTables = m.kernelTables) : Writable s tab i := by
  constructor
  · rw [hcr3]
    exact hw.dir
  · simp only [selfPage]
    rw [hkt]
    exact hw.self

theorem sequentialMap_page (hi : i + n ≤ 0x100000) (hk : k < n) :
    u32 ((i + k) * 0x1000) / 0x1000 = i + k := by
  rw [page_of_u32]
  omega

/-- The mapping loop keeps the array the hardware table. -/
theorem Mapped.sequentialMap (h : Mapped s tab) (hi : i + n ≤ 0x100000)
    (hw : ∀ l < n, Writable s tab (i + l)) : Mapped (sequentialMap s i j n k) tab ∧
      (FirstOs.sequentialMap s i j n k).cr3 = s.cr3 ∧
      (FirstOs.sequentialMap s i j n k).kernelTables = s.kernelTables := by
  fun_induction FirstOs.sequentialMap s i j n k with
  | case1 s k hk ih =>
    have hpage := sequentialMap_page hi hk
    have hlt : u32 ((i + k) * 0x1000) / 0x1000 < 0x100000 := by omega
    have hstep := h.mapAddr hlt (by rw [hpage]; exact hw k hk) (u32 ((j + k) * 0x1000))
    have heq := h.mapAddr_eq hlt (u32 ((j + k) * 0x1000))
    have hcr3 : (FirstOs.mapAddr s (u32 ((i + k) * 0x1000))
        (u32 ((j + k) * 0x1000))).cr3 = s.cr3 := by
      rw [heq, set_cr3]
    have hkt : (FirstOs.mapAddr s (u32 ((i + k) * 0x1000))
        (u32 ((j + k) * 0x1000))).kernelTables = s.kernelTables := by
      rw [heq, set_kernelTables]
    rw [← hcr3, ← hkt]
    exact ih hstep fun l hl => (hw l hl).congr hcr3 hkt
  | case2 s k hk => exact ⟨h, rfl, rfl⟩

/-- The words of the other entries stay. -/
theorem Mapped.sequentialMap_word (h : Mapped s tab) (hi : i + n ≤ 0x100000)
    (hw : ∀ l < n, Writable s tab (i + l)) {a : ℕ} (ha : a % 4 = 0)
    (hout : ∀ l, k ≤ l → l < n → a ≠ entryAddr tab (i + l)) :
    (FirstOs.sequentialMap s i j n k).word a = s.word a := by
  fun_induction FirstOs.sequentialMap s i j n k with
  | case1 s k hk ih =>
    have hpage := sequentialMap_page hi hk
    have hlt : u32 ((i + k) * 0x1000) / 0x1000 < 0x100000 := by omega
    have heq := h.mapAddr_eq hlt (u32 ((j + k) * 0x1000))
    rw [ih (h.mapAddr hlt (by rw [hpage]; exact hw k hk) _)
        (fun l hl => (hw l hl).congr (by rw [heq, set_cr3]) (by rw [heq, set_kernelTables]))
        fun l hl hl' => hout l (by omega) hl',
      h.mapAddr_word hlt _ ha, hpage, if_neg (hout k (le_refl k) hk)]
  | case2 s k hk => rfl

/-- Page `i + l` gets frame `j + l`, unless a later page has the same word as entry. The flags
    other than `present` and `readwrite` stay. -/
theorem Mapped.sequentialMap_entry (h : Mapped s tab) (hi : i + n ≤ 0x100000)
    (hw : ∀ l < n, Writable s tab (i + l)) {l : ℕ} (hl : l < n) (hkl : k ≤ l)
    (hlast : ∀ l', l < l' → l' < n → entryAddr tab (i + l) ≠ entryAddr tab (i + l')) :
    (entry (FirstOs.sequentialMap s i j n k) (i + l)).present = true ∧
      (entry (FirstOs.sequentialMap s i j n k) (i + l)).frame = (j + l) % 0x100000 ∧
      (entry (FirstOs.sequentialMap s i j n k) (i + l)).user = (entry s (i + l)).user := by
  fun_induction FirstOs.sequentialMap s i j n k with
  | case1 s k hk ih =>
    have hpage := sequentialMap_page hi hk
    have hlt : u32 ((i + k) * 0x1000) / 0x1000 < 0x100000 := by omega
    have heq := h.mapAddr_eq hlt (u32 ((j + k) * 0x1000))
    have hstep := h.mapAddr hlt (by rw [hpage]; exact hw k hk) (u32 ((j + k) * 0x1000))
    have hw' : ∀ l < n, Writable (FirstOs.mapAddr s (u32 ((i + k) * 0x1000))
        (u32 ((j + k) * 0x1000))) tab (i + l) := fun l hl =>
      (hw l hl).congr (by rw [heq, set_cr3]) (by rw [heq, set_kernelTables])
    have hword := h.mapAddr_word hlt (u32 ((j + k) * 0x1000)) (entryAddr_mod tab (i + l))
    rw [hpage] at hword
    obtain rfl | hlt' := Nat.eq_or_lt_of_le hkl
    · -- the steps after this one write other words
      obtain ⟨hfin, -, -⟩ := hstep.sequentialMap (j := j) (k := k + 1) hi hw'
      have hrest := hstep.sequentialMap_word (j := j) (k := k + 1) hi hw'
        (entryAddr_mod tab (i + k)) fun l' hl' hl'' => hlast l' (by omega) hl''
      rw [if_pos rfl] at hword
      rw [hfin.entry_eq (by omega), hrest, hword, PageTableEntry.decode_encode]
      refine ⟨rfl, ?_, rfl⟩
      rw [sequentialMap_frame j k, mappedEntry_frame _ (Nat.mod_lt _ (by decide))]
    · obtain ⟨hpres, hframe, huser⟩ := ih hstep hw' hlt'
      refine ⟨hpres, hframe, huser.trans ?_⟩
      have hentry : entry s (i + k) = PageTableEntry.decode (s.word (entryAddr tab (i + k))) :=
        h.entry_eq (by omega)
      rw [hstep.entry_eq (by omega), h.entry_eq (by omega), hword]
      split_ifs with hsame
      · rw [PageTableEntry.decode_encode, hsame, ← hentry]
        rfl
      · rfl
  | case2 s k hk => omega

end Sequential

/-! ### Writing beside the tables -/

/-- A byte of the directory or of one of the tables. -/
def TableByte (m : Machine) (tab : ℕ → ℕ) (a : ℕ) : Prop :=
  a / 0x1000 = m.cr3 / 0x1000 ∨ ∃ d < 1024, a / 0x1000 = tab d

/-- `s` has the registers, the bitmap and the table bytes of `m`. -/
structure KeepsTables (m : Machine) (tab : ℕ → ℕ) (s : Machine) : Prop where
  cr3 : s.cr3 = m.cr3
  kernelTables : s.kernelTables = m.kernelTables
  pmemUsed : s.pmemUsed = m.pmemUsed
  phys : ∀ a, TableByte m tab a → s.phys a = m.phys a

section Window

variable {m s : Machine} {tab : ℕ → ℕ} {i : ℕ}

theorem KeepsTables.refl (m : Machine) (tab : ℕ → ℕ) : KeepsTables m tab m :=
  ⟨rfl, rfl, rfl, fun _ _ => rfl⟩

theorem KeepsTables.word_dir (hs : KeepsTables m tab s) {d : ℕ} (hd : d < 1024) :
    s.word (dirAddr m.cr3 d) = m.word (dirAddr m.cr3 d) := by
  refine ByteMemory.read32_congr fun k hk => hs.phys _ (Or.inl ?_)
  simp only [dirAddr]
  omega

theorem KeepsTables.word_entry (hs : KeepsTables m tab s) (hi : i < 0x100000) :
    s.word (entryAddr tab i) = m.word (entryAddr tab i) := by
  refine ByteMemory.read32_congr fun k hk => hs.phys _ (Or.inr ⟨i / 1024, by omega, ?_⟩)
  simp only [entryAddr, tableAddr]
  omega

theorem KeepsTables.mapped (hs : KeepsTables m tab s) (h : Mapped m tab) : Mapped s tab := by
  refine h.of_words hs.cr3 hs.kernelTables (fun d hd => hs.word_dir hd) fun k _ => hs.word_entry ?_
  simp only [selfPage, u32]
  omega

theorem KeepsTables.entry_eq (hs : KeepsTables m tab s) (h : Mapped m tab) (hi : i < 0x100000) :
    entry s i = entry m i := by
  rw [(hs.mapped h).entry_eq hi, h.entry_eq hi, hs.word_entry hi]

/-- Present pages whose frames hold neither the directory nor a table form a window. -/
theorem Machine.byteWindow (h : Mapped m tab) {w n : ℕ} (hn : w * 0x1000 + n ≤ 0x100000000)
    (frame : ℕ → ℕ) (hp : ∀ k, k * 0x1000 < n → (entry m (w + k)).present = true)
    (hf : ∀ k, k * 0x1000 < n → (entry m (w + k)).frame = frame k)
    (hdir : ∀ k, k * 0x1000 < n → frame k ≠ m.cr3 / 0x1000)
    (htab : ∀ k, k * 0x1000 < n → ∀ d < 1024, frame k ≠ tab d) :
    ByteWindow Machine.phys (KeepsTables m tab) (w * 0x1000) n
      (fun x => frame (x / 0x1000) * 0x1000 + x % 0x1000) := by
  have htr : ∀ s, KeepsTables m tab s → ∀ x < n,
      s.translate (u32 (w * 0x1000 + x)) = some (frame (x / 0x1000) * 0x1000 + x % 0x1000) := by
    intro s hs x hx
    have hlt : u32 (w * 0x1000 + x) < 0x100000000 := Nat.mod_lt _ (by decide)
    have hpage : u32 (w * 0x1000 + x) / 0x1000 = w + x / 0x1000 := by
      simp only [u32]
      omega
    have hoff : u32 (w * 0x1000 + x) % 0x1000 = x % 0x1000 := by
      simp only [u32]
      omega
    have hk : x / 0x1000 * 0x1000 < n := by omega
    rw [translate_of_walk ((hs.mapped h).walk_eq_entry hlt), hpage,
      hs.entry_eq h (by omega), hp _ hk, hf _ hk, hoff, if_pos rfl]
  refine window_of_translate htr fun s hs x hx b =>
    ⟨hs.cr3, hs.kernelTables, hs.pmemUsed, fun a ha => ?_⟩
  have hk : x / 0x1000 * 0x1000 < n := by omega
  have hne : a ≠ frame (x / 0x1000) * 0x1000 + x % 0x1000 := by
    rintro rfl
    obtain hd | ⟨d, hd, hd'⟩ := ha
    · exact hdir _ hk (by omega)
    · exact htab _ hk d hd (by omega)
  rw [withPhys_phys, Function.update_of_ne hne]
  exact hs.phys a ha

/-- The bytes `clone_tables` copies are those of the tables. -/
theorem KeepsTables.tableByte_eq (hs : KeepsTables m tab s) (h : Mapped m tab) {x : ℕ}
    (hx : x < 1024 * 0x1000) :
    tableByte s x = m.phys (Flat.frameByte (tab (x / 0x1000)) (x % 0x1000)) := by
  show s.load (u32 (s.kernelTables + x)) = _
  rw [Machine.load, (hs.mapped h).table x (by omega)]
  refine hs.phys _ (Or.inr ⟨x / 0x1000, by omega, ?_⟩)
  exact Flat.frameByte_frame _ (Nat.mod_lt _ (by decide))

end Window

/-! ### Filling the window -/

/-- Byte `x` of a window onto the frames `frame 0`, `frame 1`, … -/
def windowAddr (frame : ℕ → ℕ) (x : ℕ) : ℕ := frame (x / 0x1000) * 0x1000 + x % 0x1000

/-- The 1025 pages from `w` on are mapped to frames that hold no table of `p`. -/
structure CloneWindow (p : Machine) (tab : ℕ → ℕ) (w : ℕ) (frame : ℕ → ℕ) : Prop where
  mapped : Mapped p tab
  fits : w + 1025 ≤ 0x100000
  present : ∀ k < 1025, (entry p (w + k)).present = true
  frame_eq : ∀ k < 1025, (entry p (w + k)).frame = frame k
  notDir : ∀ k < 1025, frame k ≠ p.cr3 / 0x1000
  notTab : ∀ k < 1025, ∀ d < 1024, frame k ≠ tab d

section Filled

variable {p s : Machine} {tab frame : ℕ → ℕ} {w : ℕ}

theorem CloneWindow.byteWindow (h : CloneWindow p tab w frame) :
    ByteWindow Machine.phys (KeepsTables p tab) (w * 0x1000) (0x1000 * 1025)
      (windowAddr frame) := by
  have hfits := h.fits
  exact Machine.byteWindow h.mapped (by omega) frame (fun k hk => h.present k (by omega))
    (fun k hk => h.frame_eq k (by omega)) (fun k hk => h.notDir k (by omega))
    fun k hk => h.notTab k (by omega)

/-- `get_phys_addr` of page `k` of the window. -/
theorem CloneWindow.getPhysAddr_eq (h : CloneWindow p tab w frame) (hs : KeepsTables p tab s)
    {k : ℕ} (hk : k < 1025) : getPhysAddr s (u32 (w * 0x1000 + k * 0x1000)) = frame k * 0x1000 := by
  have hfits := h.fits
  have hpage : u32 (w * 0x1000 + k * 0x1000) / 0x1000 = w + k := by
    simp only [u32]
    omega
  have hoff : u32 (w * 0x1000 + k * 0x1000) % 0x1000 = 0 := by
    simp only [u32]
    omega
  have hframe := h.frame_eq k hk
  rw [getPhysAddr, hpage, hoff, hs.entry_eq h.mapped (by omega), Nat.add_zero]
  exact congrArg (· * 0x1000) hframe

theorem CloneWindow.dst_lt (h : CloneWindow p tab w frame) : w * 0x1000 < 0x100000000 := by
  have hfits := h.fits
  omega

theorem CloneWindow.keeps (h : CloneWindow p tab w frame) :
    KeepsTables p tab (filledTables p (w * 0x1000)) :=
  filledTables_keeps h.byteWindow h.dst_lt (KeepsTables.refl p tab)

/-- The new directory is in the first frame; its entry `d` names frame `frame 1 + d`. -/
theorem CloneWindow.dir_word (h : CloneWindow p tab w frame) {d : ℕ} (hd : d < 1024) :
    (filledTables p (w * 0x1000)).word (dirAddr (frame 0 * 0x1000) d) =
      (linkedEntry (PageDirEntry.decode 0) (frame 1 * 0x1000) d).encode := by
  have hzero : ∀ x < 0x1000, windowAddr frame x = frame 0 * 0x1000 + x := by
    intro x hx
    rw [windowAddr, Nat.div_eq_of_lt hx, Nat.mod_eq_of_lt hx]
  have hinj : ∀ x < 0x1000, ∀ y < 0x1000, windowAddr frame x = windowAddr frame y → x = y := by
    intro x hx y hy heq
    rw [hzero x hx, hzero y hy] at heq
    omega
  have hA : ∀ t, KeepsTables p tab t →
      getPhysAddr t (u32 (w * 0x1000 + 0x1000)) = frame 1 * 0x1000 := by
    intro t ht
    have hone := h.getPhysAddr_eq ht (k := 1) (by omega)
    rwa [Nat.one_mul] at hone
  have hfill := filledTables_dir h.byteWindow hinj h.dst_lt (KeepsTables.refl p tab) hA hd
  have hdir : dirAddr (frame 0 * 0x1000) d = frame 0 * 0x1000 + 4 * d := by
    rw [dirAddr, Nat.mul_div_cancel (frame 0) (by decide)]
  rw [← hfill, Machine.word, ByteMemory.read32, hdir]
  refine ByteMemory.wordOf_congr fun k hk => ?_
  rw [hzero (4 * d + k) (by omega), Nat.add_assoc]

/-- The new tables are in the other frames, in order. -/
theorem CloneWindow.table_word (h : CloneWindow p tab w frame)
    (hinj : ∀ k < 1025, ∀ l < 1025, frame k = frame l → k = l) {i : ℕ} (hi : i < 0x100000) :
    (filledTables p (w * 0x1000)).word (tableAddr (frame (1 + i / 1024)) (i % 1024)) =
      p.word (entryAddr tab i) := by
  have hfill := filledTables_table h.byteWindow (frameOffset_inj frame fun k hk l hl =>
      hinj k (by omega) l (by omega)) h.dst_lt (KeepsTables.refl p tab)
    (c := fun x => p.phys (Flat.frameByte (tab (x / 0x1000)) (x % 0x1000)))
    fun t ht x hx => ht.tableByte_eq h.mapped hx
  refine ByteMemory.read32_congr fun k hk => ?_
  have hx : 4 * i + k < 1024 * 0x1000 := by omega
  have hbyte := hfill (4 * i + k) hx
  have hdst : windowAddr frame (0x1000 + (4 * i + k)) =
      tableAddr (frame (1 + i / 1024)) (i % 1024) + k := by
    rw [windowAddr, show (0x1000 + (4 * i + k)) / 0x1000 = 1 + i / 1024 by omega,
      show (0x1000 + (4 * i + k)) % 0x1000 = 4 * (i % 1024) + k by omega, tableAddr, Nat.add_assoc]
  have hsrc : Flat.frameByte (tab ((4 * i + k) / 0x1000)) ((4 * i + k) % 0x1000) =
      entryAddr tab i + k := by
    rw [Flat.frameByte, show (4 * i + k) / 0x1000 = i / 1024 by omega,
      show (4 * i + k) % 0x1000 = 4 * (i % 1024) + k by omega, entryAddr, tableAddr, Nat.add_assoc]
  rwa [hdst, hsrc] at hbyte

theorem linkedEntry_frame {f d : ℕ} (hf : f + d < 0x100000) :
    (linkedEntry (PageDirEntry.decode 0) (f * 0x1000) d).frame = f + d := by
  rw [linkedEntry, PageDirEntry.frame, Nat.mul_div_cancel f (by decide), BitVec.toNat_ofNat,
    Nat.mod_eq_of_lt hf]

/-- The walk from the new directory, when the frames of the window follow each other. -/
theorem CloneWindow.walk_eq (h : CloneWindow p tab w frame) {j : ℕ}
    (hframe : ∀ k < 1025, frame k = j + k) (hj : j + 1024 < 0x100000) {v : ℕ}
    (hv : v < 0x100000000) :
    (filledTables p (w * 0x1000)).walk (frame 0 * 0x1000) v = some (entry p (v / 0x1000)) := by
  have hinj : ∀ k < 1025, ∀ l < 1025, frame k = frame l → k = l := by
    intro k hk l hl heq
    rw [hframe k hk, hframe l hl] at heq
    omega
  have hpde : (filledTables p (w * 0x1000)).pde (frame 0 * 0x1000) v =
      linkedEntry (PageDirEntry.decode 0) (frame 1 * 0x1000) (v / 0x400000) := by
    rw [Machine.pde, h.dir_word (by omega), PageDirEntry.decode_encode]
  have hdframe : (linkedEntry (PageDirEntry.decode 0) (frame 1 * 0x1000) (v / 0x400000)).frame =
      frame (1 + v / 0x1000 / 1024) := by
    rw [linkedEntry_frame (by rw [hframe 1 (by omega)]; omega), hframe 1 (by omega),
      hframe _ (by omega)]
    omega
  rw [Machine.walk, hpde, hdframe, h.table_word hinj (i := v / 0x1000) (by omega),
    h.mapped.entry_eq (by omega)]
  rfl

end Filled

/-! ### A clone walks its parent's table -/

/-- A machine whose array is the hardware table, in distinct frames, with the frames of the
    directory and of the tables, and frame 0, in use. -/
structure CloneReady (m : Machine) (tab : ℕ → ℕ) : Prop where
  mapped : Mapped m tab
  distinct : ∀ d < 1024, ∀ e < 1024, tab d = tab e → d = e
  dirUsed : m.pmemUsed.bit (m.cr3 / 0x1000) = true
  tabUsed : ∀ d < 1024, m.pmemUsed.bit (tab d) = true
  zeroUsed : m.pmemUsed.bit 0 = true

/-- What `alloc_sequential(1025)` leaves when its window fits the table. -/
theorem CloneReady.window {m : Machine} {tab : ℕ → ℕ} (h : CloneReady m tab)
    (hok : (allocSequential m 1025).1 ≠ 0)
    (hfits : (allocSequential m 1025).1 / 0x1000 + 1025 ≤ 0x100000) :
    ∃ w j, (allocSequential m 1025).1 = w * 0x1000 ∧ j + 1024 < 0x100000 ∧
      (allocSequential m 1025).2.cr3 = m.cr3 ∧
      CloneWindow (allocSequential m 1025).2 tab w (fun k => j + k) := by
  obtain ⟨he, -⟩ | ⟨w, j, -, hw, hat, -, -, hj, hseq, -, he⟩ :=
    allocSequential_cases m (show 1025 ≠ 0 by omega)
  · exact absurd (by rw [he]) hok
  rw [he] at hfits
  rw [he]
  dsimp only at hfits ⊢
  rw [Nat.mul_div_cancel w (by decide)] at hfits
  have habs : ∀ l < 1025, (entry m (w + l)).present = false := by
    intro l hl
    have hpage : u32 (w + l) = w + l := Nat.mod_eq_of_lt (by omega)
    rw [← hpage]
    exact absent_of_windowAt hat hw l hl
  have hwrite : ∀ l < 1025, Writable m tab (w + l) := fun l hl =>
    writable_of_absent h.mapped (by omega) (habs l hl)
  have hfree := free_of_sequentialAt hseq hj
  have hlt := frame_lt_of_free_run h.zeroUsed hfree hj
  have hjfree : ∀ l < 1025, m.pmemUsed.bit (j + l) = false := by
    intro l hl
    have := hfree l hl
    rwa [Nat.mod_eq_of_lt (hlt l hl)] at this
  obtain ⟨hmapped, hcr3, -⟩ := h.mapped.sequentialMap (j := j) (k := 0) hfits hwrite
  have hentry := fun l (hl : l < 1025) => h.mapped.sequentialMap_entry (j := j) hfits hwrite hl
    (Nat.zero_le l) fun l' hl' hl'' heq => by
      have := entryAddr_inj h.distinct (by omega) (by omega) heq
      omega
  refine ⟨w, j, rfl, hlt 1024 (by omega), hcr3, hmapped, hfits, fun l hl => (hentry l hl).1,
    fun l hl => ?_, fun l hl heq => ?_, fun l hl d hd heq => ?_⟩
  · rw [(hentry l hl).2.1, Nat.mod_eq_of_lt (hlt l hl)]
  · have hused := h.dirUsed
    rw [hcr3] at heq
    rw [← heq, hjfree l hl] at hused
    exact absurd hused (by decide)
  · have hused := h.tabUsed d hd
    rw [← heq, hjfree l hl] at hused
    exact absurd hused (by decide)

/-- The walk from the directory `clone_tables` returns finds the entries of the parent's table,
    and nothing after the allocation has changed the parent's directory and tables. -/
theorem clone_walks_parent {m : Machine} {tab : ℕ → ℕ} (h : CloneReady m tab)
    (hok : (allocSequential m 1025).1 ≠ 0)
    (hfits : (allocSequential m 1025).1 / 0x1000 + 1025 ≤ 0x100000) :
    (∀ v : BitVec 32, (cloneTables m).2.walk (cloneTables m).1 v.toNat =
        some (entry (allocSequential m 1025).2 (v.toNat / 0x1000))) ∧
      ∀ a, TableByte m tab a →
        (cloneTables m).2.phys a = (allocSequential m 1025).2.phys a := by
  obtain ⟨w, j, hnew, hj, hcr3, hwin⟩ := h.window hok hfits
  rw [cloneTables_eq, hnew]
  generalize (allocSequential m 1025).2 = p at hcr3 hwin ⊢
  have haddr := hwin.getPhysAddr_eq hwin.keeps (k := 0) (by omega)
  have hdst : u32 (w * 0x1000 + 0 * 0x1000) = w * 0x1000 := by
    rw [Nat.zero_mul, Nat.add_zero]
    exact Nat.mod_eq_of_lt hwin.dst_lt
  rw [hdst] at haddr
  have hwalk := fun v (hv : v < 0x100000000) => hwin.walk_eq (fun _ _ => rfl) hj hv
  have hphys := hwin.keeps.phys
  rw [haddr]
  generalize filledTables p (w * 0x1000) = q at hwalk hphys ⊢
  constructor
  · intro v
    rw [switchTables_walk]
    exact hwalk v.toNat v.isLt
  · intro a ha
    rw [switchTables_phys]
    refine hphys a ?_
    unfold TableByte at ha ⊢
    rwa [hcr3]

/-! ### Machines with one table that is not empty -/

/-- A present and writable entry for a frame, of a directory or of a table. -/
def presentWord (f : ℕ) : BitVec 32 := (mappedEntry (PageTableEntry.decode 0) (f * 0x1000)).encode

/-- The directory in frame 1 and the table in frame 2 have the same words, which name the frames
    `tab 0`, `tab 1`, …. The other frames are empty. -/
def barePhys (tab : ℕ → ℕ) : ByteMemory := fun a =>
  if a / 0x1000 = 1 ∨ a / 0x1000 = 2 then
    ByteMemory.byteOf (presentWord (tab (a % 0x1000 / 4))) (a % 4)
  else 0

/-- A machine that maps nothing but its table. The frames below 0x1000 are in use. -/
def bareMachine (tab : ℕ → ℕ) : Machine where
  phys := barePhys tab
  cr3 := 0x1000
  kernelTables := 0xC0400000
  pmemUsed := fun b => if b < 0x200 then 255#8 else 0
  unmapped := fun _ => 0

/-- The part of the table that maps the array is in frame 2, the others are behind it. -/
structure BareTab (tab : ℕ → ℕ) : Prop where
  self : tab 769 = 2
  lower : ∀ d, d ≠ 769 → 3 ≤ tab d
  upper : ∀ d < 1024, tab d < 0x1000

section Bare

variable {tab : ℕ → ℕ}

theorem bareMachine_word {f x : ℕ} (hf : f = 1 ∨ f = 2) (hx : x < 1024) :
    (bareMachine tab).word (f * 0x1000 + 4 * x) = presentWord (tab x) := by
  have hphys : (bareMachine tab).phys = barePhys tab := rfl
  rw [Machine.word, ByteMemory.read32, hphys, ← ByteMemory.wordOf_byteOf (presentWord (tab x))]
  refine ByteMemory.wordOf_congr fun k hk => ?_
  rw [barePhys, if_pos (by omega), show (f * 0x1000 + 4 * x + k) % 0x1000 / 4 = x by omega,
    show (f * 0x1000 + 4 * x + k) % 4 = k by omega]

theorem bareMachine_dirAddr (tab : ℕ → ℕ) (d : ℕ) :
    dirAddr (bareMachine tab).cr3 d = 1 * 0x1000 + 4 * d := by
  simp [dirAddr, bareMachine]

theorem bareMachine_dir {d : ℕ} (hd : d < 1024) :
    (bareMachine tab).word (dirAddr (bareMachine tab).cr3 d) = presentWord (tab d) := by
  rw [bareMachine_dirAddr]
  exact bareMachine_word (Or.inl rfl) hd

theorem bareMachine_table {x : ℕ} (hx : x < 1024) :
    (bareMachine tab).word (tableAddr 2 x) = presentWord (tab x) :=
  bareMachine_word (f := 2) (Or.inr rfl) hx

theorem bareMachine_zero {f x : ℕ} (hf : 3 ≤ f) (hx : x < 1024) :
    (bareMachine tab).word (tableAddr f x) = 0 := by
  have hphys : (bareMachine tab).phys = barePhys tab := rfl
  have hzero : ByteMemory.wordOf (fun _ => 0) = 0 := by decide
  rw [Machine.word, ByteMemory.read32, hphys, ← hzero]
  refine ByteMemory.wordOf_congr fun k hk => ?_
  rw [barePhys, tableAddr, if_neg (by omega)]

/-- The word as an entry of the directory and of a table. -/
theorem presentWord_decode {f : ℕ} (hf : f < 0x100000) :
    ((PageDirEntry.decode (presentWord f)).present = true ∧
      (PageDirEntry.decode (presentWord f)).size = false ∧
      (PageDirEntry.decode (presentWord f)).frame = f) ∧
    (PageTableEntry.decode (presentWord f)).present = true ∧
      (PageTableEntry.decode (presentWord f)).frame = f := by
  have hentry : PageTableEntry.decode (presentWord f) =
      mappedEntry (PageTableEntry.decode 0) (f * 0x1000) := PageTableEntry.decode_encode _
  have hpres : (PageTableEntry.decode (presentWord f)).present = true := by
    rw [hentry]
    rfl
  have hframe : (PageTableEntry.decode (presentWord f)).frame = f := by
    rw [hentry, mappedEntry_frame _ (by omega)]
  have hsize : (PageTableEntry.decode (presentWord f)).zero = false := by
    rw [hentry]
    rfl
  exact ⟨⟨hpres, hsize, hframe⟩, hpres, hframe⟩

theorem BareTab.mapped (h : BareTab tab) : Mapped (bareMachine tab) tab := by
  have hlt : ∀ d < 1024, tab d < 0x100000 := fun d hd => by
    have := h.upper d hd
    omega
  constructor
  · intro d hd
    rw [bareMachine_dir hd]
    exact (presentWord_decode (hlt d hd)).1
  · intro k hk
    have hv : u32 ((bareMachine tab).kernelTables + k) = 0xC0400000 + k := by
      show (0xC0400000 + k) % 0x100000000 = _
      omega
    have hpde : (bareMachine tab).pde (bareMachine tab).cr3 (0xC0400000 + k) =
        PageDirEntry.decode (presentWord 2) := by
      rw [Machine.pde, show (0xC0400000 + k) / 0x400000 = 769 by omega,
        bareMachine_dir (by decide), h.self]
    obtain ⟨hpres, hsize, hframe⟩ := (presentWord_decode (f := 2) (by decide)).1
    have hwalk : (bareMachine tab).walk (bareMachine tab).cr3 (0xC0400000 + k) =
        some (PageTableEntry.decode (presentWord (tab (k / 0x1000)))) := by
      rw [Machine.walk, hpde, hpres, hsize, hframe,
        show (0xC0400000 + k) / 0x1000 % 1024 = k / 0x1000 by omega,
        bareMachine_table (by omega)]
      rfl
    obtain ⟨-, htpres, htframe⟩ := presentWord_decode (hlt (k / 0x1000) (by omega))
    rw [hv, translate_of_walk hwalk, htpres, if_pos rfl, htframe, Flat.frameByte,
      show (0xC0400000 + k) % 0x1000 = k % 0x1000 by omega]

/-- The entries of the table that maps the array are present, the others absent. -/
theorem BareTab.entry_eq (h : BareTab tab) {i : ℕ} (hi : i < 0x100000) :
    (i / 1024 = 769 → (entry (bareMachine tab) i).present = true ∧
      (entry (bareMachine tab) i).frame = tab (i % 1024)) ∧
    (i / 1024 ≠ 769 → entry (bareMachine tab) i = PageTableEntry.decode 0) := by
  have hmod : i % 1024 < 1024 := Nat.mod_lt i (by decide)
  rw [h.mapped.entry_eq hi, entryAddr]
  constructor
  · intro hd
    have hlt := h.upper (i % 1024) hmod
    rw [hd, h.self, bareMachine_table hmod]
    exact (presentWord_decode (by omega)).2
  · intro hd
    rw [bareMachine_zero (h.lower _ hd) hmod]

theorem bareMachine_bit (tab : ℕ → ℕ) (f : ℕ) :
    (bareMachine tab).pmemUsed.bit f = decide (f < 0x1000) := by
  show BitVec.getLsbD (if f / 8 < 0x200 then 255#8 else 0) (f % 8) = _
  split_ifs with hlt
  · rw [decide_eq_true (by omega)]
    have hmod : f % 8 < 8 := Nat.mod_lt f (by decide)
    interval_cases f % 8 <;> rfl
  · rw [decide_eq_false (by omega)]
    simp

theorem bareMachine_used {f : ℕ} (hf : f < 0x1000) : (bareMachine tab).pmemUsed.bit f = true :=
  (bareMachine_bit tab f).trans (decide_eq_true hf)

/-- The first window of 1025 absent pages is behind the table, and the first free frames are
    those from 0x1000 on. -/
theorem BareTab.alloc (h : BareTab tab) : allocSequential (bareMachine tab) 1025 =
    (0xC0800 * 0x1000, sequentialMap (bareMachine tab) 0xC0800 0x1000 1025 0) := by
  have hwindow : windowAt (bareMachine tab) 1025 0xC0800 = true := by
    rw [windowAt_iff (by omega) (by omega) (by omega)]
    intro k hk
    rw [show u32 (0xC0800 + k) = 0xC0800 + k from Nat.mod_eq_of_lt (by omega),
      (h.entry_eq (by omega)).2 (by omega)]
    rfl
  have hfirst : ∀ w, 0xC0000 ≤ w → w < 0xC0800 → windowAt (bareMachine tab) 1025 w = false := by
    intro w hw hw'
    refine Bool.eq_false_of_not_eq_true fun hat => ?_
    -- such a window reaches the pages of the table, which are present
    have hpage := absent_of_windowAt hat (by omega) (max w 0xC0400 - w) (by omega)
    rw [show u32 (w + (max w 0xC0400 - w)) = max w 0xC0400 by unfold u32; omega,
      ((h.entry_eq (by omega)).1 (by omega)).1] at hpage
    exact absurd hpage (by decide)
  have hframes : sequentialAt (AddressSpace.pmemUsed (bareMachine tab)) 1025 0x1000 = true := by
    rw [sequentialAt_iff (by omega) (by omega) (by omega)]
    intro k hk
    rw [pmemUsed_eq, bareMachine_bit]
    exact decide_eq_false (by omega)
  obtain ⟨-, hno | hno⟩ | ⟨w, j, hw, -, hat, hmin, hj, -, -, hjmin, he⟩ :=
    allocSequential_cases (bareMachine tab) (show 1025 ≠ 0 by omega)
  · rw [hno 0x1000 (le_refl _) (by omega)] at hframes
    exact absurd hframes (by decide)
  · rw [hno 0xC0800 (by omega) (by omega)] at hwindow
    exact absurd hwindow (by decide)
  · have hweq : w = 0xC0800 := by
      obtain hlt | rfl | hgt := lt_trichotomy w 0xC0800
      · rw [hfirst w hw hlt] at hat
        exact absurd hat (by decide)
      · rfl
      · rw [hmin 0xC0800 (by omega) hgt] at hwindow
        exact absurd hwindow (by decide)
    have hjeq : j = 0x1000 := by
      obtain rfl | hlt := Nat.eq_or_lt_of_le hj
      · rfl
      · rw [hjmin 0x1000 (le_refl _) hlt] at hframes
        exact absurd hframes (by decide)
    rw [he, hweq, hjeq]

end Bare

/-- Each part of the table in a frame of its own. -/
def spreadTab (d : ℕ) : ℕ := if d = 769 then 2 else 0x400 + d

theorem bareTab_spreadTab : BareTab spreadTab := by
  constructor
  · rfl
  · intro d hd
    rw [spreadTab, if_neg hd]
    omega
  · intro d hd
    simp only [spreadTab]
    split_ifs <;> omega

theorem clone_walks_parent_spread :
    (∀ v : BitVec 32, (cloneTables (bareMachine spreadTab)).2.walk
        (cloneTables (bareMachine spreadTab)).1 v.toNat =
      some (entry (allocSequential (bareMachine spreadTab) 1025).2 (v.toNat / 0x1000))) ∧
    ∀ a, TableByte (bareMachine spreadTab) spreadTab a →
      (cloneTables (bareMachine spreadTab)).2.phys a =
        (allocSequential (bareMachine spreadTab) 1025).2.phys a := by
  refine clone_walks_parent ⟨bareTab_spreadTab.mapped, fun d hd e he heq => ?_,
    bareMachine_used (by decide), fun d hd => bareMachine_used (bareTab_spreadTab.upper d hd),
    bareMachine_used (by decide)⟩ ?_ ?_
  · simp only [spreadTab] at heq
    split_ifs at heq <;> omega
  · rw [bareTab_spreadTab.alloc]
    decide
  · rw [bareTab_spreadTab.alloc]
    decide

/-! ### Two directory entries for one table -/

/-- All parts of the table in frame 3, but the one that maps the array. -/
def aliasTab (d : ℕ) : ℕ := if d = 769 then 2 else 3

/-- The machine with that table. -/
abbrev aliasMachine : Machine := bareMachine aliasTab

/-- The state after `alloc_sequential(1025)`. -/
abbrev aliasWindow : Machine := sequentialMap aliasMachine 0xC0800 0x1000 1025 0

section Alias

theorem bareTab_aliasTab : BareTab aliasTab := by
  constructor
  · rfl
  · intro d hd
    rw [aliasTab, if_neg hd]
  · intro d hd
    simp only [aliasTab]
    split_ifs <;> omega

theorem aliasTab_le (d : ℕ) : aliasTab d ≤ 3 := by
  simp only [aliasTab]
  split_ifs <;> omega

/-- The frames the pages of that window end up with: the last page has the entry of the first. -/
def aliasFrame (k : ℕ) : ℕ := if k % 1024 = 0 then 0x1400 else 0x1000 + k

/-- Pages 1024 apart have the same entry, when both are mapped by frame 3. -/
theorem aliasTab_entryAddr {i : ℕ} (hi : i / 1024 ≠ 769) :
    entryAddr aliasTab i = tableAddr 3 (i % 1024) := by
  rw [entryAddr, show aliasTab (i / 1024) = 3 from if_neg hi]

theorem aliasMachine_writable {l : ℕ} (hl : l < 1025) :
    Writable aliasMachine aliasTab (0xC0800 + l) := by
  have hword := aliasTab_entryAddr (i := 0xC0800 + l) (by omega)
  constructor
  · intro d hd
    rw [hword, bareMachine_dirAddr, tableAddr]
    omega
  · intro k hk
    have hself : selfPage aliasMachine k = 0xC0400 + k / 0x1000 := by
      show (0xC0400000 + k) % 0x100000000 / 0x1000 = _
      omega
    have htab : aliasTab ((0xC0400 + k / 0x1000) / 1024) = 2 := if_pos (by omega)
    rw [hword, hself, entryAddr, htab, tableAddr, tableAddr]
    omega

theorem aliasMachine_window : CloneWindow aliasWindow
      aliasTab 0xC0800 aliasFrame ∧
    (entry aliasWindow (0xC0800 + 1)).user = false := by
  have hfits : 0xC0800 + 1025 ≤ 0x100000 := by omega
  have hwrite : ∀ l < 1025, Writable aliasMachine aliasTab (0xC0800 + l) := fun l hl =>
    aliasMachine_writable hl
  obtain ⟨hmapped, hcr3, -⟩ :=
    bareTab_aliasTab.mapped.sequentialMap (j := 0x1000) (k := 0) hfits hwrite
  have hentry : ∀ l, 1 ≤ l → l < 1025 →
      (entry aliasWindow (0xC0800 + l)).present = true ∧
      (entry aliasWindow (0xC0800 + l)).frame =
        (0x1000 + l) % 0x100000 ∧
      (entry aliasWindow (0xC0800 + l)).user =
        (entry aliasMachine (0xC0800 + l)).user := by
    intro l hl hl'
    refine bareTab_aliasTab.mapped.sequentialMap_entry hfits hwrite hl' (Nat.zero_le l) ?_
    intro l' hlt hlt' heq
    rw [aliasTab_entryAddr (by omega), aliasTab_entryAddr (by omega), tableAddr, tableAddr] at heq
    omega
  have hframe : ∀ l, l < 1025 →
      (entry aliasWindow (0xC0800 + l)).present = true ∧
      (entry aliasWindow (0xC0800 + l)).frame =
        aliasFrame l := by
    intro l hl
    obtain rfl | hpos := Nat.eq_zero_or_pos l
    · -- the first page has the entry of the last one
      have hsame : entryAddr aliasTab (0xC0800 + 0) = entryAddr aliasTab (0xC0800 + 1024) := by
        rw [aliasTab_entryAddr (by omega), aliasTab_entryAddr (by omega)]
      obtain ⟨hpres, hfr, -⟩ := hentry 1024 (by omega) (by omega)
      rw [hmapped.entry_eq (by omega)] at hpres hfr ⊢
      rw [hsame, hpres, hfr]
      exact ⟨rfl, rfl⟩
    · obtain ⟨hpres, hfr, -⟩ := hentry l hpos hl
      refine ⟨hpres, hfr.trans ?_⟩
      simp only [aliasFrame]
      split_ifs <;> omega
  have hcr3' : aliasWindow.cr3 / 0x1000 = 1 := by
    rw [hcr3]
    rfl
  have hbig : ∀ k, 0x1000 ≤ aliasFrame k := by
    intro k
    simp only [aliasFrame]
    split_ifs <;> omega
  refine ⟨⟨hmapped, hfits, fun k hk => (hframe k hk).1, fun k hk => (hframe k hk).2,
    fun k _ heq => ?_, fun k _ d _ heq => ?_⟩, ?_⟩
  · have := hbig k
    omega
  · have hk := hbig k
    have hd := aliasTab_le d
    omega
  · rw [(hentry 1 (by omega) (by omega)).2.2, (bareTab_aliasTab.entry_eq (by omega)).2 (by omega)]
    rfl

/-- On that window, the walk from the new directory for page 0xFFC01 reads the directory itself. -/
theorem CloneWindow.walk_alias {p : Machine} (hwin : CloneWindow p aliasTab 0xC0800 aliasFrame) :
    (filledTables p (0xC0800 * 0x1000)).walk (aliasFrame 0 * 0x1000) 0xFFC01000 =
      some (PageTableEntry.decode
        (linkedEntry (PageDirEntry.decode 0) (aliasFrame 1 * 0x1000) 1).encode) := by
  have hpde : (filledTables p (0xC0800 * 0x1000)).pde (aliasFrame 0 * 0x1000) 0xFFC01000 =
      linkedEntry (PageDirEntry.decode 0) (aliasFrame 1 * 0x1000) 1023 := by
    rw [Machine.pde, show 0xFFC01000 / 0x400000 = 1023 from rfl, hwin.dir_word (by decide),
      PageDirEntry.decode_encode]
  have hframe : (linkedEntry (PageDirEntry.decode 0) (aliasFrame 1 * 0x1000) 1023).frame =
      aliasFrame 0 := linkedEntry_frame (by decide)
  have hpte : tableAddr (aliasFrame 0) (0xFFC01000 / 0x1000 % 1024) =
      dirAddr (aliasFrame 0 * 0x1000) 1 := by decide
  have hflags : ((linkedEntry (PageDirEntry.decode 0) (aliasFrame 1 * 0x1000) 1023).present &&
      !(linkedEntry (PageDirEntry.decode 0) (aliasFrame 1 * 0x1000) 1023).size) = true := rfl
  rw [Machine.walk, hpde, if_pos hflags, hframe, hpte, hwin.dir_word (by decide)]

/-- Agreement of the walk with the array does not suffice: the two pages that share an entry
    share a frame, which gets both the directory and its last table. -/
theorem not_clone_walks_parent : ¬ ∀ m : Machine,
    (∀ v : BitVec 32, m.walk m.cr3 v.toNat = some (entry m (v.toNat / 0x1000))) →
    (∀ i < 0x100000, (entry m i).present = true → m.pmemUsed.bit (entry m i).frame = true) →
    m.pmemUsed.bit (m.cr3 / 0x1000) = true →
    (∀ v : BitVec 32, m.pmemUsed.bit (m.pde m.cr3 v.toNat).frame = true) →
    m.pmemUsed.bit 0 = true →
    (allocSequential m 1025).1 ≠ 0 →
    (allocSequential m 1025).1 / 0x1000 + 1025 ≤ 0x100000 →
    (∀ v : BitVec 32, (cloneTables m).2.walk (cloneTables m).1 v.toNat =
      some (entry (allocSequential m 1025).2 (v.toNat / 0x1000))) ∧
    ∀ a, (a / 0x1000 = m.cr3 / 0x1000 ∨ ∃ v : BitVec 32, a / 0x1000 = (m.pde m.cr3 v.toNat).frame) →
      (cloneTables m).2.phys a = (allocSequential m 1025).2.phys a := by
  intro hall
  have htab : ∀ d, aliasMachine.pmemUsed.bit (aliasTab d) = true := fun d =>
    bareMachine_used (by have := aliasTab_le d; omega)
  have hused : ∀ i < 0x100000, (entry aliasMachine i).present = true →
      aliasMachine.pmemUsed.bit (entry aliasMachine i).frame = true := by
    intro i hi hp
    obtain ⟨htable, habs⟩ := bareTab_aliasTab.entry_eq hi
    by_cases hd : i / 1024 = 769
    · rw [(htable hd).2]
      exact htab _
    · rw [habs hd] at hp
      exact absurd hp (by decide)
  have hpdes : ∀ v : BitVec 32,
      aliasMachine.pmemUsed.bit (aliasMachine.pde aliasMachine.cr3 v.toNat).frame = true := by
    intro v
    have hv := v.isLt
    rw [Machine.pde, (bareTab_aliasTab.mapped.dir _ (by omega)).2.2]
    exact htab _
  obtain ⟨hwin, huser⟩ := aliasMachine_window
  obtain ⟨hwalk, -⟩ := hall aliasMachine (fun v => bareTab_aliasTab.mapped.walk_eq_entry v.isLt)
    hused (bareMachine_used (by decide)) hpdes (bareMachine_used (by decide))
    (by rw [bareTab_aliasTab.alloc]; decide)
    (by rw [bareTab_aliasTab.alloc]; decide)
  have hbad := hwalk 0xFFC01000#32
  have halloc : allocSequential aliasMachine 1025 = (0xC0800 * 0x1000, aliasWindow) :=
    bareTab_aliasTab.alloc
  rw [cloneTables_eq, halloc] at hbad
  dsimp only at hbad
  generalize aliasWindow = p at hwin huser hbad
  have haddr := hwin.getPhysAddr_eq hwin.keeps (k := 0) (by omega)
  rw [show u32 (0xC0800 * 0x1000 + 0 * 0x1000) = 0xC0800 * 0x1000 from rfl] at haddr
  rw [haddr, switchTables_walk, show (0xFFC01000#32).toNat = 0xFFC01000 from rfl, hwin.walk_alias,
    Option.some.injEq, show 0xFFC01000 / 0x1000 = 0xFFC01 from rfl,
    hwin.mapped.entry_eq (by decide)] at hbad
  have hsame : entryAddr aliasTab 0xFFC01 = entryAddr aliasTab (0xC0800 + 1) := by decide
  rw [hsame, ← hwin.mapped.entry_eq (by decide)] at hbad
  rw [← hbad] at huser
  exact absurd huser (by decide)

end Alias

end FirstOs
