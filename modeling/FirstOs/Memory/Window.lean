import FirstOs.Memory.Exclusive

/-!
# Writing through a mapped window

A range of virtual addresses whose translation does not change while it is written
is a window onto distinct bytes of a memory. The byte loops `memset` and `memcpy`,
and the loop of `clone_tables` that fills a page directory, are described once for
any such window: what they leave inside it, and that they change nothing outside.

## Main results

- `memcpyFrom_inside`, `memcpyFrom_outside` — the copy loop, and with it `memset`
- `cloneDirFrom_inside`, `cloneDirFrom_outside` — the directory loop
- `filledTables_table`, `filledTables_dir` — what `clone_tables` writes
- `Flat.byteWindow` — present pages of a flat state form a window
-/

namespace FirstOs

open AddressSpace

/-- While `J` holds, the `n` virtual bytes from `dst` on are the bytes `addr 0`,
    `addr 1`, … of `mem`, and storing to them keeps `J`. -/
structure ByteWindow {σ : Type} [AddressSpace σ] (mem : σ → ByteMemory) (J : σ → Prop)
    (dst n : ℕ) (addr : ℕ → ℕ) : Prop where
  load_eq : ∀ s, J s → ∀ x < n, load s (u32 (dst + x)) = mem s (addr x)
  store_eq : ∀ s, J s → ∀ x < n, ∀ b,
    mem (store s (u32 (dst + x)) b) = Function.update (mem s) (addr x) b
  keeps : ∀ s, J s → ∀ x < n, ∀ b, J (store s (u32 (dst + x)) b)

section Loops

variable {σ : Type} [AddressSpace σ] {mem : σ → ByteMemory} {J : σ → Prop} {dst n : ℕ}
  {addr : ℕ → ℕ} {s : σ}

/-- A part of a window is a window. -/
theorem ByteWindow.sub (h : ByteWindow mem J dst n addr) {o m : ℕ} (hom : o + m ≤ n) :
    ByteWindow mem J (u32 (dst + o)) m (fun x => addr (o + x)) := by
  have hu : ∀ x, u32 (u32 (dst + o) + x) = u32 (dst + (o + x)) := by
    intro x
    simp only [u32]
    omega
  constructor
  · intro t ht x hx
    rw [hu]
    exact h.load_eq t ht (o + x) (by omega)
  · intro t ht x hx b
    rw [hu]
    exact h.store_eq t ht (o + x) (by omega) b
  · intro t ht x hx b
    rw [hu]
    exact h.keeps t ht (o + x) (by omega) b

section Copy

variable (src : σ → ℕ → BitVec 8) {size i : ℕ}

theorem memcpyFrom_keeps (h : ByteWindow mem J dst n addr) (hs : J s) (hsize : size ≤ n) :
    J (memcpyFrom src s dst size i) :=
  memcpyFrom_induct (P := J) (fun t x hx ht => h.keeps t ht x (by omega) _) hs

theorem memcpyFrom_outside (h : ByteWindow mem J dst n addr) (hs : J s) (hsize : size ≤ n) {a : ℕ}
    (ha : ∀ x < size, addr x ≠ a) : mem (memcpyFrom src s dst size i) a = mem s a := by
  have hboth : J (memcpyFrom src s dst size i) ∧ mem (memcpyFrom src s dst size i) a = mem s a := by
    refine memcpyFrom_induct (P := fun t => J t ∧ mem t a = mem s a) (fun t x hx ht => ?_) ⟨hs, rfl⟩
    refine ⟨h.keeps t ht.1 x (by omega) _, ?_⟩
    rw [h.store_eq t ht.1 x (by omega), Function.update_of_ne (ha x hx).symm]
    exact ht.2
  exact hboth.2

/-- What the copy leaves in the window, when its source bytes do not change under it. -/
theorem memcpyFrom_inside (h : ByteWindow mem J dst n addr)
    (hinj : ∀ x < n, ∀ y < n, addr x = addr y → x = y) (hs : J s) (hsize : size ≤ n)
    {c : ℕ → BitVec 8} (hsrc : ∀ t, J t → ∀ x < size, src t x = c x)
    (hdone : ∀ x < i, x < size → mem s (addr x) = c x) :
    ∀ x < size, mem (memcpyFrom src s dst size i) (addr x) = c x := by
  fun_induction memcpyFrom src s dst size i with
  | case1 s i hi ih =>
    refine ih (h.keeps s hs i (by omega) _) fun x hx hxs => ?_
    rw [h.store_eq s hs i (by omega)]
    obtain rfl | hlt := Nat.lt_succ_iff_lt_or_eq.mp hx |>.symm
    · rw [Function.update_self]
      exact hsrc s hs x hxs
    · have hne : addr x ≠ addr i := fun heq =>
        absurd (hinj x (by omega) i (by omega) heq) (by omega)
      rw [Function.update_of_ne hne]
      exact hdone x hlt hxs
  | case2 s i hi => exact fun x hx => hdone x (by omega) hx

end Copy

/-- `memset` is the copy of a constant. -/
theorem memset_eq_memcpyFrom (s : σ) (dst : ℕ) (val : BitVec 8) {count i : ℕ} (hi : i ≤ count) :
    memset s (u32 (dst + i)) val (count - i) = memcpyFrom (fun _ _ => val) s dst count i := by
  induction hn : count - i generalizing s i with
  | zero =>
    rw [memset, memcpyFrom, if_neg (by omega), if_neg (by omega)]
  | succ k ih =>
    have hnext : u32 (u32 (dst + i) + 1) = u32 (dst + (i + 1)) := by
      simp only [u32]
      omega
    rw [memset, memcpyFrom, if_pos (by omega), if_pos (by omega), hnext]
    exact ih _ (by omega) (by omega)

theorem memset_eq_memcpyFrom_zero (s : σ) (val : BitVec 8) (count : ℕ) (hdst : dst < 0x100000000) :
    memset s dst val count = memcpyFrom (fun _ _ => val) s dst count 0 := by
  have h := memset_eq_memcpyFrom s dst val (Nat.zero_le count)
  rwa [u32, Nat.add_zero, Nat.mod_eq_of_lt hdst, Nat.sub_zero] at h

section Words

theorem ByteWindow.loadWord_eq (h : ByteWindow mem J dst n addr) (hs : J s) {o : ℕ}
    (ho : o + 4 ≤ n) :
    loadWord s (u32 (dst + o)) = ByteMemory.wordOf fun k => mem s (addr (o + k)) :=
  ByteMemory.wordOf_congr fun k hk => (h.sub ho).load_eq s hs k hk

theorem ByteWindow.storeWord_keeps (h : ByteWindow mem J dst n addr) (hs : J s) {o : ℕ}
    (ho : o + 4 ≤ n) (w : BitVec 32) : J (storeWord s (u32 (dst + o)) w) :=
  memcpyFrom_keeps _ (h.sub ho) hs (le_refl 4)

theorem ByteWindow.storeWord_outside (h : ByteWindow mem J dst n addr) (hs : J s) {o a : ℕ}
    (ho : o + 4 ≤ n) (w : BitVec 32) (ha : ∀ k < 4, addr (o + k) ≠ a) :
    mem (storeWord s (u32 (dst + o)) w) a = mem s a :=
  memcpyFrom_outside _ (h.sub ho) hs (le_refl 4) ha

theorem ByteWindow.storeWord_inside (h : ByteWindow mem J dst n addr)
    (hinj : ∀ x < n, ∀ y < n, addr x = addr y → x = y) (hs : J s) {o : ℕ} (ho : o + 4 ≤ n)
    (w : BitVec 32) :
    ByteMemory.wordOf (fun k => mem (storeWord s (u32 (dst + o)) w) (addr (o + k))) = w := by
  have hinj' : ∀ x < 4, ∀ y < 4, addr (o + x) = addr (o + y) → x = y := by
    intro x hx y hy heq
    have := hinj (o + x) (by omega) (o + y) (by omega) heq
    omega
  have hbytes : ∀ k < 4,
      mem (storeWord s (u32 (dst + o)) w) (addr (o + k)) = ByteMemory.byteOf w k :=
    memcpyFrom_inside _ (h.sub ho) hinj' hs (le_refl 4) (fun _ _ _ _ => rfl)
      fun x hx => absurd hx (by omega)
  exact (ByteMemory.wordOf_congr hbytes).trans (ByteMemory.wordOf_byteOf w)

end Words

section Directory

variable {A i : ℕ}

/-- The directory entry `clone_tables` makes of entry `d` when the copied tables start at
    physical address `A`. -/
def linkedEntry (e : PageDirEntry) (A d : ℕ) : PageDirEntry :=
  { e with user := true, present := true, readwrite := true,
           address := BitVec.ofNat 20 (A / 0x1000 + d) }

theorem cloneDirFrom_step {new : ℕ} (hi : i < 1024) :
    cloneDirFrom s new i =
      cloneDirFrom (storeWord s (u32 (new + 4 * i))
        (linkedEntry (PageDirEntry.decode (loadWord s (u32 (new + 4 * i))))
          (getPhysAddr s (u32 (new + 0x1000))) i).encode) new (i + 1) := by
  rw [cloneDirFrom, if_pos hi]
  rfl

theorem cloneDirFrom_keeps (h : ByteWindow mem J dst 0x1000 addr) (hs : J s) :
    J (cloneDirFrom s dst i) := by
  induction hn : 1024 - i generalizing s i with
  | zero =>
    rw [cloneDirFrom, if_neg (by omega)]
    exact hs
  | succ k ih =>
    rw [cloneDirFrom_step (by omega)]
    exact ih (h.storeWord_keeps hs (by omega) _) (by omega)

theorem cloneDirFrom_outside (h : ByteWindow mem J dst 0x1000 addr) (hs : J s) {a : ℕ}
    (ha : ∀ x < 0x1000, 4 * i ≤ x → addr x ≠ a) : mem (cloneDirFrom s dst i) a = mem s a := by
  induction hn : 1024 - i generalizing s i with
  | zero => rw [cloneDirFrom, if_neg (by omega)]
  | succ k ih =>
    rw [cloneDirFrom_step (by omega),
      ih (h.storeWord_keeps hs (by omega) _) (fun x hx hxi => ha x hx (by omega)) (by omega)]
    exact h.storeWord_outside hs (by omega) _ fun k hk => ha _ (by omega) (by omega)

/-- The loop links every directory entry from `i` on. -/
theorem cloneDirFrom_inside (h : ByteWindow mem J dst 0x1000 addr)
    (hinj : ∀ x < 0x1000, ∀ y < 0x1000, addr x = addr y → x = y) (hs : J s)
    (hA : ∀ t, J t → getPhysAddr t (u32 (dst + 0x1000)) = A) {d : ℕ} (hd : d < 1024)
    (hid : i ≤ d) :
    ByteMemory.wordOf (fun k => mem (cloneDirFrom s dst i) (addr (4 * d + k))) =
      (linkedEntry (PageDirEntry.decode
        (ByteMemory.wordOf fun k => mem s (addr (4 * d + k)))) A d).encode := by
  induction hn : 1024 - i generalizing s i with
  | zero => omega
  | succ k ih =>
    rw [cloneDirFrom_step (by omega)]
    have hkeep := h.storeWord_keeps hs (o := 4 * i) (by omega)
      (linkedEntry (PageDirEntry.decode (loadWord s (u32 (dst + 4 * i))))
        (getPhysAddr s (u32 (dst + 0x1000))) i).encode
    obtain rfl | hlt := Nat.eq_or_lt_of_le hid
    · -- this step writes the entry, the steps after it do not
      have hafter : ∀ k < 4, ∀ x < 0x1000, 4 * (i + 1) ≤ x → addr x ≠ addr (4 * i + k) := by
        intro k hk x hx hxi heq
        have := hinj x hx (4 * i + k) (by omega) heq
        omega
      rw [ByteMemory.wordOf_congr fun k hk => cloneDirFrom_outside h hkeep (hafter k hk),
        h.storeWord_inside hinj hs (by omega), hA s hs, h.loadWord_eq hs (by omega)]
    · rw [ih hkeep (by omega) (by omega)]
      have hother : ∀ k < 4, ∀ l < 4, addr (4 * i + l) ≠ addr (4 * d + k) := by
        intro k hk l hl heq
        have := hinj _ (by omega) _ (by omega) heq
        omega
      rw [ByteMemory.wordOf_congr fun k hk =>
        h.storeWord_outside hs (by omega) _ fun l hl => hother k hk l hl]

/-- The stores of `clone_tables`: the state in which the new tables and the new directory
    are complete and not yet in use. -/
def filledTables (s : σ) (new : ℕ) : σ :=
  let s := memset s new 0 (0x1000 * 1025)
  let s := memcpyTables s (u32 (new + 0x1000)) (1024 * 0x1000)
  let s := memset s new 0 0x1000
  cloneDirFrom s new 0

theorem cloneTables_eq (s : σ) : cloneTables s =
    (getPhysAddr (filledTables (allocSequential s 1025).2 (allocSequential s 1025).1)
        (allocSequential s 1025).1,
      switchTables (filledTables (allocSequential s 1025).2 (allocSequential s 1025).1)
        (u32 ((allocSequential s 1025).1 + 0x1000))
        (getPhysAddr (filledTables (allocSequential s 1025).2 (allocSequential s 1025).1)
          (allocSequential s 1025).1)) := rfl

section Filled

variable {c : ℕ → BitVec 8}

theorem filledTables_eq (s : σ) (hdst : dst < 0x100000000) : filledTables s dst =
    cloneDirFrom (memcpyFrom (fun _ _ => 0)
      (memcpyFrom tableByte (memcpyFrom (fun _ _ => 0) s dst (0x1000 * 1025) 0)
        (u32 (dst + 0x1000)) (1024 * 0x1000) 0) dst 0x1000 0) dst 0 := by
  rw [← memset_eq_memcpyFrom_zero _ _ _ hdst, ← memset_eq_memcpyFrom_zero _ _ _ hdst]
  rfl

theorem ByteWindow.dir (h : ByteWindow mem J dst (0x1000 * 1025) addr) (hdst : dst < 0x100000000) :
    ByteWindow mem J dst 0x1000 addr := by
  simpa [u32, Nat.mod_eq_of_lt hdst] using h.sub (o := 0) (m := 0x1000) (by omega)

theorem filledTables_keeps (h : ByteWindow mem J dst (0x1000 * 1025) addr)
    (hdst : dst < 0x100000000) (hs : J s) : J (filledTables s dst) := by
  have hsub := h.sub (o := 0x1000) (m := 1024 * 0x1000) (by omega)
  have hdir := h.dir hdst
  rw [filledTables_eq s hdst]
  refine cloneDirFrom_keeps hdir (memcpyFrom_keeps _ hdir ?_ (le_refl _))
  exact memcpyFrom_keeps _ hsub (memcpyFrom_keeps _ h hs (le_refl _)) (le_refl _)

theorem filledTables_outside (h : ByteWindow mem J dst (0x1000 * 1025) addr)
    (hdst : dst < 0x100000000) (hs : J s) {a : ℕ} (ha : ∀ x < 0x1000 * 1025, addr x ≠ a) :
    mem (filledTables s dst) a = mem s a := by
  have hsub := h.sub (o := 0x1000) (m := 1024 * 0x1000) (by omega)
  have hdir := h.dir hdst
  rw [filledTables_eq s hdst]
  have h1 := memcpyFrom_keeps (i := 0) (fun _ _ => 0) h hs (le_refl _)
  have h2 := memcpyFrom_keeps (i := 0) tableByte hsub h1 (le_refl _)
  have h3 := memcpyFrom_keeps (i := 0) (fun _ _ => 0) hdir h2 (le_refl _)
  rw [cloneDirFrom_outside hdir h3 fun x hx _ => ha x (by omega),
    memcpyFrom_outside _ hdir h2 (le_refl _) fun x hx => ha x (by omega),
    memcpyFrom_outside _ hsub h1 (le_refl _) fun x hx => ha _ (by omega),
    memcpyFrom_outside _ h hs (le_refl _) ha]

/-- The tables of the new address space are the bytes of the old ones. -/
theorem filledTables_table (h : ByteWindow mem J dst (0x1000 * 1025) addr)
    (hinj : ∀ x < 0x1000 * 1025, ∀ y < 0x1000 * 1025, addr x = addr y → x = y)
    (hdst : dst < 0x100000000) (hs : J s)
    (hc : ∀ t, J t → ∀ x < 1024 * 0x1000, tableByte t x = c x) :
    ∀ x < 1024 * 0x1000, mem (filledTables s dst) (addr (0x1000 + x)) = c x := by
  intro x hx
  have hsub := h.sub (o := 0x1000) (m := 1024 * 0x1000) (by omega)
  have hdir := h.dir hdst
  -- the directory occupies the first page, so its stores miss the tables
  have hmiss : ∀ y < 0x1000, addr y ≠ addr (0x1000 + x) := by
    intro y hy heq
    have := hinj y (by omega) _ (by omega) heq
    omega
  rw [filledTables_eq s hdst]
  have h1 := memcpyFrom_keeps (i := 0) (fun _ _ => 0) h hs (le_refl _)
  have h2 := memcpyFrom_keeps (i := 0) tableByte hsub h1 (le_refl _)
  have h3 := memcpyFrom_keeps (i := 0) (fun _ _ => 0) hdir h2 (le_refl _)
  rw [cloneDirFrom_outside hdir h3 fun y hy _ => hmiss y hy,
    memcpyFrom_outside _ hdir h2 (le_refl _) hmiss]
  refine memcpyFrom_inside _ hsub (fun y hy z hz heq => ?_) h1 (le_refl _) hc
    (fun y hy => absurd hy (by omega)) x hx
  have := hinj _ (by omega) _ (by omega) heq
  omega

/-- Entry `d` of the new directory names the `d`-th page behind it. -/
theorem filledTables_dir (h : ByteWindow mem J dst (0x1000 * 1025) addr)
    (hinj : ∀ x < 0x1000, ∀ y < 0x1000, addr x = addr y → x = y)
    (hdst : dst < 0x100000000) (hs : J s)
    (hA : ∀ t, J t → getPhysAddr t (u32 (dst + 0x1000)) = A) {d : ℕ} (hd : d < 1024) :
    ByteMemory.wordOf (fun k => mem (filledTables s dst) (addr (4 * d + k))) =
      (linkedEntry (PageDirEntry.decode 0) A d).encode := by
  have hsub := h.sub (o := 0x1000) (m := 1024 * 0x1000) (by omega)
  have hdir := h.dir hdst
  rw [filledTables_eq s hdst]
  have h1 := memcpyFrom_keeps (i := 0) (fun _ _ => 0) h hs (le_refl _)
  have h2 := memcpyFrom_keeps (i := 0) tableByte hsub h1 (le_refl _)
  have h3 := memcpyFrom_keeps (i := 0) (fun _ _ => 0) hdir h2 (le_refl _)
  have hzero := memcpyFrom_inside (i := 0) (c := fun _ => 0) (fun _ _ => 0) hdir hinj h2
    (le_refl _) (fun _ _ _ _ => rfl) fun x hx => absurd hx (by omega)
  rw [cloneDirFrom_inside hdir hinj h3 hA hd (Nat.zero_le d),
    ByteMemory.wordOf_congr fun k hk => hzero (4 * d + k) (by omega)]
  rfl

end Filled

end Directory

end Loops

/-! ### Windows of a flat state -/

namespace Flat

/-- The table and the bitmap of a flat state, which no store changes. -/
def HasTables (tables : ℕ → PageTableEntry) (pmemUsed : Bitmap) (s : Flat) : Prop :=
  s.tables = tables ∧ s.pmemUsed = pmemUsed

/-- Consecutive present pages form a window onto their frames. -/
theorem byteWindow (tables : ℕ → PageTableEntry) (pmemUsed : Bitmap) {i n : ℕ} (frame : ℕ → ℕ)
    (hp : ∀ k, k * 0x1000 < n → (tables ((i + k) % 0x100000)).present = true)
    (hf : ∀ k, k * 0x1000 < n → (tables ((i + k) % 0x100000)).frame = frame k) :
    ByteWindow Flat.phys (HasTables tables pmemUsed) (i * 0x1000) n
      (fun x => frame (x / 0x1000) * 0x1000 + x % 0x1000) := by
  have htr : ∀ s, HasTables tables pmemUsed s → ∀ x < n,
      s.translate (u32 (i * 0x1000 + x)) = some (frame (x / 0x1000) * 0x1000 + x % 0x1000) := by
    rintro s ⟨rfl, -⟩ x hx
    have hpage : u32 (i * 0x1000 + x) / 0x1000 = (i + x / 0x1000) % 0x100000 := by
      simp only [u32]
      omega
    have hoff : u32 (i * 0x1000 + x) % 0x1000 = x % 0x1000 := by
      simp only [u32]
      omega
    have hk : x / 0x1000 * 0x1000 < n := by omega
    simp only [translate]
    rw [hpage, hoff, ← hf _ hk]
    exact if_pos (hp _ hk)
  constructor
  · intro s hs x hx
    show s.load _ = _
    simp only [load]
    rw [htr s hs x hx]
  · intro s hs x hx b
    show (s.store _ b).phys = _
    simp only [store]
    rw [htr s hs x hx]
  · intro s hs x hx b
    exact ⟨(s.store_tables _ b).trans hs.1, (s.store_pmemUsed _ b).trans hs.2⟩

/-- Byte `x` of frame `f`. -/
def frameByte (f x : ℕ) : ℕ := f * 0x1000 + x

theorem frameByte_frame (f : ℕ) {x : ℕ} (hx : x < 0x1000) : frameByte f x / 0x1000 = f := by
  simp only [frameByte]
  omega

/-- A present page is a window onto its frame. -/
theorem pageWindow (tables : ℕ → PageTableEntry) (pmemUsed : Bitmap) {i : ℕ} (hi : i < 0x100000)
    (hp : (tables i).present = true) :
    ByteWindow Flat.phys (HasTables tables pmemUsed) (i * 0x1000) 0x1000
      (frameByte (tables i).frame) := by
  have hwin := byteWindow tables pmemUsed (i := i) (n := 0x1000) (fun _ => (tables i).frame)
    (fun k hk => by rw [show (i + k) % 0x100000 = i by omega, hp])
    (fun k hk => by rw [show (i + k) % 0x100000 = i by omega])
  refine ⟨fun s hs x hx => ?_, fun s hs x hx b => ?_, hwin.keeps⟩
  · rw [hwin.load_eq s hs x hx, frameByte, Nat.mod_eq_of_lt hx]
  · rw [hwin.store_eq s hs x hx b, frameByte, Nat.mod_eq_of_lt hx]

end Flat

/-- Distinct offsets of a window onto distinct frames are distinct bytes. -/
theorem frameOffset_inj (frame : ℕ → ℕ) {n : ℕ}
    (hinj : ∀ k, k * 0x1000 < n → ∀ l, l * 0x1000 < n → frame k = frame l → k = l) :
    ∀ x < n, ∀ y < n, frame (x / 0x1000) * 0x1000 + x % 0x1000 =
      frame (y / 0x1000) * 0x1000 + y % 0x1000 → x = y := by
  intro x hx y hy heq
  have hframe : frame (x / 0x1000) = frame (y / 0x1000) := by omega
  have := hinj _ (by omega) _ (by omega) hframe
  omega

end FirstOs
