import FirstOs.Memory.Outcome

/-!
# Who can reach a page

The user bit of an entry is written by `mark_user` only. It outlives the mapping: `unmap_vaddr`
leaves it, and `map_addr` takes it over for the next owner of the page.

The run below keeps two sets beside the state: the pages whose last `mark_user` made them user
pages, and the pages an allocator has handed out and that have not been made user pages since.

## Main results

- `KeepsUser` — the calls that leave every user bit
- `freeAllUserPages_of_user_eq_false` — `free_all_user_pages` leaves the pages without the bit
- `supervisorOnly_iff` — when the pages handed out stay out of reach
-/

namespace FirstOs

open AddressSpace

-- ════════════════════════════════════════════════════════════════════════
-- The user bits
-- ════════════════════════════════════════════════════════════════════════

/-- Every entry has the same user bit in both states. -/
def KeepsUser (s t : Flat) : Prop := ∀ i, (t.tables i).user = (s.tables i).user

section Keeps

variable {s t : Flat} {v n : ℕ}

theorem KeepsUser.refl (s : Flat) : KeepsUser s s := fun _ => rfl

theorem KeepsUser.mapAddr (h : KeepsUser s t) (v paddr : ℕ) :
    KeepsUser s (FirstOs.mapAddr t v paddr) := by
  intro i
  rw [Flat.mapAddr_tables, ← h i]
  by_cases hi : i = v / 0x1000
  · rw [hi, Function.update_self]
    rfl
  · rw [Function.update_of_ne hi]

theorem KeepsUser.unmapVaddr (h : KeepsUser s t) (v : ℕ) :
    KeepsUser s (FirstOs.unmapVaddr t v) := by
  intro i
  rw [Flat.unmapVaddr_tables, ← h i]
  by_cases hi : i = v / 0x1000
  · rw [hi, Function.update_self]
    rfl
  · rw [Function.update_of_ne hi]

theorem keepsUser_mapPageTo : KeepsUser s (mapPageTo s v).2 := by
  rw [mapPageTo]
  dsimp only
  split_ifs
  · exact KeepsUser.refl s
  · exact KeepsUser.refl s
  · exact (KeepsUser.refl s).mapAddr _ _

theorem keepsUser_allocPage : KeepsUser s (allocPage s n).2 := by
  rw [allocPage_eq_window]
  cases allocPageWindow s n with
  | none => exact KeepsUser.refl s
  | some w =>
    exact allocPageMap_induct (P := fun t => KeepsUser s t) (fun _ _ _ _ ht => ht.mapAddr _ _)
      (KeepsUser.refl s)

theorem keepsUser_allocSequential : KeepsUser s (allocSequential s n).2 := by
  rw [allocSequential_eq_window]
  cases allocSequentialWindow s n with
  | none => exact KeepsUser.refl s
  | some w =>
    cases hj : sequentialFrom (AddressSpace.pmemUsed s) n 0x1000 with
    | none => exact KeepsUser.refl s
    | some j =>
      exact sequentialMap_induct (P := fun t => KeepsUser s t) (fun _ _ _ ht => ht.mapAddr _ _)
        (KeepsUser.refl s)

theorem KeepsUser.freePage (h : KeepsUser s t) (v n : ℕ) :
    KeepsUser s (FirstOs.freePage t v n) :=
  freePageFrom_induct (P := fun t => KeepsUser s t) (fun _ _ _ ht => ht.unmapVaddr _) h

theorem keepsUser_freeAllUserPages : KeepsUser s (freeAllUserPages s) := by
  suffices hall : ∀ i t, KeepsUser s t → KeepsUser s (freeAllUserPagesFrom t i) from
    hall 0 s (KeepsUser.refl s)
  intro i t ht
  fun_induction freeAllUserPagesFrom t i with
  | case1 t i hi huser ih => exact ih (ht.freePage _ _)
  | case2 t i hi huser ih => exact ih ht
  | case3 t i hi => exact ht

/-- `free_all_user_pages` frees user pages only. -/
theorem freeAllUserPages_of_user_eq_false {j : ℕ} (h : (s.tables j).user = false) :
    (freeAllUserPages s).tables j = s.tables j := by
  suffices hall : ∀ i (t : Flat), t.tables j = s.tables j →
      (freeAllUserPagesFrom t i).tables j = s.tables j from hall 0 s rfl
  intro i t ht
  fun_induction freeAllUserPagesFrom t i with
  | case1 t i hi huser ih =>
    have hpage : u32 (i * 0x1000 + 0 * 0x1000) / 0x1000 = i := by
      simp only [u32]
      omega
    have hne : j ≠ i := by
      rintro rfl
      rw [Flat.entry_eq, ht, h, Bool.false_and] at huser
      exact Bool.false_ne_true huser
    refine ih ?_
    rw [FirstOs.freePage, freePageFrom, if_pos (by decide), freePageFrom, if_neg (by decide),
      Flat.unmapVaddr_tables, hpage, Function.update_of_ne hne, ht]
  | case2 t i hi huser ih => exact ih ht
  | case3 t i hi => exact ht

end Keeps

-- ════════════════════════════════════════════════════════════════════════
-- Runs
-- ════════════════════════════════════════════════════════════════════════

/-- The state of a run. -/
structure UserState where
  flat : Flat
  /-- The pages whose last `mark_user` made them user pages. -/
  marked : Set ℕ
  /-- The pages handed out by an allocator that have not been made user pages since. -/
  handed : Set ℕ

/-- An allocator has returned `r.1` for `n` pages. -/
def UserState.handOut (s : UserState) (r : ℕ × Flat) (n : ℕ) : UserState where
  flat := r.2
  marked := s.marked
  handed := if r.1 = 0 then s.handed else s.handed ∪ rangePages r.1 n

/-- A call with its 32-bit arguments. -/
inductive UserCall where
  | allocPage (n : BitVec 32)
  | allocSequential (n : BitVec 32)
  | mapPageTo (v : BitVec 32)
  | markUser (v : BitVec 32) (user : Bool)
  | freePage (v n : BitVec 32)
  | freeAllUserPages

namespace UserCall

/-- The state a call leaves. -/
def exec : UserCall → UserState → UserState
  | allocPage n, s => s.handOut (FirstOs.allocPage s.flat n.toNat) n.toNat
  | allocSequential n, s => s.handOut (FirstOs.allocSequential s.flat n.toNat) n.toNat
  | mapPageTo v, s => { s with flat := (FirstOs.mapPageTo s.flat v.toNat).2 }
  | markUser v true, s =>
    { flat := FirstOs.markUser s.flat v.toNat true
      marked := insert (v.toNat / 0x1000) s.marked
      handed := s.handed \ {v.toNat / 0x1000} }
  | markUser v false, s =>
    { flat := FirstOs.markUser s.flat v.toNat false
      marked := s.marked \ {v.toNat / 0x1000}
      handed := s.handed }
  | freePage v n, s => { s with flat := FirstOs.freePage s.flat v.toNat n.toNat }
  | freeAllUserPages, s => { s with flat := FirstOs.freeAllUserPages s.flat }

/-- No page of a block the call hands out is one whose last `mark_user` made it a user page. -/
def Unmarked : UserCall → UserState → Prop
  | allocPage n, s => ∀ w, FirstWindow s.flat n.toNat w →
      n.toNat ≤ (freeFrames s.flat.pmemUsed).card →
        ∀ i ∈ rangePages (w * 0x1000) n.toNat, i ∉ s.marked
  | allocSequential n, s => ∀ w, FirstWindow s.flat n.toNat w → n.toNat < 0xFFFFFFFF →
      FreeRun s.flat.pmemUsed n.toNat →
        ∀ i ∈ rangePages (w * 0x1000) n.toNat, i ∉ s.marked
  | _, _ => True

end UserCall

/-- A call, and the memory behind the table at the call. -/
structure UserEvent where
  call : UserCall
  behind : ℕ → PageTableEntry

namespace UserEvent

/-- The state in which the call is made. -/
def before (e : UserEvent) (s : UserState) : UserState := { s with flat := s.flat.behind e.behind }

def act (e : UserEvent) (s : UserState) : Option UserState := some (e.call.exec (e.before s))

/-- The condition on a step. -/
def Unmarked (e : UserEvent) (s : UserState) : Prop := e.call.Unmarked (e.before s)

end UserEvent

/-- The pages handed out have their user bit clear, and `free_all_user_pages` leaves them. -/
def SupervisorOnly (s : UserState) : Prop :=
  ∀ i ∈ s.handed, (s.flat.tables i).user = false ∧
    (freeAllUserPages s.flat).tables i = s.flat.tables i

/-- The user bits are those `mark_user` has set, and pages handed out are in the table. -/
structure UserBits (s : UserState) : Prop where
  user : ∀ i < 0x100000, (s.flat.tables i).user = true ↔ i ∈ s.marked
  handed : ∀ i ∈ s.handed, i < 0x100000

section Step

variable {s : UserState} {t : Flat} {r : ℕ × Flat} {n : ℕ}

/-- What `free_all_user_pages` leaves follows from the user bits. -/
theorem supervisorOnly_iff_user :
    SupervisorOnly s ↔ ∀ i ∈ s.handed, (s.flat.tables i).user = false :=
  ⟨fun h i hi => (h i hi).1, fun h i hi => ⟨h i hi, freeAllUserPages_of_user_eq_false (h i hi)⟩⟩

theorem UserBits.user_eq_false_iff (h : UserBits s) {i : ℕ} (hi : i < 0x100000) :
    (s.flat.tables i).user = false ↔ i ∉ s.marked := by
  rw [← h.user i hi, Bool.not_eq_true]

theorem UserBits.keep (h : UserBits s) (ht : KeepsUser s.flat t) :
    UserBits { s with flat := t } := by
  refine ⟨fun i hi => ?_, h.handed⟩
  rw [ht i]
  exact h.user i hi

theorem UserBits.handOut (h : UserBits s) (hr : KeepsUser s.flat r.2) :
    UserBits (s.handOut r n) := by
  refine ⟨(h.keep hr).user, fun i hi => ?_⟩
  rw [UserState.handOut] at hi
  dsimp only at hi
  split_ifs at hi
  · exact h.handed i hi
  · obtain hi | hi := hi
    · exact h.handed i hi
    · exact lt_of_mem_rangePages hi

theorem UserBits.before (h : UserBits s) (e : UserEvent) : UserBits (e.before s) := by
  refine ⟨fun i hi => ?_, h.handed⟩
  rw [UserEvent.before, Flat.behind_tables _ _ hi]
  exact h.user i hi

theorem UserBits.exec (h : UserBits s) (c : UserCall) : UserBits (c.exec s) := by
  cases c with
  | allocPage n => exact h.handOut keepsUser_allocPage
  | allocSequential n => exact h.handOut keepsUser_allocSequential
  | mapPageTo v => exact h.keep keepsUser_mapPageTo
  | freePage v n => exact h.keep ((KeepsUser.refl _).freePage _ _)
  | freeAllUserPages => exact h.keep keepsUser_freeAllUserPages
  | markUser v user =>
    have htables : (markUser s.flat v.toNat user).tables =
        Function.update s.flat.tables (v.toNat / 0x1000)
          { s.flat.tables (v.toNat / 0x1000) with user := user } := rfl
    cases user with
    | true =>
      refine ⟨fun i hi => ?_, fun i hi => h.handed i hi.1⟩
      change ((markUser s.flat v.toNat true).tables i).user = true ↔ i ∈ insert _ s.marked
      rw [htables, Set.mem_insert_iff]
      by_cases hiv : i = v.toNat / 0x1000
      · rw [hiv, Function.update_self]
        exact ⟨fun _ => .inl rfl, fun _ => rfl⟩
      · rw [Function.update_of_ne hiv, h.user i hi]
        exact ⟨.inr, fun hmem => hmem.resolve_left hiv⟩
    | false =>
      refine ⟨fun i hi => ?_, h.handed⟩
      change ((markUser s.flat v.toNat false).tables i).user = true ↔ i ∈ s.marked \ {_}
      rw [htables, Set.mem_sdiff, Set.mem_singleton_iff]
      by_cases hiv : i = v.toNat / 0x1000
      · rw [hiv, Function.update_self]
        exact ⟨fun hfalse => absurd hfalse Bool.false_ne_true, fun hmem => absurd rfl hmem.2⟩
      · rw [Function.update_of_ne hiv, h.user i hi]
        exact ⟨fun hmem => ⟨hmem, hiv⟩, And.left⟩

/-- Handing out a block keeps the pages out of reach when its pages are. -/
theorem UserBits.handOut_iff (h : UserBits s) (hr : KeepsUser s.flat r.2)
    (hs : SupervisorOnly s) : SupervisorOnly (s.handOut r n) ↔
      (r.1 ≠ 0 → ∀ i ∈ rangePages r.1 n, i ∉ s.marked) := by
  rw [supervisorOnly_iff_user] at hs ⊢
  have huser : ∀ i, ((s.handOut r n).flat.tables i).user = (s.flat.tables i).user := hr
  constructor
  · intro hall hne i hi
    rw [← h.user_eq_false_iff (lt_of_mem_rangePages hi), ← huser i]
    refine hall i ?_
    simp only [UserState.handOut]
    rw [if_neg hne]
    exact .inr hi
  · intro hclear i hi
    rw [huser i]
    rw [UserState.handOut] at hi
    dsimp only at hi
    split_ifs at hi with hz
    · exact hs i hi
    · obtain hi | hi := hi
      · exact hs i hi
      · exact (h.user_eq_false_iff (lt_of_mem_rangePages hi)).mpr (hclear hz i hi)

/-- A call that leaves the user bits and hands out nothing. -/
theorem SupervisorOnly.keep (hs : SupervisorOnly s) (ht : KeepsUser s.flat t) :
    SupervisorOnly { s with flat := t } := by
  rw [supervisorOnly_iff_user] at hs ⊢
  intro i hi
  rw [ht i]
  exact hs i hi

theorem exec_allocPage_iff (h : UserBits s) (hs : SupervisorOnly s) (n : BitVec 32) :
    SupervisorOnly ((UserCall.allocPage n).exec s) ↔ (UserCall.allocPage n).Unmarked s := by
  refine (h.handOut_iff keepsUser_allocPage hs).trans ⟨fun hall w hw hcard => ?_,
    fun hall hne => ?_⟩
  · obtain hz | hpos := Nat.eq_zero_or_pos n.toNat
    · rw [hz]
      rintro i ⟨k, hk, -⟩
      omega
    · have he := allocPage_eq_of_window hw hpos hcard
      have hlower := hw.lower
      rw [he] at hall
      exact hall (by dsimp only; omega)
  · obtain ⟨w, hw, hpos, hcard⟩ := window_of_allocPage hne
    rw [allocPage_eq_of_window hw hpos hcard]
    exact hall w hw hcard

theorem exec_allocSequential_iff (h : UserBits s) (hs : SupervisorOnly s) (n : BitVec 32) :
    SupervisorOnly ((UserCall.allocSequential n).exec s) ↔
      (UserCall.allocSequential n).Unmarked s := by
  refine (h.handOut_iff keepsUser_allocSequential hs).trans ⟨fun hall w hw hmax hrun => ?_,
    fun hall hne => ?_⟩
  · obtain hz | hpos := Nat.eq_zero_or_pos n.toNat
    · rw [hz]
      rintro i ⟨k, hk, -⟩
      omega
    · obtain ⟨j, -, -, -, he⟩ := allocSequential_eq_of_window hw hpos hmax hrun
      have hlower := hw.lower
      rw [he] at hall
      exact hall (by dsimp only; omega)
  · obtain ⟨w, hw, hpos, hmax, hrun⟩ := window_of_allocSequential n.isLt hne
    obtain ⟨j, -, -, -, he⟩ := allocSequential_eq_of_window hw hpos hmax hrun
    rw [he]
    exact hall w hw hmax hrun

/-- A page that is marked is not handed out any more. -/
theorem supervisorOnly_markUser (h : UserBits s) (hs : SupervisorOnly s) (v : BitVec 32)
    (user : Bool) : SupervisorOnly ((UserCall.markUser v user).exec s) := by
  have hbits := h.exec (.markUser v user)
  have hold := fun i hi => (h.user_eq_false_iff (h.handed i hi)).mp (hs i hi).1
  rw [supervisorOnly_iff_user]
  intro i hi
  rw [hbits.user_eq_false_iff (hbits.handed i hi)]
  cases user with
  | true =>
    rintro (hiv | hmem)
    · exact hi.2 hiv
    · exact hold i hi.1 hmem
  | false => exact fun hmem => hold i hi hmem.1

/-- One call keeps the pages out of reach exactly when it hands out no page that `mark_user` has
    left a user page. -/
theorem UserCall.exec_iff (h : UserBits s) (hs : SupervisorOnly s) (c : UserCall) :
    SupervisorOnly (c.exec s) ↔ c.Unmarked s := by
  cases c with
  | allocPage n => exact exec_allocPage_iff h hs n
  | allocSequential n => exact exec_allocSequential_iff h hs n
  | mapPageTo v => exact iff_of_true (hs.keep keepsUser_mapPageTo) trivial
  | freePage v n => exact iff_of_true (hs.keep ((KeepsUser.refl _).freePage _ _)) trivial
  | freeAllUserPages => exact iff_of_true (hs.keep keepsUser_freeAllUserPages) trivial
  | markUser v user => exact iff_of_true (supervisorOnly_markUser h hs v user) trivial

end Step

/-! ### Whole runs -/

theorem UserEvent.act_iff {s : UserState} (h : UserBits s) (hs : SupervisorOnly s)
    (e : UserEvent) : (∀ t, e.act s = some t → SupervisorOnly t) ↔ e.Unmarked s := by
  have hbefore : SupervisorOnly (e.before s) := by
    rw [supervisorOnly_iff_user]
    intro i hi
    rw [UserEvent.before, Flat.behind_tables _ _ (h.handed i hi)]
    exact (hs i hi).1
  rw [UserEvent.Unmarked, ← UserCall.exec_iff (h.before e) hbefore]
  constructor
  · exact fun hall => hall _ rfl
  · intro hexec t ht
    exact Option.some.inj ht ▸ hexec

/-- From a table without user pages on, the pages handed out stay out of reach in a run exactly
    when no call hands out a page that `mark_user` has left a user page. -/
theorem supervisorOnly_iff {s₀ : Flat} (hclear : ∀ i < 0x100000, (s₀.tables i).user = false)
    (es : List UserEvent) :
    (∀ p, p <+: es → ∀ s, Run.events UserEvent.act p ⟨s₀, ∅, ∅⟩ = some s → SupervisorOnly s) ↔
      ∀ p e, p ++ [e] <+: es → ∀ s, Run.events UserEvent.act p ⟨s₀, ∅, ∅⟩ = some s →
        e.Unmarked s := by
  have hstart : UserBits ⟨s₀, ∅, ∅⟩ := by
    refine ⟨fun i hi => ?_, fun i hi => absurd hi (Set.notMem_empty i)⟩
    rw [hclear i hi]
    exact ⟨fun h => absurd h Bool.false_ne_true, fun h => absurd h (Set.notMem_empty i)⟩
  have hbits : ∀ p s, Run.events UserEvent.act p ⟨s₀, ∅, ∅⟩ = some s → UserBits s := by
    intro p s hp
    refine Run.events_invariant (I := UserBits) (fun e _ a ha b hb => ?_) hstart hp
    exact Option.some.inj hb ▸ (ha.before e).exec e.call
  refine Iff.trans ⟨fun h p hp s hs => ⟨hbits p s hs, h p hp s hs⟩,
      fun h p hp s hs => (h p hp s hs).2⟩
    (Run.events_iff (I := fun s => UserBits s ∧ SupervisorOnly s) (C := UserEvent.Unmarked)
      (fun e _ a ha => ?_) ⟨hstart, fun i hi => absurd hi (Set.notMem_empty i)⟩)
  rw [← UserEvent.act_iff ha.1 ha.2]
  refine forall_congr' fun b => forall_congr' fun hb => and_iff_right ?_
  exact Option.some.inj hb ▸ (ha.1.before e).exec e.call

/-- A call with empty entries behind the table. -/
def UserEvent.bare (c : UserCall) : UserEvent := ⟨c, fun _ => PageTableEntry.decode 0⟩

/-! ### A page that is handed out again -/

/-- A page is allocated, made a user page, freed and allocated again. -/
def reuse : List UserEvent :=
  [.bare (.allocPage 1), .bare (.markUser 0xC0000000 true)] ++
    [.bare (.freePage 0xC0000000 1), .bare (.allocPage 1)]

/-- The same, with the user bit taken back before the page is freed. -/
def reuseCleared : List UserEvent :=
  [.bare (.allocPage 1), .bare (.markUser 0xC0000000 true), .bare (.markUser 0xC0000000 false)] ++
    [.bare (.freePage 0xC0000000 1), .bare (.allocPage 1)]

theorem pmemUsed_fresh_one (b : ℕ → PageTableEntry) :
    (allocPage (Flat.fresh.behind b) 1).2.pmemUsed = Bitmap.set (fun _ => 0) 0x800 := by
  have hleast : IsLeast (searchedFrames (Flat.fresh.behind b).pmemUsed) 0x800 :=
    ⟨⟨by decide, by decide, Bitmap.bit_of_byte_eq_zero rfl⟩, fun _ hf => hf.1⟩
  have habsent : ((Flat.fresh.behind b).tables 0xC0000).present = false := by
    rw [Flat.behind_tables _ _ (by decide)]
    rfl
  rw [allocPage_one habsent hleast]
  exact claimPhysPage_frame _ 0x800

/-- A page that is freed is the next one to be handed out, with the user bit it had. -/
theorem reuse_page {s : UserState} (hused : s.flat.pmemUsed = Bitmap.set (fun _ => 0) 0x800) :
    ∃ t, Run.events UserEvent.act [.bare (.freePage 0xC0000000 1), .bare (.allocPage 1)] s =
        some t ∧ 0xC0000 ∈ t.handed ∧
      (t.flat.tables 0xC0000).user = (s.flat.tables 0xC0000).user := by
  -- the page is absent when it has been freed, and there are free frames
  obtain ⟨t, hfree, habsent, huser, hframe⟩ : ∃ t, (UserEvent.bare (.freePage 0xC0000000 1)).act s =
      some t ∧ (t.flat.tables 0xC0000).present = false ∧
      (t.flat.tables 0xC0000).user = (s.flat.tables 0xC0000).user ∧
      t.flat.pmemUsed.bit 0x801 = false := by
    have hstep : ∀ q : Flat, freePage q 0xC0000000 1 = unmapVaddr q 0xC0000000 := by
      intro q
      rw [freePage, freePageFrom, if_pos (by decide), freePageFrom, if_neg (by decide)]
    refine ⟨_, rfl, ?_⟩
    change ((freePage (s.flat.behind _) 0xC0000000 1).tables 0xC0000).present = false ∧
      ((freePage (s.flat.behind _) 0xC0000000 1).tables 0xC0000).user = _ ∧
      (freePage (s.flat.behind _) 0xC0000000 1).pmemUsed.bit 0x801 = false
    rw [hstep, Flat.unmapVaddr_tables, Flat.unmapVaddr_pmemUsed, Flat.behind_pmemUsed, hused,
      Function.update_self, Flat.behind_tables _ _ (by decide), Bitmap.bit_clear, Bitmap.bit_set]
    exact ⟨rfl, rfl, by simp [Bitmap.bit]⟩
  have hcard : 1 ≤ (freeFrames (t.flat.behind fun _ => PageTableEntry.decode 0).pmemUsed).card :=
    Finset.card_pos.mpr ⟨0x801, mem_freeFrames.mpr ⟨by decide, hframe⟩⟩
  have hwindow := firstWindow_one (s := t.flat.behind fun _ => PageTableEntry.decode 0)
    (by rw [Flat.behind_tables _ _ (by decide), habsent])
  have halloc := allocPage_eq_of_window hwindow (by decide) hcard
  refine ⟨_, Run.events_cons hfree, ?_, (keepsUser_allocPage 0xC0000).trans ?_⟩
  · change 0xC0000 ∈ (UserState.handOut _ (allocPage (t.flat.behind fun _ =>
      PageTableEntry.decode 0) 1) 1).handed
    rw [UserState.handOut, halloc]
    dsimp only
    rw [if_neg (by decide)]
    exact .inr ⟨0, by decide, by decide⟩
  · rw [← huser]
    exact congrArg PageTableEntry.user (Flat.behind_tables _ _ (by decide))

/-- The page is handed out twice, and is no user page after the second time. -/
theorem supervisorOnly_iff_reuseCleared :
    ∃ s, Run.events UserEvent.act reuseCleared ⟨Flat.fresh, ∅, ∅⟩ = some s ∧
      0xC0000 ∈ s.handed ∧ SupervisorOnly s := by
  obtain ⟨s, hrun, hused⟩ : ∃ s, Run.events UserEvent.act
      [.bare (.allocPage 1), .bare (.markUser 0xC0000000 true),
        .bare (.markUser 0xC0000000 false)] ⟨Flat.fresh, ∅, ∅⟩ = some s ∧
      s.flat.pmemUsed = Bitmap.set (fun _ => 0) 0x800 :=
    ⟨_, rfl, pmemUsed_fresh_one _⟩
  obtain ⟨t, hreuse, hmem, -⟩ := reuse_page hused
  have hall : Run.events UserEvent.act reuseCleared ⟨Flat.fresh, ∅, ∅⟩ = some t := by
    rw [reuseCleared, Run.events_append_of hrun, hreuse]
  refine ⟨t, hall, hmem, (supervisorOnly_iff (fun _ _ => rfl) reuseCleared).mpr ?_ _
    (List.prefix_refl _) _ hall⟩
  refine Run.condition_cons ?_ rfl (Run.condition_cons trivial rfl (Run.condition_cons trivial rfl
    (Run.condition_cons trivial rfl (Run.condition_cons ?_ rfl Run.condition_nil))))
  · exact fun w _ _ i _ => Set.notMem_empty i
  · rintro w - - i - ⟨hi | hi, hne⟩
    · exact hne hi
    · exact hi

/-- The page handed out last has its user bit set. -/
theorem reuse_user : ∃ s, Run.events UserEvent.act reuse ⟨Flat.fresh, ∅, ∅⟩ = some s ∧
    0xC0000 ∈ s.handed ∧ (s.flat.tables 0xC0000).user = true := by
  obtain ⟨s, hrun, huser, hused⟩ : ∃ s, Run.events UserEvent.act
      [.bare (.allocPage 1), .bare (.markUser 0xC0000000 true)] ⟨Flat.fresh, ∅, ∅⟩ = some s ∧
      (s.flat.tables 0xC0000).user = true ∧ s.flat.pmemUsed = Bitmap.set (fun _ => 0) 0x800 :=
    ⟨_, rfl, rfl, pmemUsed_fresh_one _⟩
  obtain ⟨t, hreuse, hmem, hkept⟩ := reuse_page hused
  exact ⟨t, by rw [reuse, Run.events_append_of hrun, hreuse], hmem, hkept.trans huser⟩

theorem not_supervisorOnly : ¬ ∀ s₀ : Flat, (∀ i < 0x100000, (s₀.tables i).user = false) →
    ∀ es : List UserEvent, ∀ p, p <+: es → ∀ s,
      Run.events UserEvent.act p ⟨s₀, ∅, ∅⟩ = some s → SupervisorOnly s := by
  intro hall
  obtain ⟨s, hrun, hmem, huser⟩ := reuse_user
  have hclear := (hall Flat.fresh (fun _ _ => rfl) reuse _ (List.prefix_refl _) s hrun _ hmem).1
  rw [huser] at hclear
  exact absurd hclear (by decide)

end FirstOs
