import FirstOs.Heap.Runs
import Mathlib.Order.CompletePartialOrder
import Mathlib.Order.Interval.Set.Disjoint

/-!
# Payloads that stay apart

A block `malloc` cuts keeps the next header 16 bytes behind its own, inside the
payload it returns, unless no byte was asked for. In a run whose calls do not cut a
block for a positive size, the blocks tile the heap up to the last one, and a payload
lies in its own block.

## Main definitions

- `HeapSafe` — payloads, headers and the end of the heap do not overlap
- `SafeCall` — the calls that keep this
- `SafeInv` — the invariant

## Main results

- `heapSafe_of_run` — runs of such calls are safe
- `not_heapSafe` — a single call that asks for one byte is not
-/

namespace FirstOs

open Relation

/-- The addresses of the headers on the list. -/
inductive OnList (h : HeapState) : ℕ → Prop
  | start : OnList h h.curHeap.heapStart
  | next {a : ℕ} (ha : OnList h a) (hne : (h.mem a).next ≠ 0) : OnList h (h.mem a).next

/-- The bytes a client may use. -/
def Allocation.bytes (a : Allocation) : Set ℕ := Set.Ico a.ptr (a.ptr + a.size)

/-- No two live payloads overlap, none overlaps a header on the list, and all lie in the
    pages of the heap. -/
structure HeapSafe (base pages : ℕ) (s : Client) : Prop where
  apart : s.live.Pairwise fun a b => Disjoint a.bytes b.bytes
  headers : ∀ a ∈ s.live, ∀ c, OnList s.heap c → Disjoint a.bytes (Set.Ico c (c + 16))
  inside : ∀ a ∈ s.live, a.bytes ⊆ Set.Ico base (base + pages * 0x1000)

/-- A call that cuts a block for no byte only, takes a block whole only up to the address
    `limit`, and does not meet a broken link. -/
def SafeCall (limit : ℕ) (h : HeapState) : HeapCall → Prop
  | .malloc size => ∀ P b Q, FirstUnused h P b Q →
      (Q = [] → size.toNat = 0 ∧ b.addr + 16 < 0x100000000 ∨ Starves h b.addr size.toNat) ∧
      (Q ≠ [] → Cuts b size.toNat → size.toNat = 0) ∧
      (Q ≠ [] → 0 < size.toNat → size.toNat ≤ b.size → b.addr + 16 + size.toNat ≤ limit)
  | .free ptr => LinksOk h (.free ptr)

/-- Each block ends where the next one begins. -/
def Tiled (L : List HeapBlock) : Prop := L.IsChain fun b c => b.addr + 16 + b.size = c.addr

/-- The invariant of safe runs. -/
structure SafeInv (base pages : ℕ) (s : Client) (L : List HeapBlock) : Prop extends
    HeapInv base pages s L where
  tiled : Tiled L
  room : ∀ a ∈ s.live, ∃ b ∈ L, b.used = true ∧ a.ptr = b.addr + 16 ∧ a.size ≤ b.size
  inside : ∀ a ∈ s.live, 0 < a.size → a.ptr + a.size ≤ base + pages * 0x1000

section Tiles

variable {P Q L : List HeapBlock} {b c d x : HeapBlock}

theorem tiled_append_cons : Tiled (P ++ b :: Q) ↔ Tiled P ∧ Tiled Q ∧
    (∀ e ∈ P.getLast?, e.addr + 16 + e.size = b.addr) ∧
      ∀ d ∈ Q.head?, b.addr + 16 + b.size = d.addr :=
  isChain_append_cons

/-- In a tiled list each block ends before all later ones. -/
theorem Tiled.pairwise (h : Tiled L) : L.Pairwise fun b c => b.addr + 16 + b.size ≤ c.addr := by
  have htrans : IsTrans HeapBlock fun b c => b.addr + 16 + b.size ≤ c.addr :=
    ⟨fun b c d hbc hcd => by omega⟩
  rw [← List.isChain_iff_pairwise]
  exact h.imp fun b c heq => heq.le

theorem tiled_freePrev (hP : Tiled P) (hQ : Tiled Q)
    (hlast : ∀ e ∈ P.getLast?, e.addr + 16 + e.size = c.addr)
    (hhead : ∀ d ∈ Q.head?, c.addr + 16 + c.size = d.addr)
    (hlt : ∀ d ∈ Q, d.addr < 0x100000000) : Tiled (freePrev P c Q) := by
  obtain ⟨-, heq⟩ | ⟨R, e, rfl, -, heq⟩ := freePrev_cases P c Q
  · rw [heq]
    exact tiled_append_cons.mpr ⟨hP, hQ, hlast, hhead⟩
  · obtain ⟨hR, -, hRe, -⟩ := tiled_append_cons.mp hP
    have hec := hlast e List.getLast?_concat
    rw [heq]
    refine tiled_append_cons.mpr ⟨hR, hQ, hRe, fun d hd => ?_⟩
    have hcd := hhead d hd
    have hd' := hlt d (List.mem_of_mem_head? hd)
    show e.addr + 16 + u32 (e.size + (c.size + 16)) = d.addr
    simp only [u32]
    omega

/-- Freeing a block of a tiled list leaves a tiled list. -/
theorem tiled_freeList (h : Tiled (P ++ c :: d :: Q)) (hlt : ∀ x ∈ d :: Q, x.addr < 0x100000000) :
    Tiled (freeList P c (d :: Q)) := by
  obtain ⟨hP, hdQ, hlast, hhead⟩ := tiled_append_cons.mp h
  have hcd := hhead d (List.head?_cons ..)
  cases hd : d.used with
  | true =>
    rw [freeList_used hd]
    exact tiled_freePrev hP hdQ hlast hhead hlt
  | false =>
    obtain ⟨-, hQ, -, hnext⟩ := (tiled_append_cons (P := [])).mp hdQ
    rw [freeList_unused hd]
    refine tiled_freePrev hP hQ hlast (fun x hx => ?_)
      fun x hx => hlt x (List.mem_cons_of_mem d hx)
    have hdx := hnext x hx
    have hx' := hlt x (List.mem_cons_of_mem d (List.mem_of_mem_head? hx))
    show c.addr + 16 + u32 (c.size + (d.size + 16)) = x.addr
    simp only [u32]
    omega

theorem mem_freePrev (hx : x ∈ P ∨ x ∈ Q) (hu : x.used = true) : x ∈ freePrev P c Q := by
  obtain ⟨-, heq⟩ | ⟨R, e, rfl, he, heq⟩ := freePrev_cases P c Q
  · rw [heq, List.mem_append, List.mem_cons]
    tauto
  · have hxe : x ≠ e := fun heq => by rw [heq, he] at hu; exact absurd hu (by decide)
    rw [heq, List.mem_append, List.mem_cons]
    rw [List.mem_append, List.mem_singleton] at hx
    tauto

/-- The other used blocks stay when one is freed. -/
theorem mem_freeList (hx : x ∈ P ∨ x ∈ d :: Q) (hu : x.used = true) :
    x ∈ freeList P c (d :: Q) := by
  cases hd : d.used with
  | true =>
    rw [freeList_used hd]
    exact mem_freePrev hx hu
  | false =>
    have hxd : x ≠ d := fun heq => by rw [heq, hd] at hu; exact absurd hu (by decide)
    rw [freeList_unused hd]
    rw [List.mem_cons] at hx
    exact mem_freePrev (by tauto) hu

end Tiles

section Steps

variable {base pages : ℕ} {s t : Client} {L L' P Q : List HeapBlock} {b c d : HeapBlock}
  {old : ℕ → AllocT} {call : HeapCall}

/-- A block behind the first unused one begins where that block ends, or later. -/
theorem SafeInv.end_le (hI : SafeInv base pages s (P ++ b :: Q)) (hc : c ∈ Q) :
    b.addr + 16 + b.size ≤ c.addr ∧ c.addr < 0x100000000 := by
  obtain ⟨-, hpair, -⟩ := List.pairwise_append.mp hI.tiled.pairwise
  exact ⟨(List.pairwise_cons.mp hpair).1 c hc, (hI.range c (by simp [hc])).2.1⟩

/-- A safe call meets no broken link. -/
theorem SafeInv.linksOk {limit : ℕ} (hI : SafeInv base pages s L)
    (hok : SafeCall limit s.heap call) : LinksOk s.heap call := by
  cases call with
  | free ptr => exact hok
  | malloc size =>
    intro P b Q hf
    obtain rfl := hI.toRepresents.unique hf.represents
    obtain ⟨hlast, hcut, -⟩ := hok P b Q hf
    refine ⟨fun hQ => (hlast hQ).imp_left And.right, fun c hc hcuts => ?_⟩
    have hzero := hcut (List.ne_nil_of_mem hc) hcuts
    have hle := (hI.end_le hc).1
    obtain ⟨-, hfit⟩ := hcuts
    rw [hzero] at hfit
    change 16 ≤ b.size at hfit
    omega

/-- The blocks stay tiled. -/
theorem BlockStep.tiled {limit : ℕ} (hs : BlockStep s L call t L') (hI : SafeInv base pages s L)
    (hok : SafeCall limit s.heap call) : Tiled L' := by
  have htiled := hI.tiled
  cases hs with
  | take hf hQ _ _ =>
    obtain ⟨hP, hQ', hPb, hbQ⟩ := tiled_append_cons.mp htiled
    exact tiled_append_cons.mpr ⟨hP, hQ', hPb, hbQ⟩
  | @cut P Q b size hf hQ hcut _ =>
    obtain ⟨hP, hQ', hPb, hbQ⟩ := tiled_append_cons.mp htiled
    have hzero := (hok P b Q hf).2.1 hQ hcut
    have hfit := hcut.2
    rw [hzero] at hfit ⊢
    change 16 ≤ b.size at hfit
    refine tiled_append_cons.mpr ⟨hP, ?_, hPb, fun d hd => ?_⟩
    · refine (tiled_append_cons (P := [])).mpr ⟨List.isChain_nil, hQ', fun e he =>
        absurd he (by simp), fun d hd => ?_⟩
      have hbd := hbQ d hd
      have hlt := (hI.end_le (List.mem_of_mem_head? hd)).2
      show b.addr + 16 + 16 + u32 (b.size + 0x100000000 - 16) = d.addr
      simp only [u32]
      omega
    · rw [List.head?_cons, Option.mem_some_iff] at hd
      subst hd
      rfl
  | fail hf _ =>
    obtain ⟨hP, -, hPb, -⟩ := tiled_append_cons.mp htiled
    exact tiled_append_cons.mpr ⟨hP, List.isChain_nil, hPb, fun d hd => absurd hd (by simp)⟩
  | @cutLast P b size k hf _ hroom _ =>
    obtain ⟨hP, -, hPb, -⟩ := tiled_append_cons.mp htiled
    obtain ⟨hzero, -⟩ := ((hok P b [] hf).1 rfl).resolve_right hroom
    rw [hzero]
    refine tiled_append_cons.mpr ⟨hP, List.isChain_singleton _, hPb, fun d hd => ?_⟩
    rw [List.head?_cons, Option.mem_some_iff] at hd
    subst hd
    rfl
  | free hrep _ _ _ _ =>
    refine tiled_freeList htiled fun x hx => (hrep.range x ?_).2.1
    exact List.mem_append_right _ (List.mem_cons_of_mem _ hx)

/-- The pointers of a heap differ. -/
theorem HeapInv.nodup_live (hI : HeapInv base pages s L) : (s.live.map Allocation.ptr).Nodup := by
  rw [hI.live.nodup_iff, usedPtrs, List.Nodup, List.pairwise_map]
  exact (hI.increasing.filter _).imp fun hlt heq => hlt.ne (by omega)

/-- A block that stays on the list keeps its allocations. -/
theorem room_mono {live : List Allocation} (hsub : ∀ b ∈ L, b.used = true → b ∈ L')
    (h : ∀ a ∈ live, ∃ b ∈ L, b.used = true ∧ a.ptr = b.addr + 16 ∧ a.size ≤ b.size) :
    ∀ a ∈ live, ∃ b ∈ L', b.used = true ∧ a.ptr = b.addr + 16 ∧ a.size ≤ b.size := by
  intro a ha
  obtain ⟨b, hb, hu, hroom⟩ := h a ha
  exact ⟨b, hsub b hb hu, hu, hroom⟩

theorem mem_append_of_used {R : List HeapBlock} (hb : b.used = false) (hsub : ∀ x ∈ Q, x ∈ R) :
    ∀ x ∈ P ++ b :: Q, x.used = true → x ∈ P ++ R := by
  intro x hx hu
  rw [List.mem_append, List.mem_cons] at hx
  obtain hx | rfl | hx := hx
  · exact List.mem_append_left R hx
  · rw [hb] at hu
    exact absurd hu (by decide)
  · exact List.mem_append_right P (hsub x hx)

/-- Every allocation keeps its block. -/
theorem BlockStep.room (hs : BlockStep s L call t L') (hI : SafeInv base pages s L) :
    ∀ a ∈ t.live, ∃ b ∈ L', b.used = true ∧ a.ptr = b.addr + 16 ∧ a.size ≤ b.size := by
  have hroom := hI.room
  cases hs with
  | @take P Q b size hf _ hsize _ =>
    refine List.forall_mem_cons.mpr ⟨⟨⟨b.addr, b.size, true⟩, by simp, rfl, rfl, hsize⟩, ?_⟩
    exact room_mono (mem_append_of_used hf.unused fun x hx => List.mem_cons_of_mem _ hx) hroom
  | @cut P Q b size hf _ _ _ =>
    refine List.forall_mem_cons.mpr ⟨⟨⟨b.addr, size.toNat, true⟩, by simp, rfl, rfl, le_rfl⟩, ?_⟩
    exact room_mono (mem_append_of_used hf.unused fun x hx =>
      List.mem_cons_of_mem _ (List.mem_cons_of_mem _ hx)) hroom
  | fail hf _ =>
    exact room_mono (mem_append_of_used hf.unused fun x hx => absurd hx List.not_mem_nil) hroom
  | @cutLast P b size k hf _ _ _ =>
    refine List.forall_mem_cons.mpr ⟨⟨⟨b.addr, size.toNat, true⟩, by simp, rfl, rfl, le_rfl⟩, ?_⟩
    exact room_mono (mem_append_of_used hf.unused fun x hx => absurd hx List.not_mem_nil) hroom
  | @free P Q c d a hrep ha hc hptr _ =>
    intro e he
    obtain ⟨b, hb, hu, hbptr, hsize⟩ := hroom e (List.mem_of_mem_erase he)
    refine ⟨b, mem_freeList ?_ hu, hu, hbptr, hsize⟩
    rw [List.mem_append, List.mem_cons] at hb
    refine hb.imp_right fun hb => hb.resolve_left ?_
    rintro rfl
    -- the block freed belongs to `a` alone
    have hnodup := (((List.perm_cons_erase ha).map Allocation.ptr).nodup_iff).mp hI.nodup_live
    rw [List.map_cons, List.nodup_cons] at hnodup
    exact hnodup.1 (List.mem_map.mpr ⟨e, he, by rw [hbptr, hptr]⟩)

/-- Every allocation stays inside the pages of the heap. -/
theorem BlockStep.inside (hs : BlockStep s L call t L') (hI : SafeInv base pages s L)
    (hok : SafeCall (base + pages * 0x1000) s.heap call) :
    ∀ a ∈ t.live, 0 < a.size → a.ptr + a.size ≤ base + pages * 0x1000 := by
  have hinside := hI.inside
  cases hs with
  | @take P Q b size hf hQ hsize _ =>
    exact List.forall_mem_cons.mpr ⟨fun hpos => (hok P b Q hf).2.2 hQ hpos hsize, hinside⟩
  | @cut P Q b size hf hQ hcut _ =>
    have hzero := (hok P b Q hf).2.1 hQ hcut
    exact List.forall_mem_cons.mpr ⟨fun hpos => absurd hzero hpos.ne', hinside⟩
  | fail _ _ => exact hinside
  | @cutLast P b size k hf _ hroom _ =>
    obtain ⟨hzero, -⟩ := ((hok P b [] hf).1 rfl).resolve_right hroom
    exact List.forall_mem_cons.mpr ⟨fun hpos => absurd hzero hpos.ne', hinside⟩
  | free _ _ _ _ _ => exact fun e he => hinside e (List.mem_of_mem_erase he)

theorem BlockStep.safeInv (hs : BlockStep s L call t L') (hI : SafeInv base pages s L)
    (hok : SafeCall (base + pages * 0x1000) s.heap call) : SafeInv base pages t L' :=
  ⟨hs.heapInv hI.toHeapInv, hs.tiled hI hok, hs.room hI, hs.inside hI hok⟩

theorem safeInv_start (hr : HeapRegion base pages) (old : ℕ → AllocT) :
    SafeInv base pages (Client.start old base pages) [⟨base, pages * 0x1000, false⟩] :=
  ⟨heapInv_start hr old, List.isChain_singleton _, fun _ ha => absurd ha List.not_mem_nil,
    fun _ ha => absurd ha List.not_mem_nil⟩

/-! ### The invariant gives safety -/

/-- The headers on the list are those of its blocks. -/
theorem OnList.exists_block {h : HeapState} (hL : Represents h L) {a : ℕ} (ha : OnList h a) :
    ∃ b ∈ L, b.addr = a := by
  induction ha with
  | start =>
    have hlinked := hL.linked
    have hlast := hL.last
    cases L with
    | nil => exact absurd hlast (by simp)
    | cons b L =>
      rw [List.map_cons, Seg.cons_iff] at hlinked
      exact ⟨b, List.mem_cons_self .., hlinked.1.symm⟩
  | next _ hne ih =>
    obtain ⟨b, hb, rfl⟩ := ih
    obtain ⟨P, Q, rfl⟩ := List.append_of_mem hb
    cases Q with
    | nil => exact absurd hL.next_last hne
    | cons c Q => exact ⟨c, by simp, hL.next_eq.symm⟩

/-- The first block is at the start of the heap. -/
theorem HeapInv.base_le (hI : HeapInv base pages s L) (hb : b ∈ L) : base ≤ b.addr := by
  have hlinked := hI.linked
  have hinc := hI.increasing
  cases L with
  | nil => exact absurd hb List.not_mem_nil
  | cons c L =>
    rw [List.map_cons, Seg.cons_iff, hI.heapStart] at hlinked
    obtain rfl | hb := List.mem_cons.mp hb
    · exact hlinked.1.le
    · exact hlinked.1.le.trans ((List.pairwise_cons.mp hinc).1 b hb).le

/-- The bytes of an allocation lie in its block. -/
theorem SafeInv.bytes_le (hI : SafeInv base pages s L) {a : Allocation} (ha : a ∈ s.live) :
    ∃ b ∈ L, b.used = true ∧ a.ptr = b.addr + 16 ∧
      ∀ c ∈ L, b.addr < c.addr → a.ptr + a.size ≤ c.addr := by
  obtain ⟨b, hb, hu, hptr, hsize⟩ := hI.room a ha
  refine ⟨b, hb, hu, hptr, fun c hc hlt => ?_⟩
  obtain ⟨P, Q, rfl⟩ := List.append_of_mem hb
  obtain ⟨-, hinc, hcross⟩ := List.pairwise_append.mp hI.increasing
  rw [List.mem_append, List.mem_cons] at hc
  obtain hc | rfl | hc := hc
  · exact absurd (hcross c hc b (List.mem_cons_self ..)) hlt.not_gt
  · exact absurd hlt (lt_irrefl _)
  · have hend := (hI.end_le hc).1
    omega

theorem SafeInv.heapSafe (hI : SafeInv base pages s L) : HeapSafe base pages s := by
  constructor
  · have hnodup := hI.nodup_live
    rw [List.Nodup, List.pairwise_map] at hnodup
    refine hnodup.imp_of_mem fun {a b} ha hb hne => ?_
    obtain ⟨c, hc, -, hac, hafter⟩ := hI.bytes_le ha
    obtain ⟨d, hd, -, hbd, hafter'⟩ := hI.bytes_le hb
    rw [Allocation.bytes, Allocation.bytes, Set.Ico_disjoint_Ico]
    obtain hlt | heq | hlt := lt_trichotomy c.addr d.addr
    · have := hafter d hd hlt
      omega
    · omega
    · have := hafter' c hc hlt
      omega
  · intro a ha x hx
    obtain ⟨b, hb, -, hab, hafter⟩ := hI.bytes_le ha
    obtain ⟨c, hc, rfl⟩ := hx.exists_block hI.toRepresents
    have hb16 := (hI.range b hb).2.2
    have hc16 := (hI.range c hc).2.2
    rw [Allocation.bytes, Set.Ico_disjoint_Ico]
    obtain hlt | hge := Nat.lt_or_ge b.addr c.addr
    · have := hafter c hc hlt
      omega
    · omega
  · intro a ha x hx
    obtain ⟨b, hb, -, hab, -⟩ := hI.bytes_le ha
    have hbase := hI.base_le hb
    have hin := hI.inside a ha
    rw [Allocation.bytes, Set.mem_Ico] at hx
    exact ⟨by omega, by omega⟩

/-- The heap is safe in every state of a run of safe calls. -/
theorem heapSafe_of_run (hr : HeapRegion base pages)
    (hrun : HeapRun (SafeCall (base + pages * 0x1000)) old base pages s) :
    HeapSafe base pages s := by
  have hinv : ∃ L, SafeInv base pages s L := by
    refine Run.invariant (I := fun s => ∃ L, SafeInv base pages s L) (fun s t hs hI => ?_) hrun
      ⟨_, safeInv_start hr old⟩
    obtain ⟨L, hI⟩ := hI
    obtain ⟨call, L', hok, hb⟩ := heapStep_cases hr hI.toHeapInv (fun call hok => hI.linksOk hok) hs
    exact ⟨L', hb.safeInv hI hok⟩
  obtain ⟨L, hI⟩ := hinv
  exact hI.heapSafe

/-- A request for no byte served from the last block is safe. -/
theorem safeCall_last {h : HeapState} {limit : ℕ} (hf : FirstUnused h P b [])
    (hb : b.addr + 16 < 0x100000000) : SafeCall limit h (.malloc 0#32) := by
  intro P' b' Q' hf'
  obtain ⟨rfl, rfl, rfl⟩ := hf.unique hf'
  exact ⟨fun _ => .inl ⟨rfl, hb⟩, fun hne => absurd rfl hne, fun hne => absurd rfl hne⟩

/-- Of three payloads without a byte two are freed, and their block serves 16 bytes. -/
theorem heapSafe_of_run_reuse : ∃ s,
    HeapRun (SafeCall (0x100000 + 1 * 0x1000)) noHeaders 0x100000 1 s ∧
      s.live = [⟨0x100010, 16⟩, ⟨0x100030, 0⟩] ∧ HeapSafe 0x100000 1 s := by
  have hthree : SafeCall (0x100000 + 1 * 0x1000) cutThree (.free 0x100010) :=
    linksOk_free (P := []) represents_cutThree rfl rfl
  have hrun := heapRun_freedFirst (SafeCall (0x100000 + 1 * 0x1000))
    (safeCall_last (firstUnused_start heapRegion_page noHeaders) (by decide))
    (safeCall_last firstUnused_cutOne (by decide)) (safeCall_last firstUnused_cutTwo (by decide))
    hthree
  have hfree : SafeCall (0x100000 + 1 * 0x1000) freedFirst (.free 0x100020) :=
    linksOk_free (P := [_]) firstUnused_freedFirst.represents rfl rfl
  have hmerged : FirstUnused (free 0x100020 freedFirst) [] ⟨0x100000, 16, false⟩
      [⟨0x100020, 0, true⟩, ⟨0x100030, 0xFD0, false⟩] :=
    ⟨⟨⟨rfl, rfl, rfl, rfl⟩, by decide, by decide, by decide, rfl⟩, by decide, rfl⟩
  have hreuse : SafeCall (0x100000 + 1 * 0x1000) (free 0x100020 freedFirst) (.malloc 16#32) := by
    intro P b Q hf
    obtain ⟨rfl, rfl, rfl⟩ := hf.unique hmerged
    exact ⟨fun hnil => absurd hnil (by simp), fun _ hcut => absurd hcut.1 (by decide),
      fun _ _ _ => by decide⟩
  have hlast := (hrun.tail (@HeapStep.free _ ⟨freedFirst, _⟩ ⟨0x100020, 0⟩ (by simp) hfree)).tail
    (@HeapStep.malloc _ ⟨free 0x100020 freedFirst, _⟩ 16#32 4 0x100010
      ((free 0x100020 freedFirst).use 0x100000) hreuse rfl)
  exact ⟨_, hlast, rfl, heapSafe_of_run heapRegion_page hlast⟩

/-- A request for one byte puts the next header on that byte. -/
theorem not_heapSafe : ¬ ∀ (old : ℕ → AllocT) (base pages : ℕ), HeapRegion base pages →
    ∀ s, HeapRun AnyCall old base pages s → HeapSafe base pages s := by
  intro hall
  have hsafe := hall noHeaders 0x100000 1 heapRegion_page _
    (ReflTransGen.single (@HeapStep.malloc _ _ 1#32 4 _ _ trivial rfl))
  have hhead := hsafe.headers ⟨0x100010, 1⟩ (List.mem_cons_self ..) 0x100010
    (OnList.next (h := _) OnList.start (by decide))
  have hbyte : 0x100010 ∈ Allocation.bytes ⟨0x100010, 1⟩ := ⟨by decide, by decide⟩
  exact Set.disjoint_left.mp hhead hbyte ⟨by decide, by decide⟩

end Steps

end FirstOs
