import Mathlib.Data.List.Basic
import Mathlib.Data.List.Chain

/-!
# Linked lists in memory

A list of nodes laid out by a `next` function, and the back pointers that make it
doubly linked. Both notions are recursive in the list of nodes, so that a proof
about one link splits the list at that node.

## Main definitions

- `Seg next a l e` — following `next` from `a` visits the nodes `l` and arrives at `e`
- `Back prev p l` — each node of `l` has the one before it as `prev`, the first has `p`

## Main results

- `Seg.split` — a segment splits at each of its nodes
- `Seg.unique` — the nodes up to an end outside the list are determined by the start
-/

variable {α : Type*}

/-- Following `next` from `a` visits the nodes `l` and arrives at `e`. -/
def Seg (next : α → α) : α → List α → α → Prop
  | a, [], e => a = e
  | a, b :: l, e => a = b ∧ Seg next (next b) l e

/-- Each node has the one before it as `prev`; the first one has `p`. -/
def Back (prev : α → α) : α → List α → Prop
  | _, [] => True
  | p, b :: l => prev b = p ∧ Back prev b l

namespace Seg

variable {next next' : α → α} {a b e : α} {l m : List α}

@[simp] theorem nil_iff : Seg next a [] e ↔ a = e := Iff.rfl

@[simp] theorem cons_iff : Seg next a (b :: l) e ↔ a = b ∧ Seg next (next b) l e := Iff.rfl

/-- A segment splits at each of its nodes. -/
theorem split : Seg next a (l ++ b :: m) e ↔ Seg next a l b ∧ Seg next (next b) m e := by
  induction l generalizing a with
  | nil => rfl
  | cons c l ih =>
    show a = c ∧ Seg next (next c) (l ++ b :: m) e ↔ (a = c ∧ Seg next (next c) l b) ∧ _
    rw [ih, and_assoc]

/-- Two segments one behind the other. -/
theorem append : Seg next a (l ++ m) e ↔ ∃ b, Seg next a l b ∧ Seg next b m e := by
  induction l generalizing a with
  | nil =>
    constructor
    · intro h
      exact ⟨a, rfl, h⟩
    · rintro ⟨b, rfl, h⟩
      exact h
  | cons c l ih =>
    rw [List.cons_append, cons_iff, ih]
    simp only [cons_iff, and_assoc, exists_and_left]

/-- A segment depends on the links of its own nodes only. -/
theorem congr (h : ∀ c ∈ l, next c = next' c) : Seg next a l e ↔ Seg next' a l e := by
  induction l generalizing a with
  | nil => rfl
  | cons c l ih =>
    rw [cons_iff, cons_iff, h c (List.mem_cons_self ..)]
    exact and_congr_right fun _ => ih fun d hd => h d (List.mem_cons_of_mem c hd)

/-- The nodes up to an end outside the list are determined by the start. -/
theorem unique (hl : Seg next a l e) (hm : Seg next a m e) (hel : e ∉ l) (hem : e ∉ m) : l = m := by
  induction l generalizing a m with
  | nil =>
    cases m with
    | nil => rfl
    | cons c m =>
      obtain ⟨rfl, -⟩ := hm
      exact absurd (hl ▸ List.mem_cons_self ..) hem
  | cons b l ih =>
    obtain ⟨rfl, hl⟩ := hl
    cases m with
    | nil => exact absurd (hm ▸ List.mem_cons_self ..) hel
    | cons c m =>
      obtain ⟨rfl, hm⟩ := hm
      rw [ih hl hm (fun h => hel (List.mem_cons_of_mem a h))
        fun h => hem (List.mem_cons_of_mem a h)]

end Seg

namespace Back

variable {prev prev' : α → α} {p b : α} {l m : List α}

@[simp] theorem cons_iff : Back prev p (b :: l) ↔ prev b = p ∧ Back prev b l := Iff.rfl

theorem split : Back prev p (l ++ b :: m) ↔
    Back prev p l ∧ prev b = (l.getLast?.getD p) ∧ Back prev b m := by
  induction l generalizing p with
  | nil => simp [Back]
  | cons c l ih =>
    show prev c = p ∧ Back prev c (l ++ b :: m) ↔ _
    rw [ih, cons_iff, and_assoc, List.getLast?_cons]
    rfl

theorem congr (h : ∀ c ∈ l, prev c = prev' c) : Back prev p l ↔ Back prev' p l := by
  induction l generalizing p with
  | nil => rfl
  | cons c l ih =>
    rw [cons_iff, cons_iff, h c (List.mem_cons_self ..)]
    exact and_congr_right fun _ => ih fun d hd => h d (List.mem_cons_of_mem c hd)

/-- A list of nodes keeps its back pointers when its end is cut off. -/
theorem of_append (h : Back prev p (l ++ m)) : Back prev p l := by
  cases m with
  | nil => rwa [List.append_nil] at h
  | cons c m => exact (split.mp h).1

end Back
