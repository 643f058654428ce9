import FirstOs.Library.Run
import Mathlib.Logic.Function.Basic

/-!
# Slot tables

A table of slots, each of which holds at most one item. One party posts items into empty slots,
the other takes them out. In each slot the items are taken in the order they were posted, each
once, and all but the one that is still there.

## Main definitions

- `SlotTable` — what the slots hold, and what was posted and taken
- `SlotTable.act` — an item is posted into an empty slot, or taken

## Main results

- `SlotTable.balanced_of_run` — what was posted was taken or is there
-/

/-- What the slots hold, and what was posted and taken so far. -/
structure SlotTable (ι γ : Type*) where
  content : ι → Option γ
  posted : List (ι × γ)
  taken : List (ι × γ)

namespace SlotTable

variable {ι γ : Type*} [DecidableEq ι]

/-- What happens to a table. -/
inductive Event (ι γ : Type*) where
  | post (i : ι) (c : γ)
  | take (i : ι)

/-- Only an empty slot is posted to, and only a full one is emptied. -/
def act : Event ι γ → SlotTable ι γ → Option (SlotTable ι γ)
  | .post i c, t =>
    match t.content i with
    | none => some ⟨Function.update t.content i (some c), t.posted ++ [(i, c)], t.taken⟩
    | some _ => none
  | .take i, t =>
    (t.content i).map fun c => ⟨Function.update t.content i none, t.posted, t.taken ++ [(i, c)]⟩

/-- The items of a list that belong to a slot. -/
def itemsAt (i : ι) (l : List (ι × γ)) : List γ := (l.filter fun x => x.1 = i).map Prod.snd

/-- What was posted into a slot was taken from it, or is there. -/
def Balanced (t : SlotTable ι γ) : Prop :=
  ∀ i, itemsAt i t.posted = itemsAt i t.taken ++ (t.content i).toList

theorem itemsAt_append (i : ι) (l m : List (ι × γ)) :
    itemsAt i (l ++ m) = itemsAt i l ++ itemsAt i m := by
  rw [itemsAt, List.filter_append, List.map_append]
  rfl

@[simp] theorem itemsAt_self (i : ι) (c : γ) : itemsAt i [(i, c)] = [c] := by
  simp [itemsAt]

theorem itemsAt_of_ne {i j : ι} (h : j ≠ i) (c : γ) : itemsAt i [(j, c)] = [] := by
  simp [itemsAt, h]

variable {t t' : SlotTable ι γ} {e : Event ι γ} {es : List (Event ι γ)}

theorem act_post {i : ι} {c : γ} (h : t.content i = none) : act (.post i c) t =
    some ⟨Function.update t.content i (some c), t.posted ++ [(i, c)], t.taken⟩ := by
  rw [act, h]

theorem act_take {i : ι} {c : γ} (h : t.content i = some c) : act (.take i) t =
    some ⟨Function.update t.content i none, t.posted, t.taken ++ [(i, c)]⟩ := by
  rw [act, h, Option.map_some]

/-- One event keeps the balance of every slot. -/
theorem balanced_act (hb : Balanced t) (h : act e t = some t') : Balanced t' := by
  intro i
  have hi := hb i
  cases e with
  | post j c =>
    rw [act] at h
    cases hj : t.content j with
    | some d => simp [hj] at h
    | none =>
      rw [hj] at h
      obtain rfl := Option.some.inj h
      dsimp only
      rw [itemsAt_append]
      by_cases hij : j = i
      · subst hij
        rw [Function.update_self, hi, hj, itemsAt_self]
        simp
      · rw [Function.update_of_ne (Ne.symm hij), itemsAt_of_ne hij, List.append_nil, hi]
  | take j =>
    obtain ⟨c, hj, rfl⟩ := Option.map_eq_some_iff.mp h
    dsimp only
    rw [itemsAt_append]
    by_cases hij : j = i
    · subst hij
      rw [Function.update_self, hi, hj, itemsAt_self]
      simp
    · rw [Function.update_of_ne (Ne.symm hij), itemsAt_of_ne hij, List.append_nil, hi]

/-- **Nothing is lost, altered or taken twice.** -/
theorem balanced_of_run (hb : Balanced t) (h : Run.events act es t = some t') : Balanced t' :=
  Run.events_invariant (fun _ _ _ hb _ h => balanced_act hb h) hb h

end SlotTable
