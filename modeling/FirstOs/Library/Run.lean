import Mathlib.Logic.Relation
import Mathlib.Data.List.Induction

/-!
# Invariants of runs

A run of a step relation is an element of its reflexive transitive closure. What
every step keeps holds at the end of a run that it held at the start of.

Where a step is a function of an event that may have no result, a run is a list of
events, and the states it passes through are the results of its prefixes. Where it always has a
result, a run is a fold.

## Main results

- `Run.invariant` — what every step keeps
- `Run.events_of_condition` — what every event keeps that meets a condition
- `Run.events_iff` — what the other events do not keep
- `Run.condition_of_budget` — a condition that short runs meet
- `Run.events_foldl` — a run in step with a fold
- `Run.events_becomes_iff` — what some events make true for good
- `Run.events_simulate` — a run done by the events of another system
- `Run.foldl_last` — what the last event that asks for a view of the state leaves there
- `Run.foldl_of_mem` — what the only event that sets a view of the state leaves there
-/

namespace Run

open Relation

variable {α : Type*} {step : α → α → Prop} {I : α → Prop}

/-- A property that holds at the start and that every step keeps holds at the end. -/
theorem invariant (hstep : ∀ a b, step a b → I a → I b) {a b : α}
    (hrun : ReflTransGen step a b) (ha : I a) : I b := by
  induction hrun with
  | refl => exact ha
  | tail _ hbc ih => exact hstep _ _ hbc ih

section Events

variable {ε : Type*} {act : ε → α → Option α} {a b c : α} {e : ε} {es fs : List ε}

/-- One event after the other. -/
def events (act : ε → α → Option α) : List ε → α → Option α
  | [], a => some a
  | e :: es, a => (act e a).bind (events act es)

theorem events_nil : events act [] a = some a := rfl

theorem events_cons (h : act e a = some b) : events act (e :: es) a = events act es b := by
  rw [events, h, Option.bind_some]

theorem events_append : events act (es ++ fs) a = (events act es a).bind (events act fs) := by
  induction es generalizing a with
  | nil => rfl
  | cons e es ih =>
    rw [List.cons_append, events, events]
    cases act e a with
    | none => rfl
    | some b => exact ih

theorem events_append_of (h : events act es a = some b) :
    events act (es ++ fs) a = events act fs b := by
  rw [events_append, h, Option.bind_some]

/-- Two kinds of events that do the same on a list. -/
theorem events_congr {act' : ε → α → Option α} (h : ∀ e ∈ es, act e = act' e) :
    events act es = events act' es := by
  induction es with
  | nil => rfl
  | cons e es ih =>
    obtain ⟨he, hes⟩ := List.forall_mem_cons.mp h
    funext a
    rw [events, events, he, ih hes]

theorem events_map {ι : Type*} {g : ι → ε} {is : List ι} :
    events act (is.map g) a = events (fun i => act (g i)) is a := by
  induction is generalizing a with
  | nil => rfl
  | cons i is ih =>
    rw [List.map_cons, events, events]
    exact congrArg _ (funext fun _ => ih)

/-- A property that every event keeps that meets a condition holds in all states of a run whose
    events all meet the condition. -/
theorem events_of_condition {C : ε → α → Prop}
    (hstep : ∀ e ∈ es, ∀ a, I a → C e a → ∀ b, act e a = some b → I b) (ha : I a)
    (hall : ∀ p e, p ++ [e] <+: es → ∀ b, events act p a = some b → C e b) :
    ∀ p, p <+: es → ∀ b, events act p a = some b → I b := by
  intro p hp b hb
  induction p using List.reverseRecOn generalizing b with
  | nil => exact Option.some.inj hb ▸ ha
  | append_singleton p e ih =>
    rw [events_append] at hb
    obtain ⟨c, hc, hb⟩ := Option.bind_eq_some_iff.mp hb
    obtain ⟨d, hd, hdb⟩ := Option.bind_eq_some_iff.mp hb
    obtain rfl := Option.some.inj hdb
    have hmem : e ∈ es := hp.subset (List.mem_append_right _ (List.mem_singleton_self e))
    have hI : I c := ih ((List.prefix_append p [e]).trans hp) c hc
    exact hstep e hmem c hI (hall p e hp c hc) d hd

/-- A property that every event keeps. -/
theorem events_invariant (hstep : ∀ e ∈ es, ∀ a, I a → ∀ b, act e a = some b → I b) (ha : I a)
    (hb : events act es a = some b) : I b :=
  events_of_condition (C := fun _ _ => True) (fun e he a hI _ => hstep e he a hI) ha
    (fun _ _ _ _ _ => trivial) es (List.prefix_refl es) b hb

/-- An event keeps a property if and only if it meets a condition. Then the property holds in all
    states of a run if and only if all its events meet the condition. -/
theorem events_iff {C : ε → α → Prop}
    (hstep : ∀ e ∈ es, ∀ a, I a → ((∀ b, act e a = some b → I b) ↔ C e a)) (ha : I a) :
    (∀ p, p <+: es → ∀ b, events act p a = some b → I b) ↔
      ∀ p e, p ++ [e] <+: es → ∀ b, events act p a = some b → C e b := by
  constructor
  · intro hall p e hp b hb
    have hmem : e ∈ es := hp.subset (List.mem_append_right _ (List.mem_singleton_self e))
    refine (hstep e hmem b (hall p ((List.prefix_append p [e]).trans hp) b hb)).mp ?_
    intro c hc
    refine hall _ hp c ?_
    rw [events_append_of hb, events_cons hc, events_nil]
  · exact events_of_condition (fun e he a hI hC => (hstep e he a hI).mpr hC) ha

section Condition

variable {C : ε → α → Prop}

theorem condition_nil : ∀ p e, p ++ [e] <+: ([] : List ε) → ∀ b, events act p a = some b → C e b :=
  fun _ _ hp => absurd (List.prefix_nil.mp hp) (by simp)

/-- A condition on the events of a run, each in the state it happens in, event by event. -/
theorem condition_cons (hC : C e a) (hb : act e a = some b)
    (hrest : ∀ p e', p ++ [e'] <+: es → ∀ c, events act p b = some c → C e' c) :
    ∀ p e', p ++ [e'] <+: e :: es → ∀ c, events act p a = some c → C e' c := by
  intro p e' hp c hc
  cases p with
  | nil =>
    obtain ⟨rfl, -⟩ := List.cons_prefix_cons.mp hp
    exact Option.some.inj hc ▸ hC
  | cons f p =>
    obtain ⟨rfl, hp'⟩ := List.cons_prefix_cons.mp hp
    rw [events_cons hb] at hc
    exact hrest p e' hp' c hc

/-- Where every event takes one from a budget, all events of a run meet the condition that an event
    meets for which there is something left. -/
theorem condition_of_budget {J : ℕ → α → Prop}
    (hC : ∀ n, ∀ e ∈ es, ∀ a, J (n + 1) a → C e a)
    (hstep : ∀ n, ∀ e ∈ es, ∀ a, J (n + 1) a → ∀ b, act e a = some b → J n b)
    (ha : J es.length a) : ∀ p e, p ++ [e] <+: es → ∀ b, events act p a = some b → C e b := by
  induction es generalizing a with
  | nil => exact condition_nil
  | cons e es ih =>
    have hfirst := hC es.length e List.mem_cons_self a ha
    intro p e' hp c hc
    cases p with
    | nil =>
      obtain ⟨rfl, -⟩ := List.cons_prefix_cons.mp hp
      exact Option.some.inj hc ▸ hfirst
    | cons f p =>
      obtain ⟨rfl, hp'⟩ := List.cons_prefix_cons.mp hp
      obtain ⟨b, hb, hc⟩ := Option.bind_eq_some_iff.mp hc
      exact ih (fun n e he => hC n e (List.mem_cons_of_mem _ he))
        (fun n e he => hstep n e (List.mem_cons_of_mem _ he))
        (hstep es.length f List.mem_cons_self a ha b hb) p e' hp' c hc

end Condition

/-- Events that have a result, and keep a property, whenever it holds. -/
theorem events_isSome_of_invariant (hstep : ∀ e ∈ es, ∀ a, I a → ∃ b, act e a = some b ∧ I b)
    (ha : I a) : ∃ b, events act es a = some b ∧ I b := by
  induction es generalizing a with
  | nil => exact ⟨a, rfl, ha⟩
  | cons e es ih =>
    obtain ⟨b, hb, hI⟩ := hstep e List.mem_cons_self a ha
    rw [events_cons hb]
    exact ih (fun e' he' => hstep e' (List.mem_cons_of_mem _ he')) hI

/-- Events that always have a result. -/
theorem events_isSome (hstep : ∀ e ∈ es, ∀ a, ∃ b, act e a = some b) :
    ∃ b, events act es a = some b := by
  have hkeep : ∀ e ∈ es, ∀ a, True → ∃ b, act e a = some b ∧ True := fun e he a _ =>
    (hstep e he a).imp fun _ hb => ⟨hb, trivial⟩
  obtain ⟨b, hb, -⟩ := events_isSome_of_invariant hkeep trivial
  exact ⟨b, hb⟩

/-- Events that have a result whatever the state, or none whatever the state. -/
theorem events_isSome_iff {C : ε → Prop} (hstep : ∀ e a, (∃ b, act e a = some b) ↔ C e) :
    (∃ b, events act es a = some b) ↔ ∀ e ∈ es, C e := by
  constructor
  · rintro ⟨b, hb⟩
    induction es generalizing a with
    | nil => exact fun e he => absurd he List.not_mem_nil
    | cons e es ih =>
      obtain ⟨c, hc, hb⟩ := Option.bind_eq_some_iff.mp hb
      exact List.forall_mem_cons.mpr ⟨(hstep e a).mp ⟨c, hc⟩, ih hb⟩
  · intro hall
    exact events_isSome fun e he a => (hstep e a).mpr (hall e he)

/-- Each event of one kind is done by some events of another. Then so is each list of events. -/
theorem events_simulate {β ε' : Type*} {act' : ε' → β → Option β} {abs : α → β} {I : α → Prop}
    {R : ε → List ε' → Prop}
    (hstep : ∀ e a b, I a → act e a = some b →
      I b ∧ ∃ es', R e es' ∧ events act' es' (abs a) = some (abs b))
    (ha : I a) (h : events act es a = some b) :
    ∃ ess, List.Forall₂ R es ess ∧ events act' ess.flatten (abs a) = some (abs b) := by
  induction es generalizing a with
  | nil =>
    obtain rfl := Option.some.inj h
    exact ⟨[], .nil, rfl⟩
  | cons e es ih =>
    obtain ⟨c, hc, h⟩ := Option.bind_eq_some_iff.mp h
    obtain ⟨hI, es', hR, hone⟩ := hstep e a c ha hc
    obtain ⟨ess, hall, hrest⟩ := ih hI h
    refine ⟨es' :: ess, .cons hR hall, ?_⟩
    rw [List.flatten_cons, events_append_of hone]
    exact hrest

/-- Two machines that stay in step on each event that meets a condition stay in step on a list whose
    events all meet it, also where they stop. -/
theorem events_rel_of_condition {β : Type*} {act' : ε → β → Option β} {R : α → β → Prop}
    {C : ε → α → Prop} {a' : β}
    (hstep : ∀ e a b, R a b → C e a → Option.Rel R (act e a) (act' e b)) (h : R a a')
    (hall : ∀ p e, p ++ [e] <+: es → ∀ c, events act p a = some c → C e c) :
    Option.Rel R (events act es a) (events act' es a') := by
  induction es generalizing a a' with
  | nil => exact .some h
  | cons e es ih =>
    have hfirst := hstep e a a' h (hall [] e ⟨es, rfl⟩ a rfl)
    rw [events, events]
    cases hc : act e a with
    | none =>
      rw [hc] at hfirst
      cases hc' : act' e a' with
      | none => exact .none
      | some c' => rw [hc'] at hfirst; cases hfirst
    | some c =>
      rw [hc] at hfirst
      cases hc' : act' e a' with
      | none => rw [hc'] at hfirst; cases hfirst
      | some c' =>
        rw [hc'] at hfirst
        cases hfirst with
        | some hR =>
          exact ih hR fun p e' hp d hd =>
            hall (e :: p) e' (List.cons_prefix_cons.mpr ⟨rfl, hp⟩) d ((events_cons hc).trans hd)

/-- Two machines that stay in step on each event stay in step on a list. -/
theorem events_rel {β : Type*} {act' : ε → β → Option β} {R : α → β → Prop} {a' : β}
    (hstep : ∀ e a b, R a b → Option.Rel R (act e a) (act' e b)) (h : R a a') :
    Option.Rel R (events act es a) (events act' es a') :=
  events_rel_of_condition (C := fun _ _ => True) (fun e a b h _ => hstep e a b h) h
    fun _ _ _ _ _ => trivial

/-- A machine stays in step with a fold on each event that meets a condition. Then it has a result
    on a list whose events all meet it, in step with the fold. -/
theorem events_foldl {β : Type*} {step : β → ε → β} {R : α → β → Prop} {C : ε → α → Prop} {a' : β}
    (hstep : ∀ e a b, R a b → C e a → ∃ c, act e a = some c ∧ R c (step b e)) (h : R a a')
    (hall : ∀ p e, p ++ [e] <+: es → ∀ c, events act p a = some c → C e c) :
    ∃ c, events act es a = some c ∧ R c (es.foldl step a') := by
  induction es generalizing a a' with
  | nil => exact ⟨a, rfl, h⟩
  | cons e es ih =>
    obtain ⟨b, hb, hR⟩ := hstep e a a' h (hall [] e ⟨es, rfl⟩ a rfl)
    obtain ⟨c, hrun, hR'⟩ := ih hR fun p e' hp d hd =>
      hall (e :: p) e' (List.cons_prefix_cons.mpr ⟨rfl, hp⟩) d ((events_cons hb).trans hd)
    exact ⟨c, (events_cons hb).trans hrun, hR'⟩

/-- Where some events make a property true and the others leave it alone, it is true after a run if
    and only if one of these events was among its events. -/
theorem events_becomes_iff {I D : α → Prop} {M : ε → α → Prop}
    (hstep : ∀ e a b, I a → act e a = some b → I b ∧ (D b ↔ D a ∨ M e a)) (ha : I a)
    (hnot : ¬ D a) (h : events act es a = some b) :
    D b ↔ ∃ p e c, p ++ [e] <+: es ∧ events act p a = some c ∧ M e c := by
  induction es using List.reverseRecOn generalizing b with
  | nil =>
    obtain rfl := Option.some.inj h
    refine iff_of_false hnot ?_
    rintro ⟨p, e, c, hp, -⟩
    exact absurd (List.prefix_nil.mp hp) (by simp)
  | append_singleton es e ih =>
    rw [events_append] at h
    obtain ⟨c, hc, h⟩ := Option.bind_eq_some_iff.mp h
    obtain ⟨d, hd, h⟩ := Option.bind_eq_some_iff.mp h
    obtain rfl := Option.some.inj h
    have hI : I c :=
      events_invariant (fun e _ a hI b hact => (hstep e a b hI hact).1) ha hc
    rw [(hstep e c _ hI hd).2, ih hc]
    constructor
    · rintro (⟨p, e', b, hp, hb, hM⟩ | hM)
      · exact ⟨p, e', b, hp.trans (List.prefix_append es [e]), hb, hM⟩
      · exact ⟨es, e, c, List.prefix_rfl, hc, hM⟩
    · rintro ⟨p, e', b, hp, hb, hM⟩
      obtain heq | hp := List.prefix_concat_iff.mp hp
      · obtain ⟨rfl, rfl⟩ := List.append_singleton_inj.mp heq
        obtain rfl := Option.some.inj (hb.symm.trans hc)
        exact .inr hM
      · exact .inl ⟨p, e', b, hp, hb, hM⟩

/-- A measure that every event makes less bounds the number of events. -/
theorem events_length_le {I : α → Prop} {μ : α → ℕ}
    (hstep : ∀ e ∈ es, ∀ a b, I a → act e a = some b → I b ∧ μ b < μ a) (ha : I a)
    (h : events act es a = some b) : es.length + μ b ≤ μ a := by
  induction es generalizing a with
  | nil =>
    obtain rfl := Option.some.inj h
    exact Nat.le_of_eq (Nat.zero_add _)
  | cons e es ih =>
    obtain ⟨c, hc, h⟩ := Option.bind_eq_some_iff.mp h
    obtain ⟨hI, hlt⟩ := hstep e List.mem_cons_self a c ha hc
    have hrest := ih (fun e' he' => hstep e' (List.mem_cons_of_mem _ he')) hI h
    rw [List.length_cons]
    omega

end Events

/-- Each event leaves a view of the state alone or makes it what it asks for: in the end it is
    what was asked for last. -/
theorem foldl_last {σ ε γ : Type*} {act : σ → ε → σ} (view : σ → γ) {asked : ε → Option γ}
    (hact : ∀ s e, view (act s e) = (asked e).getD (view s)) (es : List ε) (s : σ) :
    view (es.foldl act s) = (es.filterMap asked).getLast?.getD (view s) := by
  induction es using List.reverseRecOn with
  | nil => rfl
  | append_singleton es e ih =>
    rw [List.foldl_append, List.foldl_cons, List.foldl_nil, hact, ih, List.filterMap_append,
      List.filterMap_cons, List.filterMap_nil]
    cases asked e with
    | none => rw [List.append_nil, Option.getD_none]
    | some v => rw [List.getLast?_concat, Option.getD_some, Option.getD_some]

/-- Events that leave a view of the state alone. -/
theorem foldl_keeps {σ ε γ : Type*} {act : σ → ε → σ} (view : σ → γ) {es : List ε}
    (hkeep : ∀ e ∈ es, ∀ s, view (act s e) = view s) (s : σ) :
    view (es.foldl act s) = view s := by
  induction es generalizing s with
  | nil => rfl
  | cons e es ih =>
    rw [List.foldl_cons, ih fun e' he' => hkeep e' (List.mem_cons_of_mem _ he')]
    exact hkeep e List.mem_cons_self s

/-- One event sets a view of the state and the others leave it alone. -/
theorem foldl_of_mem {σ ε γ : Type*} {act : σ → ε → σ} (view : σ → γ) {es : List ε} {e : ε} {v : γ}
    (hset : ∀ s, view (act s e) = v) (hkeep : ∀ e', e' ≠ e → ∀ s, view (act s e') = view s)
    (he : e ∈ es) (s : σ) : view (es.foldl act s) = v := by
  induction es using List.reverseRecOn with
  | nil => exact absurd he List.not_mem_nil
  | append_singleton es e' ih =>
    rw [List.foldl_append, List.foldl_cons, List.foldl_nil]
    by_cases heq : e' = e
    · rw [heq, hset]
    · rw [hkeep e' heq]
      refine ih ((List.mem_append.mp he).resolve_right fun hin => ?_)
      exact heq (List.mem_singleton.mp hin).symm

end Run
