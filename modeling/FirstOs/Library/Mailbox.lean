import FirstOs.Library.Run
import Mathlib.Data.Finset.Basic
import Mathlib.Logic.Function.Basic

/-!
# Mailboxes

Requests are posted and served. A request that is posted again before it is served is served once.
Serving calls the handler that is installed at that time, if there is one.

## Main definitions

- `Mailbox` — the requests that wait, the handlers, and what was served
- `Mailbox.act` — a request is posted or served, or a handler is installed

## Main results

- `Mailbox.waits_or_served` — nothing that is posted is lost
- `Mailbox.served_add_waiting_le` — nothing is served that was not posted, or twice
- `Mailbox.events_handler` — the handlers that are called
-/

/-- The requests that wait, the handlers, and what was served with which handler, the last one
    first. -/
structure Mailbox (ι η : Type*) where
  waiting : Finset ι
  handler : ι → Option η
  served : List (ι × Option η)

namespace Mailbox

variable {ι η : Type*} [DecidableEq ι]

/-- What happens to a mailbox. -/
inductive Event (ι η : Type*) where
  | post (i : ι)
  | serve (i : ι)
  | install (i : ι) (h : Option η)

/-- Only a request that waits can be served. -/
def act : Event ι η → Mailbox ι η → Option (Mailbox ι η)
  | .post i, m => some { m with waiting := insert i m.waiting }
  | .serve i, m =>
    if i ∈ m.waiting then
      some { m with waiting := m.waiting.erase i, served := (i, m.handler i) :: m.served }
    else none
  | .install i h, m => some { m with handler := Function.update m.handler i h }

/-- The number of times a request was served. -/
def timesServed (i : ι) (m : Mailbox ι η) : ℕ := m.served.countP fun x => x.1 = i

/-- The number of times a request is posted. -/
def timesPosted (i : ι) (es : List (Event ι η)) : ℕ :=
  es.countP fun
    | .post j => j = i
    | _ => false

/-- One for a request that waits. -/
def waits (i : ι) (m : Mailbox ι η) : ℕ := if i ∈ m.waiting then 1 else 0

variable {i : ι} {e : Event ι η} {es : List (Event ι η)} {m m' : Mailbox ι η}

theorem act_serve (h : act (.serve i) m = some m') : i ∈ m.waiting ∧
    m' = { m with waiting := m.waiting.erase i, served := (i, m.handler i) :: m.served } := by
  rw [act] at h
  split_ifs at h with hi
  exact ⟨hi, (Option.some.inj h).symm⟩

/-- An event takes a request that waits only by serving it, and adds to what was served only then. -/
theorem act_balance (i : ι) (h : act e m = some m') :
    m'.timesServed i + m'.waits i ≤ m.timesServed i + m.waits i + timesPosted i [e] ∧
      m.timesServed i + m.waits i ≤ m'.timesServed i + m'.waits i := by
  cases e with
  | post j =>
    obtain rfl := Option.some.inj h
    simp only [timesServed, waits, timesPosted, Finset.mem_insert]
    by_cases hij : j = i
    · simp only [hij, true_or, if_true, List.countP_singleton, decide_true]
      split_ifs <;> omega
    · simp [hij, Ne.symm hij]
  | serve j =>
    obtain ⟨hj, rfl⟩ := act_serve h
    simp only [timesServed, waits, timesPosted, List.countP_cons, Finset.mem_erase]
    by_cases hij : j = i
    · subst hij
      simp [hj]
    · simp [hij, Ne.symm hij]
  | install j f =>
    obtain rfl := Option.some.inj h
    simp [timesServed, waits, timesPosted]

/-- In a run, what was served and what waits is no more than what waited and was posted. -/
theorem served_add_waiting_le (i : ι) (h : Run.events act es m = some m') :
    m'.timesServed i + m'.waits i ≤ m.timesServed i + m.waits i + timesPosted i es := by
  induction es generalizing m with
  | nil =>
    obtain rfl := Option.some.inj h
    exact Nat.le_add_right _ _
  | cons e es ih =>
    obtain ⟨c, hc, h⟩ := Option.bind_eq_some_iff.mp h
    have hsplit : timesPosted i (e :: es) = timesPosted i [e] + timesPosted i es := by
      rw [timesPosted, ← List.singleton_append, List.countP_append]
      rfl
    have hone := (act_balance i hc).1
    have hrest := ih h
    omega

/-- What was served or waits does not get less. -/
theorem le_served_add_waiting (i : ι) (h : Run.events act es m = some m') :
    m.timesServed i + m.waits i ≤ m'.timesServed i + m'.waits i := by
  induction es generalizing m with
  | nil =>
    obtain rfl := Option.some.inj h
    exact le_rfl
  | cons e es ih =>
    obtain ⟨c, hc, h⟩ := Option.bind_eq_some_iff.mp h
    exact (act_balance i hc).2.trans (ih h)

/-- A request that is posted waits until it is served. -/
theorem waits_or_served (h : Run.events act (.post i :: es) m = some m') :
    i ∈ m'.waiting ∨ m.timesServed i < m'.timesServed i := by
  obtain ⟨c, hc, h⟩ := Option.bind_eq_some_iff.mp h
  obtain rfl := Option.some.inj hc
  have hle := le_served_add_waiting i h
  by_cases hi : i ∈ m'.waiting
  · exact .inl hi
  · refine .inr ?_
    simp only [waits, if_neg hi, if_pos (Finset.mem_insert_self i m.waiting)] at hle
    exact Nat.lt_of_succ_le hle

/-- The handler an event installs for a request. -/
def installed (i : ι) : Event ι η → Option (Option η)
  | .install j h => if j = i then some h else none
  | _ => none

theorem act_handler (i : ι) (h : act e m = some m') :
    m'.handler i = (installed i e).getD (m.handler i) := by
  cases e with
  | post j =>
    obtain rfl := Option.some.inj h
    rfl
  | serve j =>
    obtain ⟨-, rfl⟩ := act_serve h
    rfl
  | install j f =>
    obtain rfl := Option.some.inj h
    rw [installed]
    by_cases hij : j = i
    · subst hij
      rw [if_pos rfl, Option.getD_some]
      exact Function.update_self ..
    · rw [if_neg hij, Option.getD_none]
      exact Function.update_of_ne (Ne.symm hij) ..

/-- The handler of a request is the one installed last. -/
theorem events_handler (i : ι) (h : Run.events act es m = some m') :
    m'.handler i = (es.filterMap (installed i)).getLast?.getD (m.handler i) := by
  induction es using List.reverseRecOn generalizing m' with
  | nil =>
    obtain rfl := Option.some.inj h
    rfl
  | append_singleton es e ih =>
    rw [Run.events_append] at h
    obtain ⟨c, hc, h⟩ := Option.bind_eq_some_iff.mp h
    obtain ⟨d, hd, h⟩ := Option.bind_eq_some_iff.mp h
    obtain rfl := Option.some.inj h
    rw [act_handler i hd, ih hc, List.filterMap_append, List.filterMap_cons, List.filterMap_nil]
    cases installed i e with
    | none => rw [List.append_nil, Option.getD_none]
    | some f => rw [List.getLast?_concat, Option.getD_some, Option.getD_some]

end Mailbox
