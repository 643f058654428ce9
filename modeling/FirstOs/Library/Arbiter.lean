import Mathlib.Data.Finset.Max
import Mathlib.Data.Finset.Sort

/-!
# Priority arbiters

Requests come in on lines, lower lines before higher ones. A line that is accepted is in service
until the end of its service is signalled; meanwhile only lower lines are accepted. The signal does
not name a line: the lowest line in service ends.

The lines in service are a stack. The signals end the services in the order opposite to the one they
began in, so that each ends its own.

## Main definitions

- `Arbiter` — requests, masked lines and lines in service
- `Arbiter.next` — the line accepted next
- `Arbiter.Serves` — the lines in service are those of a stack

## Main results

- `Arbiter.next_eq_some_iff` — the least line that may be accepted
- `Arbiter.Serves.accept`, `Arbiter.Serves.endService` — what is pushed and popped
-/

/-- What an arbiter keeps of its lines. -/
structure Arbiter (ι : Type*) where
  requests : Finset ι
  mask : Finset ι
  service : Finset ι
deriving DecidableEq

namespace Arbiter

variable {ι : Type*} [LinearOrder ι] {a : Arbiter ι} {i j : ι} {stack : List ι}

/-- Nothing requested, masked or in service. -/
def clear : Arbiter ι := ⟨∅, ∅, ∅⟩

/-- The lines that may be accepted: requested, not masked and below those in service. -/
def eligible (a : Arbiter ι) : Finset ι :=
  (a.requests \ a.mask).filter fun i => ∀ j ∈ a.service, i < j

/-- The line that is accepted next. -/
def next (a : Arbiter ι) : Option ι :=
  if h : a.eligible.Nonempty then some (a.eligible.min' h) else none

/-- A request comes in. -/
def request (i : ι) (a : Arbiter ι) : Arbiter ι := { a with requests := insert i a.requests }

/-- A line is accepted. -/
def accept (i : ι) (a : Arbiter ι) : Arbiter ι :=
  { a with requests := a.requests.erase i, service := insert i a.service }

/-- The end of a service is signalled. -/
def endService (a : Arbiter ι) : Arbiter ι :=
  if h : a.service.Nonempty then { a with service := a.service.erase (a.service.min' h) } else a

@[simp] theorem endService_requests (a : Arbiter ι) : a.endService.requests = a.requests := by
  rw [endService]
  split_ifs <;> rfl

@[simp] theorem endService_mask (a : Arbiter ι) : a.endService.mask = a.mask := by
  rw [endService]
  split_ifs <;> rfl

theorem mem_eligible :
    i ∈ a.eligible ↔ i ∈ a.requests ∧ i ∉ a.mask ∧ ∀ j ∈ a.service, i < j := by
  rw [eligible, Finset.mem_filter, Finset.mem_sdiff, and_assoc]

theorem next_eq_some_iff : a.next = some i ↔ i ∈ a.eligible ∧ ∀ j ∈ a.eligible, i ≤ j := by
  rw [next]
  split_ifs with h
  · rw [Option.some.injEq]
    constructor
    · rintro rfl
      exact ⟨Finset.min'_mem _ h, fun j hj => Finset.min'_le _ j hj⟩
    · rintro ⟨hi, hle⟩
      exact le_antisymm (Finset.min'_le _ i hi) (hle _ (Finset.min'_mem _ h))
  · simp [Finset.not_nonempty_iff_eq_empty.mp h]

theorem next_eq_none_iff : a.next = none ↔ a.eligible = ∅ := by
  rw [next]
  split_ifs with h
  · simp [h.ne_empty]
  · simp [Finset.not_nonempty_iff_eq_empty.mp h]

/-- Where something is requested that is not masked, and nothing is in service, a line is accepted
    next. -/
theorem exists_next (hservice : a.service = ∅) (hmask : a.mask = ∅) (hi : i ∈ a.requests) :
    ∃ j, a.next = some j := by
  cases hnext : a.next with
  | some j => exact ⟨j, rfl⟩
  | none =>
    have hin : i ∈ a.eligible := by
      rw [mem_eligible, hservice, hmask]
      exact ⟨hi, Finset.notMem_empty i, fun j hj => absurd hj (Finset.notMem_empty j)⟩
    rw [next_eq_none_iff.mp hnext] at hin
    exact absurd hin (Finset.notMem_empty i)

-- ════════════════════════════════════════════════════════════════════════
-- The stack
-- ════════════════════════════════════════════════════════════════════════

/-- The lines in service, the one accepted last in front. -/
structure Serves (a : Arbiter ι) (stack : List ι) : Prop where
  service : a.service = stack.toFinset
  sorted : stack.Pairwise (· < ·)

namespace Serves

theorem clear : (clear : Arbiter ι).Serves [] := ⟨rfl, List.Pairwise.nil⟩

theorem service_eq_empty (h : a.Serves []) : a.service = ∅ := h.service

theorem request (h : a.Serves stack) : (a.request i).Serves stack := ⟨h.service, h.sorted⟩

/-- A line that is accepted is pushed. -/
theorem accept (h : a.Serves stack) (hbelow : ∀ j ∈ a.service, i < j) :
    (a.accept i).Serves (i :: stack) := by
  constructor
  · rw [Arbiter.accept, h.service, List.toFinset_cons]
  · refine List.pairwise_cons.mpr ⟨fun j hj => hbelow j ?_, h.sorted⟩
    rw [h.service]
    exact List.mem_toFinset.mpr hj

/-- The end of a service pops. -/
theorem endService (h : a.Serves (i :: stack)) : a.endService.Serves stack := by
  obtain ⟨hlt, hsorted⟩ := List.pairwise_cons.mp h.sorted
  have hmem : i ∈ a.service := by
    rw [h.service, List.toFinset_cons]
    exact Finset.mem_insert_self i _
  have hmin : a.service.min' ⟨i, hmem⟩ = i := by
    refine le_antisymm (Finset.min'_le _ i hmem) (Finset.le_min' _ _ _ fun j hj => ?_)
    rw [h.service, List.mem_toFinset] at hj
    obtain rfl | hj := List.mem_cons.mp hj
    · exact le_rfl
    · exact (hlt j hj).le
  have hout : i ∉ stack.toFinset := fun hin =>
    lt_irrefl i (hlt i (List.mem_toFinset.mp hin))
  constructor
  · rw [Arbiter.endService, dif_pos ⟨i, hmem⟩, hmin, h.service, List.toFinset_cons,
      Finset.erase_insert hout]
  · exact hsorted

end Serves

end Arbiter
