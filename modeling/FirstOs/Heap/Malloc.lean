import FirstOs.Library.ByteMemory

/-!
# The heap code

`heap_create`, `malloc` and `free` of `std/mem/mem.c`. A heap is a list of blocks,
each with a 16-byte header `alloc_t` in front of its payload. Headers are kept in a
map from addresses to records: every header the code writes lies a multiple of 16
behind the first one, so that two of them coincide or do not overlap. Payload bytes
are not part of the state. A header is stored wherever it falls, also behind the pages
of the heap, where the store may fault; the state keeps where the new ones fell.

The loops of `malloc` take a number of rounds after which they stop without a
result, `none`. Following a `NULL` pointer is a result of its own.

## Main definitions

- `AllocT`, `HeapT`, `HeapState` — a header, the heap descriptor and the current heap
- `heapCreate` — a heap over the pages `alloc_page` returned
- `malloc`, `free`
-/

namespace FirstOs

/-- `alloc_t`. -/
structure AllocT where
  size : ℕ
  used : Bool
  next : ℕ
  prev : ℕ

/-- `heap_t`. -/
structure HeapT where
  heapStart : ℕ
  heapEnd : ℕ
  lastAllocLoc : ℕ
  /-- In pages, as `heap_create` leaves it. -/
  heapSize : ℕ

/-- `cur_heap` and the headers in memory. -/
structure HeapState where
  curHeap : HeapT
  mem : ℕ → AllocT
  /-- Where `malloc` has stored the headers it cut off, the last one first. -/
  stored : List ℕ

/-- `heap_create` on the address `alloc_page` returned, installed by `set_current_heap`.
    The `memset` before the root header is written covers no byte. -/
def heapCreate (old : ℕ → AllocT) (mem pages : ℕ) : HeapState where
  curHeap := { heapStart := mem, heapEnd := mem, lastAllocLoc := mem, heapSize := pages }
  mem := Function.update old mem
    { size := u32 (pages * 0x1000), used := false, next := 0, prev := 0 }
  stored := []

namespace HeapState

variable (h : HeapState)

/-- Change the header at `a`. -/
def modify (a : ℕ) (f : AllocT → AllocT) : HeapState :=
  { h with mem := Function.update h.mem a (f (h.mem a)) }

/-- Store a new header at `a`. -/
def storeHeader (a : ℕ) (x : AllocT) : HeapState :=
  { h with mem := Function.update h.mem a x, stored := a :: h.stored }

/-- Set `last_alloc_loc`. -/
def setLast (a : ℕ) : HeapState := { h with curHeap := { h.curHeap with lastAllocLoc := a } }

/-- Move `heap_end`. -/
def setEnd (e : ℕ) : HeapState := { h with curHeap := { h.curHeap with heapEnd := e } }

/-- `cur_alloc->size += n`. -/
def addSize (a n : ℕ) : HeapState := h.modify a fun x => { x with size := u32 (x.size + n) }

/-- Mark a block used. -/
def use (a : ℕ) : HeapState := h.modify a fun x => { x with used := true }

/-- What `grow_heap` compares with `heap_size`, a number of pages. -/
def grownLength : ℕ :=
  u32 (u32 (h.curHeap.heapEnd + 0x1000) + 0x100000000 - h.curHeap.heapStart)

/-- The result of `grow_heap`. -/
def canGrow : Bool := decide (h.grownLength < h.curHeap.heapSize)

/-- The state `grow_heap` leaves, whatever its result. -/
def growHeap : HeapState := h.setEnd (u32 (h.curHeap.heapEnd + 0x1000))

/-- The end of `malloc` that cuts a block: a new header in the first 16 bytes of the
    payload of `cur`, and `size` for `cur`. -/
def split (cur size : ℕ) : HeapState :=
  let newAlloc := u32 (cur + 16)
  let h := h.storeHeader newAlloc
    { used := false, size := u32 ((h.mem cur).size + 0x100000000 - 16), next := (h.mem cur).next,
      prev := cur }
  let h := if (h.mem newAlloc).next = 0 then h.setLast newAlloc else h
  h.modify cur fun x => { x with used := true, size := size, next := newAlloc }

/-- Merge the block `n` into the block `a`. -/
def absorb (a n : ℕ) : HeapState :=
  let h := h.modify a fun x =>
    { x with next := (h.mem n).next, size := u32 (x.size + ((h.mem n).size + 16)) }
  if (h.mem a).next = 0 then h.setLast a else h

/-- Merge `n` into `a` if the block `p`, one of the two, is there and unused. -/
def absorbIf (p a n : ℕ) : HeapState :=
  if p ≠ 0 ∧ (h.mem p).used = false then h.absorb a n else h

end HeapState

/-- How `malloc` ends: with a pointer, or at a `NULL` pointer it dereferences. -/
inductive MallocResult where
  | returned (p : ℕ) (h : HeapState)
  | nullDeref

/-- The inner loop `while (cur_alloc->used) cur_alloc = cur_alloc->next`: the block it
    stops at, or `some none` at a `NULL` pointer. -/
def skipUsed (mem : ℕ → AllocT) : ℕ → ℕ → Option (Option ℕ)
  | 0, _ => none
  | fuel + 1, cur =>
    if cur = 0 then some none
    else if (mem cur).used then skipUsed mem fuel (mem cur).next
    else some (some cur)

/-- The branch `cur_alloc->size == size`; a `return` is an exception. -/
def fitEqual (size cur : ℕ) (h : HeapState) : Except MallocResult HeapState :=
  if (h.mem cur).size = size then
    if cur = h.curHeap.lastAllocLoc then
      if !h.canGrow then .error (.returned 0 h.growHeap)
      else .ok (h.growHeap.addSize cur 0x1000)
    else .error (.returned (u32 (cur + 16)) (h.use cur))
  else .ok h

/-- The branch `cur_alloc->size > size`. On the last block the result of `grow_heap` is
    not looked at. -/
def fitLarger (size cur : ℕ) (h : HeapState) : Except MallocResult HeapState :=
  if size < (h.mem cur).size then
    if (h.mem cur).size < u32 (size + 16) then
      if cur = h.curHeap.lastAllocLoc then
        .error (.returned (u32 (cur + 16)) ((h.growHeap.addSize cur 0x1000).split cur size))
      else .error (.returned (u32 (cur + 16)) (h.use cur))
    else .error (.returned (u32 (cur + 16)) (h.split cur size))
  else .ok h

/-- The loop that grows the last block until it holds `size` bytes. -/
def growUntil (size cur : ℕ) : ℕ → HeapState → Option (Except MallocResult HeapState)
  | 0, _ => none
  | fuel + 1, h =>
    if !h.canGrow then some (.error (.returned 0 h.growHeap))
    else if size ≤ ((h.growHeap.addSize cur 0x1000).mem cur).size then
      some (.ok (h.growHeap.addSize cur 0x1000))
    else growUntil size cur fuel (h.growHeap.addSize cur 0x1000)

/-- The branch for a last block that is too small. -/
def fitLast (size cur fuel : ℕ) (h : HeapState) : Option (Except MallocResult HeapState) :=
  if cur = h.curHeap.lastAllocLoc ∧ (h.mem cur).size < size then growUntil size cur fuel h
  else some (.ok h)

/-- The outer loop of `malloc` from the block `cur`. -/
def mallocFrom (size : ℕ) : ℕ → ℕ → HeapState → Option MallocResult
  | 0, _, _ => none
  | fuel + 1, cur, h =>
    match skipUsed h.mem fuel cur with
    | none => none
    | some none => some .nullDeref
    | some (some cur) =>
      match fitEqual size cur h with
      | .error r => some r
      | .ok h =>
        match fitLarger size cur h with
        | .error r => some r
        | .ok h =>
          match fitLast size cur fuel h with
          | none => none
          | some (.error r) => some r
          | some (.ok h) => mallocFrom size fuel cur h

/-- `malloc`, with at most `fuel` rounds of each of its loops. -/
def malloc (fuel size : ℕ) (h : HeapState) : Option MallocResult :=
  mallocFrom size fuel h.curHeap.heapStart h

/-- `free`. -/
def free (ptr : ℕ) (h : HeapState) : HeapState :=
  let cur := u32 (ptr + 0x100000000 - 16)
  let h := h.modify cur fun x => { x with used := false }
  let nextAlloc := (h.mem cur).next
  let prevAlloc := (h.mem cur).prev
  (h.absorbIf nextAlloc cur nextAlloc).absorbIf prevAlloc prevAlloc cur

end FirstOs
