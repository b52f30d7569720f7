import Nanobdd.Memory

/-!
# The slab allocator

`NodeAllocator` hands out slots from a free list threaded through the freed nodes and, when that
list is empty, from the tail of the current slab. Growth adds a slab and makes it current; the
caller decides when.

The slots of a slab are consecutive numbers, and each slab starts where the one before it ended,
so a slot belongs to exactly one slab. The addresses behind the numbers are `Platform.addr`.

The atomic steps inside `allocate` and `free` are separate definitions (`popFreeFrom`,
`resetNode`, `clearNode`, `pushFree`), which the interleaved model of `FreeList` runs one at a
time.
-/

namespace Nanobdd

/-- `NodeAllocator::Slab`: its slots are `base, …, base + capacity - 1`. -/
structure Slab where
  base : ℕ
  capacity : ℕ
  next : ℕ
  deriving DecidableEq, Repr

/-- `NodeAllocator`. The vector `slabs_` is `olderSlabs` followed by `currentSlab`. -/
structure NodeAllocator where
  olderSlabs : List Slab
  currentSlab : Slab
  freeList : Ptr
  nextSlabCapacity : ℕ
  growthFactor : ℕ
  deriving DecidableEq, Repr

/-- The cast `(size_t) n`. -/
def u64 (n : ℕ) : ℕ := n % 2 ^ 64

namespace NodeAllocator

/-- The constructor. `growthFactor` is `2` when the caller gives none. -/
def new (initialCapacity : ℕ) (growthFactor : ℕ := 2) : NodeAllocator :=
  { olderSlabs := []
    currentSlab := ⟨1, max 1 initialCapacity, 0⟩
    freeList := nullptr
    nextSlabCapacity := max (u64 (max 1 initialCapacity * max 2 growthFactor)) 1
    growthFactor := max 2 growthFactor }

/-- `capacity`: the slots of all slabs. -/
def capacity (a : NodeAllocator) : ℕ :=
  (a.olderSlabs.map Slab.capacity).sum + a.currentSlab.capacity

/-- `hasFreeSlot` -/
def hasFreeSlot (a : NodeAllocator) : Bool :=
  if a.freeList ≠ nullptr then true else decide (a.currentSlab.next < a.currentSlab.capacity)

/-- `grow` -/
def grow (a : NodeAllocator) : NodeAllocator :=
  { a with
    olderSlabs := a.olderSlabs ++ [a.currentSlab]
    currentSlab := ⟨a.currentSlab.base + a.currentSlab.capacity, a.nextSlabCapacity, 0⟩
    nextSlabCapacity := max (u64 (a.nextSlabCapacity * a.growthFactor)) 1 }

end NodeAllocator

namespace Heap

/-- `NodeAllocator::resetNode` -/
def resetNode (h : Heap) (p : Ptr) (level : ℕ) (low high : Ptr) : Heap :=
  h.modify p fun _ =>
    { refCount := 0, level := level, low := low, high := high, inUse := false,
      nextFree := nullptr }

/-- What `NodeAllocator::free` writes before it pushes the node. -/
def clearNode (h : Heap) (p : Ptr) : Heap :=
  h.modify p fun n => { n with low := nullptr, high := nullptr, inUse := false, refCount := 0 }

end Heap

namespace NodeAllocator

/-- `popFree`, run without interference: the compare-exchange finds the head it loaded. -/
def popFree (a : NodeAllocator) (h : Heap) : Option (Ptr × NodeAllocator × Heap) :=
  if a.freeList = nullptr then none
  else
    some (a.freeList, { a with freeList := (h a.freeList).nextFree },
      h.setNextFree a.freeList nullptr)

/-- `pushFree`, run without interference. -/
def pushFree (a : NodeAllocator) (h : Heap) (p : Ptr) : NodeAllocator × Heap :=
  ({ a with freeList := p }, h.setNextFree p a.freeList)

/-- `allocateFromSlab` on the current slab. -/
def allocateFromSlab (a : NodeAllocator) (h : Heap) (level : ℕ) (low high : Ptr) :
    Option (Ptr × NodeAllocator × Heap) :=
  if a.currentSlab.next < a.currentSlab.capacity then
    some (a.currentSlab.base + a.currentSlab.next,
      { a with currentSlab := { a.currentSlab with next := a.currentSlab.next + 1 } },
      h.resetNode (a.currentSlab.base + a.currentSlab.next) level low high)
  else none

/-- `allocate`: `none` is the null pointer the source returns when it has no slot left. -/
def allocate (a : NodeAllocator) (h : Heap) (level : ℕ) (low high : Ptr) :
    Option (Ptr × NodeAllocator × Heap) :=
  match a.popFree h with
  | some (reused, a, h) => some (reused, a, h.resetNode reused level low high)
  | none => a.allocateFromSlab h level low high

/-- `free(Node *)`. -/
def free (a : NodeAllocator) (h : Heap) (p : Ptr) : NodeAllocator × Heap :=
  if p = nullptr then (a, h) else a.pushFree (h.clearNode p) p

/-- `free(const std::vector<Node *> &)` -/
def freeAll (a : NodeAllocator) (h : Heap) (nodes : List Ptr) : NodeAllocator × Heap :=
  nodes.foldl (fun ah p => ah.1.free ah.2 p) (a, h)

end NodeAllocator

end Nanobdd
