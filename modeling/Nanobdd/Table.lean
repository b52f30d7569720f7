import Nanobdd.Allocator
import Nanobdd.Cache

/-!
# The node table

`NodeTable` and the global cache it empties, as one flat record. The functions are those of
`NodeTable.cpp` and `Bucket.h` for a thread that runs alone.

A `while (true)` loop and a recursion take a `fuel`; a result `none` means that the fuel ran out
or that the source would dereference a null pointer. How much fuel is enough is a theorem in
each case, never an assumption.
-/

namespace Nanobdd

/-- The node table, the memory its nodes live in, and the global cache. `clock` counts the
questions put to the `Platform` so far. -/
structure State where
  heap : Heap
  allocator : NodeAllocator
  tableSize : ℕ
  buckets : ℕ → List Ptr
  nodeCount : ℕ
  falseNode : Ptr
  trueNode : Ptr
  vars : List Ptr
  nvars : List Ptr
  cache : Option LockFreeCache
  clock : ℕ

/-! ### Buckets -/

/-- The key test of `Bucket::find` and `Bucket::insertIfAbsent`. -/
def Node.hasKey (n : Node) (level : ℕ) (low high : Ptr) : Bool :=
  n.low == low && n.high == high && n.level == level

/-- `Node::markRec` -/
def markRec : ℕ → Heap → Ptr → Option Heap
  | 0, _, _ => none
  | fuel + 1, h, p =>
    if (h p).inUse then some h
    else do
      let h := h.setInUse p true
      let h ← if (h p).low ≠ nullptr then markRec fuel h (h p).low else some h
      if (h p).high ≠ nullptr then markRec fuel h (h p).high else some h

/-- `Bucket::markNodesUnsafe` -/
def markNodesUnsafe (fuel : ℕ) (h : Heap) (nodes : List Ptr) : Option Heap :=
  nodes.foldlM (fun h p => if (h p).refCount ≠ 0 then markRec fuel h p else some h) h

/-- The test of `Bucket::sweepNodesUnsafe`. -/
def isDead (h : Heap) (p : Ptr) : Bool := !(h p).inUse && (h p).refCount == 0

/-- `Bucket::sweepNodesUnsafe`: what stays in the bucket, and `freed` with the rest appended. -/
def sweepNodesUnsafe (h : Heap) : List Ptr → List Ptr → List Ptr × List Ptr
  | [], freed => ([], freed)
  | node :: rest, freed =>
    if isDead h node then sweepNodesUnsafe h rest (freed ++ [node])
    else
      let (kept, freed) := sweepNodesUnsafe h rest freed
      (node :: kept, freed)

/-- `Bucket::unmarkNodesUnsafe` -/
def unmarkNodesUnsafe (h : Heap) (nodes : List Ptr) : Heap :=
  nodes.foldl (fun h p => h.setInUse p false) h

namespace State

/-- All stored nodes, bucket after bucket. -/
def stored (s : State) : List Ptr := (List.range s.tableSize).flatMap s.buckets

/-- `NodeTable::hash` -/
def hash (P : Platform) (s : State) (level : ℕ) (low high : Ptr) : ℕ :=
  hashO3 level (P.addr low) (P.addr high) % s.tableSize

/-- `Bucket::find` in the bucket with index `idx`. -/
def find (s : State) (idx level : ℕ) (low high : Ptr) : Option Ptr :=
  (s.buckets idx).find? fun p => (s.heap p).hasKey level low high

/-- `allocator_.allocate` -/
def allocate (s : State) (level : ℕ) (low high : Ptr) : Option (Ptr × State) :=
  (s.allocator.allocate s.heap level low high).map fun r =>
    (r.1, { s with allocator := r.2.1, heap := r.2.2 })

/-- `allocator_.free(Node *)` -/
def free (s : State) (p : Ptr) : State :=
  let r := s.allocator.free s.heap p
  { s with allocator := r.1, heap := r.2 }

/-- `push_back` on the bucket with index `idx`. -/
def pushBack (s : State) (idx : ℕ) (p : Ptr) : State :=
  { s with buckets := fun i => if i = idx then s.buckets i ++ [p] else s.buckets i }

/-- `Bucket::insertIfAbsent` -/
def insertIfAbsent (s : State) (idx level : ℕ) (low high candidate : Ptr) : Ptr × Bool × State :=
  match s.find idx level low high with
  | some node => (node, false, s)
  | none => (candidate, true, s.pushBack idx candidate)

/-! ### Growing the bucket array -/

/-- `shouldGrowBucketsLocked`: a load above `maxLoadFactor_ = 4.0`. The division of doubles is
exact enough to decide this for every table below `2 ^ 51` buckets. -/
def shouldGrowBucketsLocked (s : State) : Bool :=
  decide (s.tableSize ≠ 0 ∧ 4 * s.tableSize < s.nodeCount)

/-- The loop of `growBucketsLocked` that puts the nodes back. -/
def rehash (P : Platform) (s : State) (nodes : List Ptr) : State :=
  nodes.foldl
    (fun s p => s.pushBack (s.hash P (s.heap p).level (s.heap p).low (s.heap p).high) p) s

/-- `growBucketsLocked` -/
def growBucketsLocked (P : Platform) (s : State) (newSize : ℕ) : State :=
  if newSize ≤ s.tableSize then s
  else rehash P { s with buckets := fun _ => [], tableSize := newSize } s.stored

/-- `bdd_prime_gte(static_cast<unsigned int>(tableSize_ * 2 + 1))` and the growth to its
result. -/
def growToPrime (P : Platform) (s : State) : State :=
  growBucketsLocked P { s with clock := s.clock + 1 }
    (P.primeGte s.clock (u32 (s.tableSize * 2 + 1)))

/-- `maybeGrowBuckets` -/
def maybeGrowBuckets (P : Platform) (s : State) : State :=
  let s' := { s with clock := s.clock + 1 }
  if P.fails s.clock then s'
  else if s'.shouldGrowBucketsLocked then s'.growToPrime P
  else s'

/-! ### Collection -/

/-- The first loop of `gcLocked`. -/
def markPhase (fuel : ℕ) (s : State) : Option State :=
  ((List.range s.tableSize).foldlM (fun h i => markNodesUnsafe fuel h (s.buckets i)) s.heap).map
    fun h => { s with heap := h }

/-- The second loop of `gcLocked`: the table without the swept nodes, and those nodes. -/
def sweepPhase (s : State) : State × List Ptr :=
  ({ s with buckets := fun i => (sweepNodesUnsafe s.heap (s.buckets i) []).1 },
    (List.range s.tableSize).foldl
      (fun freed i => (sweepNodesUnsafe s.heap (s.buckets i) freed).2) [])

/-- The third loop of `gcLocked`. -/
def unmarkPhase (s : State) : State :=
  { s with heap :=
      (List.range s.tableSize).foldl (fun h i => unmarkNodesUnsafe h (s.buckets i)) s.heap }

/-- The rest of `gcLocked`: free the swept nodes, subtract them, and empty the cache, which must
exist by then. -/
def releasePhase (s : State) (freed : List Ptr) : Option State :=
  let r := s.allocator.freeAll s.heap freed
  match s.cache with
  | none => none
  | some c =>
    some { s with
      allocator := r.1
      heap := r.2
      nodeCount := s.nodeCount - freed.length
      cache := some c.invalidateAll }

/-- `gcLocked` -/
def gcLocked (fuel : ℕ) (s : State) : Option State := do
  let s ← s.markPhase fuel
  let r := s.sweepPhase
  r.1.unmarkPhase.releasePhase r.2

/-- `performMaintenance` -/
def performMaintenance (P : Platform) (fuel : ℕ) (s : State) : Option State := do
  let s ← s.gcLocked fuel
  let s := if s.allocator.hasFreeSlot then s else { s with allocator := s.allocator.grow }
  some (if s.shouldGrowBucketsLocked then s.growToPrime P else s)

/-! ### Find or create -/

/-- One pass of the loop of `getOrCreateNode`; `none` when `allocate` returns null. -/
def getOrCreateOnce (P : Platform) (s : State) (level : ℕ) (low high : Ptr) :
    Option (Ptr × State) :=
  let idx := s.hash P level low high
  match s.find idx level low high with
  | some existing => some (existing, s)
  | none =>
    match s.allocate level low high with
    | none => none
    | some (candidate, s) =>
      match s.insertIfAbsent idx level low high candidate with
      | (node, false, s) => some (node, s.free candidate)
      | (node, true, s) =>
        some (node, { s with nodeCount := s.nodeCount + 1 }.maybeGrowBuckets P)

/-- `getOrCreateNode` -/
def getOrCreateNode (P : Platform) : ℕ → State → ℕ → Ptr → Ptr → Option (Ptr × State)
  | 0, _, _, _, _ => none
  | fuel + 1, s, level, low, high =>
    match s.getOrCreateOnce P level low high with
    | some r => some r
    | none => do
      let s ← s.performMaintenance P fuel
      getOrCreateNode P fuel s level low high

/-- `combine` -/
def combine (P : Platform) (fuel : ℕ) (s : State) (level : ℕ) (low high : Ptr) :
    Option (Ptr × State) :=
  if low = high then some (low, s) else s.getOrCreateNode P fuel level low high

/-- `gc` -/
def gc (fuel : ℕ) (s : State) : Option State := s.gcLocked fuel

end State

end Nanobdd
