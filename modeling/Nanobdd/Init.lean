import Nanobdd.Operators
import Nanobdd.Prime

/-!
# Building the table

The constructor of `NodeTable`, `createVar`, and `init`. The constructor runs before the cache
exists, so a collection inside it would dereference a null pointer.
-/

namespace Nanobdd

namespace State

/-- The members of `NodeTable` before the body of its constructor. -/
def empty (tableSize : ℕ) : State :=
  { heap := fun _ => {}
    allocator := .new tableSize
    tableSize := tableSize
    buckets := fun _ => []
    nodeCount := 0
    falseNode := nullptr
    trueNode := nullptr
    vars := []
    nvars := []
    cache := none
    clock := 0 }

/-- `NodeTable(size_t tableSize)` -/
def newTable (P : Platform) (fuel tableSize : ℕ) : Option State := do
  let (falseNode, s) ← (empty tableSize).getOrCreateNode P fuel uintMax nullptr nullptr
  let (trueNode, s) ← { s with falseNode := falseNode }.getOrCreateNode P fuel (uintMax - 1)
    nullptr nullptr
  some { s with trueNode := trueNode, heap := (s.heap.ref s.falseNode).ref trueNode }

/-- `createVar` -/
def createVar (P : Platform) (fuel : ℕ) (s : State) (id : ℕ) : Option State := do
  let (node, s) ← s.getOrCreateNode P fuel id s.falseNode s.trueNode
  let s := { s with heap := s.heap.ref node, vars := s.vars.insertIdx id node }
  let (nvar, s) ← s.getOrCreateNode P fuel id s.trueNode s.falseNode
  some { s with heap := s.heap.ref nvar, nvars := s.nvars.insertIdx id nvar }

/-- The loop of `init`. -/
def createVars (P : Platform) (fuel : ℕ) (s : State) (varNum : ℕ) : Option State :=
  (List.range varNum).foldlM (fun s id => s.createVar P fuel (u32 id)) s

/-- `init` from the cleared state. The two prime searches draw from `rand₁` and `rand₂`. -/
def init (P : Platform) (fuel : ℕ) (rand₁ rand₂ : ℕ → ℕ) (tableSize cacheSize varNum : ℕ) :
    Option State := do
  let size ← bddPrimeGte fuel rand₁ tableSize
  let s ← newTable P fuel size
  let size ← bddPrimeGte fuel rand₂ cacheSize
  if h : 0 < size then
    createVars P fuel { s with cache := some (.new size h) } varNum
  else none

/-! ### A small table -/

/-- A platform for concrete runs: slots are 64 bytes apart, nothing fails without a reason. -/
def smallPlatform : Platform where
  addr p := 64 * p
  primeGte _ n := n
  fails _ := false

/-- Three variables in a table with eleven slots, of which three are left. -/
def small : State := (init smallPlatform 40 id id 11 11 3).getD (empty 11)

/-- Three variables in a table that has grown to nine slots, of which one is left. -/
def tight : State := (init smallPlatform 40 id id 3 3 3).getD (empty 3)

end State

end Nanobdd
