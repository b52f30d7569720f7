import Nanobdd.Memory

/-!
# The operation cache

`LockFreeCache`, the cache of the default build: one direct-mapped array of entries, each
guarded by a counter that is `-1` while a writer is inside and the number of readers otherwise.
This file has the calls as a thread sees them that runs alone; `CacheProtocol` takes the same
calls apart into their atomic steps.
-/

namespace Nanobdd

/-- `enum Operator` -/
inductive Operator
  | and | or | not | xor | diff | imp
  deriving DecidableEq, Repr

namespace Operator

/-- The value of the enumerator. -/
def toNat : Operator → ℕ
  | and => 0
  | or => 1
  | not => 2
  | xor => 3
  | diff => 4
  | imp => 5

end Operator

/-- `struct LockFreeCacheEntry` -/
structure LockFreeCacheEntry where
  node : Ptr := nullptr
  left : Ptr := nullptr
  right : Ptr := nullptr
  op : Operator := .and
  useCount : ℤ := 0
  deriving DecidableEq, Repr

/-- `LockFreeCache::isCommutativeOperator` -/
def isCommutativeOperator (op : Operator) : Bool := decide (op.toNat ≤ 3)

namespace LockFreeCacheEntry

/-- The comparison inside `lookup`: same operator, and the same operands, in either order for a
commutative operator. -/
def answers (e : LockFreeCacheEntry) (left right : Ptr) (op : Operator) : Bool :=
  e.op == op &&
    ((isCommutativeOperator op &&
        ((e.left == left && e.right == right) || (e.left == right && e.right == left))) ||
      (!isCommutativeOperator op && e.left == left && e.right == right))

end LockFreeCacheEntry

/-- `LockFreeCache`. The size is the length of the vector, which is never empty: `% size()`
would be a division by zero. -/
structure LockFreeCache where
  size : ℕ
  entry : ℕ → LockFreeCacheEntry
  size_pos : 0 < size

namespace LockFreeCache

/-- The constructor: every entry empty. -/
def new (size : ℕ) (h : 0 < size) : LockFreeCache := ⟨size, fun _ => {}, h⟩

/-- Overwrite one entry. -/
def setEntry (c : LockFreeCache) (i : ℕ) (e : LockFreeCacheEntry) : LockFreeCache :=
  { c with entry := fun j => if j = i then e else c.entry j }

/-- `lookup`, with the null pointer for a miss. The loop around the compare-exchange refreshes
its expected value, so it ends at once: with a miss if a writer is inside, inside otherwise. -/
def lookup (c : LockFreeCache) (hash : ℕ) (left right : Ptr) (op : Operator) :
    Ptr × LockFreeCache :=
  let e := c.entry hash
  if e.node = nullptr then (nullptr, c)
  else if e.useCount = -1 then (nullptr, c)
  else
    let c := c.setEntry hash { e with useCount := e.useCount + 1 }
    let out := if e.answers left right op then e.node else nullptr
    (out, c.setEntry hash { c.entry hash with useCount := (c.entry hash).useCount - 1 })

theorem setEntry_entry (c : LockFreeCache) (i j : ℕ) (e : LockFreeCacheEntry) :
    (c.setEntry i e).entry j = if j = i then e else c.entry j := rfl

/-- A lookup leaves what it finds, and gets out again. -/
theorem lookup_snd (c : LockFreeCache) (hash : ℕ) (left right : Ptr) (op : Operator) :
    (c.lookup hash left right op).2 = c := by
  rw [lookup]
  split
  · rfl
  · split
    · rfl
    · show (c.setEntry hash _).setEntry hash _ = c
      simp only [setEntry, if_true, Int.add_sub_cancel]
      congr 1
      funext j
      by_cases hj : j = hash
      · rw [if_pos hj, hj]
      · rw [if_neg hj, if_neg hj]

/-- `insert`. It gives up when the compare-exchange fails, be it `spurious`ly. -/
def insert (c : LockFreeCache) (spurious : Bool) (hash : ℕ) (node left right : Ptr)
    (op : Operator) : LockFreeCache :=
  if (c.entry hash).useCount = 0 ∧ spurious = false then
    c.setEntry hash { node := node, left := left, right := right, op := op, useCount := 0 }
  else c

/-- `invalidateAll`. The operator of an entry is left as it was. -/
def invalidateAll (c : LockFreeCache) : LockFreeCache :=
  { c with entry := fun i =>
      { c.entry i with node := nullptr, left := nullptr, right := nullptr, useCount := 0 } }

end LockFreeCache

end Nanobdd
