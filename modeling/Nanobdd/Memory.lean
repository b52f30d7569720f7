import Mathlib.Algebra.Ring.Nat
import Mathlib.Data.Finset.Card
import Mathlib.Data.Int.Notation
import Mathlib.Logic.Relation
import Mathlib.Data.Nat.Notation

/-!
# Nodes, the memory they live in, and the hash macros

A `Node *` is the number of a slot; `nullptr` is slot `0`, which no slab contains. The memory is
a total map from slots to nodes, because a slot of a slab holds a node from the moment the slab
is built: `std::make_unique<Node[]>(cap)` constructs all of them.

## What stays outside

Where a slab ends up in the address space, what `rand()` returns inside the prime search, and
which `compare_exchange_weak` or `try_lock` fails without a reason are not decided by the
source. They are the fields of `Platform`, and every theorem is about an arbitrary `Platform`.

## Main definitions

* `Node`, `Heap` — a node as the source has it, and all of memory
* `Heap.ref`, `Heap.deref` — the 32-bit counter behind a handle
* `Platform` — what the machine and the C library decide
* `hashO2`, `hashUo2`, `hashO3`, `hashUoO3` — the macros of `Hash.h`
-/

namespace Nanobdd

/-- A `Node *`, as the number of the slot it points at. -/
abbrev Ptr := ℕ

/-- The null pointer. No slab has a slot `0`. -/
abbrev nullptr : Ptr := 0

/-- `UINT_MAX`, the level of the false node. -/
abbrev uintMax : ℕ := 4294967295

/-- `struct Node`. The default values are those of its default constructor. -/
structure Node where
  /-- `atomic_uint32_t refCount` -/
  refCount : ℕ := 0
  level : ℕ := 0
  low : Ptr := nullptr
  high : Ptr := nullptr
  inUse : Bool := false
  nextFree : Ptr := nullptr
  deriving DecidableEq, Repr

/-- What `allocate` is asked for, and what the nodes of the unique table are unique for. -/
structure Key where
  level : ℕ
  low : Ptr
  high : Ptr
  deriving DecidableEq, Repr

/-- What a node is stored under. -/
def Node.key (n : Node) : Key := ⟨n.level, n.low, n.high⟩

/-- All of memory: what each slot holds. -/
abbrev Heap := Ptr → Node

namespace Heap

/-- Overwrite the node in slot `p`. -/
def modify (h : Heap) (p : Ptr) (f : Node → Node) : Heap := fun q => if q = p then f (h q) else h q

@[simp] theorem modify_self (h : Heap) (p : Ptr) (f : Node → Node) : h.modify p f p = f (h p) := by
  simp [modify]

theorem modify_of_ne {h : Heap} {p q : Ptr} {f : Node → Node} (hq : q ≠ p) :
    h.modify p f q = h q := by
  simp [modify, hq]

/-- `Node::ref`: an atomic increment of a 32-bit counter. -/
def ref (h : Heap) (p : Ptr) : Heap :=
  h.modify p fun n => { n with refCount := (n.refCount + 1) % 2 ^ 32 }

/-- `Node::deref`: an atomic decrement of a 32-bit counter. -/
def deref (h : Heap) (p : Ptr) : Heap :=
  h.modify p fun n => { n with refCount := (n.refCount + 2 ^ 32 - 1) % 2 ^ 32 }

/-- Set or clear the mark of a node. -/
def setInUse (h : Heap) (p : Ptr) (b : Bool) : Heap := h.modify p fun n => { n with inUse := b }

/-- Write the link of the free list. -/
def setNextFree (h : Heap) (p q : Ptr) : Heap := h.modify p fun n => { n with nextFree := q }

end Heap

/-- What the source leaves to the machine and to the C library. -/
structure Platform where
  /-- `reinterpret_cast<uintptr_t>` of a slot: the address `operator new` gave it. -/
  addr : Ptr → ℕ
  /-- What the `n`-th question put to the platform answers when it is a call of
  `bdd_prime_gte`; the search draws from `rand()`, so two calls need not agree. -/
  primeGte : ℕ → ℕ → ℕ
  /-- Whether the `n`-th question, when it is a `compare_exchange_weak` or a `try_lock`, is
  answered by a failure without a reason. -/
  fails : ℕ → Bool

/-! ### The hash macros

Every operand is cast to `uint32_t`, so sums and products wrap at `2 ^ 32`. -/

/-- The cast `(uint32_t) n`. -/
def u32 (n : ℕ) : ℕ := n % 2 ^ 32

/-- `HASH_O_2(a, b)` -/
def hashO2 (a b : ℕ) : ℕ :=
  u32 (u32 (u32 (u32 a + u32 b) * u32 (u32 a + u32 b + 1)) / 2 + u32 a)

/-- `HASH_UO_2(a, b)` -/
def hashUo2 (a b : ℕ) : ℕ :=
  u32 (u32 (u32 (u32 a + u32 b) * u32 (u32 a + u32 b + 1)) / 2 + 1)

/-- `HASH_O_3(a, b, c)` -/
def hashO3 (a b c : ℕ) : ℕ := hashO2 c (hashO2 a b)

/-- `HASH_UO_O_3(a, b, c)` -/
def hashUoO3 (a b c : ℕ) : ℕ := hashO2 c (hashUo2 a b)

end Nanobdd
