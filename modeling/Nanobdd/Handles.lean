import Nanobdd.Init

/-!
# `Bdd` objects

A program that uses the library owns `Bdd` objects, each with a pointer to a node. `Client` is
the table together with these objects, and the functions below are the special member functions
and operators of `Bdd.cpp` and the functions of `nanobdd.h` that return a `Bdd`.

A new object gets the next index. A destroyed object leaves `none` behind, so an index never
changes its meaning. An object that was moved from is still alive, with a null pointer.

## Main definitions

* `Client` — the table and the objects
* `Action`, `Client.exec` — what a program may do next, and what it does

The compound assignments are in `Compound`. `operator<` compares addresses and is left out.
-/

namespace Nanobdd

/-- The table and the `Bdd` objects of a program. -/
structure Client where
  table : State
  /-- `root_` of each object, `none` after its destructor. -/
  bdds : List (Option Ptr)
  /-- How often `deref` met a counter that was zero. The program does not have this field. -/
  underflows : ℕ := 0

namespace Client

/-! ### Roots and counters -/

/-- `root()` of an object that is alive. -/
def root (c : Client) (i : ℕ) : Option Ptr := c.bdds[i]?.join

/-- `root()` of an object that was not moved from. -/
def node (c : Client) (i : ℕ) : Option Ptr := (c.root i).filter (· ≠ nullptr)

/-- `if (root_ != nullptr) root_->ref()` -/
def ref (c : Client) (p : Ptr) : Client :=
  if p = nullptr then c
  else { c with table := { c.table with heap := c.table.heap.ref p } }

/-- `if (root_ != nullptr) root_->deref()` -/
def deref (c : Client) (p : Ptr) : Client :=
  if p = nullptr then c
  else
    { c with
      table := { c.table with heap := c.table.heap.deref p }
      underflows := c.underflows + if (c.table.heap p).refCount = 0 then 1 else 0 }

/-- A new object. -/
def push (c : Client) (p : Ptr) : Client := { c with bdds := c.bdds ++ [some p] }

/-- Overwrite `root_`, or end the life of an object. -/
def setRoot (c : Client) (i : ℕ) (p : Option Ptr) : Client := { c with bdds := c.bdds.set i p }

/-! ### Special member functions -/

/-- `Bdd(Node *root)`, which does not test for a null pointer. -/
def construct (c : Client) (p : Ptr) : Option Client :=
  if p = nullptr then none else some ((c.ref p).push p)

/-- `Bdd()` -/
def constructDefault (c : Client) : Option Client := c.construct c.table.falseNode

/-- `Bdd(const Bdd &other)` -/
def copyConstruct (c : Client) (i : ℕ) : Option Client := do
  let p ← c.root i
  some ((c.ref p).push p)

/-- `Bdd(Bdd &&other)` -/
def moveConstruct (c : Client) (i : ℕ) : Option Client := do
  let p ← c.root i
  some ((c.push p).setRoot i (some nullptr))

/-- `~Bdd()`, while the table exists. -/
def destroy (c : Client) (i : ℕ) : Option Client := do
  let p ← c.root i
  some ((c.deref p).setRoot i none)

/-- `operator=(const Bdd &r)` -/
def copyAssign (c : Client) (i j : ℕ) : Option Client := do
  let p ← c.root i
  let newRoot ← c.root j
  if i = j then some c
  else some (((c.ref newRoot).deref p).setRoot i (some newRoot))

/-- `operator=(Bdd &&r)` -/
def moveAssign (c : Client) (i j : ℕ) : Option Client := do
  let p ← c.root i
  let newRoot ← c.root j
  if i = j then some c
  else some (((c.deref p).setRoot i (some newRoot)).setRoot j (some nullptr))

/-! ### Operators and library functions -/

/-- The second operand; negation has none. -/
def rightNode (c : Client) (op : Operator) (j : ℕ) : Option Ptr :=
  if op = .not then some nullptr else c.node j

/-- The operands of an operator. -/
def operands (c : Client) (op : Operator) (i j : ℕ) : Option (Ptr × Ptr) := do
  let x ← c.node i
  let y ← c.rightNode op j
  some (x, y)

/-- The value-returning operators `&`, `|`, `^`, `-`, `>>` and `!`. A null root is not an
operand. -/
def apply (P : Platform) (fuel : ℕ) (c : Client) (op : Operator) (i j : ℕ) : Option Client := do
  let (x, y) ← c.operands op i j
  let (r, t) ← c.table.bddOp P op fuel x y
  { c with table := t }.construct r

/-- `getVar`, where `std::vector::at` finds the index in range. -/
def getVar (c : Client) (id : ℕ) : Option Client := do
  let p ← c.table.vars[id]?
  c.construct p

/-- `getNvar` -/
def getNvar (c : Client) (id : ℕ) : Option Client := do
  let p ← c.table.nvars[id]?
  c.construct p

/-- `bddFalse` -/
def bddFalse (c : Client) : Option Client := c.construct c.table.falseNode

/-- `bddTrue` -/
def bddTrue (c : Client) : Option Client := c.construct c.table.trueNode

/-- `gc` -/
def gc (fuel : ℕ) (c : Client) : Option Client := do
  let t ← c.table.gc fuel
  some { c with table := t }

/-- `operator==` -/
def equals (c : Client) (i j : ℕ) : Option Bool := do
  let x ← c.root i
  let y ← c.root j
  some (x == y)

/-- `isFalse` -/
def isFalse (c : Client) (i : ℕ) : Option Bool := do
  let x ← c.root i
  some (x == c.table.falseNode)

/-- `isTrue` -/
def isTrue (c : Client) (i : ℕ) : Option Bool := do
  let x ← c.root i
  some (x == c.table.trueNode)

end Client

/-! ### Programs -/

/-- What a program may do next. -/
inductive Action
  | constructDefault
  | construct (p : Ptr)
  | copyConstruct (i : ℕ)
  | moveConstruct (i : ℕ)
  | destroy (i : ℕ)
  | copyAssign (i j : ℕ)
  | moveAssign (i j : ℕ)
  | apply (op : Operator) (i j : ℕ)
  | getVar (id : ℕ)
  | getNvar (id : ℕ)
  | bddFalse
  | bddTrue
  | gc
  deriving DecidableEq

/-- Perform an action. -/
def Client.exec (P : Platform) (fuel : ℕ) (c : Client) : Action → Option Client
  | .constructDefault => c.constructDefault
  | .construct p => c.construct p
  | .copyConstruct i => c.copyConstruct i
  | .moveConstruct i => c.moveConstruct i
  | .destroy i => c.destroy i
  | .copyAssign i j => c.copyAssign i j
  | .moveAssign i j => c.moveAssign i j
  | .apply op i j => c.apply P fuel op i j
  | .getVar id => c.getVar id
  | .getNvar id => c.getNvar id
  | .bddFalse => c.bddFalse
  | .bddTrue => c.bddTrue
  | .gc => c.gc fuel

end Nanobdd
