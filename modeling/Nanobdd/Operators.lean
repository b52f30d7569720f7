import Nanobdd.Table

/-!
# The recursive operators

`bddAnd`, `bddOr`, `bddXor` and `bddDiff` are one recursion over four sets of terminal tests and
two hash macros; `bddNot` has one operand, and `bddImp` has no recursion of its own: it calls
`bddDiff` on the cofactors.
-/

namespace Nanobdd

namespace State

/-- `isFalse` -/
def isFalse (s : State) (p : Ptr) : Bool := p == s.falseNode

/-- `isTrue` -/
def isTrue (s : State) (p : Ptr) : Bool := p == s.trueNode

/-- `negCof` -/
def negCof (s : State) (x : Ptr) (id : ℕ) : Ptr :=
  if id < (s.heap x).level then x else (s.heap x).low

/-- `posCof` -/
def posCof (s : State) (x : Ptr) (id : ℕ) : Ptr :=
  if id < (s.heap x).level then x else (s.heap x).high

/-- `std::min(x->level, y->level)` -/
def minLevel (s : State) (x y : Ptr) : ℕ := min (s.heap x).level (s.heap y).level

/-- The slot of the cache an operator uses: `HASH_UO_O_3` or `HASH_O_3` of the operands and the
operator, modulo `cache->size()`. -/
def hashVal (P : Platform) (c : LockFreeCache) (op : Operator) (x y : Ptr) : ℕ :=
  match op with
  | .and | .or | .xor => hashUoO3 (P.addr x) (P.addr y) op.toNat % c.size
  | .not => hashUoO3 (P.addr x) 0 op.toNat % c.size
  | .diff | .imp => hashO3 (P.addr x) (P.addr y) op.toNat % c.size

/-- `cache->lookup(hashVal, x, y, op)`: the answer and the state after the call. -/
def cacheLookup (P : Platform) (s : State) (op : Operator) (x y : Ptr) : Option (Ptr × State) :=
  s.cache.map fun c =>
    let r := c.lookup (hashVal P c op x y) x y op
    (r.1, { s with cache := some r.2 })

/-- `cache->insert(hashVal, res, x, y, op)` -/
def cacheInsert (P : Platform) (s : State) (op : Operator) (res x y : Ptr) : Option State :=
  s.cache.map fun c =>
    { s with
      cache := some (c.insert (P.fails s.clock) (hashVal P c op x y) res x y op)
      clock := s.clock + 1 }

/-- The recursion shared by `bddAnd`, `bddOr`, `bddXor` and `bddDiff`; `terminal` holds the
tests before it. -/
def bddApply (P : Platform) (op : Operator) (terminal : State → Ptr → Ptr → Option Ptr) :
    ℕ → State → Ptr → Ptr → Option (Ptr × State)
  | 0, _, _, _ => none
  | fuel + 1, s, x, y =>
    match terminal s x y with
    | some r => some (r, s)
    | none => do
      let m := s.minLevel x y
      let (cached, s) ← s.cacheLookup P op x y
      if cached ≠ nullptr then some (cached, s)
      else
        let (fLow, s) ← bddApply P op terminal fuel s (s.negCof x m) (s.negCof y m)
        let (fHigh, s) ← bddApply P op terminal fuel s (s.posCof x m) (s.posCof y m)
        let (res, s) ← s.combine P fuel m fLow fHigh
        let s ← s.cacheInsert P op res x y
        some (res, s)

/-- The tests at the head of `bddAnd`. -/
def andTerminal (s : State) (x y : Ptr) : Option Ptr :=
  if x = y then some x
  else if s.isFalse x || s.isFalse y then some s.falseNode
  else if s.isTrue x then some y
  else if s.isTrue y then some x
  else none

/-- The tests at the head of `bddOr`. -/
def orTerminal (s : State) (x y : Ptr) : Option Ptr :=
  if x = y then some x
  else if s.isTrue x || s.isTrue y then some s.trueNode
  else if s.isFalse x then some y
  else if s.isFalse y then some x
  else none

/-- The tests at the head of `bddXor`. -/
def xorTerminal (s : State) (x y : Ptr) : Option Ptr :=
  if x = y then some s.falseNode
  else if s.isFalse x then some y
  else if s.isFalse y then some x
  else none

/-- The tests at the head of `bddDiff`. -/
def diffTerminal (s : State) (x y : Ptr) : Option Ptr :=
  if x = y || s.isFalse x || s.isTrue y then some s.falseNode
  else if s.isFalse y then some x
  else none

/-- The tests at the head of `bddNot`. -/
def notTerminal (s : State) (x : Ptr) : Option Ptr :=
  if s.isTrue x then some s.falseNode
  else if s.isFalse x then some s.trueNode
  else none

/-- The tests at the head of `bddImp`; there is none for equal operands. -/
def impTerminal (s : State) (x y : Ptr) : Option Ptr :=
  if s.isFalse x || s.isTrue y then some s.trueNode
  else if s.isTrue x then some y
  else none

/-- `bddAnd` -/
def bddAnd (P : Platform) := bddApply P .and andTerminal

/-- `bddOr` -/
def bddOr (P : Platform) := bddApply P .or orTerminal

/-- `bddXor` -/
def bddXor (P : Platform) := bddApply P .xor xorTerminal

/-- `bddDiff` -/
def bddDiff (P : Platform) := bddApply P .diff diffTerminal

/-- `bddNot`. Its level `m` passes through an `int` and back, which keeps it. -/
def bddNot (P : Platform) : ℕ → State → Ptr → Option (Ptr × State)
  | 0, _, _ => none
  | fuel + 1, s, x =>
    match s.notTerminal x with
    | some r => some (r, s)
    | none => do
      let (cached, s) ← s.cacheLookup P .not x nullptr
      if cached ≠ nullptr then some (cached, s)
      else
        let m := (s.heap x).level
        let (fLow, s) ← bddNot P fuel s (s.negCof x m)
        let (fHigh, s) ← bddNot P fuel s (s.posCof x m)
        let (res, s) ← s.combine P fuel m fLow fHigh
        let s ← s.cacheInsert P .not res x nullptr
        some (res, s)

/-- `bddImp`. Both cofactors go to `bddDiff`. -/
def bddImp (P : Platform) : ℕ → State → Ptr → Ptr → Option (Ptr × State)
  | 0, _, _, _ => none
  | fuel + 1, s, x, y =>
    match s.impTerminal x y with
    | some r => some (r, s)
    | none => do
      let m := s.minLevel x y
      let (cached, s) ← s.cacheLookup P .imp x y
      if cached ≠ nullptr then some (cached, s)
      else
        let (fLow, s) ← bddDiff P fuel s (s.negCof x m) (s.negCof y m)
        let (fHigh, s) ← bddDiff P fuel s (s.posCof x m) (s.posCof y m)
        let (res, s) ← s.combine P fuel m fLow fHigh
        let s ← s.cacheInsert P .imp res x y
        some (res, s)

/-- The operator a `Bdd` member function calls; `bddNot` has no second operand. -/
def bddOp (P : Platform) (op : Operator) (fuel : ℕ) (s : State) (x y : Ptr) :
    Option (Ptr × State) :=
  match op with
  | .and => bddAnd P fuel s x y
  | .or => bddOr P fuel s x y
  | .not => bddNot P fuel s x
  | .xor => bddXor P fuel s x y
  | .diff => bddDiff P fuel s x y
  | .imp => bddImp P fuel s x y

end State

end Nanobdd
