import Nanobdd.Compound
import Nanobdd.Minimal

/-!
# The C interface

The functions of `capi.cpp` over the whole life of the library. `init` makes the table unless
there is one, `clear` deletes it, and `init` may follow again. A handle is a pointer to a heap
object with one `Bdd` in it. Every function tests its handles for null before it looks at them,
and `~Bdd` tests for a table before it looks at the node.

For its user this is a machine on handles that hold functions. Handles that outlive a `clear` hold
nothing and can only be freed, and while one of them is left `init` must wait: its destructor
would find the new table and write to a node of the old one.

## Main definitions

* `Library`, `CCall`, `Library.call` — the library and the functions of `capi.h`
* `Handles`, `Handles.next`, `Handles.Answers` — the machine
* `Library.handles` — what the handles of a program stand for

That a call is a step of the machine is in `Sessions`.
-/

namespace Nanobdd

open BoolFun

variable {P : Platform} {n fuel : ℕ}

/-! ### The library -/

/-- `nodeTable` with its cache, and the objects of the program. -/
structure Library where
  /-- `none` is the null pointer. -/
  nodeTable : Option State
  /-- `root_` of each object, `none` after its destructor. -/
  bdds : List (Option Ptr)
  underflows : ℕ := 0

/-- A pointer to a `nanobdd_bdd_t`, as the index of its `Bdd`. -/
abbrev Handle := Option ℕ

/-- While there is a table. -/
def Client.library (c : Client) : Library := ⟨some c.table, c.bdds, c.underflows⟩

namespace Library

/-- A program that has not called `init`. -/
def unloaded : Library := { nodeTable := none, bdds := [] }

def client (l : Library) : Option Client := l.nodeTable.map fun t => ⟨t, l.bdds, l.underflows⟩

/-- `root()` of an object that is alive. -/
def root (l : Library) (i : ℕ) : Option Ptr := l.bdds[i]?.join

/-- `nanobdd_init` -/
def nanobddInit (fuel : ℕ) (P : Platform) (rand₁ rand₂ : ℕ → ℕ) (tableSize cacheSize varNum : ℕ)
    (l : Library) : Option Library :=
  if l.nodeTable.isSome then some l
  else do
    let t ← State.init P fuel rand₁ rand₂ tableSize cacheSize varNum
    some { l with nodeTable := some t }

/-- `nanobdd_clear` -/
def nanobddClear (l : Library) : Library := { l with nodeTable := none }

/-- `new nanobdd_bdd_t{…}`. Whatever makes a `Bdd` looks at the table. -/
def create (f : Client → Option Client) (l : Library) : Option (Handle × Library) := do
  let c ← l.client
  let c' ← f c
  some (some l.bdds.length, c'.library)

/-- `nanobdd_bdd_false` -/
def nanobddBddFalse (l : Library) : Option (Handle × Library) := l.create Client.bddFalse

/-- `nanobdd_bdd_true` -/
def nanobddBddTrue (l : Library) : Option (Handle × Library) := l.create Client.bddTrue

/-- `nanobdd_get_var` -/
def nanobddGetVar (id : ℕ) (l : Library) : Option (Handle × Library) := l.create (·.getVar id)

/-- `nanobdd_get_nvar` -/
def nanobddGetNvar (id : ℕ) (l : Library) : Option (Handle × Library) := l.create (·.getNvar id)

/-- `nanobdd_bdd_clone` -/
def nanobddBddClone (bdd : Handle) (l : Library) : Option (Handle × Library) :=
  match bdd with
  | none => some (none, l)
  | some i => l.create (·.copyConstruct i)

/-- `nanobdd_bdd_free`. Without a table `~Bdd` leaves the node alone. -/
def nanobddBddFree (bdd : Handle) (l : Library) : Option Library :=
  match bdd with
  | none => some l
  | some i =>
    match l.client with
    | some c => (c.destroy i).map Client.library
    | none => (l.root i).map fun _ => { l with bdds := l.bdds.set i none }

/-- `nanobdd_bdd_is_false` -/
def nanobddBddIsFalse (bdd : Handle) (l : Library) : Option Bool :=
  match bdd with
  | none => some false
  | some i => l.client.bind (·.isFalse i)

/-- `nanobdd_bdd_is_true` -/
def nanobddBddIsTrue (bdd : Handle) (l : Library) : Option Bool :=
  match bdd with
  | none => some false
  | some i => l.client.bind (·.isTrue i)

/-- `nanobdd_bdd_eq`. Two roots can be compared without a table. -/
def nanobddBddEq (lhs rhs : Handle) (l : Library) : Option Bool :=
  match lhs, rhs with
  | some i, some j => do
    let x ← l.root i
    let y ← l.root j
    some (x == y)
  | _, _ => some (lhs == rhs)

/-- `nanobdd_bdd_and`, `nanobdd_bdd_or`, `nanobdd_bdd_xor`, `nanobdd_bdd_diff` and
`nanobdd_bdd_imp` -/
def nanobddBddBinary (P : Platform) (fuel : ℕ) (op : Operator) (lhs rhs : Handle) (l : Library) :
    Option (Handle × Library) :=
  match lhs, rhs with
  | some i, some j => l.create (·.apply P fuel op i j)
  | _, _ => some (none, l)

/-- `nanobdd_bdd_not` -/
def nanobddBddNot (P : Platform) (fuel : ℕ) (value : Handle) (l : Library) :
    Option (Handle × Library) :=
  match value with
  | none => some (none, l)
  | some i => l.create (·.apply P fuel .not i i)

/-- `nanobdd_bdd_and_assign`, …, `nanobdd_bdd_imp_assign` -/
def nanobddBddAssign (P : Platform) (fuel : ℕ) (op : Operator) (lhs rhs : Handle) (l : Library) :
    Option Library :=
  match lhs, rhs with
  | some i, some j => do
    let c ← l.client
    let c' ← c.applyAssign P fuel op i j
    some c'.library
  | _, _ => some l

/-- `nanobdd_num_nodes` -/
def nanobddNumNodes (l : Library) : Option ℕ := l.nodeTable.map (·.nodeCount)

/-- `nanobdd_gc` -/
def nanobddGc (fuel : ℕ) (l : Library) : Option Library := do
  let c ← l.client
  let c' ← c.gc fuel
  some c'.library

end Library

/-! ### Calls -/

/-- A call of a function of `capi.h`. -/
inductive CCall
  | init (rand₁ rand₂ : ℕ → ℕ) (tableSize cacheSize varNum : ℕ)
  | clear
  | bddFalse
  | bddTrue
  | getVar (id : ℕ)
  | getNvar (id : ℕ)
  | clone (bdd : Handle)
  | free (bdd : Handle)
  | isFalse (bdd : Handle)
  | isTrue (bdd : Handle)
  | eq (lhs rhs : Handle)
  | binary (op : Operator) (lhs rhs : Handle)
  | not (value : Handle)
  | assign (op : Operator) (lhs rhs : Handle)
  | numNodes
  | gc

/-- What a call returns. -/
inductive CResult
  | void
  | handle (h : Handle)
  | bool (b : Bool)
  | size (k : ℕ)

/-- Perform a call: `none` where the program would leave the memory that it may use, or an index
is out of range. -/
def Library.call (P : Platform) (fuel : ℕ) (l : Library) : CCall → Option (CResult × Library)
  | .init rand₁ rand₂ tableSize cacheSize varNum =>
    (l.nanobddInit fuel P rand₁ rand₂ tableSize cacheSize varNum).map (.void, ·)
  | .clear => some (.void, l.nanobddClear)
  | .bddFalse => l.nanobddBddFalse.map (Prod.map .handle id)
  | .bddTrue => l.nanobddBddTrue.map (Prod.map .handle id)
  | .getVar i => (l.nanobddGetVar i).map (Prod.map .handle id)
  | .getNvar i => (l.nanobddGetNvar i).map (Prod.map .handle id)
  | .clone bdd => (l.nanobddBddClone bdd).map (Prod.map .handle id)
  | .free bdd => (l.nanobddBddFree bdd).map (.void, ·)
  | .isFalse bdd => (l.nanobddBddIsFalse bdd).map (.bool ·, l)
  | .isTrue bdd => (l.nanobddBddIsTrue bdd).map (.bool ·, l)
  | .eq lhs rhs => (l.nanobddBddEq lhs rhs).map (.bool ·, l)
  | .binary op lhs rhs =>
    if op = .not then none else (l.nanobddBddBinary P fuel op lhs rhs).map (Prod.map .handle id)
  | .not value => (l.nanobddBddNot P fuel value).map (Prod.map .handle id)
  | .assign op lhs rhs =>
    if op = .not then none else (l.nanobddBddAssign P fuel op lhs rhs).map (.void, ·)
  | .numNodes => l.nanobddNumNodes.map (.size ·, l)
  | .gc => (l.nanobddGc fuel).map (.void, ·)

/-- The action of a call that works on the table. -/
def CCall.action : CCall → Option Action
  | .bddFalse => some .bddFalse
  | .bddTrue => some .bddTrue
  | .getVar i => some (.getVar i)
  | .getNvar i => some (.getNvar i)
  | .clone bdd => bdd.map .copyConstruct
  | .free bdd => bdd.map .destroy
  | .binary op lhs rhs => do
    let i ← lhs
    let j ← rhs
    some (.apply op i j)
  | .not value => value.map fun i => .apply .not i i
  | .gc => some .gc
  | _ => none

/-- Its arguments are not null. -/
theorem CCall.action_cases {e : CCall} {a : Action} (ha : e.action = some a) :
    (e = .bddFalse ∧ a = .bddFalse) ∨ (e = .bddTrue ∧ a = .bddTrue) ∨
      (∃ i, e = .getVar i ∧ a = .getVar i) ∨ (∃ i, e = .getNvar i ∧ a = .getNvar i) ∨
      (∃ i, e = .clone (some i) ∧ a = .copyConstruct i) ∨
      (∃ i, e = .free (some i) ∧ a = .destroy i) ∨
      (∃ op i j, e = .binary op (some i) (some j) ∧ a = .apply op i j) ∨
      (∃ i, e = .not (some i) ∧ a = .apply .not i i) ∨ (e = .gc ∧ a = .gc) := by
  cases e with
  | bddFalse => cases ha; simp
  | bddTrue => cases ha; simp
  | getVar i => cases ha; simp
  | getNvar i => cases ha; simp
  | clone bdd =>
    obtain ⟨i, rfl, rfl⟩ := Option.map_eq_some_iff.mp ha
    simp
  | free bdd =>
    obtain ⟨i, rfl, rfl⟩ := Option.map_eq_some_iff.mp ha
    simp
  | binary op lhs rhs =>
    obtain ⟨i, rfl, ha⟩ := Option.bind_eq_some_iff.mp ha
    obtain ⟨j, rfl, ha⟩ := Option.bind_eq_some_iff.mp ha
    cases ha
    simp
  | not value =>
    obtain ⟨i, rfl, rfl⟩ := Option.map_eq_some_iff.mp ha
    simp
  | gc => cases ha; simp
  | init _ _ _ _ _ => cases ha
  | clear => cases ha
  | isFalse _ => cases ha
  | isTrue _ => cases ha
  | eq _ _ => cases ha
  | assign _ _ _ => cases ha
  | numNodes => cases ha

/-- What such a call returns when there are `k` objects. -/
def CCall.made (k : ℕ) : CCall → CResult
  | .free _ | .gc => .void
  | _ => .handle (some k)

/-- The condition on a call: `init` waits until all handles of the last session are freed, operators
are not `>>` and lose nothing, and compound assignments are of the kind that is right. -/
def CCall.Admits (P : Platform) (l : Library) : CCall → Prop
  | .init _ _ _ _ varNum => l.nodeTable = none → varNum < uintMax ∧ ∀ o ∈ l.bdds, o = none
  | .binary op lhs rhs => op ≠ .not ∧ op ≠ .imp ∧ ∀ c i j, l.client = some c → lhs = some i →
      rhs = some j → c.Admits (State.NoLoss P) (.apply op i j)
  | .not value => ∀ c i, l.client = some c → value = some i →
      c.Admits (State.NoLoss P) (.apply .not i i)
  | .assign op lhs rhs => op ≠ .not ∧ op ≠ .imp ∧ ∀ c i j, l.client = some c → lhs = some i →
      rhs = some j → c.AssignsRoot P op i j
  | _ => True

/-- One call. No counter wraps around. -/
def CStep (P : Platform) (l l' : Library) : Prop :=
  ∃ e fuel r, l.call P fuel e = some (r, l') ∧ e.Admits P l ∧
    ∀ c, l'.client = some c → c.ReferencesFit

/-! ### The machine -/

/-- The number of variables while there is a table, and what the handles hold: `none` for one that
was freed, `some none` for one that has outlived its table. -/
structure Handles where
  vars : Option ℕ
  values : Values

namespace Handles

/-- The function of a handle. -/
def fn (h : Handles) (bdd : Handle) : Option BoolFun := bdd.bind h.values.fn

/-- The state after a call. -/
def next (h : Handles) : CCall → Option Handles
  | .init _ _ _ _ varNum => some (if h.vars.isSome then h else { h with vars := some varNum })
  | .clear => some ⟨none, h.values.map (Option.map fun _ => none)⟩
  | .free (some i) => (h.values.get i).map fun _ => { h with values := h.values.set i none }
  | .isFalse (some i) | .isTrue (some i) => do
    let _ ← h.vars
    let _ ← h.values.get i
    some h
  | .eq (some i) (some j) => do
    let _ ← h.values.get i
    let _ ← h.values.get j
    some h
  | .assign op (some i) (some j) => do
    let f ← h.values.fn i
    let g ← h.values.fn j
    some { h with values := h.values.set i (some (some (map₂ op.connective f g))) }
  | .numNodes => h.vars.map fun _ => h
  | e =>
    match e.action with
    | none => some h
    | some a => do
      let n ← h.vars
      let v ← h.values.exec n a
      some ⟨some n, v⟩

/-- What a call returns: a null handle for a null argument, otherwise a new handle, or what the
functions say. -/
def Answers (h : Handles) (r : CResult) : CCall → Prop
  | .bddFalse | .bddTrue | .getVar _ | .getNvar _ => r = .handle (some h.values.length)
  | .clone bdd | .not bdd => r = .handle (bdd.map fun _ => h.values.length)
  | .binary _ lhs rhs => r = .handle (lhs.bind fun _ => rhs.map fun _ => h.values.length)
  | .isFalse bdd => ∃ b, r = .bool b ∧ (bdd = none → b = false) ∧
      ∀ f, h.fn bdd = some f → (b = true ↔ f = fun _ => false)
  | .isTrue bdd => ∃ b, r = .bool b ∧ (bdd = none → b = false) ∧
      ∀ f, h.fn bdd = some f → (b = true ↔ f = fun _ => true)
  | .eq lhs rhs => ∃ b, r = .bool b ∧ (lhs = none ∨ rhs = none → (b = true ↔ lhs = rhs)) ∧
      ∀ f g, h.fn lhs = some f → h.fn rhs = some g → (b = true ↔ f = g)
  | .numNodes => ∃ k, r = .size k ∧ ∀ n, h.vars = some n → (h.values.diagrams n).encard ≤ k
  | .init .. | .clear | .free _ | .assign .. | .gc => r = .void

/-- Any call. -/
def Calls (h h' : Handles) : Prop := ∃ e, h.next e = some h'

end Handles

/-- What the handles of a program stand for. -/
def Library.handles (l : Library) : Handles :=
  match l.client with
  | some c => ⟨some c.table.vars.length, c.values⟩
  | none => ⟨none, l.bdds.map (Option.map fun _ => none)⟩

namespace Library

variable {l l' : Library} {c c' : Client} {e : CCall} {a : Action} {r : CResult}

theorem client_library (c : Client) : c.library.client = some c := rfl

theorem client_eq_some : l.client = some c ↔ l = c.library := by
  constructor
  · intro h
    obtain ⟨t, ht, hc⟩ := Option.map_eq_some_iff.mp h
    rcases l with ⟨_, bdds, k⟩
    cases hc
    cases ht
    rfl
  · rintro rfl
    exact client_library c

theorem client_eq_none : l.client = none ↔ l.nodeTable = none := Option.map_eq_none_iff

theorem handles_library (c : Client) : c.library.handles = ⟨some c.table.vars.length, c.values⟩ :=
  rfl

theorem handles_of_none (h : l.client = none) :
    l.handles = ⟨none, l.bdds.map (Option.map fun _ => none)⟩ := by
  rw [handles, h]

theorem create_library (c : Client) (f : Client → Option Client) :
    (c.library.create f).map (Prod.map .handle id) =
      (f c).map fun c' => (CResult.handle (some c.bdds.length), c'.library) := by
  rw [create, client_library]
  cases hf : f c with
  | none => simp [hf]
  | some c' => simp [hf, Client.library]

/-- A call that works on the table performs its action. -/
theorem call_eq (c : Client) (ha : e.action = some a)
    (hop : ∀ op lhs rhs, e = .binary op lhs rhs → op ≠ .not) :
    c.library.call P fuel e =
      (c.exec P fuel a).map fun c' => (e.made c.bdds.length, c'.library) := by
  rcases CCall.action_cases ha with ⟨rfl, rfl⟩ | ⟨rfl, rfl⟩ | ⟨i, rfl, rfl⟩ | ⟨i, rfl, rfl⟩ |
    ⟨i, rfl, rfl⟩ | ⟨i, rfl, rfl⟩ | ⟨op, i, j, rfl, rfl⟩ | ⟨i, rfl, rfl⟩ | ⟨rfl, rfl⟩
  · exact create_library c _
  · exact create_library c _
  · exact create_library c _
  · exact create_library c _
  · exact create_library c _
  · exact Option.map_map _ _ _
  · exact (if_neg (hop op _ _ rfl)).trans (create_library c _)
  · exact create_library c _
  · show (c.library.nanobddGc fuel).map _ = (c.gc fuel).map _
    rw [nanobddGc, client_library]
    cases hf : c.gc fuel with
    | none => simp [hf]
    | some c' => simp [hf, CCall.made]

/-- The machine does the same. -/
theorem next_eq (c : Client) (ha : e.action = some a) :
    c.library.handles.next e =
      (c.values.exec c.table.vars.length a).map (⟨some c.table.vars.length, ·⟩) := by
  have hact : ∀ o : Option Values, (o.bind fun v => some ⟨some c.table.vars.length, v⟩) =
      o.map (Handles.mk (some c.table.vars.length)) := fun o => Option.map_eq_bind.symm
  rcases CCall.action_cases ha with ⟨rfl, rfl⟩ | ⟨rfl, rfl⟩ | ⟨i, rfl, rfl⟩ | ⟨i, rfl, rfl⟩ |
    ⟨i, rfl, rfl⟩ | ⟨i, rfl, rfl⟩ | ⟨op, i, j, rfl, rfl⟩ | ⟨i, rfl, rfl⟩ | ⟨rfl, rfl⟩
  · rfl
  · rfl
  · exact hact _
  · exact hact _
  · exact hact _
  · exact (Option.map_map _ _ _).symm
  · exact hact _
  · exact hact _
  · rfl

end Library

end Nanobdd
