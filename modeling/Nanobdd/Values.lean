import Nanobdd.Lib.DiagramSize
import Nanobdd.Programs

/-!
# What a program computes

For its user the library is a machine on Boolean functions: an object holds one, and the actions
make new ones. `Values` is that machine, with no table, no counters and no collection in it. The
function of each object's node turns every run of a program into a run of `Values`, and whatever
`Values` can do next, the program can do as well. Comparing two objects compares two functions.

`>>` is not part of the machine, because `bddImp` does not compute an implication. Nor is the
constructor from a raw node pointer.

## Main definitions

* `Values`, `Values.exec` — functions instead of pointers
* `Client.values` — what the objects of a program stand for
* `Client.Refines` — a program and the machine agree

## Main results

* `Client.Exact.exec_values` — an action of a program is an action of the machine
* `Client.refines_of_run` — **refinement** over whole runs
-/

namespace Nanobdd

open BoolFun

variable {P : Platform} {s s' : State} {p q x y r : Ptr} {i j n fuel : ℕ} {a : Action}
  {op : Operator} {f g : BoolFun}

/-! ### The machine -/

/-- The objects of a program, each with the function it holds: `none` for an object that was
destroyed, `some none` for one that was moved from. -/
abbrev Values := List (Option (Option BoolFun))

namespace Values

variable {v v' : Values}

/-- An object that is alive. -/
def get (v : Values) (i : ℕ) : Option (Option BoolFun) := v[i]?.join

/-- The function of an object. -/
def fn (v : Values) (i : ℕ) : Option BoolFun := (v.get i).join

/-- A new object. -/
def push (v : Values) (f : Option BoolFun) : Values := v ++ [some f]

/-- The second operand; negation has none. -/
def right (v : Values) (op : Operator) (j : ℕ) : Option BoolFun :=
  if op = .not then some fun _ => false else v.fn j

/-- Perform an action, over `n` variables. -/
def exec (n : ℕ) (v : Values) : Action → Option Values
  | .constructDefault => some (v.push (some fun _ => false))
  | .construct _ => none
  | .copyConstruct i => (v.get i).map v.push
  | .moveConstruct i => (v.get i).map fun f => (v.push f).set i (some none)
  | .destroy i => (v.get i).map fun _ => v.set i none
  | .copyAssign i j => do
    let _ ← v.get i
    let f ← v.get j
    some (if i = j then v else v.set i (some f))
  | .moveAssign i j => do
    let _ ← v.get i
    let f ← v.get j
    some (if i = j then v else (v.set i (some f)).set j (some none))
  | .apply op i j => do
    let f ← v.fn i
    let g ← v.right op j
    some (v.push (some (map₂ op.connective f g)))
  | .getVar id => if id < n then some (v.push (some (literal id true))) else none
  | .getNvar id => if id < n then some (v.push (some (literal id false))) else none
  | .bddFalse => some (v.push (some fun _ => false))
  | .bddTrue => some (v.push (some fun _ => true))
  | .gc => some v

/-- Any action. -/
def Acts (n : ℕ) (v v' : Values) : Prop := ∃ a, v.exec n a = some v'

end Values

/-- The actions the machine has. -/
def Action.Plain : Action → Prop
  | .construct _ => False
  | .apply op _ _ => op ≠ .imp
  | _ => True

/-! ### From pointers to functions -/

/-- What an object with the root `p` stands for. -/
def State.value (s : State) (p : Ptr) : Option BoolFun :=
  if p = nullptr then none else some (s.denote p)

namespace Client

variable {c c' : Client}

/-- What the objects of a program stand for. -/
def values (c : Client) : Values := c.bdds.map (Option.map c.table.value)

theorem values_get (c : Client) (i : ℕ) : c.values.get i = (c.root i).map c.table.value := by
  rw [Values.get, values, List.getElem?_map, root]
  cases c.bdds[i]? with
  | none => rfl
  | some o => cases o <;> rfl

theorem values_fn (c : Client) (i : ℕ) : c.values.fn i = (c.node i).map c.table.denote := by
  rw [Values.fn, values_get, node]
  cases c.root i with
  | none => rfl
  | some p =>
    rw [Option.map_some, Option.join_some, State.value]
    by_cases hp : p = nullptr
    · rw [if_pos hp, Option.filter_some_neg (by simpa using hp), Option.map_none]
    · rw [if_neg hp, Option.filter_some_pos (by simpa using hp), Option.map_some]

theorem values_push (c : Client) (p : Ptr) :
    (c.push p).values = c.values.push (c.table.value p) := by
  simp [values, push, Values.push]

theorem values_setRoot (c : Client) (i : ℕ) (p : Option Ptr) :
    (c.setRoot i p).values = c.values.set i (p.map c.table.value) := by
  simp [values, setRoot, List.map_set]

theorem value_of_ne (s : State) (hp : p ≠ nullptr) : s.value p = some (s.denote p) := if_neg hp

theorem value_null (s : State) : s.value nullptr = none := if_pos rfl

/-- The same objects over another table. -/
theorem values_congr (hb : c'.bdds = c.bdds)
    (hd : ∀ i p, c.root i = some p → p ≠ nullptr → c'.table.denote p = c.table.denote p) :
    c'.values = c.values := by
  rw [values, values, hb]
  refine List.map_congr_left fun o ho => ?_
  cases o with
  | none => rw [Option.map_none, Option.map_none]
  | some p =>
    rw [Option.map_some, Option.map_some, State.value, State.value]
    split
    · rfl
    · next hp =>
      obtain ⟨i, hi⟩ := List.mem_iff_getElem?.mp ho
      rw [hd i p (root_eq_some.mpr hi) hp]

end Client

/-! ### The variables -/

/-- The nodes of the variables denote them. -/
structure State.Wired (n : ℕ) (s : State) : Prop where
  vars_length : s.vars.length = n
  nvars_length : s.nvars.length = n
  ne_null : ∀ p, p ∈ s.vars ∨ p ∈ s.nvars → p ≠ nullptr
  var : ∀ i p, s.vars[i]? = some p → s.denote p = literal i true
  nvar : ∀ i p, s.nvars[i]? = some p → s.denote p = literal i false

namespace State

/-- A node over the two terminals denotes a literal. -/
theorem Robdd.denote_literal (hr : Robdd P s) (hp : p ∈ s.stored) {b : Bool}
    (hk : s.HasKey p i (if b then s.falseNode else s.trueNode)
      (if b then s.trueNode else s.falseNode)) : s.denote p = literal i b := by
  obtain ⟨hlevel, hlow, hhigh⟩ := hk
  have hlow_mem : (s.heap p).low ∈ s.stored := by
    rw [hlow]
    split
    · exact hr.false_mem
    · exact hr.true_mem
  rw [hr.denote_inner hp (hr.inner_of_low_mem hlow_mem), hlevel, hlow, hhigh, literal]
  cases b with
  | false => rw [if_neg Bool.false_ne_true, if_neg Bool.false_ne_true, hr.denote_false,
      hr.denote_true, Bool.not_false]
  | true => rw [if_pos rfl, if_pos rfl, hr.denote_false, hr.denote_true, Bool.not_true]

theorem wired_of_ready (h : Ready P s n n) : s.Wired n where
  vars_length := h.vars_length
  nvars_length := h.nvars_length
  ne_null p hp := h.wf.ne_null ((h.mem_iff p).mpr (permanent_pos_iff.mpr (Or.inr (Or.inr hp))))
  var i p hp := h.wf.toRobdd.denote_literal ((h.mem_iff p).mpr (permanent_pos_iff.mpr
    (Or.inr (Or.inr (Or.inl (List.mem_of_getElem? hp)))))) (h.var i p hp)
  nvar i p hp := h.wf.toRobdd.denote_literal ((h.mem_iff p).mpr (permanent_pos_iff.mpr
    (Or.inr (Or.inr (Or.inr (List.mem_of_getElem? hp)))))) (h.nvar i p hp)

/-- The variables stay wired while their nodes keep their meaning. -/
theorem Wired.congr (h : s.Wired n) (hr : SameRoots s s')
    (hd : ∀ p, p ≠ nullptr → 0 < s.permanent p → s'.denote p = s.denote p) : s'.Wired n where
  vars_length := hr.vars ▸ h.vars_length
  nvars_length := hr.nvars ▸ h.nvars_length
  ne_null p hp := h.ne_null p (hr.vars ▸ hr.nvars ▸ hp)
  var i p hi := by
    rw [hr.vars] at hi
    have hmem := Or.inl (b := p ∈ s.nvars) (List.mem_of_getElem? hi)
    rw [hd p (h.ne_null p hmem) (permanent_pos_iff.mpr (Or.inr (Or.inr hmem)))]
    exact h.var i p hi
  nvar i p hi := by
    rw [hr.nvars] at hi
    have hmem := Or.inr (a := p ∈ s.vars) (List.mem_of_getElem? hi)
    rw [hd p (h.ne_null p hmem) (permanent_pos_iff.mpr (Or.inr (Or.inr hmem)))]
    exact h.nvar i p hi

end State

/-- A collection ends. -/
theorem State.WellFormed.exists_gc {D : Operator → Prop} (hw : State.WellFormed D P s) :
    ∃ F s', ∀ fuel ≥ F, s.gc fuel = some s' := by
  obtain ⟨cache, hcache, -⟩ := hw.cache
  obtain ⟨s', hs'⟩ := hw.toStore.gcLocked_isSome hw.closed hcache (Nat.lt_succ_self _)
  refine ⟨s.stored.length + 1, s', fun fuel hfuel => ?_⟩
  rw [State.gcLocked_eq, Option.bind_eq_some_iff] at hs'
  obtain ⟨m, hm, hs'⟩ := hs'
  rw [State.gc, State.gcLocked_eq, Marking.visitAll_mono hfuel hm]
  exact hs'

namespace Client

variable {c c' : Client}

/-- What an action does to the meaning of the table: the permanent nodes are the same ones, and
every node with a reference denotes what it did. -/
theorem Exact.exec_meaning (h : Exact P n c) (hc : c.exec P fuel a = some c')
    (ha : c.Admits (State.NoLoss P) a) : State.SameRoots c.table c'.table ∧
      ∀ p, p ≠ nullptr → 0 < c.references p → c'.table.denote p = c.table.denote p := by
  rcases exec_table hc with hre | ⟨op, i, j, x, y, r, s, rfl, ho, hrun, rfl⟩ | ⟨rfl, -⟩
  · refine ⟨⟨hre.falseNode, hre.trueNode, hre.vars, hre.nvars⟩, fun p hp hpos => ?_⟩
    exact h.wf.toRobdd.denote_eq hre.toRecounted.agrees (h.mem p hp hpos)
  · obtain ⟨hexact, -, -, hpres⟩ := h.operate ho (ha x y ho) hrun
    have hre := counted_ref { c with table := s } r
    refine ⟨hpres.roots.trans ⟨hre.falseNode, hre.trueNode, hre.vars, hre.nvars⟩,
      fun p hp hpos => ?_⟩
    obtain ⟨hs, hl⟩ := h.live_of_references hp hpos
    show ((({ c with table := s } : Client).ref r).table).denote p = _
    rw [hexact.wf.toRobdd.denote_eq hre.toRecounted.agrees (hpres.live p hs hl).1]
    exact hpres.denote_eq p hs hl
  · obtain ⟨hexact, hswept⟩ := h.gc hc
    refine ⟨hswept.roots, fun p hp hpos => ?_⟩
    exact hswept.denote_eq hexact.wf.toRobdd
      ((hswept.mem_iff p).mpr (h.live_of_references hp hpos))

/-- The invariant of a program, with the variables. -/
structure Faithful (P : Platform) (n : ℕ) (c : Client) : Prop extends Exact P n c where
  wired : c.table.Wired n

theorem faithful_of_ready (h : State.Ready P s n n) : Faithful P n (start s) :=
  ⟨exact_of_ready h, State.wired_of_ready h⟩

theorem Faithful.exec (h : Faithful P n c) (hc : c.exec P fuel a = some c')
    (ha : c.Admits (State.NoLoss P) a) (hfit : c'.ReferencesFit) : Faithful P n c' := by
  obtain ⟨hroots, hd⟩ := h.exec_meaning hc ha
  exact ⟨h.toExact.exec hc ha hfit,
    h.wired.congr hroots fun p hp hpos => hd p hp (Nat.add_pos_right _ hpos)⟩

/-- The nodes of the variables are stored. -/
theorem Faithful.wired_mem (h : Faithful P n c) (hp : p ∈ c.table.vars ∨ p ∈ c.table.nvars) :
    p ∈ c.table.stored :=
  h.mem p (h.wired.ne_null p hp)
    (Nat.add_pos_right _ (State.permanent_pos_iff.mpr (Or.inr (Or.inr hp))))

/-- Another table with the live nodes, in which new nodes belong to `f`. -/
theorem Faithful.withTable (h : Faithful P n c) (hw : State.WellFormed (fun _ => True) P s)
    (hp : State.Preserved f c.table s) (hf : ∀ v, n ≤ v → f.Ignores v) :
    Faithful P n { c with table := s } ∧ ({ c with table := s } : Client).values = c.values := by
  have ht : Tallied { c with table := s } := h.tallied.withTable hp.roots
    (fun q hq => hw.ne_null hq)
    (fun q hq hl => ⟨(hp.live q hq hl).1, (hp.live q hq hl).2.1⟩) hp.rest
  refine ⟨⟨⟨hw, hp.unmarked, hp.nodeCount h.nodeCount, fun q hq v hv => ?_, ht.mem, ht.counted⟩,
    h.wired.congr hp.roots fun q hne hpos => ?_⟩, values_congr rfl fun i q hi hne => ?_⟩
  · rcases hp.meaning q hq with hsub | ⟨q', hq', he⟩
    · exact Sub.ignores hsub (hf v hv)
    · show (s.denote q).Ignores v
      rw [he]
      exact h.support q' hq' v hv
  · obtain ⟨hmem, hlive⟩ := h.live_of_references hne (Nat.add_pos_right _ hpos)
    exact hp.denote_eq q hmem hlive
  · obtain ⟨hmem, hlive⟩ := h.live_of_references hne (references_pos hi)
    exact hp.denote_eq q hmem hlive

/-! ### One action -/

theorem Exact.values_counted (h : Exact P n c) (hre : Counted c.table c'.table)
    (hb : c'.bdds = c.bdds) : c'.values = c.values :=
  values_congr hb fun _ _ hi hp =>
    h.wf.toRobdd.denote_eq hre.toRecounted.agrees (h.root_mem hi hp)

theorem Exact.value_counted (h : Exact P n c) (hre : Counted c.table s)
    (hp : p ≠ nullptr → p ∈ c.table.stored) : s.value p = c.table.value p := by
  by_cases hn : p = nullptr
  · rw [hn, value_null, value_null]
  · rw [value_of_ne _ hn, value_of_ne _ hn,
      h.wf.toRobdd.denote_eq hre.toRecounted.agrees (hp hn)]

/-- A new object that takes a reference. -/
theorem Exact.values_attach (h : Exact P n c) (hp : p ≠ nullptr → p ∈ c.table.stored) :
    ((c.ref p).push p).values = c.values.push (c.table.value p) := by
  rw [values_push, h.values_counted (counted_ref c p) (ref_bdds c p),
    h.value_counted (counted_ref c p) hp]

theorem Exact.construct_values (h : Exact P n c) (hp : p ∈ c.table.stored)
    (hc : c.construct p = some c') : c'.values = c.values.push (some (c.table.denote p)) := by
  obtain ⟨hne, rfl⟩ := construct_eq_some hc
  rw [h.values_attach fun _ => hp, value_of_ne _ hne]

/-- The operands of an operator as functions. -/
theorem values_operands (ho : c.operands op i j = some (x, y)) :
    c.values.fn i = some (c.table.denote x) ∧
      ∃ g, c.values.right op j = some g ∧ (op ≠ .not → g = c.table.denote y) := by
  obtain ⟨hx, hy⟩ := operands_eq_some ho
  rw [values_fn, hx, Option.map_some]
  refine ⟨rfl, ?_⟩
  rw [rightNode] at hy
  rw [Values.right]
  by_cases hop : op = .not
  · rw [if_pos hop]
    exact ⟨_, rfl, fun hn => absurd hop hn⟩
  · rw [if_neg hop] at hy ⊢
    rw [values_fn, hy, Option.map_some]
    exact ⟨_, rfl, fun _ => rfl⟩

theorem map₂_connective_congr (hg : op ≠ .not → f = g) (h : BoolFun) :
    map₂ op.connective h f = map₂ op.connective h g := by
  by_cases hop : op = .not
  · subst hop
    rfl
  · rw [hg hop]

/-- The operator returns the function, and nothing else changes its meaning. -/
theorem Exact.apply_values (h : Exact P n c) (hop : op ≠ .imp)
    (hn : c.Admits (State.NoLoss P) (.apply op i j)) (hc : c.apply P fuel op i j = some c') :
    c.values.exec n (.apply op i j) = some c'.values := by
  obtain ⟨⟨x, y⟩, ho, hc⟩ := Option.bind_eq_some_iff.mp hc
  obtain ⟨⟨r, s⟩, hrun, hc⟩ := Option.bind_eq_some_iff.mp hc
  obtain ⟨-, rfl⟩ := construct_eq_some hc
  have hol := h.operands_live ho
  obtain ⟨hexact, hr, hd, hpres⟩ := h.operate ho (hn x y ho) hrun
  have hanswer : c.table.answer op x y =
      map₂ op.connective (c.table.denote x) (c.table.denote y) := by
    rw [State.answer_eq_goal h.wf.toRobdd ⟨hol.left.1, fun hn => (hol.right hn).1⟩ hop,
      State.goal, Operator.result, Operator.computes_of_ne_imp hop]
  have hsame : ({ c with table := s } : Client).values = c.values :=
    values_congr rfl fun _ p hi hp =>
      hpres.denote_eq p (h.root_mem hi hp) (h.live_of_references hp (references_pos hi)).2
  obtain ⟨hf, g, hg, hgy⟩ := values_operands ho
  rw [hexact.values_attach fun _ => hr, hsame, value_of_ne _ (hexact.wf.ne_null hr), hd, hanswer,
    Values.exec, hf, hg, map₂_connective_congr fun hn => (hgy hn).symm]
  rfl

theorem Exact.copyConstruct_values (h : Exact P n c) (hc : c.copyConstruct i = some c') :
    c.values.exec n (.copyConstruct i) = some c'.values := by
  obtain ⟨p, hp, hc⟩ := Option.bind_eq_some_iff.mp hc
  cases hc
  rw [h.values_attach (h.root_mem hp), Values.exec, values_get, hp]
  rfl

theorem moveConstruct_values (hc : c.moveConstruct i = some c') :
    c.values.exec n (.moveConstruct i) = some c'.values := by
  obtain ⟨p, hp, hc⟩ := Option.bind_eq_some_iff.mp hc
  cases hc
  rw [values_setRoot, values_push, Values.exec, values_get, hp, Option.map_some, Option.map_some,
    Option.map_some, value_null]

theorem Exact.destroy_values (h : Exact P n c) (hc : c.destroy i = some c') :
    c.values.exec n (.destroy i) = some c'.values := by
  obtain ⟨p, hp, hc⟩ := Option.bind_eq_some_iff.mp hc
  cases hc
  rw [values_setRoot, h.values_counted (counted_deref c p) (deref_bdds c p), Values.exec,
    values_get, hp]
  rfl

theorem Exact.copyAssign_values (h : Exact P n c) (hc : c.copyAssign i j = some c') :
    c.values.exec n (.copyAssign i j) = some c'.values := by
  obtain ⟨x, hx, hc⟩ := Option.bind_eq_some_iff.mp hc
  obtain ⟨y, hy, hc⟩ := Option.bind_eq_some_iff.mp hc
  rw [Values.exec, values_get, values_get, hx, hy]
  by_cases hij : i = j
  · rw [if_pos hij] at hc
    cases hc
    exact congrArg some (if_pos hij)
  · rw [if_neg hij] at hc
    cases hc
    have hre := (counted_ref c y).trans (counted_deref (c.ref y) x)
    rw [values_setRoot, h.values_counted hre ((deref_bdds _ x).trans (ref_bdds c y))]
    simp only [Option.map_some]
    rw [h.value_counted hre (h.root_mem hy)]
    exact congrArg some (if_neg hij)

theorem Exact.moveAssign_values (h : Exact P n c) (hc : c.moveAssign i j = some c') :
    c.values.exec n (.moveAssign i j) = some c'.values := by
  obtain ⟨x, hx, hc⟩ := Option.bind_eq_some_iff.mp hc
  obtain ⟨y, hy, hc⟩ := Option.bind_eq_some_iff.mp hc
  rw [Values.exec, values_get, values_get, hx, hy]
  by_cases hij : i = j
  · rw [if_pos hij] at hc
    cases hc
    exact congrArg some (if_pos hij)
  · rw [if_neg hij] at hc
    cases hc
    have hre := counted_deref c x
    rw [values_setRoot, values_setRoot, h.values_counted hre (deref_bdds c x)]
    simp only [Option.map_some, value_null]
    rw [h.value_counted hre (h.root_mem hy)]
    exact congrArg some (if_neg hij)

theorem Faithful.getVar_values {id : ℕ} (h : Faithful P n c) (hc : c.getVar id = some c') :
    c.values.exec n (.getVar id) = some c'.values := by
  obtain ⟨p, hp, hc⟩ := Option.bind_eq_some_iff.mp hc
  have hlt : id < n := h.wired.vars_length ▸ (List.getElem?_eq_some_iff.mp hp).1
  rw [h.construct_values (h.wired_mem (Or.inl (List.mem_of_getElem? hp))) hc,
    h.wired.var id p hp, Values.exec, if_pos hlt]

theorem Faithful.getNvar_values {id : ℕ} (h : Faithful P n c) (hc : c.getNvar id = some c') :
    c.values.exec n (.getNvar id) = some c'.values := by
  obtain ⟨p, hp, hc⟩ := Option.bind_eq_some_iff.mp hc
  have hlt : id < n := h.wired.nvars_length ▸ (List.getElem?_eq_some_iff.mp hp).1
  rw [h.construct_values (h.wired_mem (Or.inr (List.mem_of_getElem? hp))) hc,
    h.wired.nvar id p hp, Values.exec, if_pos hlt]

theorem Exact.gc_values (h : Exact P n c) (hc : c.gc fuel = some c') : c'.values = c.values := by
  obtain ⟨hexact, hswept⟩ := h.gc hc
  obtain ⟨s, -, hc⟩ := Option.bind_eq_some_iff.mp hc
  cases hc
  exact values_congr rfl fun _ p hi hp => hswept.denote_eq hexact.wf.toRobdd
    ((hswept.mem_iff p).mpr (h.live_of_references hp (references_pos hi)))

/-- **An action of a program is an action of the machine.** -/
theorem Faithful.exec_values (h : Faithful P n c) (hc : c.exec P fuel a = some c')
    (ha : c.Admits (State.NoLoss P) a) (hplain : a.Plain) :
    c.values.exec n a = some c'.values := by
  have hr := h.wf.toRobdd
  cases a with
  | constructDefault =>
    rw [h.construct_values h.wf.false_mem hc, hr.denote_false]
    rfl
  | construct p => exact hplain.elim
  | copyConstruct i => exact h.copyConstruct_values hc
  | moveConstruct i => exact moveConstruct_values hc
  | destroy i => exact h.destroy_values hc
  | copyAssign i j => exact h.copyAssign_values hc
  | moveAssign i j => exact h.moveAssign_values hc
  | apply op i j => exact h.apply_values hplain ha hc
  | getVar id => exact h.getVar_values hc
  | getNvar id => exact h.getNvar_values hc
  | bddFalse =>
    rw [h.construct_values h.wf.false_mem hc, hr.denote_false]
    rfl
  | bddTrue =>
    rw [h.construct_values h.wf.true_mem hc, hr.denote_true]
    rfl
  | gc => rw [Values.exec, h.gc_values hc]

/-! ### What the machine can do -/

theorem root_of_values_get {f : Option BoolFun} (h : c.values.get i = some f) :
    ∃ p, c.root i = some p := by
  rw [values_get, Option.map_eq_some_iff] at h
  obtain ⟨p, hp, -⟩ := h
  exact ⟨p, hp⟩

theorem node_of_values_fn (h : c.values.fn i = some f) : ∃ p, c.node i = some p := by
  rw [values_fn, Option.map_eq_some_iff] at h
  obtain ⟨p, hp, -⟩ := h
  exact ⟨p, hp⟩

theorem operands_of_values (hf : c.values.fn i = some f) (hg : c.values.right op j = some g) :
    ∃ x y, c.operands op i j = some (x, y) := by
  obtain ⟨x, hx⟩ := node_of_values_fn hf
  rw [Values.right] at hg
  rw [operands, hx, rightNode]
  by_cases hop : op = .not
  · rw [if_pos hop]
    exact ⟨x, nullptr, rfl⟩
  · rw [if_neg hop] at hg ⊢
    obtain ⟨y, hy⟩ := node_of_values_fn hg
    rw [hy]
    exact ⟨x, y, rfl⟩

theorem exists_copyAssign {f g : Option BoolFun} (hf : c.values.get i = some f)
    (hg : c.values.get j = some g) : ∃ c', c.copyAssign i j = some c' := by
  obtain ⟨p, hp⟩ := root_of_values_get hf
  obtain ⟨q, hq⟩ := root_of_values_get hg
  refine ⟨if i = j then c else ((c.ref q).deref p).setRoot i (some q), ?_⟩
  rw [copyAssign, hp, hq]
  by_cases hij : i = j
  · rw [if_pos hij]
    exact if_pos hij
  · rw [if_neg hij]
    exact if_neg hij

theorem exists_moveAssign {f g : Option BoolFun} (hf : c.values.get i = some f)
    (hg : c.values.get j = some g) : ∃ c', c.moveAssign i j = some c' := by
  obtain ⟨p, hp⟩ := root_of_values_get hf
  obtain ⟨q, hq⟩ := root_of_values_get hg
  refine ⟨if i = j then c else ((c.deref p).setRoot i (some q)).setRoot j (some nullptr), ?_⟩
  rw [moveAssign, hp, hq]
  by_cases hij : i = j
  · rw [if_pos hij]
    exact if_pos hij
  · rw [if_neg hij]
    exact if_neg hij

/-- An operator that loses nothing returns a new object. -/
theorem Exact.exists_apply (h : Exact P n c) (ho : c.operands op i j = some (x, y))
    (hn : State.NoLoss P c.table op x y) :
    ∃ F s r, ∀ fuel ≥ F, c.apply P fuel op i j =
      some ((({ c with table := s } : Client).ref r).push r) := by
  have hol := h.operands_live ho
  obtain ⟨⟨F, r, s, hF⟩, hret⟩ := h.wf.preserved ⟨trivial, trivial⟩ h.unmarked h.live_false
    h.live_true hol hn
  obtain ⟨hw, hr, -⟩ := hret F r s (hF F le_rfl)
  exact ⟨F, s, r, fun fuel hfuel => apply_of_bddOp ho (hF fuel hfuel) (hw.ne_null hr)⟩

theorem Exact.construct_eq (h : Exact P n c) (hp : p ∈ c.table.stored) :
    c.construct p = some ((c.ref p).push p) :=
  if_neg (h.wf.ne_null hp)

theorem Faithful.exists_getVar {id : ℕ} (h : Faithful P n c) (hid : id < n) :
    ∃ p, c.getVar id = some ((c.ref p).push p) := by
  have hlt : id < c.table.vars.length := h.wired.vars_length ▸ hid
  refine ⟨c.table.vars[id], ?_⟩
  rw [getVar, List.getElem?_eq_getElem hlt]
  exact h.construct_eq (h.wired_mem (Or.inl (List.getElem_mem hlt)))

theorem Faithful.exists_getNvar {id : ℕ} (h : Faithful P n c) (hid : id < n) :
    ∃ p, c.getNvar id = some ((c.ref p).push p) := by
  have hlt : id < c.table.nvars.length := h.wired.nvars_length ▸ hid
  refine ⟨c.table.nvars[id], ?_⟩
  rw [getNvar, List.getElem?_eq_getElem hlt]
  exact h.construct_eq (h.wired_mem (Or.inr (List.getElem_mem hlt)))

theorem Exact.exists_gc (h : Exact P n c) : ∃ F c', ∀ fuel ≥ F, c.gc fuel = some c' := by
  obtain ⟨F, s, hF⟩ := h.wf.exists_gc
  refine ⟨F, { c with table := s }, fun fuel hfuel => ?_⟩
  rw [Client.gc, hF fuel hfuel]
  rfl

/-- **What the machine can do next, the program can do**, given enough fuel. -/
theorem Faithful.exec_of_values (h : Faithful P n c) {v : Values} (hv : c.values.exec n a = some v)
    (ha : c.Admits (State.NoLoss P) a) :
    ∃ F c', ∀ fuel ≥ F, c.exec P fuel a = some c' := by
  cases a with
  | constructDefault => exact ⟨0, _, fun _ _ => h.construct_eq h.wf.false_mem⟩
  | construct p => exact absurd hv (Option.some_ne_none _ ∘ Eq.symm)
  | copyConstruct i =>
    obtain ⟨f, hf, -⟩ := Option.map_eq_some_iff.mp hv
    obtain ⟨p, hp⟩ := root_of_values_get hf
    exact ⟨0, (c.ref p).push p, fun _ _ => by rw [Client.exec, copyConstruct, hp]; rfl⟩
  | moveConstruct i =>
    obtain ⟨f, hf, -⟩ := Option.map_eq_some_iff.mp hv
    obtain ⟨p, hp⟩ := root_of_values_get hf
    refine ⟨0, (c.push p).setRoot i (some nullptr), fun _ _ => ?_⟩
    rw [Client.exec, moveConstruct, hp]
    rfl
  | destroy i =>
    obtain ⟨f, hf, -⟩ := Option.map_eq_some_iff.mp hv
    obtain ⟨p, hp⟩ := root_of_values_get hf
    exact ⟨0, (c.deref p).setRoot i none, fun _ _ => by rw [Client.exec, destroy, hp]; rfl⟩
  | copyAssign i j =>
    obtain ⟨f, hf, hv⟩ := Option.bind_eq_some_iff.mp hv
    obtain ⟨g, hg, -⟩ := Option.bind_eq_some_iff.mp hv
    obtain ⟨c', hc⟩ := exists_copyAssign hf hg
    exact ⟨0, c', fun _ _ => hc⟩
  | moveAssign i j =>
    obtain ⟨f, hf, hv⟩ := Option.bind_eq_some_iff.mp hv
    obtain ⟨g, hg, -⟩ := Option.bind_eq_some_iff.mp hv
    obtain ⟨c', hc⟩ := exists_moveAssign hf hg
    exact ⟨0, c', fun _ _ => hc⟩
  | apply op i j =>
    obtain ⟨f, hf, hv⟩ := Option.bind_eq_some_iff.mp hv
    obtain ⟨g, hg, -⟩ := Option.bind_eq_some_iff.mp hv
    obtain ⟨x, y, ho⟩ := operands_of_values hf hg
    obtain ⟨F, s, r, hF⟩ := h.exists_apply ho (ha x y ho)
    exact ⟨F, _, hF⟩
  | getVar id =>
    have hid : id < n := by
      by_contra hge
      rw [Values.exec, if_neg hge] at hv
      exact absurd hv (Option.some_ne_none _ ∘ Eq.symm)
    obtain ⟨p, hp⟩ := h.exists_getVar hid
    exact ⟨0, _, fun _ _ => hp⟩
  | getNvar id =>
    have hid : id < n := by
      by_contra hge
      rw [Values.exec, if_neg hge] at hv
      exact absurd hv (Option.some_ne_none _ ∘ Eq.symm)
    obtain ⟨p, hp⟩ := h.exists_getNvar hid
    exact ⟨0, _, fun _ _ => hp⟩
  | bddFalse => exact ⟨0, _, fun _ _ => h.construct_eq h.wf.false_mem⟩
  | bddTrue => exact ⟨0, _, fun _ _ => h.construct_eq h.wf.true_mem⟩
  | gc => exact h.exists_gc

/-! ### Programs -/

/-- The program and the machine agree in what they have, in what they can do next, and in what
the comparisons say. -/
structure Refines (P : Platform) (n : ℕ) (c : Client) : Prop where
  performs : ∀ a v, a.Plain → c.Admits (State.NoLoss P) a → c.values.exec n a = some v →
    ∃ F c', c'.values = v ∧ ∀ fuel ≥ F, c.exec P fuel a = some c'
  equals_iff : ∀ i j f g, c.values.fn i = some f → c.values.fn j = some g →
    (c.equals i j = some true ↔ f = g)
  isTrue_iff : ∀ i f, c.values.fn i = some f → (c.isTrue i = some true ↔ f = fun _ => true)
  isFalse_iff : ∀ i f, c.values.fn i = some f → (c.isFalse i = some true ↔ f = fun _ => false)

theorem Faithful.refines (h : Faithful P n c) : Refines P n c where
  performs a v hplain ha hv := by
    obtain ⟨F, c', hF⟩ := h.exec_of_values hv ha
    have hvalues := h.exec_values (hF F le_rfl) ha hplain
    rw [hv, Option.some_inj] at hvalues
    exact ⟨F, c', hvalues.symm, hF⟩
  equals_iff i j f g hf hg := by
    rw [values_fn, Option.map_eq_some_iff] at hf hg
    obtain ⟨x, hx, rfl⟩ := hf
    obtain ⟨y, hy, rfl⟩ := hg
    exact h.canonical.equals_iff i j x y hx hy
  isTrue_iff i f hf := by
    rw [values_fn, Option.map_eq_some_iff] at hf
    obtain ⟨x, hx, rfl⟩ := hf
    exact (h.canonical.isTrue_iff i x hx).trans funext_iff.symm
  isFalse_iff i f hf := by
    rw [values_fn, Option.map_eq_some_iff] at hf
    obtain ⟨x, hx, rfl⟩ := hf
    exact (h.canonical.isFalse_iff i x hx).trans funext_iff.symm

/-- One action of a program that does not use `>>` or raw nodes. No collection inside an operator
takes a node the operator holds, and no counter wraps around. -/
def PlainActs (P : Platform) : Client → Client → Prop :=
  Acts P (fun c a => c.Admits (State.NoLoss P) a ∧ a.Plain) ReferencesFit

theorem Faithful.run (h : Faithful P n c) (hc : Relation.ReflTransGen (PlainActs P) c c') :
    Faithful P n c' ∧ Relation.ReflTransGen (Values.Acts n) c.values c'.values := by
  have hstep : ∀ b d, PlainActs P b d → Faithful P n b → Faithful P n d :=
    fun b d ⟨a, fuel, hexec, ha, hfit⟩ hb => hb.exec hexec ha.1 hfit
  refine ⟨Transition.invariant hstep hc h, Transition.simulation hstep (fun b d hbd hb => ?_) hc h⟩
  obtain ⟨a, fuel, hexec, ha, -⟩ := hbd
  exact Or.inr ⟨a, hb.exec_values hexec ha.1 ha.2⟩

/-- **Refinement over whole runs.** After `init`, whatever plain actions a program takes, its
objects hold the functions that the machine computes with the same actions, and the two can do the
same next. -/
theorem refines_of_run {rand₁ rand₂ : ℕ → ℕ} {tableSize cacheSize varNum : ℕ}
    (hv : varNum < uintMax)
    (hi : State.init P fuel rand₁ rand₂ tableSize cacheSize varNum = some s)
    (hc : Relation.ReflTransGen (PlainActs P) (start s) c) :
    Relation.ReflTransGen (Values.Acts varNum) [] c.values ∧ Refines P varNum c := by
  obtain ⟨h, hrun⟩ := (faithful_of_ready (State.ready_of_init hv hi)).run hc
  exact ⟨hrun, h.refines⟩

/-- An object for the first variable, then one for the second, by plain actions. -/
theorem plainActs_smallFirst : PlainActs State.smallPlatform (start State.small)
    (((start State.small).ref 3).push 3) :=
  ⟨.getVar 0, 0, getVar_small rfl rfl (by decide), ⟨trivial, trivial⟩,
    referencesFit_small rfl rfl (by decide)⟩

theorem plainActs_smallPair :
    Relation.ReflTransGen (PlainActs State.smallPlatform) (start State.small) smallPair :=
  (Relation.ReflTransGen.single plainActs_smallFirst).tail
    ⟨.getVar 1, 0, getVar_small rfl rfl (by decide), ⟨trivial, trivial⟩,
      referencesFit_small rfl rfl (by decide)⟩

/-- The conjunction of the two. -/
theorem plainActs_small : ∃ c, Relation.ReflTransGen (PlainActs State.smallPlatform)
    (start State.small) c ∧ c.bdds.length = 3 := by
  have hsome : (smallPair.exec State.smallPlatform 40 (.apply .and 0 1)).any (fun c =>
      decide (c.bdds.length = 3 ∧
        c.bdds.length + (c.table.vars.length + c.table.nvars.length + 2) < 2 ^ 32)) = true := by
    decide +kernel
  obtain ⟨c, hc, hfit⟩ := (Option.any_eq_true _ _).mp hsome
  obtain ⟨hlength, hfit⟩ := of_decide_eq_true hfit
  have hplain : (Action.apply .and 0 1).Plain := show Operator.and ≠ .imp by decide
  exact ⟨c, plainActs_smallPair.tail ⟨.apply .and 0 1, 40, hc,
    ⟨noLoss_of_noAllocFails _ _ admits_smallPair, hplain⟩, referencesFit_of_length hfit⟩, hlength⟩

theorem refines_of_run_small : ∃ c, c.bdds.length = 3 ∧
    Relation.ReflTransGen (Values.Acts 3) [] c.values ∧ Refines State.smallPlatform 3 c := by
  obtain ⟨c, hc, hlength⟩ := plainActs_small
  exact ⟨c, hlength, refines_of_run (by decide) State.init_small hc⟩

end Client

end Nanobdd
