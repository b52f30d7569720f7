import Nanobdd.HandlesSpec
import Nanobdd.Operation
import Nanobdd.Lib.Transition

/-!
# Programs

A program starts after `init` and takes any actions in any order. As long as the counters do not
wrap around, the table stays a reduced ordered diagram, so comparing pointers compares functions,
and every counter is exact.

A counter has 32 bits. With `2 ^ 32` references to a node it is zero again, and the next
collection takes the node although it is in use.

## Main results

* `Client.canonical_of_run` — **canonicity** over whole runs
* `Client.counts_of_run` — **exact reference counts** over whole runs
-/

namespace Nanobdd

open BoolFun

variable {P : Platform} {c c' : Client} {s : State} {p q x y r : Ptr} {i j n fuel : ℕ}
  {a : Action} {op : Operator} {admits : Client → Action → Prop} {fits : Client → Prop}

namespace Client

/-- A program right after `init`. -/
def start (s : State) : Client := { table := s, bdds := [] }

theorem references_start (s : State) (p : Ptr) : (start s).references p = s.permanent p :=
  Nat.zero_add _

/-- `init` leaves the invariant. -/
theorem exact_of_ready (h : State.Ready P s n n) : Exact P n (start s) where
  wf := h.wf
  unmarked := h.unmarked
  nodeCount := h.nodeCount
  support p hp v hv := by
    show (s.denote p).Ignores v
    have hr := h.wf.toRobdd
    have hfalse : (s.denote s.falseNode).Ignores v := by
      rw [hr.denote_false]
      exact ignores_const false v
    have htrue : (s.denote s.trueNode).Ignores v := by
      rw [hr.denote_true]
      exact ignores_const true v
    by_cases hnull : (s.heap p).low = nullptr
    · have hnot : ¬ s.Inner p := fun hin => hr.ne_null (hr.low_mem p hp hin) hnull
      rcases not_and_or.mp hnot with hf | ht
      · rwa [not_not.mp hf]
      · rwa [not_not.mp ht]
    · have hin : s.Inner p := by
        constructor
        · rintro rfl
          exact hnull hr.false_node.2.1
        · rintro rfl
          exact hnull hr.true_node.2.1
      rw [hr.denote_inner hp hin]
      rcases h.mem_vars hp hnull with hi | hi
      · obtain ⟨-, hlow, hhigh⟩ := h.var _ p hi
        have hlt := (List.getElem?_eq_some_iff.mp hi).1
        rw [h.vars_length] at hlt
        rw [hlow, hhigh]
        exact ignores_branch (by omega) hfalse htrue
      · obtain ⟨-, hlow, hhigh⟩ := h.nvar _ p hi
        have hlt := (List.getElem?_eq_some_iff.mp hi).1
        rw [h.nvars_length] at hlt
        rw [hlow, hhigh]
        exact ignores_branch (by omega) htrue hfalse
  mem p _ hpos := (h.mem_iff p).mpr (references_start s p ▸ hpos)
  counted p hp := by
    rw [references_start]
    exact h.counted p hp

/-- **What every action keeps, a run keeps.** -/
theorem Exact.run (h : Exact P n c) (ha : ∀ c a, admits c a → c.Admits (State.NoLoss P) a)
    (hf : ∀ c, fits c → c.ReferencesFit) (hrun : Relation.ReflTransGen (Acts P admits fits) c c') :
    Exact P n c' := by
  refine Transition.invariant (fun b d hbd hb => ?_) hrun h
  obtain ⟨a, fuel, hexec, hadm, hfit⟩ := hbd
  exact hb.exec hexec (ha b a hadm) (hf d hfit)

/-! ### Canonicity -/

/-- The table is a reduced ordered diagram over `n` variables, in which the comparisons of `Bdd`
decide what they are for. -/
structure Canonical (n : ℕ) (c : Client) : Prop where
  ordered : ∀ p ∈ c.table.stored, c.table.Inner p →
    (c.table.heap p).level < (c.table.heap (c.table.heap p).low).level ∧
      (c.table.heap p).level < (c.table.heap (c.table.heap p).high).level
  reduced : ∀ p ∈ c.table.stored, c.table.Inner p →
    (c.table.heap p).low ≠ (c.table.heap p).high
  closed : ∀ p ∈ c.table.stored, c.table.Inner p →
    (c.table.heap p).low ∈ c.table.stored ∧ (c.table.heap p).high ∈ c.table.stored
  unique : ∀ p ∈ c.table.stored, ∀ q ∈ c.table.stored,
    (c.table.heap p).level = (c.table.heap q).level → (c.table.heap p).low = (c.table.heap q).low →
      (c.table.heap p).high = (c.table.heap q).high → p = q
  support : ∀ p ∈ c.table.stored, ∀ v, n ≤ v → (c.table.denote p).Ignores v
  denote_eq_iff : ∀ p ∈ c.table.stored, ∀ q ∈ c.table.stored,
    c.table.denote p = c.table.denote q ↔ p = q
  node_mem : ∀ i p, c.node i = some p → p ∈ c.table.stored
  equals_iff : ∀ i j x y, c.node i = some x → c.node j = some y →
    (c.equals i j = some true ↔ c.table.denote x = c.table.denote y)
  isTrue_iff : ∀ i x, c.node i = some x →
    (c.isTrue i = some true ↔ ∀ e, c.table.denote x e = true)
  isFalse_iff : ∀ i x, c.node i = some x →
    (c.isFalse i = some true ↔ ∀ e, c.table.denote x e = false)

theorem Exact.node_mem (h : Exact P n c) (hi : c.node i = some p) : p ∈ c.table.stored :=
  h.root_mem (node_eq_some.mp hi).1 (node_eq_some.mp hi).2

/-- **The invariant makes the table canonical.** -/
theorem Exact.canonical (h : Exact P n c) : Canonical n c where
  ordered p hp hin := ⟨h.wf.lt_low p hp hin, h.wf.lt_high p hp hin⟩
  reduced := h.wf.low_ne_high
  closed p hp hin := ⟨h.wf.low_mem p hp hin, h.wf.high_mem p hp hin⟩
  unique p hp q hq hlevel hlow hhigh := h.wf.hashed.unique p hp q hq ⟨hlevel, hlow, hhigh⟩
  support := h.support
  denote_eq_iff p hp q hq := h.wf.toRobdd.canonical hp hq
  node_mem i p hi := h.node_mem hi
  equals_iff i j x y hx hy := by
    rw [h.wf.toRobdd.canonical (h.node_mem hx) (h.node_mem hy), equals, (node_eq_some.mp hx).1,
      (node_eq_some.mp hy).1]
    simp
  isTrue_iff i x hx := by
    have hconst : (∀ e, c.table.denote x e = true) ↔
        c.table.denote x = c.table.denote c.table.trueNode := by
      rw [h.wf.toRobdd.denote_true]
      exact funext_iff.symm
    rw [hconst, h.wf.toRobdd.canonical (h.node_mem hx) h.wf.true_mem, isTrue,
      (node_eq_some.mp hx).1]
    simp
  isFalse_iff i x hx := by
    have hconst : (∀ e, c.table.denote x e = false) ↔
        c.table.denote x = c.table.denote c.table.falseNode := by
      rw [h.wf.toRobdd.denote_false]
      exact funext_iff.symm
    rw [hconst, h.wf.toRobdd.canonical (h.node_mem hx) h.wf.false_mem, isFalse,
      (node_eq_some.mp hx).1]
    simp

theorem noLoss_of_noAllocFails (c : Client) (a : Action)
    (h : c.Admits (State.NoAllocFails P) a) : c.Admits (State.NoLoss P) a := by
  cases a with
  | apply op i j => exact fun x y ho => (h x y ho).noLoss
  | construct p => exact h
  | _ => trivial

/-- **Canonicity over whole runs.** After `init`, whatever a program does, as long as no
allocation fails inside an operator and no node has `2 ^ 32` references. -/
theorem canonical_of_run {rand₁ rand₂ : ℕ → ℕ} {tableSize cacheSize varNum : ℕ}
    (hv : varNum < uintMax)
    (hi : State.init P fuel rand₁ rand₂ tableSize cacheSize varNum = some s)
    (hc : Relation.ReflTransGen (Acts P (Admits (State.NoAllocFails P)) ReferencesFit)
      (start s) c) :
    Canonical varNum c :=
  ((exact_of_ready (State.ready_of_init hv hi)).run noLoss_of_noAllocFails (fun _ h => h)
    hc).canonical

/-! ### Exact counters -/

/-- A copy assignment takes its new reference before it drops the old one; that reference fits as
well. -/
def CopyFits (c : Client) : Action → Prop
  | .copyAssign i j => i ≠ j → ∀ p, c.node j = some p → c.references p + 1 < 2 ^ 32
  | _ => True

theorem underflows_ref (c : Client) (p : Ptr) : (c.ref p).underflows = c.underflows := by
  rw [ref]
  split <;> rfl

theorem underflows_deref (hp : p ≠ nullptr → (c.table.heap p).refCount ≠ 0) :
    (c.deref p).underflows = c.underflows := by
  rw [deref]
  split
  · rfl
  · next hne => simp [hp hne]

/-- The node of an object is counted. -/
theorem Exact.refCount_ne_zero (h : Exact P n c) {i : ℕ} {p : Ptr} (hi : c.root i = some p)
    (hp : p ≠ nullptr) : (c.table.heap p).refCount ≠ 0 := by
  rw [h.counted _ (h.root_mem hi hp)]
  exact Nat.ne_of_gt (references_pos hi)

/-- In `operator=`, the node that is given up is counted after the other one has been. -/
theorem Exact.refCount_ref_ne_zero (h : Exact P n c) {i j : ℕ} {x y : Ptr} (hij : i ≠ j)
    (hcopy : c.CopyFits (.copyAssign i j)) (hx : c.root i = some x) (hy : c.root j = some y)
    (hxn : x ≠ nullptr) : ((c.ref y).table.heap x).refCount ≠ 0 := by
  rw [refCount_ref c y hxn]
  split
  · next hxy =>
    subst hxy
    have hlt := hcopy hij x (node_eq_some.mpr ⟨hy, hxn⟩)
    rw [← h.counted x (h.root_mem hx hxn)] at hlt
    rw [Nat.mod_eq_of_lt hlt]
    exact Nat.succ_ne_zero _
  · exact h.refCount_ne_zero hx hxn

/-- **No counter is decremented at zero.** -/
theorem Exact.exec_underflows (h : Exact P n c) (hc : c.exec P fuel a = some c')
    (hcopy : c.CopyFits a) : c'.underflows = c.underflows := by
  have hcon : ∀ {d : Client} {p : Ptr}, d.construct p = some c' → c'.underflows = d.underflows :=
    fun {d p} hd => by
      obtain ⟨-, rfl⟩ := construct_eq_some hd
      exact underflows_ref d p
  cases a with
  | copyConstruct i =>
    obtain ⟨p, -, hc⟩ := Option.bind_eq_some_iff.mp hc
    cases hc
    exact underflows_ref c p
  | moveConstruct i =>
    obtain ⟨p, -, hc⟩ := Option.bind_eq_some_iff.mp hc
    cases hc
    rfl
  | destroy i =>
    obtain ⟨p, hp, hc⟩ := Option.bind_eq_some_iff.mp hc
    cases hc
    exact underflows_deref (h.refCount_ne_zero hp)
  | copyAssign i j =>
    obtain ⟨x, hx, hc⟩ := Option.bind_eq_some_iff.mp hc
    obtain ⟨y, hy, hc⟩ := Option.bind_eq_some_iff.mp hc
    by_cases hij : i = j
    · rw [if_pos hij] at hc
      cases hc
      rfl
    · rw [if_neg hij] at hc
      cases hc
      exact (underflows_deref (h.refCount_ref_ne_zero hij hcopy hx hy)).trans (underflows_ref c y)
  | moveAssign i j =>
    obtain ⟨x, hx, hc⟩ := Option.bind_eq_some_iff.mp hc
    obtain ⟨y, hy, hc⟩ := Option.bind_eq_some_iff.mp hc
    split at hc <;> cases hc
    · rfl
    · exact underflows_deref (h.refCount_ne_zero hx)
  | apply op i j =>
    obtain ⟨⟨x, y⟩, ho, hc⟩ := Option.bind_eq_some_iff.mp hc
    obtain ⟨⟨r, s⟩, hrun, hc⟩ := Option.bind_eq_some_iff.mp hc
    exact hcon (d := { c with table := s }) hc
  | gc =>
    obtain ⟨s, hs, hc⟩ := Option.bind_eq_some_iff.mp hc
    cases hc
    rfl
  | getVar id =>
    obtain ⟨p, -, hc⟩ := Option.bind_eq_some_iff.mp hc
    exact hcon hc
  | getNvar id =>
    obtain ⟨p, -, hc⟩ := Option.bind_eq_some_iff.mp hc
    exact hcon hc
  | constructDefault => exact hcon hc
  | construct p => exact hcon hc
  | bddFalse => exact hcon hc
  | bddTrue => exact hcon hc

/-- Every counter is the number of objects plus the permanent references, no counter was ever
decremented at zero, and the objects refer to stored nodes. -/
structure Counts (c : Client) : Prop where
  counted : ∀ p ∈ c.table.stored,
    (c.table.heap p).refCount = c.handles p + c.table.permanent p
  underflows : c.underflows = 0
  stored : ∀ i p, c.node i = some p → p ∈ c.table.stored

/-- The part of a run during which object `i` keeps the root `p`. -/
def Keeping (step : Client → Client → Prop) (i : ℕ) (p : Ptr) (c c' : Client) : Prop :=
  step c c' ∧ c'.node i = some p

/-- **What an object denotes does not change** as long as it keeps its root. -/
theorem Exact.keeps (h : Exact P n c) (ha : ∀ c a, admits c a → c.Admits (State.NoLoss P) a)
    (hf : ∀ c, fits c → c.ReferencesFit) (hi : c.node i = some p)
    (hrun : Relation.ReflTransGen (Keeping (Acts P admits fits) i p) c c') :
    p ∈ c'.table.stored ∧ c'.table.denote p = c.table.denote p := by
  suffices Exact P n c' ∧ c'.node i = some p ∧ c'.table.denote p = c.table.denote p from
    ⟨this.1.node_mem this.2.1, this.2.2⟩
  induction hrun with
  | refl => exact ⟨h, hi, rfl⟩
  | @tail b d _ hbd ih =>
    obtain ⟨⟨a, fuel, hexec, hadm, hfit⟩, hd⟩ := hbd
    obtain ⟨hexact, hb, hdenote⟩ := ih
    obtain ⟨hbroot, hp⟩ := node_eq_some.mp hb
    refine ⟨hexact.exec hexec (ha b a hadm) (hf d hfit), hd, ?_⟩
    rw [← hdenote]
    exact hexact.exec_denote hexec (ha b a hadm) (hf d hfit) hp (references_pos hbroot)
      (references_pos (node_eq_some.mp hd).1)

/-- One action of a program in which no allocation fails inside an operator and no counter wraps
around. -/
def CountedActs (P : Platform) : Client → Client → Prop :=
  Acts P (fun c a => c.Admits (State.NoAllocFails P) a ∧ c.CopyFits a) ReferencesFit

/-- **Exact reference counts over whole runs.** -/
theorem counts_of_run {rand₁ rand₂ : ℕ → ℕ} {tableSize cacheSize varNum : ℕ}
    (hv : varNum < uintMax)
    (hi : State.init P fuel rand₁ rand₂ tableSize cacheSize varNum = some s)
    (hc : Relation.ReflTransGen (CountedActs P) (start s) c) :
    Counts c ∧ ∀ i p c', c.node i = some p →
      Relation.ReflTransGen (Keeping (CountedActs P) i p) c c' →
      p ∈ c'.table.stored ∧ c'.table.denote p = c.table.denote p := by
  have hstart := exact_of_ready (State.ready_of_init hv hi)
  have hadm : ∀ (c : Client) (a : Action),
      c.Admits (State.NoAllocFails P) a ∧ c.CopyFits a → c.Admits (State.NoLoss P) a :=
    fun c a h => noLoss_of_noAllocFails c a h.1
  have hrun : Exact P varNum c ∧ c.underflows = 0 := by
    refine Transition.invariant (I := fun c => Exact P varNum c ∧ c.underflows = 0)
      (fun b d hbd hb => ?_) hc ⟨hstart, rfl⟩
    obtain ⟨a, fuel, hexec, ha, hfit⟩ := hbd
    refine ⟨hb.1.exec hexec (hadm b a ha) hfit, ?_⟩
    rw [hb.1.exec_underflows hexec ha.2]
    exact hb.2
  refine ⟨⟨hrun.1.counted, hrun.2, fun i p hp => hrun.1.node_mem hp⟩, fun i p c' hp hkeep => ?_⟩
  exact hrun.1.keeps hadm (fun _ h => h) hp hkeep

/-! ### A run of a small program -/

theorem references_le_length (c : Client) (p : Ptr) :
    c.references p ≤ c.bdds.length + (c.table.vars.length + c.table.nvars.length + 2) := by
  have h₁ : c.handles p ≤ c.bdds.length := List.count_le_length
  have h₂ : [c.table.falseNode, c.table.trueNode].count p ≤ 2 := List.count_le_length
  have h₃ : c.table.vars.count p ≤ c.table.vars.length := List.count_le_length
  have h₄ : c.table.nvars.count p ≤ c.table.nvars.length := List.count_le_length
  rw [references, State.permanent]
  omega

theorem referencesFit_of_length
    (h : c.bdds.length + (c.table.vars.length + c.table.nvars.length + 2) < 2 ^ 32) :
    c.ReferencesFit := fun p _ => (c.references_le_length p).trans_lt h

theorem getVar_eq {id : ℕ} (h : c.table.vars[id]? = some p) (hp : p ≠ nullptr) :
    c.getVar id = some ((c.ref p).push p) := by
  simp [getVar, h, construct, hp]

theorem referencesFit_small (hvars : c.table.vars = State.small.vars)
    (hnvars : c.table.nvars = State.small.nvars) (hb : c.bdds.length < 2 ^ 31) :
    c.ReferencesFit := by
  refine referencesFit_of_length ?_
  rw [hvars, hnvars, State.vars_small, State.nvars_small]
  simp only [List.length_cons, List.length_nil]
  omega

theorem getVar_small {id : ℕ} (hvars : c.table.vars = State.small.vars)
    (hi : ([3, 5, 7] : List Ptr)[id]? = some p) (hp : p ≠ nullptr) :
    c.getVar id = some ((c.ref p).push p) :=
  getVar_eq (by rw [hvars, State.vars_small, hi]) hp

/-- What can be decided of the condition on an action: an operator ends within `n` steps, and no
allocation fails in them. Copy assignments and raw nodes are left out. -/
def Brisk (P : Platform) (n : ℕ) (c : Client) : Action → Bool
  | .apply op i j =>
    (c.operands op i j).all fun xy => Config.endsWithin P n ⟨c.table, .call op xy.1 xy.2, []⟩
  | .construct _ | .copyAssign .. => false
  | _ => true

theorem admits_of_brisk (h : c.Brisk P n a = true) :
    c.Admits (State.NoAllocFails P) a ∧ c.CopyFits a := by
  cases a with
  | apply op i j =>
    refine ⟨fun x y ho => ?_, trivial⟩
    rw [Brisk, ho] at h
    exact not_allocFails_of_endsWithin h
  | construct => exact absurd h nofun
  | copyAssign => exact absurd h nofun
  | _ => exact ⟨trivial, trivial⟩

/-- One action of a program, computed, while there are few objects. -/
def briskly (P : Platform) (n fuel : ℕ) (c : Client) (a : Action) : Option Client :=
  (c.exec P fuel a).bind fun c' =>
    if c.Brisk P n a ∧
        c'.bdds.length + (c'.table.vars.length + c'.table.nvars.length + 2) < 2 ^ 32 then some c'
    else none

theorem countedActs_of_briskly (h : c.briskly P n fuel a = some c') : CountedActs P c c' := by
  obtain ⟨d, hd, h⟩ := Option.bind_eq_some_iff.mp h
  split_ifs at h with hfacts
  cases h
  exact ⟨a, fuel, hd, admits_of_brisk hfacts.1, referencesFit_of_length hfacts.2⟩

theorem run_of_briskly {w : List Action} (h : w.foldlM (briskly P n fuel) c = some c') :
    Relation.ReflTransGen (CountedActs P) c c' := by
  refine Transition.run_of_foldlM (fun c a c' hc => ?_) h
  exact countedActs_of_briskly hc

/-- Two objects, for the first two variables. -/
def smallPair : Client := ((((start State.small).ref 3).push 3).ref 5).push 5

theorem operands_smallPair : smallPair.operands .and 0 1 = some (3, 5) := rfl

/-- No allocation fails in the conjunction of the two. -/
theorem admits_smallPair :
    smallPair.Admits (State.NoAllocFails State.smallPlatform) (.apply .and 0 1) := by
  intro x y ho
  rw [operands_smallPair] at ho
  cases ho
  exact not_allocFails_of_endsWithin (n := 20) (by decide +kernel)

theorem acts_smallPair :
    Relation.ReflTransGen (CountedActs State.smallPlatform) (start State.small) smallPair := by
  have h₁ : CountedActs State.smallPlatform (start State.small)
      (((start State.small).ref 3).push 3) :=
    ⟨.getVar 0, 0, getVar_small rfl rfl (by decide), ⟨trivial, trivial⟩,
      referencesFit_small rfl rfl (by decide)⟩
  have h₂ : CountedActs State.smallPlatform (((start State.small).ref 3).push 3) smallPair :=
    ⟨.getVar 1, 0, getVar_small rfl rfl (by decide), ⟨trivial, trivial⟩,
      referencesFit_small rfl rfl (by decide)⟩
  exact (Relation.ReflTransGen.single h₁).tail h₂

/-- A program that takes the first two variables and their conjunction. -/
theorem acts_small : ∃ c, Relation.ReflTransGen (CountedActs State.smallPlatform)
    (start State.small) c ∧ c.bdds.length = 3 := by
  have hsome : (smallPair.exec State.smallPlatform 40 (.apply .and 0 1)).any (fun c =>
      decide (c.bdds.length = 3 ∧
        c.bdds.length + (c.table.vars.length + c.table.nvars.length + 2) < 2 ^ 32)) = true := by
    decide +kernel
  obtain ⟨c, hc, hfit⟩ := (Option.any_eq_true _ _).mp hsome
  obtain ⟨hlength, hfit⟩ := of_decide_eq_true hfit
  exact ⟨c, acts_smallPair.tail ⟨.apply .and 0 1, 40, hc, ⟨admits_smallPair, trivial⟩,
    referencesFit_of_length hfit⟩, hlength⟩

theorem canonical_of_run_small : ∃ c, c.bdds.length = 3 ∧ Canonical 3 c := by
  obtain ⟨c, hc, hlength⟩ := acts_small
  refine ⟨c, hlength, canonical_of_run (by decide) State.init_small ?_⟩
  exact Relation.ReflTransGen.mono
    (fun _ _ ⟨a, fuel, hexec, ha, hfit⟩ => ⟨a, fuel, hexec, ha.1, hfit⟩) _ _ hc

theorem counts_of_run_small : ∃ c, c.bdds.length = 3 ∧ Counts c := by
  obtain ⟨c, hc, hlength⟩ := acts_small
  exact ⟨c, hlength, (counts_of_run (by decide) State.init_small hc).1⟩

/-! ### The wrap -/

/-- No node has `2 ^ 32` objects. Its permanent references come on top of them. -/
def HandlesFit (c : Client) : Prop := ∀ p, p ≠ nullptr → c.handles p < 2 ^ 32

/-- `k` more objects for the node `p`. -/
def manyHandles (c : Client) (p : Ptr) (k : ℕ) : Client :=
  { c with
    table := { c.table with
      heap := c.table.heap.modify p fun n => { n with refCount := (n.refCount + k) % 2 ^ 32 } }
    bdds := c.bdds ++ List.replicate k (some p) }

theorem manyHandles_succ (c : Client) (hp : p ≠ nullptr) (k : ℕ) :
    c.manyHandles p (k + 1) = ((c.manyHandles p k).ref p).push p := by
  have hheap :
      c.table.heap.modify p (fun n => { n with refCount := (n.refCount + (k + 1)) % 2 ^ 32 }) =
        (c.table.heap.modify p fun n =>
          { n with refCount := (n.refCount + k) % 2 ^ 32 }).ref p := by
    funext q
    simp only [Heap.ref, Heap.modify_apply]
    split
    · rw [Nat.mod_add_mod, Nat.add_assoc]
    · rfl
  rw [ref, if_neg hp]
  simp only [manyHandles, push, hheap, List.replicate_succ', List.append_assoc]

theorem manyHandles_zero (c : Client) (hcount : (c.table.heap p).refCount < 2 ^ 32) :
    c.manyHandles p 0 = c := by
  have hheap : c.table.heap.modify p (fun n => { n with refCount := (n.refCount + 0) % 2 ^ 32 })
      = c.table.heap := by
    funext q
    rw [Heap.modify_apply]
    split
    · next hq =>
      subst hq
      rw [Nat.add_zero, Nat.mod_eq_of_lt hcount]
    · rfl
  simp only [manyHandles, hheap, List.replicate_zero, List.append_nil]

theorem handles_manyHandles (c : Client) (p q : Ptr) (k : ℕ) :
    (c.manyHandles p k).handles q = c.handles q + if q = p then k else 0 := by
  rw [handles, manyHandles, List.count_append, List.count_replicate, handles]
  by_cases hq : q = p
  · simp [hq]
  · simp [hq, Ne.symm hq]

theorem root_manyHandles (hi : c.root i = some p) (q : Ptr) (k : ℕ) :
    (c.manyHandles q k).root i = some p := by
  rw [root_eq_some] at hi ⊢
  rw [manyHandles, List.getElem?_append_left (List.getElem?_eq_some_iff.mp hi).1]
  exact hi

theorem handlesFit_manyHandles {k : ℕ} (hc : c.HandlesFit) (hk : c.handles p + k < 2 ^ 32) :
    (c.manyHandles p k).HandlesFit := fun q hq => by
  have hlt := hc q hq
  rw [handles_manyHandles]
  split
  · next hqp => rwa [hqp]
  · exact hlt

/-- A program may copy one object again and again. -/
theorem acts_manyHandles (hi : c.root i = some p) (hp : p ≠ nullptr)
    (hcount : (c.table.heap p).refCount < 2 ^ 32) (ha : ∀ c, admits c (.copyConstruct i)) {k : ℕ}
    (hc : c.HandlesFit) (hk : c.handles p + k < 2 ^ 32) :
    Relation.ReflTransGen (Acts P admits HandlesFit) c (c.manyHandles p k) := by
  induction k with
  | zero => rw [manyHandles_zero c hcount]
  | succ k ih =>
    refine (ih (by omega)).tail ⟨.copyConstruct i, 0, ?_, ha _, handlesFit_manyHandles hc hk⟩
    show (c.manyHandles p k).copyConstruct i = _
    rw [manyHandles_succ c hp, copyConstruct, root_manyHandles hi]
    rfl

/-- An object for the negated first variable, and one for the first variable. -/
def twoHandles : Client := ((((start State.small).ref 4).push 4).ref 3).push 3

/-- One action of a program whose nodes have fewer than `2 ^ 32` objects each. -/
abbrev HandleActs : Client → Client → Prop :=
  Acts State.smallPlatform (Admits (State.NoAllocFails State.smallPlatform)) HandlesFit

theorem handlesFit_of_length (h : c.bdds.length < 2 ^ 32) : c.HandlesFit := fun _ _ =>
  lt_of_le_of_lt List.count_le_length h

theorem handlesFit_twoHandles : twoHandles.HandlesFit := handlesFit_of_length (by decide)

theorem refCount_twoHandles : (twoHandles.table.heap 3).refCount = 2 := by decide +kernel

/-- The second object can be copied until its node has `2 ^ 32 - 1` objects. -/
theorem acts_twoHandles {k : ℕ} (hk : 1 + k < 2 ^ 32) :
    Relation.ReflTransGen HandleActs (start State.small) (twoHandles.manyHandles 3 k) := by
  have h₁ : HandleActs (start State.small) (((start State.small).ref 4).push 4) :=
    ⟨.construct 4, 0, by simp [exec, construct],
      show 4 ∈ State.small.stored by simp [State.stored_small], handlesFit_of_length (by decide)⟩
  have h₂ : HandleActs (((start State.small).ref 4).push 4) twoHandles :=
    ⟨.construct 3, 0, by simp [exec, construct, twoHandles],
      show 3 ∈ State.small.stored by simp [State.stored_small],
      handlesFit_twoHandles⟩
  have hone : twoHandles.handles 3 = 1 := rfl
  refine ((Relation.ReflTransGen.single h₁).tail h₂).trans ?_
  exact acts_manyHandles (i := 1) rfl (by decide) (by rw [refCount_twoHandles]; decide)
    (fun _ => trivial) handlesFit_twoHandles (by omega)

/-- The table of these objects: the counter of the node is zero. -/
def wrapped : State :=
  { twoHandles.table with
    heap := twoHandles.table.heap.modify 3 fun n => { n with refCount := 0 } }

theorem table_manyHandles {k : ℕ} (hk : 2 + k = 2 ^ 32) :
    (twoHandles.manyHandles 3 k).table = wrapped := by
  have hheap : (twoHandles.table.heap.modify 3 fun n =>
      { n with refCount := (n.refCount + k) % 2 ^ 32 }) =
      twoHandles.table.heap.modify 3 fun n => { n with refCount := 0 } := by
    funext q
    simp only [Heap.modify_apply]
    split
    · next hq =>
      rw [hq, refCount_twoHandles, hk, Nat.mod_self]
    · rfl
  rw [manyHandles, wrapped, hheap]

/-- The table after the next collection, which takes the node. -/
def stale : State := (wrapped.gc 40).getD wrapped

/-- The table after one of the objects is destroyed. -/
def dropped : State := { stale with heap := stale.heap.deref 3 }

theorem gc_wrapped : wrapped.gc 40 = some stale := by
  have hsome : (wrapped.gc 40).isSome = true := by decide +kernel
  obtain ⟨t, ht⟩ := Option.isSome_iff_exists.mp hsome
  rw [stale, ht]
  rfl

/-- The conjunction of the variable, whose node is gone, and its negation stores a node without
a child. -/
theorem bddAnd_dropped : ∃ t, dropped.bddOp State.smallPlatform .and 40 3 4 = some (3, t) ∧
    3 ∈ t.stored ∧ (3 ≠ t.falseNode ∧ 3 ≠ t.trueNode) ∧ (t.heap 3).low ∉ t.stored := by
  have hsome : (dropped.bddOp State.smallPlatform .and 40 3 4).any (fun r =>
      decide (r.1 = 3 ∧ 3 ∈ r.2.stored ∧ (3 ≠ r.2.falseNode ∧ 3 ≠ r.2.trueNode) ∧
        (r.2.heap 3).low ∉ r.2.stored)) = true := by
    decide +kernel
  obtain ⟨⟨r, t⟩, hrun, hfacts⟩ := (Option.any_eq_true _ _).mp hsome
  obtain ⟨rfl, hfacts⟩ := of_decide_eq_true hfacts
  exact ⟨t, hrun, hfacts⟩

/-- **The counter wraps around** with fewer than `2 ^ 32` objects for each node. -/
theorem not_counts_of_handlesFit :
    ∃ s c, State.init State.smallPlatform 40 id id 11 11 3 = some s ∧
      Relation.ReflTransGen HandleActs (start s) c ∧ ¬ Counts c := by
  obtain ⟨k, hk⟩ : ∃ k : ℕ, 2 + k = 2 ^ 32 := ⟨2 ^ 32 - 2, by decide⟩
  refine ⟨State.small, _, State.init_small, acts_twoHandles (k := k) (by omega), fun h => ?_⟩
  have hcount := h.counted 3
  rw [table_manyHandles hk, handles_manyHandles, if_pos rfl] at hcount
  have hzero : (wrapped.heap 3).refCount = 0 := rfl
  have hmem : 3 ∈ State.small.stored := by simp [State.stored_small]
  have := hcount hmem
  omega

/-- **The table is no longer closed** after a collection, a destructor and an operator. -/
theorem not_canonical_of_handlesFit :
    ∃ s c, State.init State.smallPlatform 40 id id 11 11 3 = some s ∧
      Relation.ReflTransGen HandleActs (start s) c ∧ ¬ Canonical 3 c := by
  obtain ⟨k, hk⟩ : ∃ k : ℕ, 2 + k = 2 ^ 32 := ⟨2 ^ 32 - 2, by decide⟩
  obtain ⟨t, hrun, hmem, hin, hlow⟩ := bddAnd_dropped
  have htable := table_manyHandles hk
  have hfit := handlesFit_manyHandles (p := 3) (k := k) handlesFit_twoHandles (by
    have hone : twoHandles.handles 3 = 1 := rfl
    omega)
  have hrun₂ := acts_twoHandles (k := k) (by omega)
  have hroot : ∀ {i p}, twoHandles.root i = some p → (twoHandles.manyHandles 3 k).root i = some p :=
    fun hi => root_manyHandles hi 3 k
  have hroot₂ : (twoHandles.manyHandles 3 k).root 2 = some 3 := by
    rw [root_eq_some, manyHandles, List.getElem?_append_right (by decide)]
    refine List.getElem?_replicate_of_lt ?_
    rw [show twoHandles.bdds.length = 2 from rfl]
    omega
  generalize twoHandles.manyHandles 3 k = c₂ at *
  set c₃ : Client := { c₂ with table := stale } with hc₃
  set c₄ : Client := (c₃.deref 3).setRoot 2 none with hc₄
  set c₅ : Client := (({ c₄ with table := t } : Client).ref 3).push 3 with hc₅
  have hnode : ∀ {i p}, i ≠ 2 → twoHandles.root i = some p → p ≠ nullptr → c₄.node i = some p :=
    fun hi hr hp => by
      rw [node_eq_some, hc₄, root_setRoot_of_ne hi.symm, root_deref]
      exact ⟨hroot hr, hp⟩
  have hops : c₄.operands .and 1 0 = some (3, 4) := by
    rw [operands, hnode (by decide) (p := 3) rfl (by decide), rightNode,
      if_neg (by decide), hnode (by decide) (p := 4) rfl (by decide)]
    rfl
  have hfit₄ : ∀ q, q ≠ nullptr → c₄.handles q + (if q = 3 then 1 else 0) < 2 ^ 32 :=
    fun q hq => by
      rw [hc₄, handles_setRoot ((root_deref c₃ 3 2).trans hroot₂), handles_deref]
      simpa using show c₃.handles q < 2 ^ 32 from hfit q hq
  have h₃ : HandleActs c₂ c₃ := by
    refine ⟨.gc, 40, ?_, trivial, hfit⟩
    show c₂.gc 40 = _
    rw [gc, htable, gc_wrapped]
    rfl
  have h₄ : HandleActs c₃ c₄ := by
    refine ⟨.destroy 2, 0, ?_, trivial, fun q hq => by have := hfit₄ q hq; omega⟩
    show c₃.destroy 2 = _
    rw [destroy, show c₃.root 2 = some 3 from hroot₂]
    rfl
  have hdropped : c₄.table = dropped := rfl
  have h₅ : HandleActs c₄ c₅ := by
    refine ⟨.apply .and 1 0, 40, ?_, fun x y ho => ?_, fun q hq => ?_⟩
    · show c₄.apply State.smallPlatform 40 .and 1 0 = _
      exact apply_of_bddOp hops (hdropped ▸ hrun) (by decide)
    · rw [hops] at ho
      cases ho
      rw [hdropped]
      exact not_allocFails_of_endsWithin (n := 20) (by decide +kernel)
    · have hlt := hfit₄ q hq
      rw [hc₅, handles_push, handles_ref]
      exact hlt
  refine ⟨State.small, c₅, State.init_small, ((hrun₂.tail h₃).tail h₄).tail h₅,
    fun h => hlow ?_⟩
  obtain ⟨n, hn⟩ := (counted_ref { c₄ with table := t } 3).heap 3
  have hclosed := (h.closed 3 hmem hin).1
  rwa [hc₅, show ((({ c₄ with table := t } : Client).ref 3).push 3).table.heap 3 = _ from hn]
    at hclosed

end Client

end Nanobdd
