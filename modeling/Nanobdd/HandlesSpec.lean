import Nanobdd.Handles
import Nanobdd.Preserved

/-!
# Reference counts

As long as no node has `2 ^ 32` references, the counter of a node is the number of its objects
plus its permanent references. That keeps the root of every object alive, so a collection spares
it, and with it everything the object denotes.

## Main definitions

* `Client.handles`, `Client.references` — the objects of a node, and all references to it
* `Client.Tallied` — stored roots and exact counters, whatever the diagrams mean
* `Client.Exact` — the invariant of a program

## Main results

* `Client.Tallied.exec` — the actions on objects keep the tally
* `Client.Exact.exec` — every action keeps the invariant
-/

namespace Nanobdd

open BoolFun

variable {P : Platform} {c c' : Client} {s s' : State} {p q x y r : Ptr} {i j n fuel : ℕ}
  {a : Action} {op : Operator}

namespace Client

/-- How many objects have the root `p`. -/
def handles (c : Client) (p : Ptr) : ℕ := c.bdds.count (some p)

/-- How many references to `p` there are, those the table keeps for ever included. -/
def references (c : Client) (p : Ptr) : ℕ := c.handles p + c.table.permanent p

/-- The invariant of a program over `n` variables. -/
structure Exact (P : Platform) (n : ℕ) (c : Client) : Prop where
  wf : State.WellFormed (fun _ => True) P c.table
  unmarked : c.table.Unmarked
  nodeCount : c.table.nodeCount = c.table.stored.length
  support : ∀ p ∈ c.table.stored, ∀ v, n ≤ v → (c.table.denote p).Ignores v
  mem : ∀ p, p ≠ nullptr → 0 < c.references p → p ∈ c.table.stored
  counted : ∀ p ∈ c.table.stored, (c.table.heap p).refCount = c.references p

/-- The part of the invariant that the objects alone keep: a node with references is stored, and
its counter is their number. -/
structure Tallied (c : Client) : Prop where
  ne_null : ∀ p ∈ c.table.stored, p ≠ nullptr
  mem : ∀ p, p ≠ nullptr → 0 < c.references p → p ∈ c.table.stored
  counted : ∀ p ∈ c.table.stored, (c.table.heap p).refCount = c.references p

/-- No node has so many references that its counter wraps around. -/
def ReferencesFit (c : Client) : Prop := ∀ p, p ≠ nullptr → c.references p < 2 ^ 32

/-! ### Objects -/

theorem root_eq_some : c.root i = some p ↔ c.bdds[i]? = some (some p) := Option.join_eq_some_iff

theorem node_eq_some : c.node i = some p ↔ c.root i = some p ∧ p ≠ nullptr := by
  simp [node]

/-- The operands are the roots of objects. -/
theorem operands_eq_some (ho : c.operands op i j = some (x, y)) :
    c.node i = some x ∧ c.rightNode op j = some y := by
  obtain ⟨x', hx, ho⟩ := Option.bind_eq_some_iff.mp ho
  obtain ⟨y', hy, ho⟩ := Option.bind_eq_some_iff.mp ho
  cases ho
  exact ⟨hx, hy⟩

theorem handles_pos (h : c.root i = some p) : 0 < c.handles p :=
  List.count_pos_iff.mpr (List.mem_of_getElem? (root_eq_some.mp h))

theorem references_pos (h : c.root i = some p) : 0 < c.references p :=
  Nat.add_pos_left (handles_pos h) _

@[simp] theorem ref_bdds (c : Client) (p : Ptr) : (c.ref p).bdds = c.bdds := by
  rw [ref]
  split <;> rfl

@[simp] theorem deref_bdds (c : Client) (p : Ptr) : (c.deref p).bdds = c.bdds := by
  rw [deref]
  split <;> rfl

@[simp] theorem handles_ref (c : Client) (p q : Ptr) : (c.ref p).handles q = c.handles q := by
  rw [handles, ref_bdds, handles]

@[simp] theorem handles_deref (c : Client) (p q : Ptr) : (c.deref p).handles q = c.handles q := by
  rw [handles, deref_bdds, handles]

theorem handles_push (c : Client) (p q : Ptr) :
    (c.push p).handles q = c.handles q + if q = p then 1 else 0 := by
  simp only [handles, push, List.count_append, List.count_singleton, beq_iff_eq, Option.some_inj]
  simp only [eq_comm]

/-- Overwriting the root `p` of an object. -/
theorem handles_setRoot (h : c.root i = some p) (r : Option Ptr) (q : Ptr) :
    (c.setRoot i r).handles q + (if q = p then 1 else 0) =
      c.handles q + if r = some q then 1 else 0 := by
  obtain ⟨hi, hget⟩ := List.getElem?_eq_some_iff.mp (root_eq_some.mp h)
  have hpos : q = p → 0 < c.bdds.count (some q) := by
    rintro rfl
    exact handles_pos h
  simp only [handles, setRoot, List.count_set hi, hget, beq_iff_eq, Option.some_inj,
    eq_comm (a := p)]
  by_cases hq : q = p
  · have := hpos hq
    simp only [hq, if_true] at this ⊢
    omega
  · simp [hq]

theorem root_push_of_root (h : c.root i = some p) (q : Ptr) : (c.push q).root i = some p := by
  rw [root_eq_some] at h ⊢
  obtain ⟨hi, -⟩ := List.getElem?_eq_some_iff.mp h
  rw [push, List.getElem?_append_left hi]
  exact h

theorem root_setRoot_of_ne (hij : i ≠ j) (r : Option Ptr) : (c.setRoot i r).root j = c.root j := by
  rw [root, setRoot, List.getElem?_set_ne hij, root]

theorem root_setRoot_self (h : c.root i = some p) (r : Option Ptr) :
    (c.setRoot i r).root i = r := by
  obtain ⟨hi, -⟩ := List.getElem?_eq_some_iff.mp (root_eq_some.mp h)
  rw [root, setRoot, List.getElem?_set_self hi, Option.join_some]

theorem root_push_length (c : Client) (p : Ptr) : (c.push p).root c.bdds.length = some p := by
  rw [root_eq_some, push, List.getElem?_concat_length]

theorem root_ref (c : Client) (p : Ptr) (i : ℕ) : (c.ref p).root i = c.root i := by
  rw [root, ref_bdds, root]

theorem root_deref (c : Client) (p : Ptr) (i : ℕ) : (c.deref p).root i = c.root i := by
  rw [root, deref_bdds, root]

/-! ### Counters -/

/-- The two states differ at most in the counters. -/
structure Counted (s s' : State) : Prop extends State.Recounted s s' where
  vars : s'.vars = s.vars
  nvars : s'.nvars = s.nvars

theorem Counted.refl (s : State) : Counted s s :=
  ⟨⟨rfl, rfl, rfl, rfl, rfl, rfl, rfl, fun p => ⟨(s.heap p).refCount, rfl⟩⟩, rfl, rfl⟩

theorem Counted.trans {s'' : State} (h : Counted s s') (h' : Counted s' s'') : Counted s s'' := by
  refine ⟨⟨h'.buckets.trans h.buckets, h'.tableSize.trans h.tableSize,
    h'.allocator.trans h.allocator, h'.falseNode.trans h.falseNode,
    h'.trueNode.trans h.trueNode, h'.nodeCount.trans h.nodeCount, h'.cache.trans h.cache,
    fun p => ?_⟩, h'.vars.trans h.vars, h'.nvars.trans h.nvars⟩
  obtain ⟨m, hm⟩ := h.heap p
  obtain ⟨k, hk⟩ := h'.heap p
  exact ⟨k, by rw [hk, hm]⟩

theorem Counted.permanent_eq (h : Counted s s') (p : Ptr) : s'.permanent p = s.permanent p := by
  rw [State.permanent, State.permanent, h.falseNode, h.trueNode, h.vars, h.nvars]

theorem counted_ref (c : Client) (p : Ptr) : Counted c.table (c.ref p).table := by
  rw [ref]
  split
  · exact Counted.refl _
  · exact ⟨⟨rfl, rfl, rfl, rfl, rfl, rfl, rfl, fun q => Heap.exists_ref _ p q⟩, rfl, rfl⟩

theorem counted_deref (c : Client) (p : Ptr) : Counted c.table (c.deref p).table := by
  rw [deref]
  split
  · exact Counted.refl _
  · exact ⟨⟨rfl, rfl, rfl, rfl, rfl, rfl, rfl, fun q => Heap.exists_deref _ p q⟩, rfl, rfl⟩

theorem refCount_ref (c : Client) (p : Ptr) (hq : q ≠ nullptr) :
    ((c.ref p).table.heap q).refCount =
      if q = p then ((c.table.heap q).refCount + 1) % 2 ^ 32 else (c.table.heap q).refCount := by
  rw [ref]
  by_cases hp : p = nullptr
  · rw [if_pos hp, if_neg (hp ▸ hq)]
  · rw [if_neg hp]
    simp only [Heap.ref, Heap.modify_apply]
    split <;> rfl

theorem refCount_deref (c : Client) (p : Ptr) (hq : q ≠ nullptr) :
    ((c.deref p).table.heap q).refCount =
      if q = p then ((c.table.heap q).refCount + 2 ^ 32 - 1) % 2 ^ 32
      else (c.table.heap q).refCount := by
  rw [deref]
  by_cases hp : p = nullptr
  · rw [if_pos hp, if_neg (hp ▸ hq)]
  · rw [if_neg hp]
    simp only [Heap.deref, Heap.modify_apply]
    split <;> rfl

/-! ### References -/

@[simp] theorem references_ref (c : Client) (p q : Ptr) :
    (c.ref p).references q = c.references q := by
  rw [references, references, handles_ref, (counted_ref c p).permanent_eq]

@[simp] theorem references_deref (c : Client) (p q : Ptr) :
    (c.deref p).references q = c.references q := by
  rw [references, references, handles_deref, (counted_deref c p).permanent_eq]

theorem references_push (c : Client) (p q : Ptr) :
    (c.push p).references q = c.references q + if q = p then 1 else 0 := by
  rw [references, references, handles_push, Nat.add_right_comm]
  rfl

theorem references_setRoot (h : c.root i = some p) (r : Option Ptr) (q : Ptr) :
    (c.setRoot i r).references q + (if q = p then 1 else 0) =
      c.references q + if r = some q then 1 else 0 := by
  have hh := handles_setRoot h r q
  have hp : (c.setRoot i r).table.permanent q = c.table.permanent q := rfl
  rw [references, references, hp]
  omega

theorem construct_eq_some (hc : c.construct p = some c') :
    p ≠ nullptr ∧ c' = (c.ref p).push p := by
  rw [construct] at hc
  split at hc
  · simp at hc
  · next hp =>
    cases hc
    exact ⟨hp, rfl⟩

namespace Tallied

/-- What keeps the tally if only counters and objects change. -/
theorem recount (h : Tallied c) (hre : Counted c.table c'.table)
    (hmem : ∀ p, p ≠ nullptr → 0 < c'.references p → p ∈ c.table.stored)
    (hcount : ∀ p ∈ c.table.stored, (c'.table.heap p).refCount = c'.references p) :
    Tallied c' where
  ne_null p hp := h.ne_null p (hre.toRecounted.stored_eq ▸ hp)
  mem p hne hpos := by
    rw [hre.toRecounted.stored_eq]
    exact hmem p hne hpos
  counted p hp := hcount p (hre.toRecounted.stored_eq ▸ hp)

theorem root_mem (h : Tallied c) (hi : c.root i = some p) (hp : p ≠ nullptr) :
    p ∈ c.table.stored := h.mem p hp (references_pos hi)

theorem live_of_references (h : Tallied c) (hp : p ≠ nullptr) (hpos : 0 < c.references p) :
    p ∈ c.table.stored ∧ c.table.Live p := by
  have hs := h.mem p hp hpos
  refine ⟨hs, State.Live.of_refCount hs ?_⟩
  rw [h.counted p hs]
  exact Nat.ne_of_gt hpos

theorem live_of_permanent (h : Tallied c) (hp : p ∈ c.table.stored)
    (hpos : 0 < c.table.permanent p) : c.table.Live p :=
  (h.live_of_references (h.ne_null p hp) (Nat.add_pos_right _ hpos)).2

theorem live_false (h : Tallied c) (hf : c.table.falseNode ∈ c.table.stored) :
    c.table.Live c.table.falseNode :=
  h.live_of_permanent hf (State.permanent_pos_iff.mpr (Or.inl rfl))

theorem live_true (h : Tallied c) (ht : c.table.trueNode ∈ c.table.stored) :
    c.table.Live c.table.trueNode :=
  h.live_of_permanent ht (State.permanent_pos_iff.mpr (Or.inr (Or.inl rfl)))

/-! ### Special member functions -/

/-- A new object that takes a reference. -/
theorem attach (h : Tallied c) (hp : p ≠ nullptr → p ∈ c.table.stored)
    (hfit : ReferencesFit ((c.ref p).push p)) : Tallied ((c.ref p).push p) := by
  refine h.recount (counted_ref c p) (fun q hne hpos => ?_) (fun q hq => ?_)
  · rw [references_push, references_ref] at hpos
    by_cases hqp : q = p
    · exact hqp ▸ hp (hqp ▸ hne)
    · rw [if_neg hqp] at hpos
      exact h.mem q hne hpos
  · have hne := h.ne_null q hq
    have hlt := hfit q hne
    have hcount := h.counted q hq
    have href := refCount_ref c p hne
    rw [references_push, references_ref] at hlt ⊢
    show ((c.ref p).table.heap q).refCount = _
    rw [href, hcount]
    split at hlt
    · rw [if_pos (by assumption), if_pos (by assumption)]
      exact Nat.mod_eq_of_lt hlt
    · rw [if_neg (by assumption), if_neg (by assumption)]
      rfl

theorem construct (h : Tallied c) (hp : p ∈ c.table.stored) (hc : c.construct p = some c')
    (hfit : c'.ReferencesFit) : Tallied c' := by
  rw [Client.construct, if_neg (h.ne_null p hp)] at hc
  cases hc
  exact h.attach (fun _ => hp) hfit

theorem copyConstruct (h : Tallied c) (hc : c.copyConstruct i = some c')
    (hfit : c'.ReferencesFit) : Tallied c' := by
  obtain ⟨p, hp, hc⟩ := Option.bind_eq_some_iff.mp hc
  cases hc
  exact h.attach (h.root_mem hp) hfit

theorem moveConstruct (h : Tallied c) (hc : c.moveConstruct i = some c') : Tallied c' := by
  obtain ⟨p, hp, hc⟩ := Option.bind_eq_some_iff.mp hc
  cases hc
  have hrefs : ∀ q, q ≠ nullptr →
      ((c.push p).setRoot i (some nullptr)).references q = c.references q := fun q hq => by
    have hset := references_setRoot (root_push_of_root hp p) (some nullptr) q
    rw [references_push, if_neg (c := some nullptr = some q) fun he => hq (by simpa using he.symm)]
      at hset
    omega
  refine h.recount (Counted.refl _) (fun q hne hpos => ?_) (fun q hq => ?_)
  · rw [hrefs q hne] at hpos
    exact h.mem q hne hpos
  · rw [hrefs q (h.ne_null q hq)]
    exact h.counted q hq

theorem destroy (h : Tallied c) (hc : c.destroy i = some c') (hfit : c'.ReferencesFit) :
    Tallied c' := by
  obtain ⟨p, hp, hc⟩ := Option.bind_eq_some_iff.mp hc
  cases hc
  have hrefs : ∀ q, ((c.deref p).setRoot i none).references q + (if q = p then 1 else 0) =
      c.references q := fun q => by
    rw [references_setRoot ((root_deref c p i).trans hp), references_deref]
    simp
  refine h.recount (counted_deref c p) (fun q hne hpos => ?_) (fun q hq => ?_)
  · have := hrefs q
    exact h.mem q hne (by omega)
  · have hne := h.ne_null q hq
    have hlt := hfit q hne
    have hcount := h.counted q hq
    have hr := hrefs q
    show ((c.deref p).table.heap q).refCount = _
    rw [refCount_deref c p hne]
    split at hr
    · rw [if_pos (by assumption)]
      omega
    · rw [if_neg (by assumption)]
      omega

theorem copyAssign (h : Tallied c) (hc : c.copyAssign i j = some c')
    (hfit : c'.ReferencesFit) : Tallied c' := by
  obtain ⟨x, hx, hc⟩ := Option.bind_eq_some_iff.mp hc
  obtain ⟨y, hy, hc⟩ := Option.bind_eq_some_iff.mp hc
  by_cases hij : i = j
  · rw [if_pos hij] at hc
    cases hc
    exact h
  rw [if_neg hij] at hc
  cases hc
  have hroot : ((c.ref y).deref x).root i = some x := by rw [root_deref, root_ref, hx]
  have hrefs : ∀ q, (((c.ref y).deref x).setRoot i (some y)).references q +
      (if q = x then 1 else 0) = c.references q + if q = y then 1 else 0 := fun q => by
    rw [references_setRoot hroot, references_deref, references_ref]
    simp only [Option.some_inj, eq_comm]
  refine h.recount ((counted_ref c y).trans (counted_deref _ x)) (fun q hne hpos => ?_)
    (fun q hq => ?_)
  · by_cases hqy : q = y
    · exact hqy ▸ h.root_mem hy (hqy ▸ hne)
    · have hr := hrefs q
      rw [if_neg hqy] at hr
      exact h.mem q hne (by omega)
  · have hne := h.ne_null q hq
    have hlt := hfit q hne
    have hcount := h.counted q hq
    have hr := hrefs q
    show (((c.ref y).deref x).table.heap q).refCount = _
    -- with equal roots the counter goes up and down again, past the wrap if need be
    rw [refCount_deref _ x hne, refCount_ref c y hne, hcount]
    split_ifs at hr ⊢ <;> omega

theorem moveAssign (h : Tallied c) (hc : c.moveAssign i j = some c')
    (hfit : c'.ReferencesFit) : Tallied c' := by
  obtain ⟨x, hx, hc⟩ := Option.bind_eq_some_iff.mp hc
  obtain ⟨y, hy, hc⟩ := Option.bind_eq_some_iff.mp hc
  by_cases hij : i = j
  · rw [if_pos hij] at hc
    cases hc
    exact h
  rw [if_neg hij] at hc
  cases hc
  have hroot : ((c.deref x).setRoot i (some y)).root j = some y := by
    rw [root_setRoot_of_ne hij, root_deref, hy]
  have hrefs : ∀ q, q ≠ nullptr →
      (((c.deref x).setRoot i (some y)).setRoot j (some nullptr)).references q +
        (if q = x then 1 else 0) = c.references q := fun q hq => by
    have h₁ := references_setRoot hroot (some nullptr) q
    have h₂ := references_setRoot ((root_deref c x i).trans hx) (some y) q
    rw [references_deref] at h₂
    simp only [Option.some_inj, eq_comm (b := q), hq, if_false] at h₁ h₂
    omega
  refine h.recount (counted_deref c x) (fun q hne hpos => ?_) (fun q hq => ?_)
  · have := hrefs q hne
    exact h.mem q hne (by omega)
  · have hne := h.ne_null q hq
    have hlt := hfit q hne
    have hcount := h.counted q hq
    have hr := hrefs q hne
    show ((c.deref x).table.heap q).refCount = _
    rw [refCount_deref c x hne, hcount]
    split at hr
    · rw [if_pos (by assumption)]
      omega
    · rw [if_neg (by assumption)]
      omega

/-! ### Another table -/

/-- The tally of a table that has kept the live nodes, and has no references to the others. -/
theorem withTable (h : Tallied c) (hroots : State.SameRoots c.table s)
    (hnull : ∀ p ∈ s.stored, p ≠ nullptr)
    (hkept : ∀ p ∈ c.table.stored, c.table.Live p → p ∈ s.stored ∧ s.heap p = c.table.heap p)
    (hrest : ∀ p ∈ s.stored,
      (p ∈ c.table.stored ∧ c.table.Live p) ∨ (s.heap p).refCount = 0) :
    Tallied { c with table := s } := by
  have hrefs : ∀ q, ({ c with table := s } : Client).references q = c.references q := fun q => by
    show c.handles q + s.permanent q = _
    rw [hroots.permanent_eq]
    rfl
  refine ⟨hnull, fun q hne hpos => ?_, fun q hq => ?_⟩
  · rw [hrefs] at hpos
    obtain ⟨hq, hql⟩ := h.live_of_references hne hpos
    exact (hkept q hq hql).1
  · rw [hrefs]
    show (s.heap q).refCount = _
    rcases hrest q hq with ⟨hqs, hql⟩ | hzero
    · rw [(hkept q hqs hql).2]
      exact h.counted q hqs
    · by_contra hne
      rw [hzero] at hne
      obtain ⟨hqs, hql⟩ := h.live_of_references (hnull q hq) (Nat.pos_of_ne_zero (Ne.symm hne))
      rw [(hkept q hqs hql).2, h.counted q hqs] at hzero
      exact hne hzero.symm

/-- The operands of an operator are live. -/
theorem operands_live (h : Tallied c) (ho : c.operands op i j = some (x, y)) :
    State.Operands {p | p ∈ c.table.stored ∧ c.table.Live p} op x y := by
  obtain ⟨hx, hy⟩ := operands_eq_some ho
  obtain ⟨hx, hxn⟩ := node_eq_some.mp hx
  refine ⟨h.live_of_references hxn (references_pos hx), fun hn => ?_⟩
  rw [rightNode, if_neg hn] at hy
  obtain ⟨hy, hyn⟩ := node_eq_some.mp hy
  exact h.live_of_references hyn (references_pos hy)

end Tallied

namespace Exact

theorem tallied (h : Exact P n c) : Tallied c :=
  ⟨fun _ hp => h.wf.ne_null hp, h.mem, h.counted⟩

/-- What keeps the invariant if only counters and objects change. -/
theorem recount (h : Exact P n c) (hre : Counted c.table c'.table) (ht : Tallied c') :
    Exact P n c' where
  wf := hre.toRecounted.wellFormed h.wf
  unmarked := hre.toRecounted.unmarked h.unmarked
  nodeCount := by
    rw [hre.nodeCount, hre.toRecounted.stored_eq]
    exact h.nodeCount
  support p hp v hv := by
    rw [hre.toRecounted.stored_eq] at hp
    rw [h.wf.toRobdd.denote_eq hre.toRecounted.agrees hp]
    exact h.support p hp v hv
  mem := ht.mem
  counted := ht.counted

theorem root_mem (h : Exact P n c) (hi : c.root i = some p) (hp : p ≠ nullptr) :
    p ∈ c.table.stored := h.tallied.root_mem hi hp

theorem live_of_references (h : Exact P n c) (hp : p ≠ nullptr) (hpos : 0 < c.references p) :
    p ∈ c.table.stored ∧ c.table.Live p := h.tallied.live_of_references hp hpos

theorem live_false (h : Exact P n c) : c.table.Live c.table.falseNode :=
  h.tallied.live_false h.wf.false_mem

theorem live_true (h : Exact P n c) : c.table.Live c.table.trueNode :=
  h.tallied.live_true h.wf.true_mem

theorem operands_live (h : Exact P n c) (ho : c.operands op i j = some (x, y)) :
    State.Operands {p | p ∈ c.table.stored ∧ c.table.Live p} op x y := h.tallied.operands_live ho

/-! ### Operators -/

theorem answer_ignores (h : Exact P n c)
    (ho : State.Operands {p | p ∈ c.table.stored} op x y) {v : ℕ} (hv : n ≤ v) :
    (c.table.answer op x y).Ignores v := by
  rw [State.answer]
  split
  · next r hr => exact h.support r (State.terminal_sound h.wf.toRobdd ho hr).1 v hv
  · exact Operator.result_ignores (h.support x ho.left v hv)
      fun hn => h.support y (ho.right hn) v hv

/-- **The table after an operation that loses nothing.** -/
theorem operate (h : Exact P n c) (ho : c.operands op i j = some (x, y))
    (hn : State.NoLoss P c.table op x y) (hrun : c.table.bddOp P op fuel x y = some (r, s)) :
    Exact P n { c with table := s } ∧ r ∈ s.stored ∧ s.denote r = c.table.answer op x y ∧
      State.Preserved (c.table.answer op x y) c.table s := by
  have hlive := h.operands_live ho
  obtain ⟨hw, hr, hd, hp⟩ := (h.wf.preserved ⟨trivial, trivial⟩ h.unmarked h.live_false
    h.live_true hlive hn).2 fuel r s hrun
  have ht : Tallied { c with table := s } := h.tallied.withTable hp.roots
    (fun q hq => hw.ne_null hq)
    (fun q hq hl => ⟨(hp.live q hq hl).1, (hp.live q hq hl).2.1⟩) hp.rest
  refine ⟨⟨hw, hp.unmarked, hp.nodeCount h.nodeCount, fun q hq v hv => ?_, ht.mem, ht.counted⟩,
    hr, hd, hp⟩
  rcases hp.meaning q hq with hsub | ⟨q', hq', he⟩
  · refine Sub.ignores hsub (h.answer_ignores ?_ hv)
    exact ⟨hlive.left.1, fun hn => (hlive.right hn).1⟩
  · show (s.denote q).Ignores v
    rw [he]
    exact h.support q' hq' v hv

theorem apply (h : Exact P n c)
    (hn : ∀ x y, c.operands op i j = some (x, y) → State.NoLoss P c.table op x y)
    (hc : c.apply P fuel op i j = some c') (hfit : c'.ReferencesFit) : Exact P n c' := by
  obtain ⟨⟨x, y⟩, ho, hc⟩ := Option.bind_eq_some_iff.mp hc
  obtain ⟨⟨r, s⟩, hrun, hc⟩ := Option.bind_eq_some_iff.mp hc
  obtain ⟨hexact, hr, -, -⟩ := h.operate ho (hn x y ho) hrun
  have ht := hexact.tallied.construct hr hc hfit
  obtain ⟨-, rfl⟩ := construct_eq_some hc
  exact hexact.recount (counted_ref _ r) ht

/-! ### Collection -/

theorem gc (h : Exact P n c) (hc : c.gc fuel = some c') : Exact P n c' ∧
    State.Swept P c.table c'.table := by
  obtain ⟨s, hs, hc⟩ := Option.bind_eq_some_iff.mp hc
  cases hc
  obtain ⟨cache, hcache, -⟩ := h.wf.cache
  obtain ⟨hswept, -⟩ := h.wf.toStore.gcLocked_swept h.wf.closed h.unmarked hcache hs
  have hw := h.wf.swept hswept h.live_false h.live_true
  have ht : Tallied { c with table := s } := h.tallied.withTable hswept.roots
    (fun q hq => hw.ne_null hq)
    (fun q hq hl => by
      have hmem := (hswept.mem_iff q).mpr ⟨hq, hl⟩
      exact ⟨hmem, hswept.heap_eq q hmem⟩)
    fun q hq => Or.inl ((hswept.mem_iff q).mp hq)
  refine ⟨⟨hw, hswept.unmarked h.unmarked, hswept.nodeCount h.nodeCount, fun q hq v hv => ?_,
    ht.mem, ht.counted⟩, hswept⟩
  show (s.denote q).Ignores v
  rw [hswept.denote_eq hw.toRobdd hq]
  exact h.support q ((hswept.mem_iff q).mp hq).1 v hv

end Exact

/-! ### Runs -/

/-- The actions a program may take: `Bdd(Node *)` gets a node of the table, and an operator runs
under the condition `ok`. -/
def Admits (ok : State → Operator → Ptr → Ptr → Prop) (c : Client) : Action → Prop
  | .construct p => p ∈ c.table.stored
  | .apply op i j => ∀ x y, c.operands op i j = some (x, y) → ok c.table op x y
  | _ => True

/-- One action of a program, under a condition on the action and one on what it leaves. -/
def Acts (P : Platform) (admits : Client → Action → Prop) (fits : Client → Prop)
    (c c' : Client) : Prop :=
  ∃ a fuel, c.exec P fuel a = some c' ∧ admits c a ∧ fits c'

theorem apply_of_bddOp (ho : c.operands op i j = some (x, y))
    (hrun : c.table.bddOp P op fuel x y = some (r, s)) (hr : r ≠ nullptr) :
    c.apply P fuel op i j = some ((({ c with table := s } : Client).ref r).push r) := by
  simp only [apply, ho, hrun, Option.bind_eq_bind, Option.bind_some, construct, if_neg hr]

/-- **What an action does to the table.** Only operators and collections change more than
counters. -/
theorem exec_table (hc : c.exec P fuel a = some c') :
    Counted c.table c'.table ∨
      (∃ op i j x y r s, a = .apply op i j ∧ c.operands op i j = some (x, y) ∧
        c.table.bddOp P op fuel x y = some (r, s) ∧ c' = (({ c with table := s }).ref r).push r) ∨
      (a = .gc ∧ c.table.gc fuel = some c'.table) := by
  have hcon : ∀ {p : Ptr}, c.construct p = some c' → Counted c.table c'.table := fun {p} hc => by
    obtain ⟨-, rfl⟩ := construct_eq_some hc
    exact counted_ref c p
  cases a with
  | constructDefault => exact Or.inl (hcon hc)
  | construct p => exact Or.inl (hcon hc)
  | copyConstruct i =>
    obtain ⟨p, -, hc⟩ := Option.bind_eq_some_iff.mp hc
    cases hc
    exact Or.inl (counted_ref c p)
  | moveConstruct i =>
    obtain ⟨p, -, hc⟩ := Option.bind_eq_some_iff.mp hc
    cases hc
    exact Or.inl (Counted.refl _)
  | destroy i =>
    obtain ⟨p, -, hc⟩ := Option.bind_eq_some_iff.mp hc
    cases hc
    exact Or.inl (counted_deref c p)
  | copyAssign i j =>
    obtain ⟨x, -, hc⟩ := Option.bind_eq_some_iff.mp hc
    obtain ⟨y, -, hc⟩ := Option.bind_eq_some_iff.mp hc
    split at hc <;> cases hc
    · exact Or.inl (Counted.refl _)
    · exact Or.inl ((counted_ref c y).trans (counted_deref _ x))
  | moveAssign i j =>
    obtain ⟨x, -, hc⟩ := Option.bind_eq_some_iff.mp hc
    obtain ⟨y, -, hc⟩ := Option.bind_eq_some_iff.mp hc
    split at hc <;> cases hc
    · exact Or.inl (Counted.refl _)
    · exact Or.inl (counted_deref c x)
  | apply op i j =>
    obtain ⟨⟨x, y⟩, ho, hc⟩ := Option.bind_eq_some_iff.mp hc
    obtain ⟨⟨r, s⟩, hrun, hc⟩ := Option.bind_eq_some_iff.mp hc
    exact Or.inr (Or.inl ⟨op, i, j, x, y, r, s, rfl, ho, hrun, (construct_eq_some hc).2⟩)
  | getVar id =>
    obtain ⟨p, -, hc⟩ := Option.bind_eq_some_iff.mp hc
    exact Or.inl (hcon hc)
  | getNvar id =>
    obtain ⟨p, -, hc⟩ := Option.bind_eq_some_iff.mp hc
    exact Or.inl (hcon hc)
  | bddFalse => exact Or.inl (hcon hc)
  | bddTrue => exact Or.inl (hcon hc)
  | gc =>
    obtain ⟨s, hs, hc⟩ := Option.bind_eq_some_iff.mp hc
    cases hc
    exact Or.inr (Or.inr ⟨rfl, hs⟩)

/-- The actions on objects alone, which neither run an operator nor collect. -/
def OnObjects : Action → Prop
  | .apply .. => False
  | .gc => False
  | _ => True

/-- Only counters change. -/
theorem counted_of_onObjects (ha : OnObjects a) (hc : c.exec P fuel a = some c') :
    Counted c.table c'.table := by
  rcases exec_table hc with hre | ⟨op, i, j, x, y, r, s, rfl, -⟩ | ⟨rfl, -⟩
  · exact hre
  · exact ha.elim
  · exact ha.elim

/-- **The actions on objects keep the tally.** -/
theorem Tallied.exec (h : Tallied c) (hf : c.table.falseNode ∈ c.table.stored)
    (ht : c.table.trueNode ∈ c.table.stored) (ha : OnObjects a)
    (hnode : ∀ p, a = .construct p → p ∈ c.table.stored) (hc : c.exec P fuel a = some c')
    (hfit : c'.ReferencesFit) : Tallied c' := by
  have hvar : ∀ {p}, p ∈ c.table.vars ∨ p ∈ c.table.nvars → c.construct p = some c' →
      Tallied c' := fun {p} hp hc => by
    have hpos : 0 < c.references p :=
      Nat.add_pos_right _ (State.permanent_pos_iff.mpr (Or.inr (Or.inr hp)))
    exact h.construct (h.mem p (construct_eq_some hc).1 hpos) hc hfit
  cases a with
  | constructDefault => exact h.construct hf hc hfit
  | construct p => exact h.construct (hnode p rfl) hc hfit
  | copyConstruct i => exact h.copyConstruct hc hfit
  | moveConstruct i => exact h.moveConstruct hc
  | destroy i => exact h.destroy hc hfit
  | copyAssign i j => exact h.copyAssign hc hfit
  | moveAssign i j => exact h.moveAssign hc hfit
  | apply op i j => exact ha.elim
  | getVar id =>
    obtain ⟨p, hp, hc⟩ := Option.bind_eq_some_iff.mp hc
    exact hvar (Or.inl (List.mem_of_getElem? hp)) hc
  | getNvar id =>
    obtain ⟨p, hp, hc⟩ := Option.bind_eq_some_iff.mp hc
    exact hvar (Or.inr (List.mem_of_getElem? hp)) hc
  | bddFalse => exact h.construct hf hc hfit
  | bddTrue => exact h.construct ht hc hfit
  | gc => exact ha.elim

namespace Exact

/-- **Every action keeps the invariant.** -/
theorem exec (h : Exact P n c) (hc : c.exec P fuel a = some c')
    (ha : c.Admits (State.NoLoss P) a) (hfit : c'.ReferencesFit) : Exact P n c' := by
  by_cases ho : OnObjects a
  · refine h.recount (counted_of_onObjects ho hc)
      (h.tallied.exec h.wf.false_mem h.wf.true_mem ho (fun p hp => ?_) hc hfit)
    subst hp
    exact ha
  · cases a with
    | apply op i j => exact h.apply ha hc hfit
    | gc => exact (h.gc hc).1
    | _ => exact absurd trivial ho

/-- What a referenced node denotes stays the same during an action. -/
theorem exec_denote (h : Exact P n c) (hc : c.exec P fuel a = some c')
    (ha : c.Admits (State.NoLoss P) a) (hfit : c'.ReferencesFit) (hp : p ≠ nullptr)
    (hpos : 0 < c.references p) (hpos' : 0 < c'.references p) :
    c'.table.denote p = c.table.denote p := by
  obtain ⟨hs, hl⟩ := h.live_of_references hp hpos
  have h' := h.exec hc ha hfit
  rcases exec_table hc with hre | ⟨op, i, j, x, y, r, s, rfl, ho, hrun, rfl⟩ | ⟨rfl, -⟩
  · exact h.wf.toRobdd.denote_eq hre.toRecounted.agrees hs
  · obtain ⟨hexact, -, -, hpres⟩ := h.operate ho (ha x y ho) hrun
    have hmem : p ∈ s.stored := (hpres.live p hs hl).1
    have hre := counted_ref { c with table := s } r
    show ((({ c with table := s }).ref r).table).denote p = _
    rw [hexact.wf.toRobdd.denote_eq hre.toRecounted.agrees hmem]
    exact hpres.denote_eq p hs hl
  · exact (h.gc hc).2.denote_eq h'.wf.toRobdd (h'.mem p hp hpos')

end Exact

end Client

end Nanobdd
