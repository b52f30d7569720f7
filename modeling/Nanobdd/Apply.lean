import Nanobdd.CacheSound

/-!
# The invariant of the recursion

`Sound` says of a configuration what its locals and frames mean: there is a function `g` that the
running call is to return, and with it the frames add up to the function `h` of the whole
operator. `A` is a set of nodes that is sure to stay, in which all operands lie.

Every step keeps `Sound`, a step of maintenance as long as the collection spares `A`, the
terminals and the nodes that only the locals know. The other steps change the table in one way
only, which `Advance` records: they may add one node, for a sub-function of `h`.

## Main results

* `Sound.step` — the steps without maintenance
* `Sound.swept` — a collection
-/

namespace Nanobdd

open BoolFun

variable {D : Operator → Prop} {P : Platform} {A : Set Ptr} {s s' : State} {op : Operator}
  {x y p r : Ptr} {m v : ℕ} {f f' g g' h : BoolFun} {k : List Frame} {a b : Config}

theorem Operator.result_ignores (hf : f.Ignores v) (hg : op ≠ .not → g.Ignores v) :
    (op.result f g).Ignores v := by
  by_cases hop : op = .not
  · have hself : op.result f g = op.result f f :=
      Operator.result_congr rfl fun hn => absurd hop hn
    rw [hself]
    exact hf.map₂ _ hf
  · exact hf.map₂ _ (hg hop)

namespace State

/-! ### What a call is to compute -/

/-- The function the recursion computes where no terminal test answers. -/
def goal (s : State) (op : Operator) (x y : Ptr) : BoolFun := op.result (s.denote x) (s.denote y)

/-- The function of the node a call returns. -/
def answer (s : State) (op : Operator) (x y : Ptr) : BoolFun :=
  match s.terminal op x y with
  | some r => s.denote r
  | none => s.goal op x y

theorem answer_of_terminal (h : s.terminal op x y = some r) : s.answer op x y = s.denote r := by
  rw [answer, h]

theorem answer_of_none (h : s.terminal op x y = none) : s.answer op x y = s.goal op x y := by
  rw [answer, h]

theorem answer_eq_goal (hr : Robdd P s) (ho : Operands {p | p ∈ s.stored} op x y)
    (hne : op ≠ .imp) : s.answer op x y = s.goal op x y := by
  rw [answer]
  split
  · next ht =>
    rw [(terminal_sound hr ho ht).2, goal, Operator.result, Operator.computes_of_ne_imp hne]
  · rfl

/-- A set of stored nodes that has its children. -/
structure Anchored (A : Set Ptr) (s : State) : Prop where
  mem : ∀ p ∈ A, p ∈ s.stored
  closed : ∀ p ∈ A, ∀ q ∈ s.heap.children p, q ∈ A

theorem Operands.stored (ho : Operands A op x y) (hA : Anchored A s) :
    Operands {p | p ∈ s.stored} op x y :=
  ⟨hA.mem x ho.left, fun hn => hA.mem y (ho.right hn)⟩

/-- `m` is the level at which `op` expands its operands. -/
structure Expands (A : Set Ptr) (s : State) (op : Operator) (x y : Ptr) (m : ℕ) : Prop
    extends Operands A op x y where
  left_at : Robdd.ExpandsAt s m x
  right_at : op ≠ .not → Robdd.ExpandsAt s m y
  lt : m < uintMax - 1

theorem Robdd.ExpandsAt.le (h : Robdd.ExpandsAt s m x) : m ≤ (s.heap x).level := by
  rcases h with hlt | ⟨he, -⟩
  · exact hlt.le
  · exact he.le

theorem Robdd.denote_negCof (hr : Robdd P s) (hx : x ∈ s.stored) (he : ExpandsAt s m x) :
    s.denote (s.negCof x m) = cofactor m false (s.denote x) := by
  rw [hr.denote_cof hx he,
    cofactor_branch_false (hr.ignores_of_lt (hr.cof_mem hx he).1 (hr.lt_cof hx he).1)]

theorem Robdd.denote_posCof (hr : Robdd P s) (hx : x ∈ s.stored) (he : ExpandsAt s m x) :
    s.denote (s.posCof x m) = cofactor m true (s.denote x) := by
  rw [hr.denote_cof hx he,
    cofactor_branch_true (hr.ignores_of_lt (hr.cof_mem hx he).2 (hr.lt_cof hx he).2)]

theorem Anchored.cof_mem (hA : Anchored A s) (hr : Capped s) (hx : x ∈ A)
    (he : Robdd.ExpandsAt s m x) : s.negCof x m ∈ A ∧ s.posCof x m ∈ A := by
  rw [negCof, posCof]
  rcases he with hlt | ⟨rfl, hin⟩
  · rw [if_pos hlt, if_pos hlt]
    exact ⟨hx, hx⟩
  · rw [if_neg (lt_irrefl _), if_neg (lt_irrefl _)]
    exact ⟨hA.closed x hx _ (hr.low_children (hA.mem x hx) hin),
      hA.closed x hx _ (hr.high_children (hA.mem x hx) hin)⟩

theorem right_eq (hn : op ≠ .not) (y : Ptr) : op.right y = y := by
  cases op <;> first | rfl | exact absurd rfl hn

namespace Expands

/-- The two recursive calls work on the cofactors. -/
theorem operands (he : Expands A s op x y m) (hA : Anchored A s) (hr : Capped s) :
    Operands A op.child (s.negCof x m) (op.right (s.negCof y m)) ∧
      Operands A op.child (s.posCof x m) (op.right (s.posCof y m)) := by
  have hchild : op.child ≠ .not → op ≠ .not := fun hn hop => hn (Operator.child_eq_not_iff.mpr hop)
  have hleft := hA.cof_mem hr he.left he.left_at
  refine ⟨⟨hleft.1, fun hn => ?_⟩, ⟨hleft.2, fun hn => ?_⟩⟩
  · rw [right_eq (hchild hn)]
    exact (hA.cof_mem hr (he.right (hchild hn)) (he.right_at (hchild hn))).1
  · rw [right_eq (hchild hn)]
    exact (hA.cof_mem hr (he.right (hchild hn)) (he.right_at (hchild hn))).2

/-- The first recursive call works on the negative cofactor. -/
theorem low (he : Expands A s op x y m) (hA : Anchored A s) (hr : Robdd P s) :
    Operands A op.child (s.negCof x m) (op.right (s.negCof y m)) ∧
      s.goal op.child (s.negCof x m) (op.right (s.negCof y m)) =
        cofactor m false (s.goal op x y) := by
  refine ⟨(he.operands hA hr.capped).1, ?_⟩
  rw [goal, goal, Operator.result_child, Operator.cofactor_result]
  refine Operator.result_congr (hr.denote_negCof (hA.mem x he.left) he.left_at) fun hn => ?_
  rw [right_eq hn]
  exact hr.denote_negCof (hA.mem y (he.right hn)) (he.right_at hn)

/-- The second recursive call works on the positive cofactor. -/
theorem high (he : Expands A s op x y m) (hA : Anchored A s) (hr : Robdd P s) :
    Operands A op.child (s.posCof x m) (op.right (s.posCof y m)) ∧
      s.goal op.child (s.posCof x m) (op.right (s.posCof y m)) =
        cofactor m true (s.goal op x y) := by
  refine ⟨(he.operands hA hr.capped).2, ?_⟩
  rw [goal, goal, Operator.result_child, Operator.cofactor_result]
  refine Operator.result_congr (hr.denote_posCof (hA.mem x he.left) he.left_at) fun hn => ?_
  rw [right_eq hn]
  exact hr.denote_posCof (hA.mem y (he.right hn)) (he.right_at hn)

theorem ignores (he : Expands A s op x y m) (hA : Anchored A s) (hr : Robdd P s) (hv : v < m) :
    (s.goal op x y).Ignores v :=
  Operator.result_ignores
    (hr.ignores_of_lt (hA.mem x he.left) (lt_of_lt_of_le hv he.left_at.le))
    fun hn => hr.ignores_of_lt (hA.mem y (he.right hn)) (lt_of_lt_of_le hv (he.right_at hn).le)

theorem of_terminal (ho : Operands A op x y) (hA : Anchored A s) (hr : Capped s)
    (ht : s.terminal op x y = none) : Expands A s op x y (s.topLevel op x y) := by
  obtain ⟨hx, hy, hlt⟩ := expandsAt_topLevel hr (ho.stored hA) ht
  exact ⟨ho, hx, hy, hlt⟩

end Expands

/-- A node whose function ignores all variables up to `m` is above `m`. -/
theorem Robdd.lt_level (hr : Robdd P s) (hp : p ∈ s.stored) (hm : m < uintMax - 1)
    (hign : ∀ v ≤ m, (s.denote p).Ignores v) : m < (s.heap p).level := by
  by_contra hle
  by_cases hin : s.Inner p
  · exact (Diagram.isTop_denote hr.ordered hr.reduced hp (leaf_eq_none_iff.mpr hin)).2
      (hign _ (not_lt.mp hle))
  · rw [Inner, not_and_or, not_not, not_not] at hin
    rcases hin with rfl | rfl
    · rw [hr.false_node.1] at hle
      omega
    · rw [hr.true_node.1] at hle
      omega

/-! ### The meaning of the frames -/

/-- If the running call returns a node for `g`, the frames make of it a node for `h`. -/
inductive Pending (D : Operator → Prop) (A : Set Ptr) (s : State) :
    List Frame → BoolFun → BoolFun → Prop
  | nil (h : BoolFun) : Pending D A s [] h h
  | low {op : Operator} {x y : Ptr} {m : ℕ} {k : List Frame} {h : BoolFun} :
      D op.child → Expands A s op x y m → Pending D A s k (s.goal op x y) h →
      Pending D A s (.low op x y m :: k) (cofactor m false (s.goal op x y)) h
  | high {op : Operator} {x y : Ptr} {m : ℕ} {fLow : Ptr} {k : List Frame} {h : BoolFun} :
      D op.child → Expands A s op x y m → fLow ∈ s.stored →
      s.denote fLow = cofactor m false (s.goal op x y) → Pending D A s k (s.goal op x y) h →
      Pending D A s (.high op x y m fLow :: k) (cofactor m true (s.goal op x y)) h

/-- The running call has two different nodes for the cofactors of `g`. -/
structure Combines (D : Operator → Prop) (A : Set Ptr) (s : State) (op : Operator) (x y : Ptr)
    (m : ℕ) (fLow fHigh : Ptr) (g : BoolFun) : Prop where
  trusted : D op.child
  expands : Expands A s op x y m
  goal_eq : g = s.goal op x y
  low_mem : fLow ∈ s.stored
  low_eq : s.denote fLow = cofactor m false g
  high_mem : fHigh ∈ s.stored
  high_eq : s.denote fHigh = cofactor m true g
  low_ne_high : fLow ≠ fHigh

/-- The running call is to return a node for `g`. -/
def Expects (D : Operator → Prop) (A : Set Ptr) (s : State) (c : Control) (g : BoolFun) : Prop :=
  match c with
  | .call op x y => (D op ∧ D op.child) ∧ Operands A op x y ∧ g = s.answer op x y
  | .create op x y m fLow fHigh => Combines D A s op x y m fLow fHigh g
  | .maintain op x y m fLow fHigh => Combines D A s op x y m fLow fHigh g
  | .insert op x y res => Operands A op x y ∧ g = s.goal op x y ∧ res ∈ s.stored ∧
      s.denote res = g
  | .ret r => r ∈ s.stored ∧ s.denote r = g

/-- The configuration computes a node for `h`. -/
structure Sound (D : Operator → Prop) (P : Platform) (A : Set Ptr)
    (h : BoolFun) (c : Config) : Prop where
  wf : WellFormed D P c.state
  anchored : Anchored A c.state
  expects : ∃ g, Expects D A c.state c.control g ∧ Pending D A c.state c.stack g h

/-! ### Other states with the nodes in question -/

/-- The nodes of `T` are stored in `s'` with the keys and the meaning they have in `s`. -/
structure Carries (s s' : State) (T : Set Ptr) : Prop where
  roots : SameRoots s s'
  mem : ∀ p ∈ T, p ∈ s'.stored
  key : ∀ p ∈ T, (s'.heap p).SameKey (s.heap p)
  denote_eq : ∀ p ∈ T, s'.denote p = s.denote p

variable {T T' : Set Ptr}

theorem Carries.mono (hc : Carries s s' T) (hT : T' ⊆ T) : Carries s s' T' :=
  ⟨hc.roots, fun p hp => hc.mem p (hT hp), fun p hp => hc.key p (hT hp),
    fun p hp => hc.denote_eq p (hT hp)⟩

theorem Extends.carries (hx : Extends s s') (hr : Robdd P s) : Carries s s' {p | p ∈ s.stored} :=
  ⟨hx.roots, hx.mem, hx.agrees.key, fun _ hp => hr.denote_eq hx.agrees hp⟩

theorem Swept.carries (hs : Swept P s s') (hr : Robdd P s') : Carries s s' {p | p ∈ s'.stored} :=
  ⟨hs.roots, fun _ hp => hp, fun p hp => by rw [hs.heap_eq p hp]; exact ⟨rfl, rfl, rfl⟩,
    fun _ hp => hs.denote_eq hr hp⟩

theorem Heap.children_congr {h h' : Heap} (hk : (h' p).SameKey (h p)) :
    h'.children p = h.children p := by
  rw [Heap.children, Heap.children, hk.2.1, hk.2.2]

theorem Anchored.carry (hA : Anchored A s) (hc : Carries s s' A) : Anchored A s' :=
  ⟨hc.mem, fun p hp q hq => hA.closed p hp q (Heap.children_congr (hc.key p hp) ▸ hq)⟩

theorem goal_carry (ho : Operands A op x y) (hc : Carries s s' A) :
    s'.goal op x y = s.goal op x y :=
  Operator.result_congr (hc.denote_eq x ho.left) fun hn => hc.denote_eq y (ho.right hn)

theorem Expands.carry (he : Expands A s op x y m) (hc : Carries s s' A) :
    Expands A s' op x y m := by
  have hat : ∀ z ∈ A, Robdd.ExpandsAt s m z → Robdd.ExpandsAt s' m z := by
    intro z hz hat
    rw [Robdd.ExpandsAt, (hc.key z hz).1, Inner, hc.roots.falseNode, hc.roots.trueNode]
    exact hat
  exact ⟨he.toOperands, hat x he.left he.left_at, fun hn => hat y (he.right hn) (he.right_at hn),
    he.lt⟩

/-- The frames keep their meaning while their operands and the results they hold are there. -/
theorem Pending.carry (hp : Pending D A s k g h)
    (hc : Carries s s' (A ∪ {p | p ∈ k.flatMap Frame.held})) : Pending D A s' k g h := by
  induction hp with
  | nil h => exact Pending.nil h
  | low hop he _ ih =>
    have hcA := hc.mono Set.subset_union_left
    rw [← goal_carry he.toOperands hcA] at ih ⊢
    exact Pending.low hop (he.carry hcA) (ih hc)
  | @high op x y m fLow k h hop he _ hd _ ih =>
    have hcA := hc.mono Set.subset_union_left
    have hfLow : fLow ∈ A ∪ {p | p ∈ (Frame.high op x y m fLow :: k).flatMap Frame.held} :=
      Or.inr (by simp [Frame.held])
    have hrest : A ∪ {p | p ∈ k.flatMap Frame.held} ⊆
        A ∪ {p | p ∈ (Frame.high op x y m fLow :: k).flatMap Frame.held} :=
      Set.union_subset_union_right A fun p hp => List.mem_append_right [fLow] hp
    rw [← goal_carry he.toOperands hcA] at ih hd ⊢
    exact Pending.high hop (he.carry hcA) (hc.mem _ hfLow) ((hc.denote_eq _ hfLow).trans hd)
      (ih (hc.mono hrest))

theorem Pending.held_mem (hp : Pending D A s k g h) :
    ∀ p ∈ k.flatMap Frame.held, p ∈ s.stored := by
  induction hp with
  | nil => simp
  | low _ _ _ ih => exact ih
  | high _ _ hmem _ _ ih =>
    intro p hp
    rcases List.mem_cons.mp hp with rfl | hp
    · exact hmem
    · exact ih p hp

/-- What the running call computes is a part of the diagram of the whole. -/
theorem Pending.sub (hp : Pending D A s k g h) (hA : Anchored A s) (hr : Robdd P s) :
    Sub g h := by
  induction hp with
  | nil h => exact Sub.refl
  | low _ he _ ih => exact (sub_cofactor (fun _ hv => he.ignores hA hr hv) false).trans ih
  | high _ he _ _ _ ih => exact (sub_cofactor (fun _ hv => he.ignores hA hr hv) true).trans ih

/-! ### Finding or creating the node -/

theorem Robdd.inner_of_low_mem (hr : Robdd P s) (hp : (s.heap p).low ∈ s.stored) : s.Inner p := by
  have hne := hr.ne_null hp
  exact ⟨fun he => hne (he ▸ hr.false_node.2.1), fun he => hne (he ▸ hr.true_node.2.1)⟩

/-- The levels are right for a node over the two results. -/
theorem Combines.lt_level {fLow fHigh : Ptr} (hc : Combines D A s op x y m fLow fHigh g)
    (hA : Anchored A s) (hr : Robdd P s) :
    m < (s.heap fLow).level ∧ m < (s.heap fHigh).level := by
  have hign : ∀ b, ∀ v ≤ m, (cofactor m b g).Ignores v := by
    intro b v hv
    rcases Nat.lt_or_eq_of_le hv with hlt | rfl
    · exact (hc.goal_eq ▸ hc.expands.ignores hA hr hlt).cofactor m b
    · exact ignores_cofactor_self v b g
  exact ⟨hr.lt_level hc.low_mem hc.expands.lt fun v hv => hc.low_eq ▸ hign false v hv,
    hr.lt_level hc.high_mem hc.expands.lt fun v hv => hc.high_eq ▸ hign true v hv⟩

theorem Combines.carry {fLow fHigh : Ptr} (hc : Combines D A s op x y m fLow fHigh g)
    (hk : Carries s s' (A ∪ {fLow, fHigh})) : Combines D A s' op x y m fLow fHigh g := by
  have hkA := hk.mono Set.subset_union_left
  have hlow : fLow ∈ A ∪ {fLow, fHigh} := Or.inr (Or.inl rfl)
  have hhigh : fHigh ∈ A ∪ {fLow, fHigh} := Or.inr (Or.inr rfl)
  exact ⟨hc.trusted, hc.expands.carry hkA,
    hc.goal_eq.trans (goal_carry hc.expands.toOperands hkA).symm, hk.mem _ hlow,
    (hk.denote_eq _ hlow).trans hc.low_eq, hk.mem _ hhigh, (hk.denote_eq _ hhigh).trans hc.high_eq,
    hc.low_ne_high⟩

/-- A stored node over the two results denotes what the call is to compute. -/
theorem Combines.denote_eq {fLow fHigh : Ptr} (hc : Combines D A s op x y m fLow fHigh g)
    (hr : Robdd P s) (hp : p ∈ s.stored) (hl : (s.heap p).level = m) (hlow : (s.heap p).low = fLow)
    (hhigh : (s.heap p).high = fHigh) : s.denote p = g := by
  have hin : s.Inner p := hr.inner_of_low_mem (hlow ▸ hc.low_mem)
  rw [hr.denote_inner hp hin, hl, hlow, hhigh, hc.low_eq, hc.high_eq, branch_cofactor]

theorem WellFormed.extends_cache (hw : WellFormed D P s) (hx : Extends s s') (hr : Robdd P s')
    (hc : s'.cache = s.cache) : WellFormed D P s' := by
  obtain ⟨c, hcache, hsound⟩ := hw.cache
  exact ⟨hr, c, hc.trans hcache, fun i hi hn hop =>
    (hsound i hi hn hop).extends hw.toRobdd hx⟩

/-! ### The steps without maintenance -/

/-- What a step without maintenance does to the table: at most, it stores one new node, for a
part of the whole result, and the locals know it. A node outside a closed set that the locals
hold is not forgotten before one above it is held. -/
structure Advance (h : BoolFun) (a b : Config) : Prop where
  «extends» : Extends a.state b.state
  slots : b.state.freeSlots + b.state.stored.length = a.state.freeSlots + a.state.stored.length
  nextSlab : b.state.allocator.nextSlabCapacity = a.state.allocator.nextSlabCapacity
  nodeCount : a.state.nodeCount = a.state.stored.length →
    b.state.nodeCount = b.state.stored.length
  fresh : ∀ p ∈ b.state.stored, p ∉ a.state.stored → (b.state.heap p).refCount = 0 ∧
    (b.state.heap p).inUse = false ∧ b.state.denote p ∈ subs h ∧ p ∈ b.held
  dirty : ∀ T : Set Ptr, Anchored T a.state → (∃ p ∈ a.held, p ∉ T) → ∃ p ∈ b.held, p ∉ T

theorem Advance.of_sameTable (hs : SameTable a.state b.state)
    (hheld : ∀ p ∈ a.held, p ∈ b.held) : Advance h a b where
  «extends» := hs.extends
  slots := by rw [hs.freeSlots_eq, hs.stored_eq]
  nextSlab := by
    obtain ⟨c, t, he⟩ := hs
    rw [he]
  nodeCount hn := by
    rw [hs.stored_eq, ← hn]
    obtain ⟨c, t, he⟩ := hs
    rw [he]
  fresh p hp hnot := absurd (hs.stored_eq ▸ hp) hnot
  dirty _ _ hd := by
    obtain ⟨p, hp, hnot⟩ := hd
    exact ⟨p, hheld p hp, hnot⟩

theorem SameTable.refl (s : State) : SameTable s s := ⟨s.cache, s.clock, rfl⟩

/-- The step that finds or creates the node. -/
theorem Sound.create {fLow fHigh res : Ptr}
    (hs : Sound D P A h ⟨s, .create op x y m fLow fHigh, k⟩)
    (honce : s.getOrCreateOnce P m fLow fHigh = some (res, s')) :
    Advance h ⟨s, .create op x y m fLow fHigh, k⟩ ⟨s', .insert op x y res, k⟩ ∧
      Sound D P A h ⟨s', .insert op x y res, k⟩ := by
  obtain ⟨hw, hA, g, hg, hpend⟩ := hs
  have hc : Combines D A s op x y m fLow fHigh g := hg
  have hr := hw.toRobdd
  have hlow0 := hr.ne_null hc.low_mem
  have hhigh0 := hr.ne_null hc.high_mem
  rcases hr.toStore.getOrCreateOnce m fLow fHigh with
    ⟨p, hp, ⟨hl, hlo, hhi⟩, hsome⟩ | ⟨-, ⟨hfails, -⟩ | ⟨p, t, hcr, hsome⟩⟩
  · rw [honce, Option.some_inj] at hsome
    cases hsome
    refine ⟨⟨Extends.refl s, rfl, rfl, id, fun q hq hnot => absurd hq hnot, ?_⟩, hw, hA, g,
      ⟨hc.expands.toOperands, hc.goal_eq, hp, hc.denote_eq hr hp hl hlo hhi⟩, hpend⟩
    rintro T hT ⟨q, hq, hnot⟩
    simp only [Config.held, Control.held, List.mem_append, List.mem_cons, List.not_mem_nil,
      or_false] at hq ⊢
    rcases hq with hq | hq
    · -- a child outside the closed set, so the node is outside as well
      refine ⟨res, Or.inl rfl, fun hres => hnot ?_⟩
      refine hT.closed res hres q (Heap.mem_children.mpr ?_)
      rcases hq with rfl | rfl
      · exact ⟨Or.inl hlo.symm, hlow0⟩
      · exact ⟨Or.inr hhi.symm, hhigh0⟩
    · exact ⟨q, Or.inr hq, hnot⟩
  · rw [AllocFails, honce] at hfails
    exact absurd hfails (by simp)
  · rw [honce, Option.some_inj] at hsome
    cases hsome
    have hx := hcr.extends
    obtain ⟨hll, hlh⟩ := hc.lt_level hA hr
    have hr' : Robdd P s' := hr.created hcr hc.low_mem hc.high_mem hc.low_ne_high hll hlh
    have hcarry := hx.carries hr
    have hcA : Carries s s' A := hcarry.mono hA.mem
    have hc' : Combines D A s' op x y m fLow fHigh g := hc.carry <| hcarry.mono <|
      Set.union_subset hA.mem fun q hq => by
        rcases hq with rfl | rfl
        · exact hc.low_mem
        · exact hc.high_mem
    have hres : s'.denote res = g := hc'.denote_eq hr' hcr.mem (by rw [hcr.node])
      (by rw [hcr.node]) (by rw [hcr.node])
    have hpend' : Pending D A s' k g h :=
      hpend.carry (hcarry.mono (Set.union_subset hA.mem hpend.held_mem))
    refine ⟨⟨hx, ?_, hcr.nextSlab, fun hn => ?_, fun q hq hnot => ?_, ?_⟩,
      hw.extends_cache hx hr' hcr.cache, hA.carry hcA, g,
      ⟨hc'.expands.toOperands, hc'.goal_eq, hcr.mem, hres⟩, hpend'⟩
    · show s'.freeSlots + s'.stored.length = s.freeSlots + s.stored.length
      have hlen : s'.stored.length = s.stored.length + 1 := hcr.perm.length_eq
      have hslots : s'.freeSlots + 1 = s.freeSlots := hcr.slots
      omega
    · show s'.nodeCount = s'.stored.length
      rw [hcr.nodeCount, hcr.perm.length_eq, List.length_cons]
      exact congrArg (· + 1) hn
    · rcases List.mem_cons.mp (hcr.perm.mem_iff.mp hq) with rfl | hq
      · refine ⟨by rw [hcr.node], by rw [hcr.node], ?_, by simp [Config.held, Control.held]⟩
        rw [hres]
        exact hpend.sub hA hr
      · exact absurd hq hnot
    · rintro T hT ⟨q, hq, hnot⟩
      simp only [Config.held, Control.held, List.mem_append, List.mem_cons, List.not_mem_nil,
        or_false] at hq ⊢
      rcases hq with - | hq
      · exact ⟨res, Or.inl rfl, fun hres => hcr.fresh (hT.mem res hres)⟩
      · exact ⟨q, Or.inr hq, hnot⟩

/-- **The steps without maintenance.** -/
theorem Sound.step (hs : Sound D P A h a) (hst : Step P a b) (hm : ¬ a.Maintains) :
    Advance h a b ∧ Sound D P A h b := by
  cases hst with
  | terminal ht =>
    obtain ⟨hw, hA, g, ⟨hop, ho, hg⟩, hpend⟩ := hs
    have hmem := (terminal_sound hw.toRobdd (ho.stored hA) ht).1
    refine ⟨Advance.of_sameTable (SameTable.refl _) fun p hp => List.mem_cons_of_mem _ hp, hw, hA,
      g, ⟨hmem, ?_⟩, hpend⟩
    rw [hg, answer, ht]
  | hit ht hl hr =>
    obtain ⟨hw, hA, g, ⟨hop, ho, hg⟩, hpend⟩ := hs
    obtain ⟨r, hlookup, hsound⟩ := hw.cacheLookup hop.1 (ho.stored hA)
    rw [hlookup] at hl
    cases hl
    obtain ⟨hmem, hd⟩ := hsound hr
    refine ⟨Advance.of_sameTable (SameTable.refl _) fun p hp => List.mem_cons_of_mem _ hp, hw, hA,
      g, ⟨hmem, ?_⟩, hpend⟩
    rw [hg, answer, ht]
    exact hd
  | miss ht hl =>
    obtain ⟨hw, hA, g, ⟨hop, ho, hg⟩, hpend⟩ := hs
    obtain ⟨r, hlookup, -⟩ := hw.cacheLookup hop.1 (ho.stored hA)
    rw [hlookup] at hl
    cases hl
    have hr := hw.toRobdd
    have he := Expands.of_terminal ho hA hr.capped ht
    obtain ⟨ho', hgoal⟩ := he.low hA hr
    have hg' : g = _ := hg.trans (by rw [answer, ht])
    rw [hg'] at hpend
    refine ⟨Advance.of_sameTable (SameTable.refl _) fun p hp => hp, hw, hA, _,
      ⟨⟨hop.2, by rw [Operator.child_child]; exact hop.2⟩, ho', ?_⟩, Pending.low hop.2 he hpend⟩
    rw [answer_eq_goal hr (ho'.stored hA) (Operator.child_ne_imp _), hgoal]
  | second =>
    obtain ⟨hw, hA, g, ⟨hmem, hd⟩, hpend⟩ := hs
    cases hpend with
    | low hop he hpend =>
      have hr := hw.toRobdd
      obtain ⟨ho', hgoal⟩ := he.high hA hr
      refine ⟨Advance.of_sameTable (SameTable.refl _) fun p hp => hp, hw, hA, _,
        ⟨⟨hop, by rw [Operator.child_child]; exact hop⟩, ho', ?_⟩,
        Pending.high hop he hmem hd hpend⟩
      rw [answer_eq_goal hr (ho'.stored hA) (Operator.child_ne_imp _), hgoal]
  | @equal s op x y m r k =>
    obtain ⟨hw, hA, g, ⟨hmem, hd⟩, hpend⟩ := hs
    cases hpend with
    | high hop he _ hd' hpend =>
      refine ⟨Advance.of_sameTable (SameTable.refl _) fun p hp => ?_, hw, hA, _,
        ⟨he.toOperands, rfl, hmem, ?_⟩, hpend⟩
      · simpa [Config.held, Control.held, Frame.held] using hp
      · calc s.denote r = branch m (s.denote r) (s.denote r) := (branch_self m _).symm
          _ = branch m (cofactor m false (s.goal op x y)) (cofactor m true (s.goal op x y)) := by
            rw [← hd', ← hd]
          _ = s.goal op x y := branch_cofactor m _
  | differ hne =>
    obtain ⟨hw, hA, g, ⟨hmem, hd⟩, hpend⟩ := hs
    cases hpend with
    | high hop he hmem' hd' hpend =>
      refine ⟨Advance.of_sameTable (SameTable.refl _) fun p hp => ?_, hw, hA, _,
        (⟨hop, he, rfl, hmem', hd', hmem, hd, hne⟩ : Combines D A _ _ _ _ _ _ _ _), hpend⟩
      simp only [Config.held, Control.held, List.flatMap_cons, Frame.held, List.mem_append,
        List.mem_cons, List.not_mem_nil, or_false] at hp ⊢
      tauto
  | create honce => exact hs.create honce
  | exhaust _ =>
    obtain ⟨hw, hA, g, hg, hpend⟩ := hs
    exact ⟨Advance.of_sameTable (SameTable.refl _) fun p hp => hp, hw, hA, g, hg, hpend⟩
  | maintain fuel hpm => exact absurd trivial hm
  | insert hi =>
    obtain ⟨hw, hA, g, ⟨ho, hg, hmem, hd⟩, hpend⟩ := hs
    obtain ⟨s', hs', hsame, hw'⟩ := hw.cacheInsert (ho.stored hA) hmem (hd.trans hg)
    rw [hi, Option.some_inj] at hs'
    cases hs'
    have hr := hw.toRobdd
    have hcarry := hsame.extends.carries hr
    refine ⟨Advance.of_sameTable hsame fun p hp => hp, hw', hA.carry (hcarry.mono hA.mem), g,
      ⟨hsame.extends.mem _ hmem, ?_⟩,
      hpend.carry (hcarry.mono (Set.union_subset hA.mem hpend.held_mem))⟩
    rw [hsame.denote_eq]
    exact hd

/-! ### Collections -/

theorem terminal_congr (hr : SameRoots s s') (op : Operator) (x y : Ptr) :
    s'.terminal op x y = s.terminal op x y := by
  cases op <;> simp [terminal, andTerminal, orTerminal, notTerminal, xorTerminal,
    diffTerminal, impTerminal, isFalse, isTrue, hr.falseNode, hr.trueNode]

theorem answer_carry (hr : Robdd P s) (hr' : Robdd P s') (hA : Anchored A s)
    (ho : Operands A op x y) (hc : Carries s s' A) : s'.answer op x y = s.answer op x y := by
  have hA' := hA.carry hc
  by_cases hop : op = .imp
  · subst hop
    cases ht : s.terminal .imp x y with
    | none =>
      rw [answer_of_none ht, answer_of_none ((terminal_congr hc.roots _ x y).trans ht)]
      exact goal_carry ho hc
    | some r =>
      have ht' := (terminal_congr hc.roots _ x y).trans ht
      rw [answer_of_terminal ht, answer_of_terminal ht',
        (terminal_sound hr (ho.stored hA) ht).2, (terminal_sound hr' (ho.stored hA') ht').2,
        hc.denote_eq x ho.left, hc.denote_eq y (ho.right (by decide))]
  · rw [answer_eq_goal hr (ho.stored hA) hop, answer_eq_goal hr' (ho.stored hA') hop]
    exact goal_carry ho hc

/-- The running call keeps its meaning while its operands and its locals are there. -/
theorem Expects.carry {control : Control} (hr : Robdd P s) (hr' : Robdd P s') (hA : Anchored A s)
    (he : Expects D A s control g) (hc : Carries s s' (A ∪ {p | p ∈ control.held})) :
    Expects D A s' control g := by
  have hcA := hc.mono Set.subset_union_left
  cases control with
  | call op x y =>
    obtain ⟨hop, ho, hg⟩ := he
    exact ⟨hop, ho, hg.trans (answer_carry hr hr' hA ho hcA).symm⟩
  | create op x y m fLow fHigh =>
    exact Combines.carry he (hc.mono (Set.union_subset_union_right A fun p hp => by
      simpa [Control.held] using hp))
  | maintain op x y m fLow fHigh =>
    exact Combines.carry he (hc.mono (Set.union_subset_union_right A fun p hp => by
      simpa [Control.held] using hp))
  | insert op x y res =>
    obtain ⟨ho, hg, hmem, hd⟩ := he
    have hres : res ∈ A ∪ {p | p ∈ (Control.insert op x y res).held} :=
      Or.inr (by simp [Control.held])
    exact ⟨ho, hg.trans (goal_carry ho hcA).symm, hc.mem _ hres, (hc.denote_eq _ hres).trans hd⟩
  | ret r =>
    have hr : r ∈ A ∪ {p | p ∈ (Control.ret r).held} := Or.inr (by simp [Control.held])
    exact ⟨hc.mem _ hr, (hc.denote_eq _ hr).trans he.2⟩

theorem Expects.held_mem {control : Control} (he : Expects D A s control g) :
    ∀ p ∈ control.held, p ∈ s.stored := by
  intro p hp
  cases control with
  | call op x y => simp [Control.held] at hp
  | create op x y m fLow fHigh =>
    have hc : Combines D A s op x y m fLow fHigh g := he
    rcases List.mem_pair.mp hp with rfl | rfl
    · exact hc.low_mem
    · exact hc.high_mem
  | maintain op x y m fLow fHigh =>
    have hc : Combines D A s op x y m fLow fHigh g := he
    rcases List.mem_pair.mp hp with rfl | rfl
    · exact hc.low_mem
    · exact hc.high_mem
  | insert op x y res => exact List.mem_singleton.mp hp ▸ he.2.2.1
  | ret r => exact List.mem_singleton.mp hp ▸ he.1

/-- **A collection**, if it spares the anchored nodes, the terminals and what only the locals
hold. -/
theorem Sound.swept {control : Control} (hs : Sound D P A h ⟨s, control, k⟩)
    (hswept : Swept P s s') (hf : s.Live s.falseNode) (ht : s.Live s.trueNode)
    (hlive : ∀ p ∈ A, s.Live p) (hheld : ∀ p ∈ Config.held ⟨s, control, k⟩, s.Live p) :
    Sound D P A h ⟨s', control, k⟩ := by
  obtain ⟨hw, hA, g, hg, hpend⟩ := hs
  have hr := hw.toRobdd
  have hr' := hr.swept hswept hf ht
  have hcarry := hswept.carries hr'
  have hkept : ∀ p ∈ s.stored, s.Live p → p ∈ s'.stored := fun p hp hl =>
    (hswept.mem_iff p).mpr ⟨hp, hl⟩
  have hkeptA : A ⊆ {p | p ∈ s'.stored} := fun p hp => hkept p (hA.mem p hp) (hlive p hp)
  obtain ⟨c, -, hcache⟩ := hswept.cache
  refine ⟨⟨hr', c.invalidateAll, hcache, fun i _ hn => absurd rfl hn⟩,
    hA.carry (hcarry.mono hkeptA), g,
    hg.carry hr hr' hA (hcarry.mono (Set.union_subset hkeptA fun q hq => ?_)),
    hpend.carry (hcarry.mono (Set.union_subset hkeptA fun q hq => ?_))⟩
  · exact hkept q (hg.held_mem q hq) (hheld q (List.mem_append_left _ hq))
  · exact hkept q (hpend.held_mem q hq) (hheld q (List.mem_append_right _ hq))

end State

end Nanobdd
