import Nanobdd.Collect
import Nanobdd.Operators
import Nanobdd.Lib.Diagram

/-!
# The table as a reduced ordered diagram

The stored nodes are a `Diagram`, and `Robdd` says that they form a reduced ordered one, with the
two terminals as its leaves. Two stored nodes then denote the same function only if they are the
same node.

## Main results

* `Robdd.canonical` — **canonicity**: equal functions, equal pointers
* `Robdd.denote_cof` — a node is the branch of the two cofactors the operators recurse into
* `Robdd.extended`, `Robdd.swept` — a new node over stored children, and a collection, keep the
  invariant
-/

namespace Nanobdd

open BoolFun

variable {P : Platform} {s s' : State} {p q x : Ptr} {level m : ℕ} {low high : Ptr}

/-- One more than the largest level: levels are `uint32_t`. -/
abbrev levelTop : ℕ := 2 ^ 32

namespace Operator

/-- The connective an operator stands for. -/
def connective : Operator → Bool → Bool → Bool
  | and => fun a b => a && b
  | or => fun a b => a || b
  | not => fun a _ => !a
  | xor => fun a b => a ^^ b
  | diff => fun a b => a && !b
  | imp => fun a b => !a || b

end Operator

namespace State

/-- The nodes as a diagram. -/
def diagram (s : State) : Diagram Ptr where
  leaf p := if p = s.falseNode then some false else if p = s.trueNode then some true else none
  level p := (s.heap p).level
  low p := (s.heap p).low
  high p := (s.heap p).high

/-- The Boolean function of a node. -/
def denote (s : State) (p : Ptr) : BoolFun := s.diagram.denote levelTop p

/-- A node that is not a terminal. -/
def Inner (s : State) (p : Ptr) : Prop := p ≠ s.falseNode ∧ p ≠ s.trueNode

/-- The stored nodes form a reduced ordered diagram. -/
structure Robdd (P : Platform) (s : State) : Prop extends Store P s where
  false_mem : s.falseNode ∈ s.stored
  true_mem : s.trueNode ∈ s.stored
  false_node : (s.heap s.falseNode).level = uintMax ∧ (s.heap s.falseNode).low = nullptr ∧
    (s.heap s.falseNode).high = nullptr
  true_node : (s.heap s.trueNode).level = uintMax - 1 ∧ (s.heap s.trueNode).low = nullptr ∧
    (s.heap s.trueNode).high = nullptr
  low_mem : ∀ p ∈ s.stored, s.Inner p → (s.heap p).low ∈ s.stored
  high_mem : ∀ p ∈ s.stored, s.Inner p → (s.heap p).high ∈ s.stored
  low_ne_high : ∀ p ∈ s.stored, s.Inner p → (s.heap p).low ≠ (s.heap p).high
  lt_low : ∀ p ∈ s.stored, s.Inner p → (s.heap p).level < (s.heap (s.heap p).low).level
  lt_high : ∀ p ∈ s.stored, s.Inner p → (s.heap p).level < (s.heap (s.heap p).high).level
  level_lt : ∀ p ∈ s.stored, (s.heap p).level < levelTop

/-- The terminals lie above the inner nodes, and these have two children. Nothing is said about
the levels of a node and its children. -/
structure Capped (s : State) : Prop where
  false_level : (s.heap s.falseNode).level = uintMax
  true_level : (s.heap s.trueNode).level = uintMax - 1
  inner_lt : ∀ p ∈ s.stored, s.Inner p → (s.heap p).level < uintMax - 1
  low_ne_null : ∀ p ∈ s.stored, s.Inner p → (s.heap p).low ≠ nullptr
  high_ne_null : ∀ p ∈ s.stored, s.Inner p → (s.heap p).high ≠ nullptr

theorem leaf_eq_none_iff : s.diagram.leaf p = none ↔ s.Inner p := by
  simp only [diagram, Inner]
  split
  · simp [*]
  · split <;> simp [*]

theorem eq_of_leaf {b : Bool} (hb : s.diagram.leaf p = some b) :
    p = if b then s.trueNode else s.falseNode := by
  simp only [diagram] at hb
  split at hb
  · cases hb
    assumption
  · split at hb
    · cases hb
      assumption
    · simp at hb

theorem Store.ne_null (h : Store P s) (hp : p ∈ s.stored) : p ≠ nullptr := by
  obtain ⟨fl, hfl⟩ := h.alloc
  exact hfl.used_pos p hp

theorem Capped.low_children (h : Capped s) (hp : p ∈ s.stored) (hin : s.Inner p) :
    (s.heap p).low ∈ s.heap.children p :=
  Heap.mem_children.mpr ⟨Or.inl rfl, h.low_ne_null p hp hin⟩

theorem Capped.high_children (h : Capped s) (hp : p ∈ s.stored) (hin : s.Inner p) :
    (s.heap p).high ∈ s.heap.children p :=
  Heap.mem_children.mpr ⟨Or.inr rfl, h.high_ne_null p hp hin⟩

namespace Robdd

/-! ### Levels and leaves -/

theorem false_ne_true (h : Robdd P s) : s.falseNode ≠ s.trueNode := fun he => by
  have hf := h.false_node.1
  rw [he, h.true_node.1] at hf
  exact absurd hf (by decide)

theorem ordered (h : Robdd P s) : s.diagram.Ordered {p | p ∈ s.stored} levelTop where
  level_lt := h.level_lt
  low_mem p hp hleaf := h.low_mem p hp (leaf_eq_none_iff.mp hleaf)
  high_mem p hp hleaf := h.high_mem p hp (leaf_eq_none_iff.mp hleaf)
  lt_low p hp hleaf := h.lt_low p hp (leaf_eq_none_iff.mp hleaf)
  lt_high p hp hleaf := h.lt_high p hp (leaf_eq_none_iff.mp hleaf)

theorem reduced (h : Robdd P s) : s.diagram.Reduced {p | p ∈ s.stored} where
  low_ne_high p hp hleaf := h.low_ne_high p hp (leaf_eq_none_iff.mp hleaf)
  inner_unique p hp q hq _ _ hlevel hlow hhigh := h.hashed.unique p hp q hq ⟨hlevel, hlow, hhigh⟩
  leaf_unique _ _ _ _ _ hb hb' := (eq_of_leaf hb).trans (eq_of_leaf hb').symm

/-- **Canonicity.** -/
theorem canonical (h : Robdd P s) (hp : p ∈ s.stored) (hq : q ∈ s.stored) :
    s.denote p = s.denote q ↔ p = q :=
  ⟨fun he => Diagram.denote_injOn h.ordered h.reduced hp hq he, fun he => he ▸ rfl⟩

theorem denote_false (h : Robdd P s) : s.denote s.falseNode = fun _ => false :=
  h.ordered.denote_leaf h.false_mem (if_pos rfl)

theorem denote_true (h : Robdd P s) : s.denote s.trueNode = fun _ => true :=
  h.ordered.denote_leaf h.true_mem ((if_neg h.false_ne_true.symm).trans (if_pos rfl))

theorem denote_inner (h : Robdd P s) (hp : p ∈ s.stored) (hin : s.Inner p) : s.denote p =
    branch (s.heap p).level (s.denote (s.heap p).low) (s.denote (s.heap p).high) :=
  h.ordered.denote_node hp (leaf_eq_none_iff.mpr hin)

theorem ignores_of_lt (h : Robdd P s) (hp : p ∈ s.stored) {v : ℕ} (hv : v < (s.heap p).level) :
    (s.denote p).Ignores v :=
  h.ordered.ignores_of_lt hp hv

/-- An inner node is below the true node: one of its two children is not the false node. -/
theorem inner_level_lt (h : Robdd P s) (hp : p ∈ s.stored) (hin : s.Inner p) :
    (s.heap p).level < uintMax - 1 := by
  -- the induction is on the room left above the level
  suffices haux : ∀ n p, p ∈ s.stored → s.Inner p → levelTop ≤ (s.heap p).level + n →
      (s.heap p).level < uintMax - 1 from haux levelTop p hp hin (by omega)
  intro n
  induction n with
  | zero =>
    intro p hp _ hn
    have := h.level_lt p hp
    omega
  | succ n ih =>
    intro p hp hin hn
    have hlow := h.lt_low p hp hin
    have hhigh := h.lt_high p hp hin
    have hbound : ∀ c ∈ s.stored, c ≠ s.falseNode → levelTop ≤ (s.heap c).level + n →
        (s.heap c).level ≤ uintMax - 1 := by
      intro c hc hcf hcn
      by_cases hct : c = s.trueNode
      · rw [hct, h.true_node.1]
      · exact (ih c hc ⟨hcf, hct⟩ hcn).le
    by_cases hl : (s.heap p).low = s.falseNode
    · have hne : (s.heap p).high ≠ s.falseNode :=
        fun he => h.low_ne_high p hp hin (hl.trans he.symm)
      have := hbound _ (h.high_mem p hp hin) hne (by omega)
      omega
    · have := hbound _ (h.low_mem p hp hin) hl (by omega)
      omega

theorem capped (h : Robdd P s) : Capped s where
  false_level := h.false_node.1
  true_level := h.true_node.1
  inner_lt _ hp hin := h.inner_level_lt hp hin
  low_ne_null p hp hin := h.ne_null (h.low_mem p hp hin)
  high_ne_null p hp hin := h.ne_null (h.high_mem p hp hin)

theorem closed (h : Robdd P s) : s.Closed := by
  intro p hp q hq
  obtain ⟨hpq, hq0⟩ := Heap.mem_children.mp hq
  by_cases hpf : p = s.falseNode
  · rw [hpf, h.false_node.2.1, h.false_node.2.2, or_self] at hpq
    exact absurd hpq hq0
  by_cases hpt : p = s.trueNode
  · rw [hpt, h.true_node.2.1, h.true_node.2.2, or_self] at hpq
    exact absurd hpq hq0
  rcases hpq with rfl | rfl
  · exact h.low_mem p hp ⟨hpf, hpt⟩
  · exact h.high_mem p hp ⟨hpf, hpt⟩

theorem low_children (h : Robdd P s) (hp : p ∈ s.stored) (hin : s.Inner p) :
    (s.heap p).low ∈ s.heap.children p := h.capped.low_children hp hin

theorem high_children (h : Robdd P s) (hp : p ∈ s.stored) (hin : s.Inner p) :
    (s.heap p).high ∈ s.heap.children p := h.capped.high_children hp hin

/-! ### Cofactors -/

/-- `m` is a level at which the operators may expand `x`. -/
def ExpandsAt (s : State) (m : ℕ) (x : Ptr) : Prop :=
  m < (s.heap x).level ∨ (m = (s.heap x).level ∧ s.Inner x)

theorem cof_mem (h : Robdd P s) (hx : x ∈ s.stored) (hm : ExpandsAt s m x) :
    s.negCof x m ∈ s.stored ∧ s.posCof x m ∈ s.stored := by
  rw [negCof, posCof]
  rcases hm with hlt | ⟨rfl, hin⟩
  · rw [if_pos hlt, if_pos hlt]
    exact ⟨hx, hx⟩
  · rw [if_neg (lt_irrefl _), if_neg (lt_irrefl _)]
    exact ⟨h.low_mem x hx hin, h.high_mem x hx hin⟩

theorem lt_cof (h : Robdd P s) (hx : x ∈ s.stored) (hm : ExpandsAt s m x) :
    m < (s.heap (s.negCof x m)).level ∧ m < (s.heap (s.posCof x m)).level := by
  rw [negCof, posCof]
  rcases hm with hlt | ⟨rfl, hin⟩
  · rw [if_pos hlt, if_pos hlt]
    exact ⟨hlt, hlt⟩
  · rw [if_neg (lt_irrefl _), if_neg (lt_irrefl _)]
    exact ⟨h.lt_low x hx hin, h.lt_high x hx hin⟩

/-- **The recursion follows Shannon's expansion.** -/
theorem denote_cof (h : Robdd P s) (hx : x ∈ s.stored) (hm : ExpandsAt s m x) :
    s.denote x = branch m (s.denote (s.negCof x m)) (s.denote (s.posCof x m)) := by
  rw [negCof, posCof]
  rcases hm with hlt | ⟨rfl, hin⟩
  · rw [if_pos hlt, if_pos hlt, branch_self]
  · rw [if_neg (lt_irrefl _), if_neg (lt_irrefl _)]
    exact h.denote_inner hx hin

end Robdd

/-! ### Other states with the same nodes -/

/-- The nodes of `s` are in `s'` with the same keys, and the terminals are the same. -/
structure Agrees (s s' : State) : Prop where
  falseNode : s'.falseNode = s.falseNode
  trueNode : s'.trueNode = s.trueNode
  key : ∀ p ∈ s.stored, (s'.heap p).SameKey (s.heap p)

theorem Agrees.inner_iff (h : Agrees s s') : s'.Inner p ↔ s.Inner p := by
  rw [Inner, Inner, h.falseNode, h.trueNode]

/-- **Meaning is stable.** A node denotes the same function in every state that agrees. -/
theorem Robdd.denote_eq (h : Robdd P s) (ha : Agrees s s') (hp : p ∈ s.stored) :
    s'.denote p = s.denote p := by
  refine h.ordered.eval_congr (fun p _ => ?_) (fun p hp => (ha.key p hp).1)
    (fun p hp => (ha.key p hp).2.1) (fun p hp => (ha.key p hp).2.2) levelTop hp
  simp only [diagram, ha.falseNode, ha.trueNode]

/-- `s'` has all nodes of `s`, unchanged. -/
structure Extends (s s' : State) : Prop where
  roots : SameRoots s s'
  mem : ∀ p ∈ s.stored, p ∈ s'.stored
  heap_eq : ∀ p ∈ s.stored, s'.heap p = s.heap p

theorem Extends.refl (s : State) : Extends s s :=
  ⟨SameRoots.refl s, fun _ hp => hp, fun _ _ => rfl⟩

theorem Extends.trans {s'' : State} (h : Extends s s') (h' : Extends s' s'') : Extends s s'' :=
  ⟨h.roots.trans h'.roots, fun p hp => h'.mem p (h.mem p hp),
    fun p hp => (h'.heap_eq p (h.mem p hp)).trans (h.heap_eq p hp)⟩

theorem Extends.agrees (h : Extends s s') : Agrees s s' :=
  ⟨h.roots.falseNode, h.roots.trueNode, fun p hp => by
    rw [h.heap_eq p hp]
    exact ⟨rfl, rfl, rfl⟩⟩

/-- Live nodes stay live: the path to a root runs through stored nodes. -/
theorem Extends.live (h : Extends s s') (hclosed : s.Closed) (hp : s.Live p) : s'.Live p := by
  obtain ⟨r, hr, hreach⟩ := hp
  obtain ⟨hrs, hcount⟩ := mem_roots.mp hr
  have hpath : ∀ q, Marking.Reach s.heap.children r q →
      q ∈ s.stored ∧ Marking.Reach s'.heap.children r q := by
    intro q hq
    induction hq with
    | refl => exact ⟨hrs, Relation.ReflTransGen.refl⟩
    | tail _ hc ih =>
      refine ⟨hclosed _ ih.1 _ hc, ih.2.tail ?_⟩
      rw [Heap.children, h.heap_eq _ ih.1]
      exact hc
  refine ⟨r, mem_roots.mpr ⟨h.mem r hrs, ?_⟩, (hpath p hreach).2⟩
  rw [h.heap_eq r hrs]
  exact hcount

theorem Created.extends (h : Created P s s' p level low high) : Extends s s' :=
  ⟨h.roots, fun _ hq => h.mem_of_mem hq, fun _ hq => h.heap_eq hq⟩

/-- **New nodes over two different stored nodes of greater levels.** -/
theorem Robdd.extended (h : Robdd P s) (hs : Store P s') (hx : Extends s s')
    (hnew : ∀ q ∈ s'.stored, q ∉ s.stored →
      s'.heap q = { level := level, low := low, high := high } ∧ low ∈ s.stored ∧
        high ∈ s.stored ∧ low ≠ high ∧ level < (s.heap low).level ∧
          level < (s.heap high).level) : Robdd P s' := by
  have hroots := hx.roots
  have hold : ∀ q ∈ s.stored, s'.heap q = s.heap q := hx.heap_eq
  have hin : ∀ q, s'.Inner q → s.Inner q := fun q => hx.agrees.inner_iff.mp
  constructor
  · exact hs
  · rw [hroots.falseNode]
    exact hx.mem _ h.false_mem
  · rw [hroots.trueNode]
    exact hx.mem _ h.true_mem
  · rw [hroots.falseNode, hold _ h.false_mem]
    exact h.false_node
  · rw [hroots.trueNode, hold _ h.true_mem]
    exact h.true_node
  · intro q hq hqi
    by_cases hqs : q ∈ s.stored
    · rw [hold q hqs]
      exact hx.mem _ (h.low_mem q hqs (hin q hqi))
    · obtain ⟨hnode, hlow, -⟩ := hnew q hq hqs
      rw [hnode]
      exact hx.mem _ hlow
  · intro q hq hqi
    by_cases hqs : q ∈ s.stored
    · rw [hold q hqs]
      exact hx.mem _ (h.high_mem q hqs (hin q hqi))
    · obtain ⟨hnode, -, hhigh, -⟩ := hnew q hq hqs
      rw [hnode]
      exact hx.mem _ hhigh
  · intro q hq hqi
    by_cases hqs : q ∈ s.stored
    · rw [hold q hqs]
      exact h.low_ne_high q hqs (hin q hqi)
    · obtain ⟨hnode, -, -, hne, -⟩ := hnew q hq hqs
      rw [hnode]
      exact hne
  · intro q hq hqi
    by_cases hqs : q ∈ s.stored
    · rw [hold q hqs, hold _ (h.low_mem q hqs (hin q hqi))]
      exact h.lt_low q hqs (hin q hqi)
    · obtain ⟨hnode, hlow, -, -, hll, -⟩ := hnew q hq hqs
      rw [hnode]
      show level < (s'.heap low).level
      rwa [hold low hlow]
  · intro q hq hqi
    by_cases hqs : q ∈ s.stored
    · rw [hold q hqs, hold _ (h.high_mem q hqs (hin q hqi))]
      exact h.lt_high q hqs (hin q hqi)
    · obtain ⟨hnode, -, hhigh, -, -, hlh⟩ := hnew q hq hqs
      rw [hnode]
      show level < (s'.heap high).level
      rwa [hold high hhigh]
  · intro q hq
    by_cases hqs : q ∈ s.stored
    · rw [hold q hqs]
      exact h.level_lt q hqs
    · obtain ⟨hnode, hlow, -, -, hll, -⟩ := hnew q hq hqs
      rw [hnode]
      exact lt_trans hll (h.level_lt low hlow)

theorem Robdd.created (h : Robdd P s) (hc : Created P s s' p level low high)
    (hlow : low ∈ s.stored) (hhigh : high ∈ s.stored) (hne : low ≠ high)
    (hll : level < (s.heap low).level) (hlh : level < (s.heap high).level) : Robdd P s' := by
  have hnew : ∀ q ∈ s'.stored, q ∉ s.stored → q = p := fun q hq hqs =>
    (List.mem_cons.mp (hc.perm.mem_iff.mp hq)).resolve_right hqs
  exact h.extended hc.store hc.extends fun q hq hqs =>
    ⟨hnew q hq hqs ▸ hc.node, hlow, hhigh, hne, hll, hlh⟩

/-- A state with the nodes of a set closed under children that holds the terminals. -/
theorem Robdd.restrict (h : Robdd P s) (hstore : Store P s') (ha : Agrees s' s)
    (hsub : ∀ p ∈ s'.stored, p ∈ s.stored) (hf : s.falseNode ∈ s'.stored)
    (ht : s.trueNode ∈ s'.stored)
    (hclosed : ∀ p ∈ s'.stored, ∀ q ∈ s.heap.children p, q ∈ s'.stored) : Robdd P s' := by
  have hkey := ha.key
  have hin : ∀ q, s'.Inner q → s.Inner q := fun q => ha.inner_iff.mpr
  have hlow : ∀ p ∈ s'.stored, s'.Inner p → (s.heap p).low ∈ s'.stored := fun p hp hi =>
    hclosed p hp _ (h.low_children (hsub p hp) (hin p hi))
  have hhigh : ∀ p ∈ s'.stored, s'.Inner p → (s.heap p).high ∈ s'.stored := fun p hp hi =>
    hclosed p hp _ (h.high_children (hsub p hp) (hin p hi))
  constructor
  · exact hstore
  · rwa [← ha.falseNode]
  · rwa [← ha.trueNode]
  · rw [← ha.falseNode, ← (hkey _ hf).1, ← (hkey _ hf).2.1, ← (hkey _ hf).2.2]
    exact h.false_node
  · rw [← ha.trueNode, ← (hkey _ ht).1, ← (hkey _ ht).2.1, ← (hkey _ ht).2.2]
    exact h.true_node
  · intro p hp hi
    rw [← (hkey p hp).2.1]
    exact hlow p hp hi
  · intro p hp hi
    rw [← (hkey p hp).2.2]
    exact hhigh p hp hi
  · intro p hp hi
    rw [← (hkey p hp).2.1, ← (hkey p hp).2.2]
    exact h.low_ne_high p (hsub p hp) (hin p hi)
  · intro p hp hi
    rw [← (hkey p hp).2.1, ← (hkey p hp).1, ← (hkey _ (hlow p hp hi)).1]
    exact h.lt_low p (hsub p hp) (hin p hi)
  · intro p hp hi
    rw [← (hkey p hp).2.2, ← (hkey p hp).1, ← (hkey _ (hhigh p hp hi)).1]
    exact h.lt_high p (hsub p hp) (hin p hi)
  · intro p hp
    rw [← (hkey p hp).1]
    exact h.level_lt p (hsub p hp)

theorem Swept.agrees (h : Swept P s s') : Agrees s' s :=
  ⟨h.roots.falseNode.symm, h.roots.trueNode.symm, fun p hp => by
    rw [h.heap_eq p hp]
    exact ⟨rfl, rfl, rfl⟩⟩

/-- **A collection that keeps the terminals keeps the invariant.** -/
theorem Robdd.swept (h : Robdd P s) (hs : Swept P s s') (hf : s.Live s.falseNode)
    (ht : s.Live s.trueNode) : Robdd P s' := by
  refine h.restrict hs.store hs.agrees (fun p hp => ((hs.mem_iff p).mp hp).1)
    ((hs.mem_iff _).mpr ⟨h.false_mem, hf⟩) ((hs.mem_iff _).mpr ⟨h.true_mem, ht⟩)
    fun p hp q hq => ?_
  obtain ⟨hps, hlive⟩ := (hs.mem_iff p).mp hp
  exact (hs.mem_iff q).mpr ⟨h.closed p hps q hq, hlive.child hq⟩

/-- The two states differ at most in the counters, the lists of variables and the clock. -/
structure Recounted (s s' : State) : Prop where
  buckets : s'.buckets = s.buckets
  tableSize : s'.tableSize = s.tableSize
  allocator : s'.allocator = s.allocator
  falseNode : s'.falseNode = s.falseNode
  trueNode : s'.trueNode = s.trueNode
  nodeCount : s'.nodeCount = s.nodeCount
  cache : s'.cache = s.cache
  heap : ∀ p, ∃ n, s'.heap p = { s.heap p with refCount := n }

namespace Recounted

theorem stored_eq (h : Recounted s s') : s'.stored = s.stored := by
  rw [stored, stored, h.buckets, h.tableSize]

theorem key (h : Recounted s s') (p : Ptr) : (s'.heap p).SameKey (s.heap p) := by
  obtain ⟨n, hn⟩ := h.heap p
  rw [hn]
  exact ⟨rfl, rfl, rfl⟩

theorem nextFree_eq (h : Recounted s s') (p : Ptr) :
    (s'.heap p).nextFree = (s.heap p).nextFree := by
  obtain ⟨n, hn⟩ := h.heap p
  rw [hn]

theorem agrees (h : Recounted s s') : Agrees s s' := ⟨h.falseNode, h.trueNode, fun p _ => h.key p⟩

theorem agrees' (h : Recounted s s') : Agrees s' s :=
  ⟨h.falseNode.symm, h.trueNode.symm, fun p _ =>
    ⟨(h.key p).1.symm, (h.key p).2.1.symm, (h.key p).2.2.symm⟩⟩

theorem unmarked (h : Recounted s s') (hu : s.Unmarked) : s'.Unmarked := fun p hp => by
  obtain ⟨n, hn⟩ := h.heap p
  rw [hn]
  exact hu p (h.stored_eq ▸ hp)

theorem store (h : Recounted s s') (hs : Store P s) : Store P s' := by
  have hkey := h.key
  have hhome : ∀ p, s'.home P p = s.home P p := fun p => by
    rw [home, home, hash, hash, h.tableSize, (hkey p).1, (hkey p).2.1, (hkey p).2.2]
  obtain ⟨fl, hfl⟩ := hs.alloc
  have hh := hs.hashed
  refine ⟨⟨h.tableSize ▸ hh.size_pos, fun i hi p hp => ?_, h.stored_eq ▸ hh.nodup,
    fun p hp q hq hsame => ?_⟩, fl, ?_⟩
  · rw [hhome]
    exact hh.placed i (h.tableSize ▸ hi) p (h.buckets ▸ hp)
  · refine hh.unique p (h.stored_eq ▸ hp) q (h.stored_eq ▸ hq) ?_
    obtain ⟨h₁, h₂, h₃⟩ := hsame
    rw [(hkey p).1, (hkey q).1] at h₁
    rw [(hkey p).2.1, (hkey q).2.1] at h₂
    rw [(hkey p).2.2, (hkey q).2.2] at h₃
    exact ⟨h₁, h₂, h₃⟩
  · rw [h.allocator, h.stored_eq]
    exact hfl.congr fun p _ => h.nextFree_eq p

/-- **Counters do not matter.** -/
theorem robdd (h : Recounted s s') (hr : Robdd P s) : Robdd P s' := by
  refine hr.restrict (h.store hr.toStore) h.agrees' (fun p hp => h.stored_eq ▸ hp)
    (h.stored_eq ▸ hr.false_mem) (h.stored_eq ▸ hr.true_mem) fun p hp q hq => ?_
  rw [h.stored_eq] at hp ⊢
  exact hr.closed p hp q hq

end Recounted

/-- What a node denotes survives a collection, if the node does. -/
theorem Swept.denote_eq (hs : Swept P s s') (h' : Robdd P s') (hp : p ∈ s'.stored) :
    s'.denote p = s.denote p :=
  (h'.denote_eq hs.agrees hp).symm

end State

end Nanobdd
