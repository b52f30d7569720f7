import Nanobdd.InitSpec

/-!
# Whole operations

The recursion ends: every recursive call works on operands of greater levels, so a fuel exists
from which on the recursive functions return, provided that each `getOrCreateNode` on the way
does. Together with the invariant of `Apply` this gives the correctness of an operation during
which no `allocate` fails.

## Main results

* `evaluates` — the recursion ends
* `memoised_apply` — the five operators of the sound cache compute their connectives
-/

namespace Nanobdd

open BoolFun

variable {D : Operator → Prop} {P : Platform} {A : Set Ptr} {s s' : State} {op : Operator}
  {x y p r : Ptr} {h : BoolFun} {k : List Frame} {a b c : Config}

namespace State

/-! ### Termination -/

/-- The operands have levels at most `n` below the top. -/
def Above (s : State) (op : Operator) (x y : Ptr) (n : ℕ) : Prop :=
  levelTop ≤ (s.heap x).level + n ∧ (op ≠ .not → levelTop ≤ (s.heap y).level + n)

/-- If the call is about to find or create a node, it will return one. -/
def Creates (P : Platform) (c : Config) : Prop :=
  match c.control with
  | .create _ _ _ m fLow fHigh =>
    ∃ F res s', ∀ fuel ≥ F, c.state.getOrCreateNode P fuel m fLow fHigh = some (res, s')
  | _ => True

theorem Expands.le_topLevel {n : ℕ} (ho : Operands A op x y) (ha : s.Above op x y n) :
    levelTop ≤ s.topLevel op x y + n := by
  have hmin : op ≠ .not → levelTop ≤ s.minLevel x y + n := fun hn => by
    have := ha.2 hn
    have := ha.1
    rw [minLevel]
    omega
  cases op with
  | not => exact ha.1
  | _ => exact hmin (by simp)

/-- The first recursive call works above. -/
theorem Expands.above_low {m n : ℕ} (he : Expands A s op x y m) (hA : Anchored A s)
    (hr : Robdd P s) (hm : levelTop ≤ m + (n + 1)) :
    s.Above op.child (s.negCof x m) (op.right (s.negCof y m)) n := by
  have hchild : op.child ≠ .not → op ≠ .not := fun hn hop => hn (Operator.child_eq_not_iff.mpr hop)
  have hx := (hr.lt_cof (hA.mem x he.left) he.left_at).1
  refine ⟨by omega, fun hn => ?_⟩
  have hy := (hr.lt_cof (hA.mem y (he.right (hchild hn))) (he.right_at (hchild hn))).1
  rw [right_eq (hchild hn)]
  omega

/-- The second recursive call works above. -/
theorem Expands.above_high {m n : ℕ} (he : Expands A s op x y m) (hA : Anchored A s)
    (hr : Robdd P s) (hm : levelTop ≤ m + (n + 1)) :
    s.Above op.child (s.posCof x m) (op.right (s.posCof y m)) n := by
  have hchild : op.child ≠ .not → op ≠ .not := fun hn hop => hn (Operator.child_eq_not_iff.mpr hop)
  have hx := (hr.lt_cof (hA.mem x he.left) he.left_at).2
  refine ⟨by omega, fun hn => ?_⟩
  have hy := (hr.lt_cof (hA.mem y (he.right (hchild hn))) (he.right_at (hchild hn))).2
  rw [right_eq (hchild hn)]
  omega

/-- A call that misses ends if its recursive calls do, which work above it. The states between
them are sound because a run of the machine reaches them. -/
theorem evaluates_of_miss {n m : ℕ} (hm : m = s.topLevel op x y)
    (ih : ∀ {op : Operator} {s : State} {x y : Ptr} {k : List Frame}, s.Above op x y n →
      (∀ c, Steps P ⟨s, .call op x y, k⟩ c → Sound D P A h c ∧ Creates P c) →
      ∃ F r s', ∀ fuel ≥ F, bddOp P op fuel s x y = some (r, s'))
    (hterm : s.terminal op x y = none)
    (hlookup : s.cacheLookup P op x (op.right y) = some (nullptr, s))
    (hlevel : levelTop ≤ m + (n + 1)) (he : Expands A s op x y m)
    (hrun : ∀ c, Steps P ⟨s, .call op.child (s.negCof x m) (op.right (s.negCof y m)),
      .low op x y m :: k⟩ c → Sound D P A h c ∧ Creates P c) :
    ∃ F r s', ∀ fuel ≥ F, bddOp P op fuel s x y = some (r, s') := by
  obtain ⟨hw, hA, -⟩ := (hrun _ Relation.ReflTransGen.refl).1
  -- the first recursive call
  obtain ⟨F₁, fLow, s₁, hlow⟩ := ih (he.above_low hA hw.toRobdd hlevel) hrun
  have hret₁ := steps_of_bddOp (k := .low op x y m :: k) (hlow F₁ le_rfl)
  obtain ⟨hw₁, hA₁, _, -, hpend⟩ := (hrun _ hret₁).1
  have he₁ : Expands A s₁ op x y m := by
    cases hpend with
    | low _ he _ => exact he
  -- the second
  have hsecond := hret₁.tail Step.second
  obtain ⟨F₂, fHigh, s₂, hhigh⟩ :=
    ih (he₁.above_high hA₁ hw₁.toRobdd hlevel) fun c hc => hrun c (hsecond.trans hc)
  have hret₂ := hsecond.trans (steps_of_bddOp (k := .high op x y m fLow :: k) (hhigh F₂ le_rfl))
  -- the node over the two results
  obtain ⟨F₃, res, s₃, hcombine⟩ :
      ∃ F res s', ∀ fuel ≥ F, s₂.combine P fuel m fLow fHigh = some (res, s') := by
    by_cases heq : fLow = fHigh
    · exact ⟨0, fLow, s₂, fun fuel _ => by rw [combine, if_pos heq]⟩
    · obtain ⟨F, res, s', hres⟩ := (hrun _ (hret₂.tail (Step.differ heq))).2
      exact ⟨F, res, s', fun fuel hf => by rw [combine, if_neg heq, hres fuel hf]⟩
  have hret₃ := hret₂.trans (steps_of_combine (hcombine F₃ le_rfl))
  obtain ⟨hw₃, hA₃, _, ⟨ho₃, hg, hres, hd⟩, -⟩ := (hrun _ hret₃).1
  obtain ⟨s₄, hinsert, -, -⟩ := hw₃.cacheInsert (ho₃.stored hA₃) hres (hd.trans hg)
  refine ⟨max (max F₁ F₂) F₃ + 1, res, s₄, fun fuel hfuel => ?_⟩
  obtain ⟨fuel, rfl⟩ := Nat.exists_eq_add_of_le' (le_trans (Nat.le_add_left 1 _) hfuel)
  have hmax : max (max F₁ F₂) F₃ ≤ fuel := Nat.le_of_succ_le_succ hfuel
  rw [bddOp_succ, hterm]
  simp only [expand, hlookup, Option.bind_some, ne_eq, not_true_eq_false, if_false, ← hm]
  rw [hlow fuel (by omega), Option.bind_some, hhigh fuel (by omega), Option.bind_some,
    hcombine fuel (by omega), Option.bind_some, hinsert, Option.map_some]

/-- **The recursion ends.** The induction is on the levels left above the operands. -/
theorem evaluates : ∀ {n : ℕ} {op : Operator} {s : State} {x y : Ptr} {k : List Frame},
    s.Above op x y n →
    (∀ c, Steps P ⟨s, .call op x y, k⟩ c → Sound D P A h c ∧ Creates P c) →
    ∃ F r s', ∀ fuel ≥ F, bddOp P op fuel s x y = some (r, s') := by
  intro n
  induction n with
  | zero =>
    intro op s x y k ha hrun
    obtain ⟨hw, hA, g, ⟨-, ho, -⟩, -⟩ := (hrun _ Relation.ReflTransGen.refl).1
    have hlt : (s.heap x).level < levelTop := hw.level_lt x (hA.mem x ho.left)
    have := ha.1
    omega
  | succ n ih =>
    intro op s x y k ha hrun
    obtain ⟨hw, hA, g, ⟨hop, ho, -⟩, -⟩ := (hrun _ Relation.ReflTransGen.refl).1
    cases hterm : s.terminal op x y with
    | some r =>
      refine ⟨1, r, s, fun fuel hfuel => ?_⟩
      obtain ⟨fuel, rfl⟩ := Nat.exists_eq_add_of_le' hfuel
      rw [bddOp_succ, hterm]
    | none =>
      obtain ⟨cached, hlookup, -⟩ := hw.cacheLookup hop.1 (ho.stored hA)
      by_cases hc : cached = nullptr
      · subst hc
        exact evaluates_of_miss rfl ih hterm hlookup (Expands.le_topLevel ho ha)
          (Expands.of_terminal ho hA hw.toRobdd.capped hterm)
          fun c hc => hrun c (hc.head (Step.miss hterm hlookup))
      · refine ⟨1, cached, s, fun fuel hfuel => ?_⟩
        obtain ⟨fuel, rfl⟩ := Nat.exists_eq_add_of_le' hfuel
        rw [bddOp_succ, hterm]
        simp only [expand, hlookup, Option.bind_some, if_pos hc]

/-! ### Operations without a failing allocation -/

/-- No `allocate` fails during the operation. -/
def NoAllocFails (P : Platform) (s : State) (op : Operator) (x y : Ptr) : Prop :=
  ∀ c, Steps P ⟨s, .call op x y, []⟩ c → ¬ c.AllocFails P

theorem creates_of_not_allocFails (hc : ¬ c.AllocFails P) : Creates P c := by
  obtain ⟨s, control, k⟩ := c
  cases control with
  | create op x y m fLow fHigh =>
    obtain ⟨⟨res, s'⟩, hr⟩ := Option.ne_none_iff_exists'.mp hc
    refine ⟨1, res, s', fun fuel hf => ?_⟩
    obtain ⟨fuel, rfl⟩ := Nat.exists_eq_add_of_le' hf
    exact getOrCreateNode_of_once hr
  | _ => trivial

/-- A run without a failing allocation meets no maintenance. -/
theorem not_maintains_of_noAllocFails (hm : ¬ a.Maintains)
    (hn : ∀ c, Steps P a c → ¬ c.AllocFails P) (hc : Steps P a c) : ¬ c.Maintains := by
  induction hc with
  | refl => exact hm
  | tail hab hbc ih =>
    cases hbc with
    | exhaust hf => exact absurd hf (hn _ hab)
    | _ => exact id

/-- What a run of steps without maintenance has done to the table. -/
theorem Sound.steps (hs : Sound D P A h a) (hm : ¬ a.Maintains)
    (hn : ∀ c, Steps P a c → ¬ c.AllocFails P) (hc : Steps P a c) :
    Sound D P A h c ∧ Extends a.state c.state := by
  induction hc with
  | refl => exact ⟨hs, Extends.refl _⟩
  | tail hab hbc ih =>
    obtain ⟨hadv, hsound⟩ := ih.1.step hbc (not_maintains_of_noAllocFails hm hn hab)
    exact ⟨hsound, ih.2.trans hadv.extends⟩

/-- An operation without a failing allocation, from a state whose cache is sound for it. -/
theorem WellFormed.bddOp (hw : WellFormed D P s) (hop : D op ∧ D op.child)
    (ho : Operands {p | p ∈ s.stored} op x y) (hn : NoAllocFails P s op x y) :
    ∃ r s', (∃ F, ∀ fuel ≥ F, State.bddOp P op fuel s x y = some (r, s')) ∧ r ∈ s'.stored ∧
      s'.denote r = s.answer op x y ∧ WellFormed D P s' ∧ Extends s s' := by
  have hA : Anchored {p | p ∈ s.stored} s := ⟨fun p hp => hp, hw.closed⟩
  have hstart : Sound D P {p | p ∈ s.stored} (s.answer op x y) ⟨s, .call op x y, []⟩ :=
    ⟨hw, hA, _, ⟨hop, ho, rfl⟩, Pending.nil _⟩
  have hrun : ∀ c, Steps P ⟨s, .call op x y, []⟩ c →
      Sound D P {p | p ∈ s.stored} (s.answer op x y) c ∧ Extends s c.state :=
    fun c hc => hstart.steps id hn hc
  obtain ⟨F, r, s', hF⟩ := evaluates (n := levelTop)
    ⟨Nat.le_add_left _ _, fun _ => Nat.le_add_left _ _⟩
    fun c hc => ⟨(hrun c hc).1, creates_of_not_allocFails (hn c hc)⟩
  obtain ⟨⟨hw', -, g, ⟨hr, hd⟩, hpend⟩, hx⟩ := hrun _ (steps_of_bddOp (hF F le_rfl))
  cases hpend
  exact ⟨r, s', ⟨F, hF⟩, hr, hd, hw', hx⟩

/-- **Memoised apply is correct.** From a well-formed state, whatever the entries for `bddImp`
are, each of the five other operators ends, returns a stored node for its connective, and leaves
a well-formed state in which all old nodes are as they were. -/
theorem memoised_apply (hw : WellFormed (· ≠ .imp) P s) (hop : op ≠ .imp) (hx : x ∈ s.stored)
    (hy : y ∈ s.stored) (hn : NoAllocFails P s op x y) :
    ∃ r s', (∃ F, ∀ fuel ≥ F, State.bddOp P op fuel s x y = some (r, s')) ∧ r ∈ s'.stored ∧
      s'.denote r = map₂ op.connective (s.denote x) (s.denote y) ∧ WellFormed (· ≠ .imp) P s' ∧
      ∀ p ∈ s.stored, p ∈ s'.stored ∧ s'.heap p = s.heap p := by
  have ho : Operands {p | p ∈ s.stored} op x y := ⟨hx, fun _ => hy⟩
  obtain ⟨r, s', hF, hr, hd, hw', hext⟩ := hw.bddOp ⟨hop, op.child_ne_imp⟩ ho hn
  refine ⟨r, s', hF, hr, ?_, hw', fun p hp => ⟨hext.mem p hp, hext.heap_eq p hp⟩⟩
  rw [hd, answer_eq_goal hw.toRobdd ho hop, goal, Operator.result,
    Operator.computes_of_ne_imp hop]

/-- The conjunction of the first two variables, in a table with three slots left. -/
theorem memoised_apply_small :
    ∃ r s', (∃ F, ∀ fuel ≥ F, State.bddOp smallPlatform .and fuel small 3 5 = some (r, s')) ∧
      r ∈ s'.stored ∧
      s'.denote r = map₂ Operator.and.connective (small.denote 3) (small.denote 5) ∧
      WellFormed (· ≠ .imp) smallPlatform s' ∧
      ∀ p ∈ small.stored, p ∈ s'.stored ∧ s'.heap p = small.heap p :=
  memoised_apply (ready_small.wf.mono fun _ _ => trivial) (by decide) (by decide +kernel)
    (by decide +kernel) (not_allocFails_of_endsWithin (n := 20) (by decide +kernel))

end State

end Nanobdd
