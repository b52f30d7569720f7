import Nanobdd.Operation

/-!
# `bddImp`

The terminal tests of `bddImp` are those of an implication, but both recursive calls go to
`bddDiff`. Where no test and no cache entry answers, the result is therefore `x ∧ ¬y`, which
agrees with `¬x ∨ y` under no assignment at all, and that is what goes into the cache.

## Main results

* `bddImp_of_miss` — off the tests and the cache, `bddImp` computes the difference
* `computesImp_iff` — when exactly `bddImp` computes the implication
-/

namespace Nanobdd

open BoolFun

variable {D : Operator → Prop} {P : Platform} {s s' : State} {x y r : Ptr}

namespace State

/-- Every entry for `bddImp` names stored nodes and the implication of its operands. -/
def ImpSound (s : State) : Prop :=
  ∀ c, s.cache = some c → ∀ i < c.size, (c.entry i).node ≠ nullptr → (c.entry i).op = .imp →
    (c.entry i).left ∈ s.stored ∧ (c.entry i).right ∈ s.stored ∧ (c.entry i).node ∈ s.stored ∧
      s.denote (c.entry i).node =
        map₂ Operator.imp.connective (s.denote (c.entry i).left) (s.denote (c.entry i).right)

/-- `bddImp` ends with a stored node for the implication, and the entries for `bddImp` are sound
afterwards, the one it stores among them. -/
def ComputesImp (P : Platform) (s : State) (x y : Ptr) : Prop :=
  ∃ r s', (∃ F, ∀ fuel ≥ F, bddImp P fuel s x y = some (r, s')) ∧ r ∈ s'.stored ∧
    s'.denote r = map₂ Operator.imp.connective (s.denote x) (s.denote y) ∧ ImpSound s'

/-- The cache has an answer for `bddImp` on these operands. -/
def ImpCached (P : Platform) (s : State) (x y : Ptr) : Prop :=
  ∃ r t, s.cacheLookup P .imp x y = some (r, t) ∧ r ≠ nullptr

/-- The difference is the negation of the implication. -/
theorem diff_ne_imp (f g : BoolFun) :
    map₂ Operator.diff.connective f g ≠ map₂ Operator.imp.connective f g := by
  intro he
  have hpoint := congrFun he fun _ => false
  simp only [map₂, Operator.connective] at hpoint
  cases hf : f (fun _ => false) <;> cases hg : g (fun _ => false) <;>
    rw [hf, hg] at hpoint <;> simp at hpoint

theorem impTerminal_eq_none_iff : s.impTerminal x y = none ↔
    x ≠ s.falseNode ∧ y ≠ s.trueNode ∧ x ≠ s.trueNode := by
  simp only [impTerminal, Bool.or_eq_true, isFalse_iff, isTrue_iff]
  by_cases hx : x = s.falseNode ∨ y = s.trueNode
  · rw [if_pos hx]
    simp only [reduceCtorEq, false_iff]
    tauto
  · rw [if_neg hx]
    split
    · next ht => simp [ht]
    · next ht =>
      simp only [true_iff]
      tauto

/-- **Off the tests and the cache, `bddImp` computes the difference.** -/
theorem bddImp_of_miss (hw : WellFormed (· ≠ .imp) P s) (hx : x ∈ s.stored) (hy : y ∈ s.stored)
    (hterm : s.impTerminal x y = none) (hmiss : s.cacheLookup P .imp x y = some (nullptr, s))
    (hn : NoAllocFails P s .imp x y) :
    ∃ r s', (∃ F, ∀ fuel ≥ F, bddImp P fuel s x y = some (r, s')) ∧ r ∈ s'.stored ∧
      s'.denote r = map₂ Operator.diff.connective (s.denote x) (s.denote y) ∧ Extends s s' := by
  have hA : Anchored {p | p ∈ s.stored} s := ⟨fun p hp => hp, hw.closed⟩
  have ho : Operands {p | p ∈ s.stored} .imp x y := ⟨hx, fun _ => hy⟩
  have hr := hw.toRobdd
  set m := s.topLevel .imp x y with hm
  have he : Expands {p | p ∈ s.stored} s .imp x y m := Expands.of_terminal ho hA hr.capped hterm
  obtain ⟨ho', hgoal⟩ := he.low hA hr
  -- the first recursive call, for which the cache is sound
  set a : Config := ⟨s, .call .diff (s.negCof x m) (s.negCof y m), [.low .imp x y m]⟩ with ha
  have hstep : Step P ⟨s, .call .imp x y, []⟩ a := Step.miss hterm hmiss
  have hstart : Sound (· ≠ .imp) P {p | p ∈ s.stored} (s.goal .imp x y) a := by
    refine ⟨hw, hA, _, ⟨⟨by decide, by decide⟩, ho', ?_⟩, Pending.low (by decide) he (.nil _)⟩
    rw [← hgoal]
    exact (answer_eq_goal hr (ho'.stored hA) (by decide)).symm
  have hrun : ∀ c, Steps P a c →
      Sound (· ≠ .imp) P {p | p ∈ s.stored} (s.goal .imp x y) c ∧ Extends s c.state := fun c hc =>
    hstart.steps id (fun d hd => hn d (hd.head hstep)) hc
  obtain ⟨F, r, s', hF⟩ := evaluates_of_miss (n := levelTop) (k := []) hm
    (fun habove hsafe => evaluates habove hsafe) hterm hmiss (by omega) he
    fun c hc => ⟨(hrun c hc).1, creates_of_not_allocFails (hn c (hc.head hstep))⟩
  have hfin : Steps P a ⟨s', .ret r, []⟩ := by
    rcases Relation.ReflTransGen.cases_head (steps_of_bddOp (k := []) (hF F le_rfl)) with
      heq | ⟨d, hd, hrest⟩
    · simp at heq
    · rwa [Option.some_inj.mp ((hstep.next id).symm.trans (hd.next id))]
  obtain ⟨⟨-, -, g, ⟨hmem, hd⟩, hpend⟩, hx⟩ := hrun _ hfin
  cases hpend
  exact ⟨r, s', ⟨F, hF⟩, hmem, hd, hx⟩

/-- On a hit, `bddImp` returns what the entry says and changes nothing. -/
theorem bddImp_of_hit (hterm : s.impTerminal x y = none)
    (hhit : s.cacheLookup P .imp x y = some (r, s')) (hr : r ≠ nullptr) :
    ∀ fuel ≥ 1, bddImp P fuel s x y = some (r, s') := by
  intro fuel hfuel
  obtain ⟨fuel, rfl⟩ := Nat.exists_eq_add_of_le' hfuel
  have hterm' : s.terminal .imp x y = none := hterm
  have hhit' : s.cacheLookup P .imp x (Operator.imp.right y) = some (r, s') := hhit
  show bddOp P .imp (fuel + 1) s x y = _
  rw [bddOp_succ, hterm']
  simp only [expand, hhit', Option.bind_some, if_pos hr]

theorem bddImp_of_terminal (hterm : s.impTerminal x y = some r) :
    ∀ fuel ≥ 1, bddImp P fuel s x y = some (r, s) := by
  intro fuel hfuel
  obtain ⟨fuel, rfl⟩ := Nat.exists_eq_add_of_le' hfuel
  have hterm' : s.terminal .imp x y = some r := hterm
  show bddOp P .imp (fuel + 1) s x y = _
  rw [bddOp_succ, hterm']

theorem not_computesImp_of_miss (hw : WellFormed (· ≠ .imp) P s) (hx : x ∈ s.stored)
    (hy : y ∈ s.stored) (hterm : s.impTerminal x y = none)
    (hmiss : s.cacheLookup P .imp x y = some (nullptr, s)) (hn : NoAllocFails P s .imp x y) :
    ¬ ComputesImp P s x y := by
  rintro ⟨r, s', ⟨F, hF⟩, -, hd, -⟩
  obtain ⟨r', t, ⟨F', hF'⟩, -, hd', -⟩ := bddImp_of_miss hw hx hy hterm hmiss hn
  have hsame := (hF (max F F') (le_max_left _ _)).symm.trans (hF' (max F F') (le_max_right _ _))
  cases hsame
  exact diff_ne_imp _ _ (hd'.symm.trans hd)

/-- **When exactly `bddImp` computes the implication**: one of the terminal tests answers, or the
cache already has the answer. -/
theorem computesImp_iff (hw : WellFormed (· ≠ .imp) P s) (hi : ImpSound s) (hx : x ∈ s.stored)
    (hy : y ∈ s.stored) (hn : NoAllocFails P s .imp x y) :
    ComputesImp P s x y ↔
      x = s.falseNode ∨ x = s.trueNode ∨ y = s.trueNode ∨ ImpCached P s x y := by
  have ho : Operands {p | p ∈ s.stored} .imp x y := ⟨hx, fun _ => hy⟩
  obtain ⟨c, hc, -⟩ := hw.cache
  have hlookup := cacheLookup_eq hc P .imp x y
  set cached := (c.lookup (hashVal P c .imp x y) x y .imp).1 with hcached
  constructor
  · intro hcomp
    by_contra hnot
    rw [not_or, not_or, not_or] at hnot
    have hterm : s.impTerminal x y = none :=
      impTerminal_eq_none_iff.mpr ⟨hnot.1, hnot.2.2.1, hnot.2.1⟩
    have hmiss : cached = nullptr := by
      by_contra hne
      exact hnot.2.2.2 ⟨cached, s, hlookup, hne⟩
    rw [hmiss] at hlookup
    exact not_computesImp_of_miss hw hx hy hterm hlookup hn hcomp
  · intro hans
    cases hterm : s.impTerminal x y with
    | some r =>
      have himp : s.terminal .imp x y = some r := hterm
      obtain ⟨hr, hd⟩ := terminal_sound hw.toRobdd ho himp
      exact ⟨r, s, ⟨1, bddImp_of_terminal hterm⟩, hr, hd, hi⟩
    | none =>
      obtain ⟨hxf, hyt, hxt⟩ := impTerminal_eq_none_iff.mp hterm
      obtain ⟨r, t, hhit, hr⟩ := ((hans.resolve_left hxf).resolve_left hxt).resolve_left hyt
      rw [hlookup] at hhit
      cases hhit
      obtain ⟨hnode, hmatch⟩ := LockFreeCache.lookup_fst hr
      obtain ⟨hop, hopnds⟩ := LockFreeCacheEntry.answers_iff.mp hmatch
      obtain ⟨-, -, hmem, hd⟩ :=
        hi c hc _ (hashVal_lt P c .imp x y) (hnode ▸ hr) hop
      refine ⟨cached, s, ⟨1, bddImp_of_hit hterm hlookup hr⟩, hcached ▸ hnode ▸ hmem, ?_, hi⟩
      rcases hopnds with ⟨hl, hrr⟩ | ⟨hcomm, -⟩
      · rw [hcached, hnode, hd, hl, hrr]
      · simp [isCommutativeOperator, Operator.toNat] at hcomm

/-! ### A variable implies itself -/

theorem impSound_small : ImpSound small := by
  have hempty : small.cache.all (fun c =>
      (List.range c.size).all fun i => (c.entry i).node == nullptr) = true := by decide +kernel
  intro c hc i hi hn
  rw [hc, Option.all_some, List.all_eq_true] at hempty
  exact absurd (beq_iff_eq.mp (hempty i (List.mem_range.mpr hi))) hn

theorem wellFormed_small : WellFormed (· ≠ .imp) smallPlatform small :=
  ready_small.wf.mono fun _ _ => trivial

theorem computesImp_iff_small : ComputesImp smallPlatform small 3 5 ↔
    3 = small.falseNode ∨ 3 = small.trueNode ∨ 5 = small.trueNode ∨
      ImpCached smallPlatform small 3 5 :=
  computesImp_iff wellFormed_small impSound_small (by decide +kernel) (by decide +kernel)
    (not_allocFails_of_endsWithin (n := 20) (by decide +kernel))

/-- `v >> v` is the false node. -/
example : (bddImp smallPlatform 20 small 3 3).map Prod.fst = some small.falseNode := by
  decide +kernel

/-- `v >> v` is not valid, in a well-formed state with an empty cache and slots to spare. -/
theorem bddImp_self_small :
    (WellFormed (· ≠ .imp) smallPlatform small ∧ ImpSound small ∧ 3 ∈ small.stored ∧
      NoAllocFails smallPlatform small .imp 3 3) ∧ ¬ ComputesImp smallPlatform small 3 3 := by
  have hmem : 3 ∈ small.stored := by decide +kernel
  have hn : NoAllocFails smallPlatform small .imp 3 3 :=
    not_allocFails_of_endsWithin (n := 20) (by decide +kernel)
  have hterm : small.impTerminal 3 3 = none := by decide +kernel
  refine ⟨⟨wellFormed_small, impSound_small, hmem, hn⟩, ?_⟩
  obtain ⟨c, hc, -⟩ := wellFormed_small.cache
  have hlookup := cacheLookup_eq hc smallPlatform .imp 3 3
  have hmiss : (small.cacheLookup smallPlatform .imp 3 3).map Prod.fst = some nullptr := by
    decide +kernel
  rw [hlookup, Option.map_some, Option.some_inj] at hmiss
  rw [hmiss] at hlookup
  exact not_computesImp_of_miss wellFormed_small hmem hmem hterm hlookup hn

end State

end Nanobdd
