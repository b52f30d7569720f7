import Nanobdd.Operation

/-!
# Operations with maintenance

A collection inside an operator goes wrong when it takes a node that only the locals of the
recursion know. `NoLoss` says that none does. An operation without a loss keeps every live node
as it is, and `Preserved` lists what else can be said about the table it leaves: a stored node
that was not live before has no reference.

## Main results

* `Preserved` — before and after an operation
* `Kept.step`, `Kept.swept` — what a step and a collection keep if they lose nothing
* `Kept.run` — a run without a loss keeps the meaning of every configuration
* `WellFormed.preserved` — a whole operation without a loss ends, with the right result
-/

namespace Nanobdd

open BoolFun

variable {D : Operator → Prop} {P : Platform} {A : Set Ptr} {s s' : State} {op : Operator}
  {x y p r : Ptr} {h : BoolFun} {a b c : Config} {fuel : ℕ}

/-- The call is in `performMaintenance`, and the collection will take a node that only the locals
hold. -/
def Config.Loses (c : Config) : Prop := c.Maintains ∧ ∃ p ∈ c.held, ¬ c.state.Live p

namespace State

/-- No collection during the operation takes a node that the operation holds. -/
def NoLoss (P : Platform) (s : State) (op : Operator) (x y : Ptr) : Prop :=
  ∀ c, Steps P ⟨s, .call op x y, []⟩ c → ¬ c.Loses

theorem NoAllocFails.noLoss (hn : NoAllocFails P s op x y) : NoLoss P s op x y := fun _ hc hl =>
  not_maintains_of_noAllocFails id hn hc hl.1

/-! ### Live nodes -/

theorem Swept.live (hs : Swept P s s') (hclosed : s.Closed) (hp : s.Live p) : s'.Live p :=
  hp.kept hclosed hs.mem_iff hs.heap_eq

/-- The live nodes form a set of stored nodes with their children. -/
theorem anchored_live (hclosed : s.Closed) : Anchored {p | p ∈ s.stored ∧ s.Live p} s :=
  ⟨fun _ hp => hp.1, fun p hp q hq => ⟨hclosed p hp.1 q hq, hp.2.child hq⟩⟩

/-- What an operation with result `h` may have done to the table. -/
structure Preserved (h : BoolFun) (s s' : State) : Prop where
  roots : SameRoots s s'
  unmarked : s'.Unmarked
  nodeCount : s.nodeCount = s.stored.length → s'.nodeCount = s'.stored.length
  live : ∀ p ∈ s.stored, s.Live p → p ∈ s'.stored ∧ s'.heap p = s.heap p ∧ s'.Live p
  denote_eq : ∀ p ∈ s.stored, s.Live p → s'.denote p = s.denote p
  rest : ∀ p ∈ s'.stored, (p ∈ s.stored ∧ s.Live p) ∨ (s'.heap p).refCount = 0
  meaning : ∀ p ∈ s'.stored, s'.denote p ∈ subs h ∨ ∃ q ∈ s.stored, s'.denote p = s.denote q

theorem Preserved.refl (hu : s.Unmarked) : Preserved h s s where
  roots := SameRoots.refl s
  unmarked := hu
  nodeCount := id
  live _ hp hl := ⟨hp, rfl, hl⟩
  denote_eq _ _ _ := rfl
  rest p hp := by
    by_cases hcount : (s.heap p).refCount = 0
    · exact Or.inr hcount
    · exact Or.inl ⟨hp, Live.of_refCount hp hcount⟩
  meaning p hp := Or.inr ⟨p, hp, rfl⟩

/-- One more step without maintenance. -/
theorem Preserved.advance {t : State} (hp : Preserved h t a.state) (hadv : Advance h a b)
    (hr : Robdd P a.state) : Preserved h t b.state where
  roots := hp.roots.trans hadv.extends.roots
  unmarked q hq := by
    by_cases hqa : q ∈ a.state.stored
    · rw [hadv.extends.heap_eq q hqa]
      exact hp.unmarked q hqa
    · exact (hadv.fresh q hq hqa).2.1
  nodeCount hn := hadv.nodeCount (hp.nodeCount hn)
  live q hq hl := by
    obtain ⟨hmem, hheap, hlive⟩ := hp.live q hq hl
    exact ⟨hadv.extends.mem q hmem, (hadv.extends.heap_eq q hmem).trans hheap,
      hadv.extends.live hr.closed hlive⟩
  denote_eq q hq hl := by
    rw [hr.denote_eq hadv.extends.agrees (hp.live q hq hl).1]
    exact hp.denote_eq q hq hl
  rest q hq := by
    by_cases hqa : q ∈ a.state.stored
    · rw [hadv.extends.heap_eq q hqa]
      exact hp.rest q hqa
    · exact Or.inr (hadv.fresh q hq hqa).1
  meaning q hq := by
    by_cases hqa : q ∈ a.state.stored
    · rw [hr.denote_eq hadv.extends.agrees hqa]
      exact hp.meaning q hqa
    · exact Or.inl (hadv.fresh q hq hqa).2.2.1

/-- One more collection. -/
theorem Preserved.swept {t : State} (hp : Preserved h t s) (hs : Swept P s s')
    (hclosed : s.Closed) (hr' : Robdd P s') : Preserved h t s' where
  roots := hp.roots.trans hs.roots
  unmarked := hs.unmarked hp.unmarked
  nodeCount hn := hs.nodeCount (hp.nodeCount hn)
  live q hq hl := by
    obtain ⟨hmem, hheap, hlive⟩ := hp.live q hq hl
    have hmem' : q ∈ s'.stored := (hs.mem_iff q).mpr ⟨hmem, hlive⟩
    exact ⟨hmem', (hs.heap_eq q hmem').trans hheap, hs.live hclosed hlive⟩
  denote_eq q hq hl := by
    obtain ⟨hmem, -, hlive⟩ := hp.live q hq hl
    rw [hs.denote_eq hr' ((hs.mem_iff q).mpr ⟨hmem, hlive⟩)]
    exact hp.denote_eq q hq hl
  rest q hq := by
    rw [hs.heap_eq q hq]
    exact hp.rest q ((hs.mem_iff q).mp hq).1
  meaning q hq := by
    rw [hs.denote_eq hr' hq]
    exact hp.meaning q ((hs.mem_iff q).mp hq).1

/-- The configuration computes a node for `h`, and the live nodes of `t` are as they were. -/
structure Kept (D : Operator → Prop) (P : Platform) (t : State) (h : BoolFun) (c : Config) :
    Prop where
  sound : Sound D P {p | p ∈ t.stored ∧ t.Live p} h c
  preserved : Preserved h t c.state
  false_live : c.state.Live c.state.falseNode
  true_live : c.state.Live c.state.trueNode

/-- A collection that takes nothing the thread holds. -/
theorem Kept.swept {t : State} {control : Control} {k : List Frame}
    (hk : Kept D P t h ⟨s, control, k⟩) (hswept : Swept P s s')
    (hheld : ∀ p ∈ Config.held ⟨s, control, k⟩, s.Live p) : Kept D P t h ⟨s', control, k⟩ := by
  have hr := hk.sound.wf.toRobdd
  have hclosed := hr.closed
  have hlive : ∀ p ∈ {p | p ∈ t.stored ∧ t.Live p}, s.Live p :=
    fun p hp => (hk.preserved.live p hp.1 hp.2).2.2
  refine ⟨hk.sound.swept hswept hk.false_live hk.true_live hlive hheld,
    hk.preserved.swept hswept hclosed (hr.swept hswept hk.false_live hk.true_live), ?_, ?_⟩
  · show s'.Live s'.falseNode
    rw [hswept.roots.falseNode]
    exact hswept.live hclosed hk.false_live
  · show s'.Live s'.trueNode
    rw [hswept.roots.trueNode]
    exact hswept.live hclosed hk.true_live

/-- A step of the thread that loses nothing. -/
theorem Kept.step {t : State} (hk : Kept D P t h b) (hbc : Step P b c) (hn : ¬ b.Loses) :
    Kept D P t h c := by
  by_cases hm : b.Maintains
  · cases hbc with
    | @maintain s s' op x y m fLow fHigh k fuel hpm =>
      obtain ⟨cache, hcache, -⟩ := hk.sound.wf.cache
      obtain ⟨hswept, -, -⟩ := hk.sound.wf.toStore.performMaintenance hk.sound.wf.closed
        hk.preserved.unmarked hcache hpm
      have hkept := hk.swept hswept fun p hp => by
        by_contra hlost
        exact hn ⟨hm, p, hp, hlost⟩
      exact ⟨⟨hkept.sound.wf, hkept.sound.anchored, hkept.sound.expects⟩, hkept.preserved,
        hkept.false_live, hkept.true_live⟩
    | _ => exact absurd hm id
  · obtain ⟨hadv, hsound⟩ := hk.sound.step hbc hm
    have hclosed := hk.sound.wf.closed
    have hx := hadv.extends
    refine ⟨hsound, hk.preserved.advance hadv hk.sound.wf.toRobdd, ?_, ?_⟩
    · rw [hx.roots.falseNode]
      exact hx.live hclosed hk.false_live
    · rw [hx.roots.trueNode]
      exact hx.live hclosed hk.true_live

/-- A thread that enters an operator with live operands. -/
theorem WellFormed.kept (hw : WellFormed D P s) (hop : D op ∧ D op.child) (hu : s.Unmarked)
    (hf : s.Live s.falseNode) (ht : s.Live s.trueNode)
    (ho : Operands {p | p ∈ s.stored ∧ s.Live p} op x y) :
    Kept D P s (s.answer op x y) ⟨s, .call op x y, []⟩ :=
  ⟨⟨hw, anchored_live hw.closed, _, ⟨hop, ho, rfl⟩, Pending.nil _⟩, Preserved.refl hu, hf, ht⟩

/-- **A run without a loss.** The configuration keeps its meaning, and the live nodes of the
state it started from stay. -/
theorem Kept.run {t : State} (hk : Kept D P t h a) (hn : ∀ c, Steps P a c → ¬ c.Loses)
    (hc : Steps P a c) : Kept D P t h c := by
  induction hc with
  | refl => exact hk
  | tail hab hbc ih => exact ih.step hbc (hn _ hab)

/-- Every call of `getOrCreateNode` will return a node. -/
theorem creates_of_sound (hs : Sound D P A h c) (hu : c.state.Unmarked) : Creates P c := by
  obtain ⟨s, control, k⟩ := c
  obtain ⟨cache, hcache, -⟩ := hs.wf.cache
  cases control with
  | create op x y m fLow fHigh =>
    exact hs.wf.toStore.getOrCreateNode_isSome hs.wf.closed hu hcache m fLow fHigh
  | _ => trivial

/-- **A whole operation without a loss**, on live operands, ends. -/
theorem WellFormed.preserved (hw : WellFormed D P s) (hop : D op ∧ D op.child) (hu : s.Unmarked)
    (hf : s.Live s.falseNode) (ht : s.Live s.trueNode)
    (ho : Operands {p | p ∈ s.stored ∧ s.Live p} op x y) (hn : NoLoss P s op x y) :
    (∃ F r s', ∀ fuel ≥ F, State.bddOp P op fuel s x y = some (r, s')) ∧
      ∀ fuel r s', State.bddOp P op fuel s x y = some (r, s') →
        WellFormed D P s' ∧ r ∈ s'.stored ∧ s'.denote r = s.answer op x y ∧
          Preserved (s.answer op x y) s s' := by
  have hrun := fun c hc => (hw.kept hop hu hf ht ho).run (c := c) hn hc
  constructor
  · refine State.evaluates (n := levelTop)
      ⟨Nat.le_add_left _ _, fun _ => Nat.le_add_left _ _⟩ fun c hc => ⟨(hrun c hc).sound, ?_⟩
    exact creates_of_sound (hrun c hc).sound (hrun c hc).preserved.unmarked
  · intro fuel r s' hsome
    have hk := hrun _ (steps_of_bddOp hsome)
    obtain ⟨hw', -, g, ⟨hr, hd⟩, hpend⟩ := hk.sound
    cases hpend
    exact ⟨hw', hr, hd, hk.preserved⟩

end State

end Nanobdd
