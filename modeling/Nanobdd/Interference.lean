import Nanobdd.Programs

/-!
# Operators beside other threads' collections

`gc` may run in another thread. The table's mutex keeps it out of each locked region of an
operator, but not out of the gaps between them, and in these gaps the operator holds nodes that
no counter knows about: `fLow` in a frame, the two results on the way to `getOrCreateNode`, the
node on the way into the cache, and at the end the result itself until the constructor of `Bdd`
has called `ref`.

## Main definitions

* `Caller`, `Interleaved` — the thread of an operator, and a step of it or of a collection
* `Sparing` — a step in which no collection takes a node the thread holds

## Main results

* `interleaved_sparing` — the handle is right in every run whose collections spare the held nodes
* `not_stored_of_interleaved` — one collection just before `ref` is enough to lose the result
-/

namespace Nanobdd

open BoolFun

variable {P : Platform} {s s' : State} {op : Operator} {x y r : Ptr} {h : BoolFun}
  {a b c : Config} {t t' : Caller} {fuel : ℕ}

/-- The thread that executes the operator, and what it does with the result. -/
inductive Caller
  /-- Inside the operator. -/
  | running (c : Config)
  /-- After the constructor `Bdd(Node *)`: the handle of the result. -/
  | returned (s : State) (r : Ptr)

namespace Caller

/-- The table. -/
def state : Caller → State
  | running c => c.state
  | returned s _ => s

/-- The nodes that only local variables of the thread point at. The handle has a reference. -/
def held : Caller → List Ptr
  | running c => c.held
  | returned .. => []

/-- The thread is about to collect on its own account. -/
def Maintains : Caller → Prop
  | running c => c.Maintains
  | returned .. => False

/-- The caller with another table. -/
def withState (s : State) : Caller → Caller
  | running c => running { c with state := s }
  | returned _ r => returned s r

end Caller

/-- A step of the thread: a step of the operator, or the constructor that takes the reference. -/
inductive Proceeds (P : Platform) : Caller → Caller → Prop
  | step {a b : Config} : Step P a b → Proceeds P (.running a) (.running b)
  | construct {s : State} {r : Ptr} :
      Proceeds P (.running ⟨s, .ret r, []⟩) (.returned { s with heap := s.heap.ref r } r)

/-- A call of `gc` in another thread. -/
inductive Collects : Caller → Caller → Prop
  | gc {t : Caller} {s : State} (fuel : ℕ) : t.state.gc fuel = some s → Collects t (t.withState s)

/-- Any step. -/
def Interleaved (P : Platform) (t t' : Caller) : Prop := Proceeds P t t' ∨ Collects t t'

/-- Every node that only the locals hold is live, so no collection takes one. -/
def Caller.Spared (t : Caller) : Prop := ∀ p ∈ t.held, t.state.Live p

/-- The counter of the result has room for one more reference. -/
def Caller.HasRoom (t : Caller) : Prop :=
  ∀ s r, t = .running ⟨s, .ret r, []⟩ → (s.heap r).refCount + 1 < 2 ^ 32

/-- A step in which no collection takes a node the thread holds. -/
inductive Sparing (P : Platform) : Caller → Caller → Prop
  | proceeds {t t' : Caller} : Proceeds P t t' → (t.Maintains → t.Spared) → t.HasRoom →
      Sparing P t t'
  | collects {t t' : Caller} : Collects t t' → t.Spared → Sparing P t t'

/-! ### Schedules -/

namespace Caller

/-- Each node that only the locals hold has references or is a child of a node that has. -/
def Anchored (t : Caller) : Bool :=
  t.held.all fun p => t.state.roots.any fun q =>
    decide (p = q) || decide (p ∈ t.state.heap.children q)

theorem spared_of_anchored (h : t.Anchored = true) : t.Spared := by
  intro p hp
  obtain ⟨q, hq, hp⟩ := List.any_eq_true.mp (List.all_eq_true.mp h p hp)
  rcases (Bool.or_eq_true _ _).mp hp with hp | hp
  · rw [of_decide_eq_true hp]
    exact ⟨q, hq, .refl⟩
  · exact ⟨q, hq, .single (of_decide_eq_true hp)⟩

/-- One step, computed: the next one of the thread, which does not collect itself, or a
collection of another thread. -/
def take (P : Platform) (fuel : ℕ) : Caller → Bool → Option Caller
  | .running ⟨s, .ret r, []⟩, false =>
    if (s.heap r).refCount + 1 < 2 ^ 32 then some (.returned { s with heap := s.heap.ref r } r)
    else none
  | .running c, false => (c.next P).map .running
  | .returned .., false => none
  | t, true => if t.Anchored then (t.state.gc fuel).map t.withState else none

theorem sparing_of_next (h : a.next P = some b) : Sparing P (.running a) (.running b) := by
  refine .proceeds (.step (step_of_next h)) (fun hm => ?_) ?_
  · obtain ⟨s, control, k⟩ := a
    cases control with
    | maintain => exact absurd h nofun
    | _ => exact hm.elim
  · rintro s r he
    cases he
    exact absurd h nofun

theorem sparing_of_take {collects : Bool} (h : t.take P fuel collects = some t') :
    Sparing P t t' := by
  unfold take at h
  split at h
  · split_ifs at h with hroom
    cases h
    refine .proceeds .construct (fun hm => hm.elim) ?_
    rintro s r he
    cases he
    exact hroom
  · obtain ⟨b, hb, rfl⟩ := Option.map_eq_some_iff.mp h
    exact sparing_of_next hb
  · exact absurd h nofun
  · split_ifs at h with hheld
    obtain ⟨s, hg, rfl⟩ := Option.map_eq_some_iff.mp h
    exact .collects (.gc fuel hg) (spared_of_anchored hheld)

theorem run_of_take {w : List Bool} (h : w.foldlM (take P fuel) t = some t') :
    Relation.ReflTransGen (Sparing P) t t' := by
  refine Transition.run_of_foldlM (fun t collects t' ht => ?_) h
  exact sparing_of_take ht

end Caller

namespace State

/-! ### The handle -/

/-- The handle has a stored node for `h`, and the table is in order. -/
structure Held (P : Platform) (h : BoolFun) (s : State) (r : Ptr) : Prop where
  wf : WellFormed (· ≠ .imp) P s
  unmarked : s.Unmarked
  false_live : s.Live s.falseNode
  true_live : s.Live s.trueNode
  mem : r ∈ s.stored
  counted : (s.heap r).refCount ≠ 0
  denote_eq : s.denote r = h

/-- A handle survives collections. -/
theorem Held.swept (hr : Held P h s r) (hs : Swept P s s') : Held P h s' r := by
  have hclosed := hr.wf.closed
  have hmem : r ∈ s'.stored := (hs.mem_iff r).mpr ⟨hr.mem, Live.of_refCount hr.mem hr.counted⟩
  have hw := hr.wf.swept hs hr.false_live hr.true_live
  refine ⟨hw, hs.unmarked hr.unmarked, ?_, ?_, hmem, ?_, ?_⟩
  · rw [hs.roots.falseNode]
    exact hs.live hclosed hr.false_live
  · rw [hs.roots.trueNode]
    exact hs.live hclosed hr.true_live
  · rw [hs.heap_eq r hmem]
    exact hr.counted
  · rw [hs.denote_eq hw.toRobdd hmem]
    exact hr.denote_eq

/-- One more reference does not make a node die. -/
theorem Live.ref {p : Ptr} (hp : s.Live p) (hr : (s.heap r).refCount + 1 < 2 ^ 32) :
    ({ s with heap := s.heap.ref r } : State).Live p := by
  obtain ⟨q, hq, hreach⟩ := hp
  obtain ⟨hmem, hcount⟩ := mem_roots.mp hq
  refine ⟨q, mem_roots.mpr ⟨hmem, ?_⟩, ?_⟩
  · show ((s.heap.ref r) q).refCount ≠ 0
    rw [Heap.ref, Heap.modify_apply]
    split
    · next hqr =>
      rw [hqr, Nat.mod_eq_of_lt hr]
      exact Nat.succ_ne_zero _
    · exact hcount
  · have hchildren : (s.heap.ref r).children = s.heap.children := by
      funext q
      obtain ⟨n, hn⟩ := Heap.exists_ref s.heap r q
      rw [Heap.children, Heap.children, hn]
    rwa [hchildren]

/-- **The constructor of the handle.** -/
theorem Kept.construct {t : State} (hk : Kept (· ≠ .imp) P t h ⟨s, .ret r, []⟩)
    (hr : (s.heap r).refCount + 1 < 2 ^ 32) :
    Held P h { s with heap := s.heap.ref r } r := by
  obtain ⟨hw, -, g, ⟨hmem, hd⟩, hpend⟩ := hk.sound
  cases hpend
  have hre : Recounted s { s with heap := s.heap.ref r } :=
    ⟨rfl, rfl, rfl, rfl, rfl, rfl, rfl, fun p => Heap.exists_ref _ r p⟩
  refine ⟨hre.wellFormed hw, hre.unmarked hk.preserved.unmarked, hk.false_live.ref hr,
    hk.true_live.ref hr, hmem, ?_, (hw.toRobdd.denote_eq hre.agrees hmem).trans hd⟩
  show ((s.heap.ref r) r).refCount ≠ 0
  rw [Heap.ref, Heap.modify_self, Nat.mod_eq_of_lt hr]
  exact Nat.succ_ne_zero _

/-! ### Runs -/

/-- What a caller is to keep. -/
def Keeps (P : Platform) (s : State) (h : BoolFun) : Caller → Prop
  | .running c => Kept (· ≠ .imp) P s h c
  | .returned s r => Held P h s r

/-- A collection in another thread. -/
theorem Keeps.collect {u : State} (hk : Keeps P u h t) (hc : t.state.gc fuel = some s)
    (hheld : ∀ p ∈ t.held, t.state.Live p) : Keeps P u h (t.withState s) := by
  cases t with
  | running c =>
    obtain ⟨s₀, control, k⟩ := c
    have hkept : Kept (· ≠ .imp) P u h ⟨s₀, control, k⟩ := hk
    obtain ⟨cache, hcache, -⟩ := hkept.sound.wf.cache
    obtain ⟨hswept, -⟩ := hkept.sound.wf.toStore.gcLocked_swept hkept.sound.wf.closed
      hkept.preserved.unmarked hcache hc
    exact hkept.swept hswept hheld
  | returned s₀ r =>
    have hr : Held P h s₀ r := hk
    obtain ⟨cache, hcache, -⟩ := hr.wf.cache
    obtain ⟨hswept, -⟩ :=
      hr.wf.toStore.gcLocked_swept hr.wf.closed hr.unmarked hcache hc
    exact hr.swept hswept

/-- **A step that spares the held nodes.** -/
theorem Keeps.sparing {u : State} (hk : Keeps P u h t) (hs : Sparing P t t') : Keeps P u h t' := by
  cases hs with
  | proceeds hp hm hroom =>
    cases hp with
    | step hab => exact Kept.step hk hab fun ⟨hma, p, hp, hlost⟩ => hlost (hm hma p hp)
    | construct => exact Kept.construct hk (hroom _ _ rfl)
  | collects hc hspared =>
    cases hc with
    | gc fuel hg => exact hk.collect hg hspared

/-- **Safe interleavings.** A thread executes an operator on the roots of live handles, while
other threads collect as often as they like. If each collection spares what the thread holds,
the handle it ends with has a stored node for the result. -/
theorem interleaved_sparing (hw : WellFormed (· ≠ .imp) P s) (hu : s.Unmarked)
    (hop : op ≠ .imp) (hx : x ∈ s.stored) (hy : y ∈ s.stored) (hxc : (s.heap x).refCount ≠ 0)
    (hyc : (s.heap y).refCount ≠ 0) (hf : (s.heap s.falseNode).refCount ≠ 0)
    (ht : (s.heap s.trueNode).refCount ≠ 0)
    (hrun : Relation.ReflTransGen (Sparing P) (.running ⟨s, .call op x y, []⟩) (.returned s' r)) :
    r ∈ s'.stored ∧ s'.denote r = map₂ op.connective (s.denote x) (s.denote y) := by
  have hxl := Live.of_refCount hx hxc
  have hyl := Live.of_refCount hy hyc
  have ho : Operands {p | p ∈ s.stored} op x y := ⟨hx, fun _ => hy⟩
  have hstart : Keeps P s (s.answer op x y) (.running ⟨s, .call op x y, []⟩) :=
    hw.kept ⟨hop, op.child_ne_imp⟩ hu (Live.of_refCount hw.false_mem hf)
      (Live.of_refCount hw.true_mem ht) ⟨⟨hx, hxl⟩, fun _ => ⟨hy, hyl⟩⟩
  have hend : Held P (s.answer op x y) s' r :=
    Transition.invariant (I := Keeps P s (s.answer op x y)) (fun _ _ hs hk => hk.sparing hs)
      hrun hstart
  refine ⟨hend.mem, ?_⟩
  rw [hend.denote_eq, answer_eq_goal hw.toRobdd ho hop, goal, Operator.result,
    Operator.computes_of_ne_imp hop]

/-! ### Two runs of a small program -/

theorem interleaved_of_steps (h : Steps P a b) :
    Relation.ReflTransGen (Interleaved P) (.running a) (.running b) := by
  induction h with
  | refl => exact .refl
  | tail _ hbc ih => exact ih.tail (Or.inl (.step hbc))

theorem bddAnd_smallPair : ∃ t, Client.smallPair.table.bddOp smallPlatform .and 40 3 5 =
    some (9, t) ∧ (t.gc 40).any (fun u => decide (9 ∉ u.stored)) = true := by
  have hsome : (Client.smallPair.table.bddOp smallPlatform .and 40 3 5).any (fun r =>
      decide (r.1 = 9 ∧ (r.2.gc 40).any (fun u => decide (9 ∉ u.stored)) = true)) = true := by
    decide +kernel
  obtain ⟨⟨r, t⟩, hrun, hfacts⟩ := (Option.any_eq_true _ _).mp hsome
  obtain ⟨rfl, hgone⟩ := of_decide_eq_true hfacts
  exact ⟨t, hrun, hgone⟩

/-- **A collection just before `ref`.** The result of `v0 & v1` is in no handle yet, another
thread collects, and the constructor takes a reference to a freed node. -/
theorem not_stored_of_interleaved : ∃ (s : State) (c : Client) (x y : Ptr) (s' : State) (r : Ptr),
    init smallPlatform 40 id id 11 11 3 = some s ∧
      Relation.ReflTransGen (Client.CountedActs smallPlatform) (Client.start s) c ∧
      c.operands .and 0 1 = some (x, y) ∧
      Relation.ReflTransGen (Interleaved smallPlatform)
        (.running ⟨c.table, .call .and x y, []⟩) (.returned s' r) ∧ r ∉ s'.stored := by
  obtain ⟨t, hrun, hgone⟩ := bddAnd_smallPair
  obtain ⟨u, hgc, hgone⟩ := (Option.any_eq_true _ _).mp hgone
  refine ⟨small, Client.smallPair, 3, 5, { u with heap := u.heap.ref 9 }, 9, init_small,
    Client.acts_smallPair, Client.operands_smallPair, ?_, of_decide_eq_true hgone⟩
  have hcollect : Interleaved smallPlatform (.running ⟨t, .ret 9, []⟩) (.running ⟨u, .ret 9, []⟩) :=
    Or.inr (.gc 40 hgc)
  exact ((interleaved_of_steps (steps_of_bddOp hrun)).tail hcollect).tail (Or.inl .construct)

/-- `v1 & v2` in a thread whose node is in the table with the counter at zero, as the child of
another handle's node. Another thread collects before each step, also while only locals of the
thread point at the node. -/
theorem interleaved_sparing_small : ∃ (c : Client) (s' : State) (r : Ptr),
    (c.table.heap r).refCount = 0 ∧ r ∈ s'.stored ∧
      s'.denote r = map₂ (Operator.connective .and) (c.table.denote 5) (c.table.denote 7) := by
  have hrun : ([Action.getVar 0, .getVar 1, .getVar 2, .apply .and 1 2, .apply .and 0 3,
      .destroy 3].foldlM (Client.briskly smallPlatform 20 40) (Client.start small)).any (fun c =>
        decide (5 ∈ c.table.stored ∧ 7 ∈ c.table.stored ∧ (c.table.heap 5).refCount ≠ 0 ∧
          (c.table.heap 7).refCount ≠ 0 ∧ (c.table.heap c.table.falseNode).refCount ≠ 0 ∧
          (c.table.heap c.table.trueNode).refCount ≠ 0) &&
        (((List.range 16).map (fun i => decide (i % 2 = 0))).foldlM (Caller.take smallPlatform 40)
          (.running ⟨c.table, .call .and 5 7, []⟩)).any (fun t =>
            match t with
            | .running _ => false
            | .returned _ r => decide ((c.table.heap r).refCount = 0))) = true := by
    decide +kernel
  obtain ⟨c, hc, hfacts⟩ := (Option.any_eq_true _ _).mp hrun
  obtain ⟨hfacts, hrun⟩ := (Bool.and_eq_true _ _).mp hfacts
  obtain ⟨hx, hy, hxc, hyc, hfalse, htrue⟩ := of_decide_eq_true hfacts
  obtain ⟨t, ht, hzero⟩ := (Option.any_eq_true _ _).mp hrun
  have h : Client.Exact smallPlatform 3 c :=
    (Client.exact_of_ready ready_small).run
      (fun c a ha => Client.noLoss_of_noAllocFails c a ha.1) (fun _ hfit => hfit)
      (Client.run_of_briskly hc)
  cases t with
  | running => exact absurd hzero nofun
  | returned s' r =>
    exact ⟨c, s', r, of_decide_eq_true hzero, interleaved_sparing (h.wf.mono fun _ _ => trivial)
      h.unmarked (by decide) hx hy hxc hyc hfalse htrue (Caller.run_of_take ht)⟩

end State

end Nanobdd
