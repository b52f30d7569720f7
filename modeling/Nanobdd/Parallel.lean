import Nanobdd.Footprint
import Nanobdd.Lib.Threads
import Nanobdd.Values

/-!
# Many threads

Any number of threads share the table and the objects. A thread takes an action on objects in one
step, and an operator step by step: it enters with two objects, goes through the locked regions
and the calls of the cache one after the other, and constructs the object of the result. Between
any two steps the other threads may do anything, except overwrite an object that a running
operator works on; that is a data race of the program.

The library promises that threads do not get into each other's way, and they do not, as long as
no collection takes a node that a running operator holds. Every interleaving is then one sequence
of whole actions, in the order in which they end.

## Main definitions

* `Activity`, `Takes` — what a thread is doing, and what it may do next
* `Works` — the invariant of a running operator

## Main results

* `linearizable_of_run` — **linearizability**: the objects hold what one thread computes with the
  same actions
-/

namespace Nanobdd

open BoolFun

/-! ### Threads -/

/-- What a thread is doing. -/
inductive Activity
  /-- Between two calls. -/
  | idle
  /-- Inside an operator on the objects `i` and `j`. -/
  | running (op : Operator) (i j : ℕ) (control : Control) (stack : List Frame)

namespace Activity

/-- The nodes that only local variables of the thread point at. -/
def held : Activity → List Ptr
  | idle => []
  | running _ _ _ control k => control.held ++ k.flatMap Frame.held

/-- The thread works on the object `k`. -/
def Uses (k : ℕ) : Activity → Prop
  | idle => False
  | running op i j _ _ => k = i ∨ op ≠ .not ∧ k = j

end Activity

/-- The action overwrites or destroys the object `k`. -/
def Action.Overwrites (k : ℕ) : Action → Prop
  | .moveConstruct i | .destroy i => k = i
  | .copyAssign i _ => k = i
  | .moveAssign i j => k = i ∨ k = j
  | _ => False

/-- All actions but the operators. -/
def Action.Brief : Action → Prop
  | .apply .. => False
  | _ => True

/-- What a thread does next. -/
inductive Move
  /-- An action that is one step. -/
  | act (a : Action)
  /-- Call an operator. -/
  | call (op : Operator) (i j : ℕ)
  /-- The next step of the operator. -/
  | step
  /-- Construct the object of the result and leave the operator. -/
  | construct

namespace Move

/-- The move may take nodes away. -/
def Collects : Move → Activity → Prop
  | act .gc, _ => True
  | step, .running _ _ _ (.maintain ..) _ => True
  | _, _ => False

/-- Neither `>>` nor a raw node. -/
def Plain : Move → Prop
  | act a => a.Plain
  | call op _ _ => op ≠ .imp
  | _ => True

/-- The actions that end with the move. -/
def ends : Move → Activity → List Action
  | act a, _ => [a]
  | construct, .running op i j _ _ => [.apply op i j]
  | _, _ => []

end Move

/-- One turn of a thread, given where the others are. -/
inductive Takes (P : Platform) (others : Activity → Prop) :
    Move → Client × Activity → Client × Activity → Prop
  | act {c c' : Client} {a : Action} (fuel : ℕ) : a.Brief → c.exec P fuel a = some c' →
      (∀ o k, others o → o.Uses k → ¬ a.Overwrites k) →
      Takes P others (.act a) (c, .idle) (c', .idle)
  | call {c : Client} {op : Operator} {i j : ℕ} {x y : Ptr} : c.operands op i j = some (x, y) →
      Takes P others (.call op i j) (c, .idle) (c, .running op i j (.call op x y) [])
  | step {c : Client} {s : State} {op : Operator} {i j : ℕ} {control control' : Control}
      {k k' : List Frame} : Step P ⟨c.table, control, k⟩ ⟨s, control', k'⟩ →
      Takes P others .step (c, .running op i j control k)
        ({ c with table := s }, .running op i j control' k')
  | construct {c c' : Client} {op : Operator} {i j : ℕ} {r : Ptr} : c.construct r = some c' →
      Takes P others .construct (c, .running op i j (.ret r) []) (c', .idle)

/-- No thread holds a node that a collection would take. -/
def Spares (others : Activity → Prop) (c : Client) (l : Activity) : Prop :=
  ∀ p, (p ∈ l.held ∨ ∃ o, others o ∧ p ∈ o.held) → c.table.Live p

/-- A turn in which no collection takes a node that a thread holds, and no counter wraps. -/
structure TakesSafely (P : Platform) (others : Activity → Prop) (m : Move)
    (a b : Client × Activity) : Prop where
  takes : Takes P others m a b
  plain : m.Plain
  spares : m.Collects a.2 → Spares others a.1 a.2
  fits : m.ends a.2 ≠ [] → b.1.ReferencesFit

variable {T : Type*} {P : Platform} {c c' : Client} {s s' : State} {p q x y r : Ptr}
  {i j k n fuel : ℕ} {a : Action} {op : Operator} {f : BoolFun} {l l' : Activity} {m : Move}
  {others : Activity → Prop}

/-! ### The operands of a running operator -/

namespace State

theorem cone_carry (h : Carries s s' (s.cone p)) : s'.cone p = s.cone p := by
  have hchildren : ∀ q ∈ s.cone p, s'.heap.children q = s.heap.children q := fun q hq =>
    Heap.children_congr (h.key q hq)
  ext q
  constructor
  · intro hq
    induction hq with
    | refl => exact .refl
    | tail _ hc ih => exact ih.tail (hchildren _ ih ▸ hc)
  · intro hq
    induction hq with
    | refl => exact .refl
    | tail hq hc ih => exact ih.tail ((hchildren _ hq).symm ▸ hc)

/-- The nodes below the operands. -/
def span (s : State) (op : Operator) (x y : Ptr) : Set Ptr :=
  {p | p ∈ s.cone x ∨ op ≠ .not ∧ p ∈ s.cone y}

theorem span_carry (h : Carries s s' (s.span op x y)) : s'.span op x y = s.span op x y := by
  rw [span, cone_carry (h.mono fun p hp => Or.inl hp)]
  by_cases hop : op = .not
  · subst hop
    ext p
    simp [span]
  · rw [cone_carry (h.mono fun p hp => Or.inr ⟨hop, hp⟩), span]

theorem operands_span (s : State) (op : Operator) (x y : Ptr) :
    Operands (s.span op x y) op x y :=
  ⟨Or.inl .refl, fun hn => Or.inr ⟨hn, .refl⟩⟩

theorem Robdd.anchored_span (hr : Robdd P s) (ho : Operands {p | p ∈ s.stored} op x y) :
    Anchored (s.span op x y) s where
  mem p hp := by
    rcases hp with hp | ⟨hn, hp⟩
    · exact hr.cone_stored ho.left p hp
    · exact hr.cone_stored (ho.right hn) p hp
  closed p hp q hq := by
    rcases hp with hp | ⟨hn, hp⟩
    · exact Or.inl (Relation.ReflTransGen.tail hp hq)
    · exact Or.inr ⟨hn, Relation.ReflTransGen.tail hp hq⟩

theorem Live.cone (h : s.Live p) : ∀ q ∈ s.cone p, s.Live q := by
  intro q hq
  induction hq with
  | refl => exact h
  | tail _ hc ih => exact ih.child hc

theorem span_live (ho : Operands {p | p ∈ s.stored ∧ s.Live p} op x y) :
    ∀ p ∈ s.span op x y, s.Live p := by
  rintro p (hp | ⟨hn, hp⟩)
  · exact ho.left.2.cone p hp
  · exact (ho.right hn).2.cone p hp

end State

open State

/-! ### The invariant -/

/-- A running operator makes a node for its result from what its operands denote now. -/
def Works (P : Platform) (c : Client) : Activity → Prop
  | .idle => True
  | .running op i j control k => op ≠ .imp ∧ ∃ x y, c.operands op i j = some (x, y) ∧
      State.Sound (fun _ => True) P (c.table.span op x y) (c.table.answer op x y)
        ⟨c.table, control, k⟩

/-- A change of table and objects that a thread does not notice. -/
structure Unnoticed (l : Activity) (c c' : Client) : Prop where
  carries : Carries c.table c'.table {p | p ∈ c.table.stored ∧ (c.table.Live p ∨ p ∈ l.held)}
  root : ∀ k p, l.Uses k → c.root k = some p → c'.root k = some p

theorem Unnoticed.operands {control : Control} {stack : List Frame}
    (h : Unnoticed (.running op i j control stack) c c') (ho : c.operands op i j = some (x, y)) :
    c'.operands op i j = some (x, y) := by
  obtain ⟨hx, hy⟩ := Client.operands_eq_some ho
  obtain ⟨hx, hxn⟩ := Client.node_eq_some.mp hx
  have hx' := Client.node_eq_some.mpr ⟨h.root i x (Or.inl rfl) hx, hxn⟩
  rw [Client.rightNode] at hy
  rw [Client.operands, hx', Client.rightNode]
  by_cases hop : op = .not
  · rw [if_pos hop] at hy ⊢
    cases hy
    rfl
  · rw [if_neg hop] at hy ⊢
    obtain ⟨hy, hyn⟩ := Client.node_eq_some.mp hy
    rw [Client.node_eq_some.mpr ⟨h.root j y (Or.inr ⟨hop, rfl⟩) hy, hyn⟩]
    rfl

/-- **The frame rule.** A running operator goes on as if nothing had happened. -/
theorem Works.frame (hl : Works P c l) (h : Client.Exact P n c)
    (hw : WellFormed (fun _ => True) P c'.table) (hu : Unnoticed l c c') : Works P c' l := by
  cases l with
  | idle => trivial
  | running op i j control k =>
    obtain ⟨hop, x, y, ho, hs⟩ := hl
    have hlive := h.operands_live ho
    have hr := h.wf.toRobdd
    have hspan : Carries c.table c'.table (c.table.span op x y) := hu.carries.mono fun p hp =>
      ⟨hs.anchored.mem p hp, Or.inl (span_live hlive p hp)⟩
    obtain ⟨-, hA, g, hg, hpend⟩ := hs
    refine ⟨hop, x, y, hu.operands ho, ?_⟩
    rw [span_carry hspan, answer_carry hr hw.toRobdd hA (operands_span _ op x y) hspan]
    refine ⟨hw, hA.carry hspan, g, hg.carry hr hw.toRobdd hA (hu.carries.mono ?_),
      hpend.carry (hu.carries.mono ?_)⟩
    · exact Set.union_subset (fun p hp => ⟨hA.mem p hp, Or.inl (span_live hlive p hp)⟩)
        fun p hp => ⟨hg.held_mem p hp, Or.inr (List.mem_append_left _ hp)⟩
    · exact Set.union_subset (fun p hp => ⟨hA.mem p hp, Or.inl (span_live hlive p hp)⟩)
        fun p hp => ⟨hpend.held_mem p hp, Or.inr (List.mem_append_right _ hp)⟩

/-- The nodes of a thread are stored. -/
theorem Works.held_mem (hl : Works P c l) : ∀ p ∈ l.held, p ∈ c.table.stored := by
  intro p hp
  cases l with
  | idle => exact absurd hp List.not_mem_nil
  | running op i j control k =>
    obtain ⟨-, x, y, -, -, -, g, hg, hpend⟩ := hl
    rcases List.mem_append.mp hp with hp | hp
    · exact hg.held_mem p hp
    · exact hpend.held_mem p hp

/-! ### Changes of the table -/

/-- What a step of an operator does to the table, for the other threads. -/
theorem Unnoticed.of_extends (hx : Extends c.table s) (hr : Robdd P c.table) (l : Activity) :
    Unnoticed l c { c with table := s } :=
  ⟨(hx.carries hr).mono fun _ hp => hp.1, fun _ _ _ hi => hi⟩

theorem Unnoticed.of_swept (hs : Swept P c.table s) (hr : Robdd P s)
    (hl : ∀ p ∈ l.held, c.table.Live p) : Unnoticed l c { c with table := s } :=
  ⟨(hs.carries hr).mono fun p hp => (hs.mem_iff p).mpr ⟨hp.1, hp.2.elim id (hl p)⟩,
    fun _ _ _ hi => hi⟩

/-- **A step of an operator**: the table and the objects keep their meaning, and the operator goes
on. Nobody else notices, unless the step is a collection. -/
theorem Works.step {control control' : Control} {stack stack' : List Frame}
    (hl : Works P c (.running op i j control stack)) (h : Client.Faithful P n c)
    (hst : Step P ⟨c.table, control, stack⟩ ⟨s, control', stack'⟩)
    (hsp : Move.step.Collects (.running op i j control stack) →
      Spares others c (.running op i j control stack)) :
    Client.Faithful P n { c with table := s } ∧
      ({ c with table := s } : Client).values = c.values ∧
      Works P { c with table := s } (.running op i j control' stack') ∧
      ∀ o, others o → Unnoticed o c { c with table := s } := by
  obtain ⟨hop, x, y, ho, hs⟩ := hl
  have hlive := h.operands_live ho
  have hspan := span_live hlive
  have hr := h.wf.toRobdd
  have hf : ∀ v, n ≤ v → (c.table.answer op x y).Ignores v := fun v hv =>
    h.answer_ignores ⟨hlive.left.1, fun hn => (hlive.right hn).1⟩ hv
  -- the operator after the step, with its operands in the old table
  suffices hsuff : State.Sound (fun _ => True) P (c.table.span op x y) (c.table.answer op x y)
      ⟨s, control', stack'⟩ ∧ Preserved (c.table.answer op x y) c.table s ∧
      Carries c.table s (c.table.span op x y) ∧
      ∀ o, others o → Unnoticed o c { c with table := s } by
    obtain ⟨hs', hp, hcarry, hothers⟩ := hsuff
    obtain ⟨hfaithful, hvalues⟩ := h.withTable hs'.wf hp hf
    refine ⟨hfaithful, hvalues, ⟨hop, x, y, ho, ?_⟩, hothers⟩
    show State.Sound _ P (s.span op x y) (s.answer op x y) ⟨s, control', stack'⟩
    rw [span_carry hcarry,
      answer_carry hr hs'.wf.toRobdd hs.anchored (operands_span _ op x y) hcarry]
    exact hs'
  by_cases hm : Config.Maintains ⟨c.table, control, stack⟩
  · cases hst with
    | @maintain _ _ op₁ x₁ y₁ m fLow fHigh _ fuel hpm =>
      have hspared := hsp trivial
      obtain ⟨cache, hcache, -⟩ := h.wf.cache
      obtain ⟨hswept, -, -⟩ := h.wf.toStore.performMaintenance h.wf.closed h.unmarked hcache hpm
      have hr' := hr.swept hswept h.live_false h.live_true
      have hs' := hs.swept hswept h.live_false h.live_true hspan fun p hp => hspared p (Or.inl hp)
      refine ⟨⟨hs'.wf, hs'.anchored, hs'.expects⟩,
        (Preserved.refl h.unmarked).swept hswept hr.closed hr',
        (hswept.carries hr').mono fun p hp => (hswept.mem_iff p).mpr
          ⟨hs.anchored.mem p hp, hspan p hp⟩,
        fun o ho => Unnoticed.of_swept hswept hr' fun p hp => hspared p (Or.inr ⟨o, ho, hp⟩)⟩
    | _ => exact absurd hm id
  · obtain ⟨hadv, hs'⟩ := hs.step hst hm
    exact ⟨hs', (Preserved.refl h.unmarked).advance hadv hr,
      (hadv.extends.carries hr).mono hs.anchored.mem,
      fun o _ => Unnoticed.of_extends hadv.extends hr o⟩

/-! ### Changes of the objects -/

namespace Client

/-- Only counters have changed. -/
theorem Counted.carries (hre : Counted s s') (hr : Robdd P s) :
    Carries s s' {p | p ∈ s.stored} :=
  ⟨⟨hre.falseNode, hre.trueNode, hre.vars, hre.nvars⟩,
    fun _ hp => hre.toRecounted.stored_eq ▸ hp, fun p hp => hre.toRecounted.agrees.key p hp,
    fun _ hp => hr.denote_eq hre.toRecounted.agrees hp⟩

/-- An action leaves alone what it does not overwrite. -/
theorem exec_root (hc : c.exec P fuel a = some c') (hk : ¬ a.Overwrites k)
    (hp : c.root k = some p) : c'.root k = some p := by
  have hcon : ∀ {r : Ptr} {b : Client}, b.root k = some p → b.construct r = some c' →
      c'.root k = some p := fun {r b} hb hcon => by
    obtain ⟨-, rfl⟩ := construct_eq_some hcon
    exact root_push_of_root (by rw [root_ref, hb]) r
  cases a with
  | constructDefault => exact hcon hp hc
  | construct r => exact hcon hp hc
  | copyConstruct i =>
    obtain ⟨r, -, hc⟩ := Option.bind_eq_some_iff.mp hc
    cases hc
    exact root_push_of_root (by rw [root_ref, hp]) r
  | moveConstruct i =>
    obtain ⟨r, -, hc⟩ := Option.bind_eq_some_iff.mp hc
    cases hc
    rw [root_setRoot_of_ne (Ne.symm hk)]
    exact root_push_of_root hp r
  | destroy i =>
    obtain ⟨r, -, hc⟩ := Option.bind_eq_some_iff.mp hc
    cases hc
    rw [root_setRoot_of_ne (Ne.symm hk), root_deref, hp]
  | copyAssign i j =>
    obtain ⟨r, -, hc⟩ := Option.bind_eq_some_iff.mp hc
    obtain ⟨r', -, hc⟩ := Option.bind_eq_some_iff.mp hc
    split at hc <;> cases hc
    · exact hp
    · rw [root_setRoot_of_ne (Ne.symm hk), root_deref, root_ref, hp]
  | moveAssign i j =>
    obtain ⟨r, -, hc⟩ := Option.bind_eq_some_iff.mp hc
    obtain ⟨r', -, hc⟩ := Option.bind_eq_some_iff.mp hc
    obtain ⟨hki, hkj⟩ := not_or.mp hk
    split at hc <;> cases hc
    · exact hp
    · rw [root_setRoot_of_ne (Ne.symm hkj), root_setRoot_of_ne (Ne.symm hki), root_deref, hp]
  | apply op i j =>
    obtain ⟨⟨x, y⟩, -, hc⟩ := Option.bind_eq_some_iff.mp hc
    obtain ⟨⟨r, t⟩, -, hc⟩ := Option.bind_eq_some_iff.mp hc
    exact hcon (b := { c with table := t }) hp hc
  | getVar id =>
    obtain ⟨r, -, hc⟩ := Option.bind_eq_some_iff.mp hc
    exact hcon hp hc
  | getNvar id =>
    obtain ⟨r, -, hc⟩ := Option.bind_eq_some_iff.mp hc
    exact hcon hp hc
  | bddFalse => exact hcon hp hc
  | bddTrue => exact hcon hp hc
  | gc =>
    obtain ⟨t, -, hc⟩ := Option.bind_eq_some_iff.mp hc
    cases hc
    exact hp

theorem admits_of_brief (ok : State → Operator → Ptr → Ptr → Prop) (hb : a.Brief)
    (hplain : a.Plain) : c.Admits ok a := by
  cases a with
  | construct p => exact hplain.elim
  | apply op i j => exact hb.elim
  | _ => trivial

end Client

/-- **An action of another thread.** -/
theorem Unnoticed.of_exec (h : Client.Faithful P n c) (hb : a.Brief)
    (hc : c.exec P fuel a = some c')
    (hl : Move.Collects (.act a) .idle → ∀ p ∈ l.held, c.table.Live p)
    (hk : ∀ k, l.Uses k → ¬ a.Overwrites k) : Unnoticed l c c' := by
  refine ⟨?_, fun k p hu hp => Client.exec_root hc (hk k hu) hp⟩
  rcases Client.exec_table hc with hre | ⟨op, i, j, x, y, r, s, rfl, -⟩ | ⟨rfl, -⟩
  · exact (hre.carries h.wf.toRobdd).mono fun _ hp => hp.1
  · exact hb.elim
  · obtain ⟨hexact, hswept⟩ := h.gc hc
    exact (hswept.carries hexact.wf.toRobdd).mono fun p hp =>
      (hswept.mem_iff p).mpr ⟨hp.1, hp.2.elim id (hl trivial p)⟩

/-- **The end of an operator.** The new object holds the result, and the operator is one action
on what the objects hold now. -/
theorem Works.construct (hl : Works P c (.running op i j (.ret r) []))
    (h : Client.Faithful P n c) (hc : c.construct r = some c')
    (hfit : c'.ReferencesFit) : Client.Faithful P n c' ∧
      c.values.exec n (.apply op i j) = some c'.values := by
  obtain ⟨hop, x, y, ho, -, -, g, ⟨hmem, hd⟩, hpend⟩ := hl
  cases hpend
  have hlive := h.operands_live ho
  have hexec : c.exec P 0 (.construct r) = some c' := hc
  refine ⟨h.exec hexec hmem hfit, ?_⟩
  obtain ⟨hf, g, hg, hgy⟩ := Client.values_operands ho
  rw [h.construct_values hmem hc, hd, answer_of_ne_imp h.wf.toRobdd hop
    ⟨hlive.left.1, fun hn => (hlive.right hn).1⟩, Values.exec, hf, hg,
    Client.map₂_connective_congr fun hn => (hgy hn).symm]
  rfl

/-! ### Runs -/

/-- Who ends which action. -/
def record (t : T) (m : Move) (l : Activity) : List (T × Action) := (m.ends l).map fun a => (t, a)

/-- A run of many threads, with the actions in the order in which they end. -/
abbrev Interleaving [DecidableEq T] (P : Platform) :
    List (T × Action) → Pool T Client Activity → Pool T Client Activity → Prop :=
  Pool.Run (TakesSafely P) record

/-- What an idle thread changes, the others do not notice. -/
theorem TakesSafely.faithful {b : Client × Activity} (ht : TakesSafely P others m (c, l) b)
    (h : Client.Faithful P n c) (hl : Works P c l) : Client.Faithful P n b.1 ∧ Works P b.1 b.2 ∧
      (∀ o, others o → Unnoticed o c b.1) ∧
      ((m.ends l).foldlM (Values.exec n) c.values) = some b.1.values := by
  obtain ⟨htakes, hplain, hspares, hfits⟩ := ht
  cases htakes with
  | @act _ c' a fuel hb hc hk =>
    have ha := Client.admits_of_brief (c := c) (NoLoss P) hb hplain
    refine ⟨h.exec hc ha (hfits (List.cons_ne_nil _ _)), trivial, fun o ho =>
      Unnoticed.of_exec h hb hc (fun hm p hp => hspares hm p (Or.inr ⟨o, ho, hp⟩)) (hk o · ho), ?_⟩
    rw [Move.ends, List.foldlM_cons, h.exec_values hc ha hplain]
    rfl
  | @call _ op i j x y ho =>
    have hlive := h.operands_live ho
    have hstored : Operands {p | p ∈ c.table.stored} op x y :=
      ⟨hlive.left.1, fun hn => (hlive.right hn).1⟩
    exact ⟨h, ⟨hplain, x, y, ho, h.wf, h.wf.toRobdd.anchored_span hstored, _,
      ⟨⟨trivial, trivial⟩, operands_span _ op x y, rfl⟩, Pending.nil _⟩,
      fun o _ => Unnoticed.of_extends (Extends.refl _) h.wf.toRobdd o, rfl⟩
  | step hst =>
    obtain ⟨hfaithful, hvalues, hworks, hothers⟩ := hl.step h hst hspares
    exact ⟨hfaithful, hworks, hothers, hvalues ▸ rfl⟩
  | @construct _ c' op i j r hc =>
    obtain ⟨hfaithful, hvalues⟩ := hl.construct h hc (hfits (List.cons_ne_nil _ _))
    refine ⟨hfaithful, trivial, fun o _ => ?_, ?_⟩
    · obtain ⟨-, rfl⟩ := Client.construct_eq_some hc
      exact ⟨((Client.counted_ref c r).carries h.wf.toRobdd).mono fun _ hp => hp.1,
        fun k p _ hp => Client.root_push_of_root (by rw [Client.root_ref, hp]) r⟩
    · rw [Move.ends, List.foldlM_cons, hvalues]
      rfl

theorem stable (P : Platform) (n : ℕ) :
    Pool.Run.Stable (TakesSafely P) (Client.Faithful P n) (Works P) := by
  intro others m c l c' l' ht h hl ho
  obtain ⟨hfaithful, hworks, hothers, -⟩ := ht.faithful h hl
  exact ⟨hfaithful, hworks, fun o hmem => (ho o hmem).frame h.toExact hfaithful.wf (hothers o hmem)⟩

/-- Many threads right after `init`. -/
def Pool.start (T : Type*) (s : State) : Pool T Client Activity := ⟨Client.start s, fun _ => .idle⟩

theorem keeps_start (h : Ready P s n n) :
    Pool.Keeps (Client.Faithful P n) (Works P) (Pool.start T s) :=
  ⟨Client.faithful_of_ready h, fun _ => trivial⟩

/-- **Linearizability.** Threads work on shared objects, with any interleaving of their steps. In
every state the objects hold what one thread would compute with the actions that have ended, one
after the other; the table is canonical and the counters are exact, whatever the operators that
still run have stored. -/
theorem linearizable_of_run [DecidableEq T] {rand₁ rand₂ : ℕ → ℕ}
    {tableSize cacheSize varNum : ℕ} {w : List (T × Action)} {c : Pool T Client Activity}
    (hv : varNum < uintMax)
    (hi : State.init P fuel rand₁ rand₂ tableSize cacheSize varNum = some s)
    (hc : Interleaving P w (Pool.start T s) c) :
    w.foldlM (fun v ta => Values.exec varNum v ta.2) [] = some c.shared.values ∧
      Client.Canonical varNum c.shared ∧
      ∀ p ∈ c.shared.table.stored,
        (c.shared.table.heap p).refCount = c.shared.handles p + c.shared.table.permanent p := by
  have hstart := keeps_start (T := T) (ready_of_init hv hi)
  have h := (hc.invariant (stable P varNum) hstart).1
  refine ⟨hc.replay (f := Client.values) (stable P varNum)
    (fun others t m b l b' l' ht hb hl => ?_) hstart, h.canonical, h.counted⟩
  rw [record, List.foldlM_map]
  exact (ht.faithful hb hl).2.2.2

/-! ### Two threads -/

/-- The steps of an operator without maintenance, one after the other. -/
theorem run_of_steps [DecidableEq T] {d : Pool T Client Activity} {t : T} {control : Control}
    {stack : List Frame} {b : Config} (hpc : d.pc t = .running op i j control stack)
    (hn : ∀ e, Steps P ⟨d.shared.table, control, stack⟩ e → ¬ e.Maintains)
    (h : Steps P ⟨d.shared.table, control, stack⟩ b) :
    Interleaving P [] d
      (d.move t { d.shared with table := b.state } (.running op i j b.control b.stack)) := by
  induction h with
  | refl =>
    have hsame : d.move t d.shared (.running op i j control stack) = d := by
      rw [← hpc, Pool.move_self]
    exact hsame.symm ▸ Pool.Run.refl d
  | @tail b e hab hbe ih =>
    have hstep := ih.tail (t := t) (m := .step)
      (s := { d.shared with table := e.state }) (l := .running op i j e.control e.stack) (by
        rw [Pool.move_shared, Pool.move_pc_self]
        refine ⟨.step hbe, trivial, fun hm => ?_, fun hne => absurd rfl hne⟩
        obtain ⟨u, control', k'⟩ := b
        cases control' with
        | maintain => exact absurd trivial (hn _ hab)
        | _ => exact hm.elim)
    rw [Pool.move_move, Pool.move_pc_self] at hstep
    exact hstep

/-- A whole operator without a failing allocation. -/
theorem run_of_bddOp [DecidableEq T] {d : Pool T Client Activity} {t : T} {N : ℕ} {c' : Client}
    (hpc : d.pc t = .running op i j (.call op x y) [])
    (hends : Config.endsWithin P N ⟨d.shared.table, .call op x y, []⟩ = true)
    (hrun : d.shared.table.bddOp P op fuel x y = some (r, s))
    (hc : ({ d.shared with table := s } : Client).construct r = some c')
    (hfit : c'.ReferencesFit) :
    Interleaving P [(t, .apply op i j)] d (d.move t c' .idle) := by
  have hn := not_allocFails_of_endsWithin hends
  have hsteps := run_of_steps hpc
    (fun e he => not_maintains_of_noAllocFails id hn he) (steps_of_bddOp (k := []) hrun)
  have hlast := hsteps.tail (t := t) (m := .construct) (s := c') (l := .idle) (by
    rw [Pool.move_shared, Pool.move_pc_self]
    exact ⟨.construct hc, trivial, fun hm => hm.elim, fun _ => hfit⟩)
  rw [Pool.move_move, Pool.move_pc_self] at hlast
  exact hlast

/-- A thread takes an object for a variable. -/
theorem run_of_getVar [DecidableEq T] {d : Pool T Client Activity} {t : T}
    (hpc : d.pc t = .idle) (hp : d.shared.table.vars[i]? = some p) (hne : p ≠ nullptr)
    (hfit : ((d.shared.ref p).push p).ReferencesFit) :
    Interleaving P [(t, .getVar i)] d (d.move t ((d.shared.ref p).push p) .idle) := by
  have hrefl : Interleaving P [] d d := Pool.Run.refl d
  have hrun := hrefl.tail (t := t)
    (m := .act (.getVar i)) (s := (d.shared.ref p).push p) (l := .idle) (by
      rw [hpc]
      exact ⟨.act 0 trivial (Client.getVar_eq hp hne) fun _ _ _ _ ho => ho, trivial,
        fun hm => hm.elim, fun _ => hfit⟩)
  rw [hpc] at hrun
  exact hrun

theorem run_of_call [DecidableEq T] {d : Pool T Client Activity} {t : T} (hpc : d.pc t = .idle)
    (ho : d.shared.operands op i j = some (x, y)) (hop : op ≠ .imp) :
    Interleaving P [] d (d.move t d.shared (.running op i j (.call op x y) [])) := by
  have hrefl : Interleaving P [] d d := Pool.Run.refl d
  have hrun := hrefl.tail (t := t)
    (m := .call op i j) (s := d.shared) (l := .running op i j (.call op x y) []) (by
      rw [hpc]
      exact ⟨.call ho, hop, fun hm => hm.elim, fun hne => absurd rfl hne⟩)
  rw [hpc] at hrun
  exact hrun

/-- While one thread is in `v0 & v1`, the other computes `!v0`. -/
theorem run_small : ∃ c : Pool Bool Client Activity, Interleaving smallPlatform
    [(false, .getVar 0), (false, .getVar 1), (true, .apply .not 0 0), (false, .apply .and 0 1)]
    (Pool.start Bool small) c ∧ c.shared.bdds.length = 4 := by
  have hsome : (Client.smallPair.table.bddOp smallPlatform .not 40 3 nullptr).any (fun a =>
      (({ Client.smallPair with table := a.2 } : Client).construct a.1).any fun c =>
        (c.table.bddOp smallPlatform .and 40 3 5).any fun b =>
          (({ c with table := b.2 } : Client).construct b.1).any fun d => decide
            (Config.endsWithin smallPlatform 20 ⟨c.table, .call .and 3 5, []⟩ = true ∧
              d.bdds.length = 4 ∧
              c.bdds.length + (c.table.vars.length + c.table.nvars.length + 2) < 2 ^ 32 ∧
              d.bdds.length + (d.table.vars.length + d.table.nvars.length + 2) < 2 ^ 32)) =
      true := by decide +kernel
  obtain ⟨⟨r, t⟩, hnot, hsome⟩ := (Option.any_eq_true _ _).mp hsome
  obtain ⟨c, hc, hsome⟩ := (Option.any_eq_true _ _).mp hsome
  obtain ⟨⟨q, u⟩, hand, hsome⟩ := (Option.any_eq_true _ _).mp hsome
  obtain ⟨d, hd, hfacts⟩ := (Option.any_eq_true _ _).mp hsome
  obtain ⟨hends, hlength, hcfit, hdfit⟩ := of_decide_eq_true hfacts
  have h₁ := run_of_getVar (P := smallPlatform) (d := Pool.start Bool small) (t := false) (i := 0)
    (p := 3) rfl (congrArg (·[0]?) vars_small) (by decide)
    (Client.referencesFit_small rfl rfl (by decide))
  have h₂ := h₁.trans (run_of_getVar (t := false) (i := 1) (p := 5) (Pool.move_pc_self ..)
    (congrArg (·[1]?) vars_small) (by decide) (Client.referencesFit_small rfl rfl (by decide)))
  rw [Pool.move_move] at h₂
  have h₃ := h₂.trans (run_of_call (t := false) (Pool.move_pc_self ..) Client.operands_smallPair
    (show Operator.and ≠ .imp by decide))
  rw [Pool.move_move] at h₃
  have h₄ := h₃.trans (run_of_call (t := true) (i := 0) (j := 0) (x := 3) (y := nullptr)
    (Pool.move_pc_of_ne (by decide)) rfl (show Operator.not ≠ .imp by decide))
  have h₅ := h₄.trans (run_of_bddOp (t := true) (N := 20) (Pool.move_pc_self ..)
    (by decide +kernel) hnot hc (Client.referencesFit_of_length hcfit))
  rw [Pool.move_move] at h₅
  have h₆ := h₅.trans (run_of_bddOp (t := false) (N := 20) (x := 3) (y := 5) (i := 0) (j := 1)
    (by rw [Pool.move_pc_of_ne (by decide), Pool.move_pc_self]) hends hand hd
    (Client.referencesFit_of_length hdfit))
  exact ⟨_, h₆, hlength⟩

theorem linearizable_of_run_small : ∃ c : Pool Bool Client Activity,
    [(false, Action.getVar 0), (false, .getVar 1), (true, .apply .not 0 0),
      (false, .apply .and 0 1)].foldlM (fun v ta => Values.exec 3 v ta.2) [] =
        some c.shared.values ∧
      c.shared.bdds.length = 4 := by
  obtain ⟨c, hc, hlength⟩ := run_small
  exact ⟨c, (linearizable_of_run (by decide) init_small hc).1, hlength⟩

/-! ### Schedules -/

/-- The action is one step, and overwrites no object. -/
def Action.Gentle : Action → Bool
  | .constructDefault | .copyConstruct _ | .getVar _ | .getNvar _ | .bddFalse | .bddTrue
  | .gc => true
  | _ => false

instance : DecidableRel Move.Collects
  | .act .gc, _ => isTrue trivial
  | .step, .running _ _ _ (.maintain ..) _ => isTrue trivial
  | .step, .running _ _ _ (.call ..) _ | .step, .running _ _ _ (.ret _) _
  | .step, .running _ _ _ (.create ..) _ | .step, .running _ _ _ (.insert ..) _
  | .step, .idle | .call .., _ | .construct, _ | .act .constructDefault, _
  | .act (.construct _), _ | .act (.copyConstruct _), _ | .act (.moveConstruct _), _
  | .act (.destroy _), _ | .act (.copyAssign ..), _ | .act (.moveAssign ..), _
  | .act (.apply ..), _ | .act (.getVar _), _ | .act (.getNvar _), _ | .act .bddFalse, _
  | .act .bddTrue, _ => isFalse id

/-- What a move of a thread does. -/
def Move.take (P : Platform) (fuel : ℕ) (c : Client) : Move → Activity → Option (Client × Activity)
  | .act a, .idle => if a.Gentle then (c.exec P fuel a).map fun c' => (c', .idle) else none
  | .call op i j, .idle =>
    if op ≠ .imp then
      (c.operands op i j).map fun xy => (c, .running op i j (.call op xy.1 xy.2) [])
    else none
  | .step, .running o i j (.maintain op x y m fLow fHigh) k =>
    (c.table.performMaintenance P fuel).map fun s =>
      ({ c with table := s }, .running o i j (.create op x y m fLow fHigh) k)
  | .step, .running o i j control k =>
    (Config.next P ⟨c.table, control, k⟩).map fun b =>
      ({ c with table := b.state }, .running o i j b.control b.stack)
  | .construct, .running _ _ _ (.ret r) [] => (c.construct r).map fun c' => (c', .idle)
  | _, _ => none

theorem Takes.of_take (h : m.take P fuel c l = some (c', l')) :
    Takes P others m (c, l) (c', l') ∧ m.Plain := by
  cases m with
  | act a =>
    cases l with
    | idle =>
      rw [Move.take] at h
      split_ifs at h with ha
      obtain ⟨c'', hc, he⟩ := Option.map_eq_some_iff.mp h
      cases he
      cases a <;> first
        | exact ⟨.act fuel trivial hc fun _ _ _ _ ho => ho, trivial⟩
        | exact absurd ha nofun
    | running => exact absurd h nofun
  | call op i j =>
    cases l with
    | idle =>
      rw [Move.take] at h
      split_ifs at h with hop
      obtain ⟨⟨x, y⟩, ho, he⟩ := Option.map_eq_some_iff.mp h
      cases he
      exact ⟨.call ho, hop⟩
    | running => exact absurd h nofun
  | step =>
    cases l with
    | idle => exact absurd h nofun
    | running o i j control k =>
      refine ⟨?_, trivial⟩
      cases control with
      | maintain =>
        obtain ⟨s, hs, he⟩ := Option.map_eq_some_iff.mp h
        cases he
        exact .step (.maintain fuel hs)
      | _ =>
        obtain ⟨b, hb, he⟩ := Option.map_eq_some_iff.mp h
        cases he
        exact .step (step_of_next hb)
  | construct =>
    cases l with
    | idle => exact absurd h nofun
    | running o i j control k =>
      cases control with
      | ret r =>
        cases k with
        | nil =>
          obtain ⟨c'', hc, he⟩ := Option.map_eq_some_iff.mp h
          cases he
          exact ⟨.construct hc, trivial⟩
        | cons => exact absurd h nofun
      | _ => exact absurd h nofun

section schedule

variable [Fintype T] [DecidableEq T] {d : Pool T Client Activity} {t : T}
  {b : Move × Client × Activity}

/-- What the threads hold is counted as well. -/
def Spared (d : Pool T Client Activity) : Prop :=
  ∀ u, ∀ p ∈ (d.pc u).held, p ∈ d.shared.table.stored ∧ (d.shared.table.heap p).refCount ≠ 0

instance (d : Pool T Client Activity) : Decidable (Spared d) :=
  inferInstanceAs (Decidable (∀ u, ∀ p ∈ (d.pc u).held, _ ∧ _))

/-- A safe turn, computed: a collection meets no node that only a thread holds, and there are few
objects. -/
def taken (P : Platform) (fuel : ℕ) (d : Pool T Client Activity) (t : T) (m : Move) :
    Option (Move × Client × Activity) :=
  if m.Collects (d.pc t) → Spared d then
    (m.take P fuel d.shared (d.pc t)).bind fun b =>
      if b.1.bdds.length + (b.1.table.vars.length + b.1.table.nvars.length + 2) < 2 ^ 32 then
        some (m, b)
      else none
  else none

omit [DecidableEq T] in
/-- What is executed is a safe turn. -/
theorem takesSafely_of_taken (h : taken P fuel d t m = some b) :
    TakesSafely P (d.others t) b.1 (d.shared, d.pc t) (b.2.1, b.2.2) := by
  rw [taken] at h
  split_ifs at h with hspared
  obtain ⟨⟨c, l⟩, htake, h⟩ := Option.bind_eq_some_iff.mp h
  split_ifs at h with hfew
  cases h
  obtain ⟨htakes, hplain⟩ := Takes.of_take htake
  refine ⟨htakes, hplain, fun hc p hp => ?_, fun _ => Client.referencesFit_of_length hfew⟩
  obtain ⟨u, hu⟩ : ∃ u, p ∈ (d.pc u).held := by
    rcases hp with hp | ⟨_, ⟨u, -, rfl⟩, hp⟩
    · exact ⟨t, hp⟩
    · exact ⟨u, hp⟩
  obtain ⟨hmem, hcount⟩ := hspared hc u p hu
  exact Live.of_refCount hmem hcount

omit [DecidableEq T] in
theorem fst_of_taken (h : taken P fuel d t m = some b) : b.1 = m := by
  rw [taken] at h
  split_ifs at h
  obtain ⟨_, -, h⟩ := Option.bind_eq_some_iff.mp h
  split_ifs at h
  cases h
  rfl

end schedule

end Nanobdd
