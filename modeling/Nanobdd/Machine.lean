import Nanobdd.Robdd

/-!
# The operators one step at a time

The recursion of the operators taken apart. A `Config` is the state, what the running call is
about to do, and the frames of the calls below it; a `Step` is one lock-protected region of the
source or one call of the cache, with the local work around it. Between two steps another thread
may run, and `maintain` is where a collection can take nodes away that only a frame knows.

## Main definitions

* `Config`, `Step` — the machine
* `Config.held` — the nodes that only local variables of the recursion point at

## Main results

* `bddOp_succ` — the six recursions are one
* `steps_of_bddOp` — the recursive functions are runs of the machine
-/

namespace Nanobdd

variable {P : Platform} {s s' : State} {op : Operator} {x y r : Ptr} {fuel m : ℕ}

/-! ### One recursion -/

namespace Operator

/-- The operator of the two recursive calls. -/
def child : Operator → Operator
  | imp => diff
  | op => op

/-- The second operand as the cache and the recursion see it. -/
def right (op : Operator) (y : Ptr) : Ptr :=
  match op with
  | not => nullptr
  | _ => y

theorem child_ne_imp (op : Operator) : op.child ≠ imp := by cases op <;> simp [child]

@[simp] theorem child_child (op : Operator) : op.child.child = op.child := by cases op <;> rfl

theorem child_eq_not_iff : op.child = not ↔ op = not := by cases op <;> simp [child]

@[simp] theorem right_right (op : Operator) (y : Ptr) : op.right (op.right y) = op.right y := by
  cases op <;> rfl

end Operator

namespace State

/-- The terminal tests of an operator. -/
def terminal (s : State) (op : Operator) (x y : Ptr) : Option Ptr :=
  match op with
  | .and => s.andTerminal x y
  | .or => s.orTerminal x y
  | .not => s.notTerminal x
  | .xor => s.xorTerminal x y
  | .diff => s.diffTerminal x y
  | .imp => s.impTerminal x y

/-- The level at which an operator expands its operands. -/
def topLevel (s : State) (op : Operator) (x y : Ptr) : ℕ :=
  match op with
  | .not => (s.heap x).level
  | _ => s.minLevel x y

/-- The body of the recursions after the terminal tests, for an operator that recurses into
`rec`. -/
def expand (P : Platform) (op : Operator) (rec : State → Ptr → Ptr → Option (Ptr × State))
    (fuel : ℕ) (s : State) (x y : Ptr) : Option (Ptr × State) :=
  (s.cacheLookup P op x (op.right y)).bind fun c =>
    if c.1 ≠ nullptr then some c
    else
      let m := c.2.topLevel op x y
      (rec c.2 (c.2.negCof x m) (op.right (c.2.negCof y m))).bind fun l =>
        (rec l.2 (l.2.posCof x m) (op.right (l.2.posCof y m))).bind fun h =>
          (h.2.combine P fuel m l.1 h.1).bind fun res =>
            (res.2.cacheInsert P op res.1 x (op.right y)).map fun s => (res.1, s)

theorem bind_some_pair (o : Option State) (r : Ptr) :
    (do let s ← o; some (r, s)) = o.map fun s => (r, s) := by
  cases o <;> rfl

theorem bddApply_succ (P : Platform) (op : Operator) (terminal : State → Ptr → Ptr → Option Ptr)
    (fuel : ℕ) (s : State) (x y : Ptr) (hr : ∀ y, op.right y = y)
    (hm : ∀ s : State, s.topLevel op x y = s.minLevel x y) :
    bddApply P op terminal (fuel + 1) s x y =
      match terminal s x y with
      | some r => some (r, s)
      | none => expand P op (bddApply P op terminal fuel) fuel s x y := by
  rw [bddApply]
  simp only [bind_some_pair, expand, hr, hm]
  cases hc : s.cache with
  | none => simp only [cacheLookup, hc, Option.map_none, Option.bind_none]; rfl
  | some c => simp only [cacheLookup, hc, Option.map_some, Option.bind_some]; rfl

/-- **The six recursions are one.** -/
theorem bddOp_succ (P : Platform) (op : Operator) (fuel : ℕ) (s : State) (x y : Ptr) :
    bddOp P op (fuel + 1) s x y =
      match s.terminal op x y with
      | some r => some (r, s)
      | none => expand P op (bddOp P op.child fuel) fuel s x y := by
  cases op with
  | and => exact bddApply_succ P .and _ fuel s x y (fun _ => rfl) fun _ => rfl
  | or => exact bddApply_succ P .or _ fuel s x y (fun _ => rfl) fun _ => rfl
  | xor => exact bddApply_succ P .xor _ fuel s x y (fun _ => rfl) fun _ => rfl
  | diff => exact bddApply_succ P .diff _ fuel s x y (fun _ => rfl) fun _ => rfl
  | not =>
    show bddNot P (fuel + 1) s x = _
    rw [bddNot]
    simp only [bind_some_pair]
    rfl
  | imp =>
    show bddImp P (fuel + 1) s x y = _
    rw [bddImp]
    simp only [bind_some_pair, expand]
    cases hc : s.cache with
    | none => simp only [cacheLookup, hc, Option.map_none, Option.bind_none]; rfl
    | some c => simp only [cacheLookup, hc, Option.map_some, Option.bind_some]; rfl

end State

/-! ### Configurations and steps -/

/-- What the running call of an operator is about to do. `op`, `x` and `y` are the operator and
the operands of that call. -/
inductive Control
  /-- Enter the operator: the terminal tests and the lookup are next. -/
  | call (op : Operator) (x y : Ptr)
  /-- Find or create the node for the two results: a pass of the loop is next. -/
  | create (op : Operator) (x y : Ptr) (m : ℕ) (fLow fHigh : Ptr)
  /-- `allocate` returned null: `performMaintenance` is next. -/
  | maintain (op : Operator) (x y : Ptr) (m : ℕ) (fLow fHigh : Ptr)
  /-- The insertion into the cache is next. -/
  | insert (op : Operator) (x y res : Ptr)
  /-- Return to the caller. -/
  | ret (r : Ptr)
  deriving DecidableEq

/-- A call that waits for its first or its second recursive call. -/
inductive Frame
  | low (op : Operator) (x y : Ptr) (m : ℕ)
  | high (op : Operator) (x y : Ptr) (m : ℕ) (fLow : Ptr)
  deriving DecidableEq

/-- A thread inside an operator. -/
structure Config where
  state : State
  control : Control
  stack : List Frame

namespace Frame

/-- The result that only this frame knows. -/
def held : Frame → List Ptr
  | low .. => []
  | high _ _ _ _ fLow => [fLow]

end Frame

namespace Control

/-- The nodes that only the local variables of the running call point at. -/
def held : Control → List Ptr
  | call .. => []
  | create _ _ _ _ fLow fHigh => [fLow, fHigh]
  | maintain _ _ _ _ fLow fHigh => [fLow, fHigh]
  | insert _ _ _ res => [res]
  | ret r => [r]

end Control

/-- The nodes that only local variables of the recursion point at. -/
def Config.held (c : Config) : List Ptr := c.control.held ++ c.stack.flatMap Frame.held

/-- The running call is in `performMaintenance`. -/
def Config.Maintains (c : Config) : Prop :=
  match c.control with
  | .maintain .. => True
  | _ => False

/-- The call is about to find or create a node, and `allocate` returns null. -/
def Config.AllocFails (P : Platform) (c : Config) : Prop :=
  match c.control with
  | .create _ _ _ m fLow fHigh => c.state.AllocFails P m fLow fHigh
  | _ => False

/-- One step of a thread inside an operator. -/
inductive Step (P : Platform) : Config → Config → Prop
  | terminal {s op x y r k} : s.terminal op x y = some r →
      Step P ⟨s, .call op x y, k⟩ ⟨s, .ret r, k⟩
  | hit {s s' op x y r k} : s.terminal op x y = none →
      s.cacheLookup P op x (op.right y) = some (r, s') → r ≠ nullptr →
      Step P ⟨s, .call op x y, k⟩ ⟨s', .ret r, k⟩
  | miss {s s' op x y k} : s.terminal op x y = none →
      s.cacheLookup P op x (op.right y) = some (nullptr, s') →
      Step P ⟨s, .call op x y, k⟩
        ⟨s', .call op.child (s'.negCof x (s'.topLevel op x y))
            (op.right (s'.negCof y (s'.topLevel op x y))),
          .low op x y (s'.topLevel op x y) :: k⟩
  | second {s op x y m fLow k} :
      Step P ⟨s, .ret fLow, .low op x y m :: k⟩
        ⟨s, .call op.child (s.posCof x m) (op.right (s.posCof y m)), .high op x y m fLow :: k⟩
  | equal {s op x y m r k} :
      Step P ⟨s, .ret r, .high op x y m r :: k⟩ ⟨s, .insert op x y r, k⟩
  | differ {s op x y m fLow fHigh k} : fLow ≠ fHigh →
      Step P ⟨s, .ret fHigh, .high op x y m fLow :: k⟩ ⟨s, .create op x y m fLow fHigh, k⟩
  | create {s s' op x y m fLow fHigh res k} :
      s.getOrCreateOnce P m fLow fHigh = some (res, s') →
      Step P ⟨s, .create op x y m fLow fHigh, k⟩ ⟨s', .insert op x y res, k⟩
  | exhaust {s op x y m fLow fHigh k} : s.AllocFails P m fLow fHigh →
      Step P ⟨s, .create op x y m fLow fHigh, k⟩ ⟨s, .maintain op x y m fLow fHigh, k⟩
  | maintain {s s' op x y m fLow fHigh k} (fuel : ℕ) : s.performMaintenance P fuel = some s' →
      Step P ⟨s, .maintain op x y m fLow fHigh, k⟩ ⟨s', .create op x y m fLow fHigh, k⟩
  | insert {s s' op x y res k} : s.cacheInsert P op res x (op.right y) = some s' →
      Step P ⟨s, .insert op x y res, k⟩ ⟨s', .ret res, k⟩

/-- Any number of steps. -/
abbrev Steps (P : Platform) : Config → Config → Prop := Relation.ReflTransGen (Step P)

/-! ### Computing the steps -/

/-- The step of a thread that is not in maintenance. -/
def Config.next (P : Platform) (c : Config) : Option Config :=
  let s := c.state
  match c.control, c.stack with
  | .call op x y, k =>
    match s.terminal op x y with
    | some r => some ⟨s, .ret r, k⟩
    | none =>
      (s.cacheLookup P op x (op.right y)).map fun l =>
        if l.1 = nullptr then
          let m := l.2.topLevel op x y
          ⟨l.2, .call op.child (l.2.negCof x m) (op.right (l.2.negCof y m)), .low op x y m :: k⟩
        else ⟨l.2, .ret l.1, k⟩
  | .ret fLow, .low op x y m :: k =>
    some ⟨s, .call op.child (s.posCof x m) (op.right (s.posCof y m)), .high op x y m fLow :: k⟩
  | .ret fHigh, .high op x y m fLow :: k =>
    if fLow = fHigh then some ⟨s, .insert op x y fLow, k⟩
    else some ⟨s, .create op x y m fLow fHigh, k⟩
  | .ret _, [] => none
  | .create op x y m fLow fHigh, k =>
    match s.getOrCreateOnce P m fLow fHigh with
    | some r => some ⟨r.2, .insert op x y r.1, k⟩
    | none => some ⟨s, .maintain op x y m fLow fHigh, k⟩
  | .maintain .., _ => none
  | .insert op x y res, k =>
    (s.cacheInsert P op res x (op.right y)).map fun s => ⟨s, .ret res, k⟩

variable {a b c : Config}

theorem Step.next (h : Step P a b) (hm : ¬ a.Maintains) : a.next P = some b := by
  cases h with
  | terminal ht => simp only [Config.next, ht]
  | hit ht hl hr => simp only [Config.next, ht, hl, Option.map_some, if_neg hr]
  | miss ht hl => simp only [Config.next, ht, hl, Option.map_some, if_true]
  | second => rfl
  | equal => simp only [Config.next, if_true]
  | differ hne => simp only [Config.next, if_neg hne]
  | create hc => simp only [Config.next, hc]
  | exhaust hf =>
    rw [State.AllocFails] at hf
    simp only [Config.next, hf]
  | maintain => exact absurd trivial hm
  | insert hi => simp only [Config.next, hi, Option.map_some]

theorem step_of_next (h : a.next P = some b) : Step P a b := by
  obtain ⟨s, control, k⟩ := a
  cases control with
  | call op x y =>
    simp only [Config.next] at h
    cases ht : s.terminal op x y with
    | some r =>
      simp only [ht, Option.some_inj] at h
      exact h ▸ Step.terminal ht
    | none =>
      simp only [ht, Option.map_eq_some_iff] at h
      obtain ⟨⟨r, t⟩, hl, h⟩ := h
      split at h
      · next hr =>
        rw [show r = nullptr from hr] at hl
        exact h ▸ Step.miss ht hl
      · next hr => exact h ▸ Step.hit ht hl hr
  | create op x y m fLow fHigh =>
    simp only [Config.next] at h
    cases hc : s.getOrCreateOnce P m fLow fHigh with
    | some r =>
      simp only [hc, Option.some_inj] at h
      exact h ▸ Step.create hc
    | none =>
      simp only [hc, Option.some_inj] at h
      exact h ▸ Step.exhaust hc
  | maintain op x y m fLow fHigh => simp [Config.next] at h
  | insert op x y res =>
    simp only [Config.next, Option.map_eq_some_iff] at h
    obtain ⟨t, hi, h⟩ := h
    exact h ▸ Step.insert hi
  | ret r =>
    cases k with
    | nil => simp [Config.next] at h
    | cons frame k =>
      cases frame with
      | low op x y m =>
        simp only [Config.next, Option.some_inj] at h
        exact h ▸ Step.second
      | high op x y m fLow =>
        simp only [Config.next] at h
        split at h
        · next he =>
          rw [Option.some_inj] at h
          subst he
          exact h ▸ Step.equal
        · next hne =>
          rw [Option.some_inj] at h
          exact h ▸ Step.differ hne

/-- The operator has returned. -/
def Config.Finished (c : Config) : Bool :=
  match c.control, c.stack with
  | .ret _, [] => true
  | _, _ => false

/-- `n` steps without maintenance and without a failing allocation end the operator. -/
def Config.endsWithin (P : Platform) : ℕ → Config → Bool
  | 0, c => c.Finished
  | n + 1, c =>
    c.Finished ||
      match c.control, c.next P with
      | .create _ _ _ m fLow fHigh, some d =>
        (c.state.getOrCreateOnce P m fLow fHigh).isSome && d.endsWithin P n
      | _, some d => d.endsWithin P n
      | _, none => false

theorem not_step_of_finished (h : a.Finished = true) : ¬ Step P a b := by
  intro hs
  cases hs <;> simp [Config.Finished] at h

theorem not_allocFails_of_endsWithin : ∀ {n : ℕ} {a : Config}, a.endsWithin P n = true →
    ∀ c, Steps P a c → ¬ c.AllocFails P := by
  have hdone : ∀ {a : Config}, a.Finished = true → ∀ c, Steps P a c → ¬ c.AllocFails P := by
    intro a ha c hc
    rcases Relation.ReflTransGen.cases_head hc with rfl | ⟨d, hd, -⟩
    · obtain ⟨s, control, k⟩ := a
      cases control <;> simp [Config.Finished, Config.AllocFails] at ha ⊢
    · exact absurd hd (not_step_of_finished ha)
  intro n
  induction n with
  | zero => exact fun ha => hdone ha
  | succ n ih =>
    intro a ha c hc
    rw [Config.endsWithin, Bool.or_eq_true] at ha
    rcases ha with ha | ha
    · exact hdone ha c hc
    · obtain ⟨s, control, k⟩ := a
      have hnext : ∀ d, Step P ⟨s, control, k⟩ d → d.endsWithin P n = true := by
        intro d hd
        cases control with
        | maintain => simp [Config.next] at ha
        | create op x y m fLow fHigh =>
          rw [hd.next id] at ha
          exact ((Bool.and_eq_true _ _).mp ha).2
        | _ =>
          rw [hd.next id] at ha
          exact ha
      rcases Relation.ReflTransGen.cases_head hc with rfl | ⟨d, hd, hrest⟩
      · cases control with
        | create op x y m fLow fHigh =>
          intro hf
          have hf' : s.getOrCreateOnce P m fLow fHigh = none := hf
          simp [Config.next, hf'] at ha
        | _ => exact id
      · exact ih (hnext d hd) c hrest

/-! ### The recursive functions are runs -/

namespace State

variable {k : List Frame}

theorem steps_of_getOrCreateNode {fLow fHigh res : Ptr} : ∀ {fuel : ℕ} {s : State},
    s.getOrCreateNode P fuel m fLow fHigh = some (res, s') →
    Steps P ⟨s, .create op x y m fLow fHigh, k⟩ ⟨s', .insert op x y res, k⟩ := by
  intro fuel
  induction fuel with
  | zero => intro s h; simp [getOrCreateNode] at h
  | succ fuel ih =>
    intro s h
    cases honce : s.getOrCreateOnce P m fLow fHigh with
    | some r =>
      rw [getOrCreateNode_of_once honce, Option.some_inj] at h
      exact Relation.ReflTransGen.single (Step.create (h ▸ honce))
    | none =>
      rw [getOrCreateNode_of_allocFails honce, Option.bind_eq_some_iff] at h
      obtain ⟨t, ht, h⟩ := h
      exact ((ih h).head (Step.maintain fuel ht)).head (Step.exhaust honce)

theorem steps_of_combine {fLow fHigh res : Ptr}
    (h : s.combine P fuel m fLow fHigh = some (res, s')) :
    Steps P ⟨s, .ret fHigh, .high op x y m fLow :: k⟩ ⟨s', .insert op x y res, k⟩ := by
  rw [combine] at h
  split at h
  · next he =>
    cases h
    rw [← he]
    exact Relation.ReflTransGen.single Step.equal
  · next hne => exact (steps_of_getOrCreateNode h).head (Step.differ hne)

/-- **The recursive functions are runs of the machine.** -/
theorem steps_of_bddOp : ∀ {fuel : ℕ} {op : Operator} {s s' : State} {x y r : Ptr}
    {k : List Frame}, bddOp P op fuel s x y = some (r, s') →
    Steps P ⟨s, .call op x y, k⟩ ⟨s', .ret r, k⟩ := by
  intro fuel
  induction fuel with
  | zero =>
    intro op s s' x y r k h
    cases op <;> simp [bddOp, bddAnd, bddOr, bddXor, bddDiff, bddApply, bddNot, bddImp] at h
  | succ fuel ih =>
    intro op s s' x y r k h
    rw [bddOp_succ] at h
    cases hterm : s.terminal op x y with
    | some r' =>
      rw [hterm] at h
      cases h
      exact Relation.ReflTransGen.single (Step.terminal hterm)
    | none =>
      rw [hterm] at h
      obtain ⟨⟨cached, s₁⟩, hlookup, h⟩ := Option.bind_eq_some_iff.mp h
      by_cases hc : cached = nullptr
      · subst hc
        rw [if_neg (not_not.mpr rfl)] at h
        obtain ⟨⟨fLow, s₂⟩, hlow, h⟩ := Option.bind_eq_some_iff.mp h
        obtain ⟨⟨fHigh, s₃⟩, hhigh, h⟩ := Option.bind_eq_some_iff.mp h
        obtain ⟨⟨res, s₄⟩, hcombine, h⟩ := Option.bind_eq_some_iff.mp h
        obtain ⟨s₅, hinsert, h⟩ := Option.map_eq_some_iff.mp h
        cases h
        calc Steps P ⟨s, .call op x y, k⟩ _ :=
              Relation.ReflTransGen.single (Step.miss hterm hlookup)
          Steps P _ ⟨s₂, .ret fLow, .low op x y _ :: k⟩ := ih hlow
          Steps P _ _ := Relation.ReflTransGen.single Step.second
          Steps P _ ⟨s₃, .ret fHigh, .high op x y _ fLow :: k⟩ := ih hhigh
          Steps P _ ⟨s₄, .insert op x y res, k⟩ := steps_of_combine hcombine
          Steps P _ ⟨s', .ret res, k⟩ := Relation.ReflTransGen.single (Step.insert hinsert)
      · rw [if_pos hc] at h
        cases h
        exact Relation.ReflTransGen.single (Step.hit hterm hlookup hc)

end State

end Nanobdd
