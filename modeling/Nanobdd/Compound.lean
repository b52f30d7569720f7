import Nanobdd.Programs

/-!
# Compound assignments

`a &= b` stores the result of `bddAnd` in `a.root_` and touches no counter, while `a = a & b`
makes a temporary, moves it into `a` and destroys it. The first is right exactly when the result
is the node `a` has already.

## Main definitions

* `Client.applyAssign`, `Client.plainAssign` — the two ways to assign
* `Command`, `Client.perform` — programs with compound assignments and those of the C interface

## Main results

* `Client.Exact.assignAgrees_iff` — when exactly the two agree
* `Client.compound_of_run` — counters stay exact in the runs whose compound assignments do
-/

namespace Nanobdd

open BoolFun

variable {P : Platform} {c c' d : Client} {s : State} {p q x y r : Ptr} {i j n fuel : ℕ}
  {op : Operator} {f g : BoolFun}

namespace Client

/-- `operator&=`, `operator|=`, `operator^=`, `operator-=` and `operator>>=`. -/
def applyAssign (P : Platform) (fuel : ℕ) (c : Client) (op : Operator) (i j : ℕ) :
    Option Client := do
  let (x, y) ← c.operands op i j
  let (r, t) ← c.table.bddOp P op fuel x y
  some ({ c with table := t }.setRoot i (some r))

/-- `a = a op b`: the temporary is the newest object. -/
def plainAssign (P : Platform) (fuel : ℕ) (c : Client) (op : Operator) (i j : ℕ) :
    Option Client := do
  let temporary := c.bdds.length
  let c ← c.apply P fuel op i j
  let c ← c.moveAssign i temporary
  c.destroy temporary

/-- Both assignments end, with the same root and the same counters. -/
def AssignAgrees (P : Platform) (c : Client) (op : Operator) (i j : ℕ) : Prop :=
  ∃ F, ∀ fuel ≥ F, ∃ d d', c.applyAssign P fuel op i j = some d ∧
    c.plainAssign P fuel op i j = some d' ∧ d.root i = d'.root i ∧
    d.table.stored = d'.table.stored ∧
    ∀ p ∈ d.table.stored, (d.table.heap p).refCount = (d'.table.heap p).refCount

/-! ### When the result is the old root -/

/-- `f op g` is `f` again, as far as `bddImp` computes an implication. -/
def KeepsRoot (op : Operator) (f g : BoolFun) : Prop :=
  match op with
  | .and => ∀ e, f e = true → g e = true
  | .or => ∀ e, g e = true → f e = true
  | .xor => ∀ e, g e = false
  | .diff => ∀ e, f e = true → g e = false
  | .imp =>
    ((∀ e, f e = true) ∧ ∀ e, g e = true) ∨
      ((∃ e, f e = true) ∧ (∃ e, f e = false) ∧ (∃ e, g e = false) ∧
        ∀ e, f e = true → g e = false)
  | .not => False

/-- Off the terminal cases of `bddImp`. -/
theorem keepsRoot_imp_iff (hf : f ≠ fun _ => false) (hf' : f ≠ fun _ => true)
    (hg : g ≠ fun _ => true) : KeepsRoot .imp f g ↔ ∀ e, f e = true → g e = false := by
  have hex : ∀ {k : BoolFun} {b : Bool}, k ≠ (fun _ => b) → ∃ e, k e = !b := fun {k b} hk => by
    obtain ⟨e, he⟩ := Function.ne_iff.mp hk
    exact ⟨e, Bool.eq_not_of_ne he⟩
  constructor
  · rintro (⟨h, -⟩ | ⟨-, -, -, h⟩)
    · exact absurd (funext h) hf'
    · exact h
  · exact fun h => Or.inr ⟨hex hf, hex hf', hex hg, h⟩

/-- Where no terminal test answers, the result is the left operand under a pointwise condition. -/
theorem result_eq_iff (himp : op ≠ .imp) (hnot : op ≠ .not) :
    op.result f g = f ↔ KeepsRoot op f g := by
  have hpoint : op.result f g = f ↔ ∀ e, op.computes (f e) (g e) = f e := funext_iff
  rw [hpoint]
  cases op with
  | imp => exact absurd rfl himp
  | not => exact absurd rfl hnot
  | _ =>
    refine forall_congr' fun e => ?_
    cases f e <;> cases g e <;> decide

/-- The same for `bddImp`, whose terminal tests do not fit its recursion. -/
theorem keepsRoot_imp (hr : State.Robdd P s) (hx : x ∈ s.stored) (hy : y ∈ s.stored) :
    s.answer .imp x y = s.denote x ↔ KeepsRoot .imp (s.denote x) (s.denote y) := by
  have hfalse : s.denote x = (fun _ => false) ↔ x = s.falseNode := by
    rw [← hr.denote_false, hr.canonical hx hr.false_mem]
  have htrue : ∀ {z}, z ∈ s.stored → (s.denote z = (fun _ => true) ↔ z = s.trueNode) := fun hz => by
    rw [← hr.denote_true, hr.canonical hz hr.true_mem]
  have hterm : s.terminal .imp x y = s.impTerminal x y := rfl
  rw [State.impTerminal] at hterm
  simp only [Bool.or_eq_true, State.isFalse_iff, State.isTrue_iff] at hterm
  by_cases hx₀ : x = s.falseNode
  · rw [if_pos (Or.inl hx₀)] at hterm
    rw [State.answer_of_terminal hterm, hr.denote_true, hfalse.mpr hx₀]
    simp [KeepsRoot, funext_iff]
  by_cases hy₁ : y = s.trueNode
  · rw [if_pos (Or.inr hy₁)] at hterm
    rw [State.answer_of_terminal hterm, hr.denote_true, (htrue hy).mpr hy₁, eq_comm]
    simp [KeepsRoot, funext_iff]
  rw [if_neg (by tauto)] at hterm
  by_cases hx₁ : x = s.trueNode
  · -- the result is the right operand, which is not the true node
    rw [if_pos hx₁] at hterm
    have hne : s.denote y ≠ fun _ => true := mt (htrue hy).mp hy₁
    rw [State.answer_of_terminal hterm, (htrue hx).mpr hx₁]
    simp only [KeepsRoot, hne, false_iff]
    rintro (⟨-, h⟩ | ⟨-, ⟨e, he⟩, -⟩)
    · exact hne (funext h)
    · simp at he
  · rw [if_neg hx₁] at hterm
    rw [State.answer_of_none hterm,
      keepsRoot_imp_iff (mt hfalse.mp hx₀) (mt (htrue hx).mp hx₁) (mt (htrue hy).mp hy₁),
      State.goal, funext_iff]
    refine forall_congr' fun e => ?_
    show (s.denote x e && !s.denote y e) = s.denote x e ↔ _
    cases s.denote x e <;> cases s.denote y e <;> decide

/-- **When the result is the old root.** -/
theorem keepsRoot_iff (hr : State.Robdd P s) (ho : State.Operands {p | p ∈ s.stored} op x y)
    (hnot : op ≠ .not) :
    s.answer op x y = s.denote x ↔ KeepsRoot op (s.denote x) (s.denote y) := by
  by_cases himp : op = .imp
  · subst himp
    exact keepsRoot_imp hr ho.left (ho.right hnot)
  · rw [State.answer_eq_goal hr ho himp, State.goal]
    exact result_eq_iff himp hnot

/-! ### The two assignments -/

theorem applyAssign_of_bddOp (ho : c.operands op i j = some (x, y))
    (hrun : c.table.bddOp P op fuel x y = some (r, s)) :
    c.applyAssign P fuel op i j = some (({ c with table := s } : Client).setRoot i (some r)) := by
  simp only [applyAssign, ho, hrun, Option.bind_eq_bind, Option.bind_some]

/-- What the plain assignment leaves: the new root has one reference more, the old one has one
less. -/
theorem plainAssign_of_bddOp (ho : c.operands op i j = some (x, y))
    (hrun : c.table.bddOp P op fuel x y = some (r, s)) (hr : r ≠ nullptr) :
    ∃ d, c.plainAssign P fuel op i j = some d ∧ d.root i = some r ∧
      d.table = ((({ c with table := s } : Client).ref r).deref x).table := by
  have hi := (node_eq_some.mp (operands_eq_some ho).1).1
  have hne : c.bdds.length ≠ i := (List.getElem?_eq_some_iff.mp (root_eq_some.mp hi)).1.ne'
  set t : Client := ({ c with table := s } : Client).ref r with ht
  have hlength : t.bdds.length = c.bdds.length := by rw [ht, ref_bdds]
  have hti : (t.push r).root i = some x := by
    refine root_push_of_root ?_ r
    rw [ht, root_ref]
    exact hi
  have htl : (t.push r).root c.bdds.length = some r := hlength ▸ root_push_length t r
  -- the temporary after the move, and after its destructor
  set u : Client := (((t.push r).deref x).setRoot i (some r)).setRoot c.bdds.length (some nullptr)
    with hu
  have hul : u.root c.bdds.length = some nullptr := by
    refine root_setRoot_self (p := r) ?_ _
    rw [root_setRoot_of_ne hne.symm, root_deref, htl]
  have hui : u.root i = some r := by
    rw [hu, root_setRoot_of_ne hne]
    exact root_setRoot_self ((root_deref _ x i).trans hti) _
  have hmove : (t.push r).moveAssign i c.bdds.length = some u := by
    rw [moveAssign, hti, htl]
    exact if_neg hne.symm
  have hdestroy : u.destroy c.bdds.length = some (u.setRoot c.bdds.length none) := by
    rw [destroy, hul]
    rfl
  refine ⟨u.setRoot c.bdds.length none, ?_, ?_, ?_⟩
  · simp only [plainAssign, apply_of_bddOp ho hrun hr, Option.bind_eq_bind, Option.bind_some,
      ← ht, hmove, hdestroy]
  · rw [root_setRoot_of_ne hne, hui]
  · show ((t.push r).deref x).table = (t.deref x).table
    rw [deref, deref]
    split <;> rfl

/-- One reference more and one less. -/
theorem refCount_deref_ref (c : Client) (hq : q ≠ nullptr)
    (hlt : (c.table.heap q).refCount < 2 ^ 32) (hqr : q = r → r = x) (hqx : q = x → r = x) :
    (((c.ref r).deref x).table.heap q).refCount = (c.table.heap q).refCount := by
  rw [refCount_deref _ x hq, refCount_ref c r hq]
  by_cases hqe : q = x
  · rw [if_pos hqe, if_pos (hqe.trans (hqx hqe).symm)]
    omega
  · rw [if_neg hqe, if_neg fun he => hqe (he.trans (hqr he))]

namespace Exact

/-- An operation that loses nothing returns the left operand under a condition on the functions
of the operands. -/
theorem result_eq_left_iff (h : Exact P n c) (ho : c.operands op i j = some (x, y))
    (hnot : op ≠ .not) (hn : State.NoLoss P c.table op x y)
    (hrun : c.table.bddOp P op fuel x y = some (r, s)) :
    r = x ↔ KeepsRoot op (c.table.denote x) (c.table.denote y) := by
  have hlive := h.operands_live ho
  obtain ⟨hexact, hr, hd, hpres⟩ := h.operate ho hn hrun
  have hx : x ∈ s.stored := (hpres.live x hlive.left.1 hlive.left.2).1
  rw [← hexact.wf.toRobdd.canonical hr hx, hd, hpres.denote_eq x hlive.left.1 hlive.left.2]
  exact keepsRoot_iff h.wf.toRobdd ⟨hlive.left.1, fun hn => (hlive.right hn).1⟩ hnot

/-- **The two assignments agree exactly when the result is the old root.** -/
theorem assignAgrees_iff (h : Exact P n c) (hfit : c.ReferencesFit)
    (ho : c.operands op i j = some (x, y)) (hnot : op ≠ .not)
    (hn : State.NoLoss P c.table op x y) :
    AssignAgrees P c op i j ↔ KeepsRoot op (c.table.denote x) (c.table.denote y) := by
  obtain ⟨F, r, s, hF⟩ := (h.wf.preserved ⟨trivial, trivial⟩ h.unmarked h.live_false h.live_true
    (h.operands_live ho) hn).1
  obtain ⟨hexact, hr, -, hpres⟩ := h.operate ho hn (hF F le_rfl)
  have hcount : ∀ q ∈ s.stored, (s.heap q).refCount < 2 ^ 32 := fun q hq => by
    rw [hexact.counted q hq]
    show c.handles q + s.permanent q < 2 ^ 32
    rw [hpres.roots.permanent_eq]
    exact hfit q (hexact.wf.ne_null hq)
  have hrn := hexact.wf.ne_null hr
  have hi := (node_eq_some.mp (operands_eq_some ho).1).1
  rw [← h.result_eq_left_iff ho hnot hn (hF F le_rfl)]
  constructor
  · rintro ⟨F', hF'⟩
    obtain ⟨d, d', hd, hd', -, -, hcounts⟩ := hF' (max F F') (le_max_right _ _)
    have hrun := hF (max F F') (le_max_left _ _)
    obtain ⟨e, hplain, -, htable⟩ := plainAssign_of_bddOp ho hrun hrn
    rw [applyAssign_of_bddOp ho hrun] at hd
    obtain rfl := Option.some_inj.mp hd
    obtain rfl := Option.some_inj.mp (hplain.symm.trans hd')
    by_contra hne
    have hlt := hcount r hr
    have heq : (s.heap r).refCount = ((s.heap r).refCount + 1) % 2 ^ 32 := by
      have hr' := hcounts r hr
      rwa [htable, refCount_deref _ x hrn, if_neg hne, refCount_ref _ r hrn, if_pos rfl] at hr'
    omega
  · rintro rfl
    refine ⟨F, fun fuel hfuel => ?_⟩
    obtain ⟨e, hplain, hei, htable⟩ := plainAssign_of_bddOp ho (hF fuel hfuel) hrn
    refine ⟨_, e, applyAssign_of_bddOp ho (hF fuel hfuel), hplain, ?_, ?_, fun q hq => ?_⟩
    · rw [hei]
      exact root_setRoot_self (c := { c with table := s }) hi _
    · have hre := (counted_ref { c with table := s } r).trans (counted_deref _ r)
      rw [htable]
      exact hre.toRecounted.stored_eq.symm
    · have hsame := refCount_deref_ref (r := r) (x := r) { c with table := s }
        (hexact.wf.ne_null hq) (hcount q hq) (fun _ => rfl) fun _ => rfl
      rw [htable]
      exact hsame.symm

end Exact

/-! ### Programs with compound assignments -/

/-- What a program may do next. The handles of the C interface may be null. -/
inductive Command
  | act (a : Action)
  | assign (op : Operator) (i j : ℕ)
  | nanobddBddAssign (op : Operator) (lhs rhs : Option ℕ)

/-- `nanobdd_bdd_and_assign`, …, `nanobdd_bdd_imp_assign` -/
def nanobddBddAssign (P : Platform) (fuel : ℕ) (c : Client) (op : Operator) :
    Option ℕ → Option ℕ → Option Client
  | some lhs, some rhs => c.applyAssign P fuel op lhs rhs
  | _, _ => some c

/-- Perform a command. There is no compound assignment for `!`. -/
def perform (P : Platform) (fuel : ℕ) (c : Client) : Command → Option Client
  | .act a => c.exec P fuel a
  | .assign op i j => if op = .not then none else c.applyAssign P fuel op i j
  | .nanobddBddAssign op lhs rhs =>
    if op = .not then none else c.nanobddBddAssign P fuel op lhs rhs

/-- The operator loses nothing, and its result is the left operand again. -/
def AssignsRoot (P : Platform) (c : Client) (op : Operator) (i j : ℕ) : Prop :=
  ∀ x y, c.operands op i j = some (x, y) →
    State.NoLoss P c.table op x y ∧ KeepsRoot op (c.table.denote x) (c.table.denote y)

/-- The condition on a command: operators lose nothing, and compound assignments are of the kind
that is right. -/
def Permits (P : Platform) (c : Client) : Command → Prop
  | .act a => c.Admits (State.NoLoss P) a
  | .assign op i j => c.AssignsRoot P op i j
  | .nanobddBddAssign op lhs rhs => ∀ i j, lhs = some i → rhs = some j → c.AssignsRoot P op i j

/-- One command of a program. -/
def Performs (P : Platform) (c c' : Client) : Prop :=
  ∃ e fuel, c.perform P fuel e = some c' ∧ c.Permits P e ∧ c'.ReferencesFit

theorem setRoot_self (hi : c.root i = some p) : c.setRoot i (some p) = c := by
  obtain ⟨hlt, hget⟩ := List.getElem?_eq_some_iff.mp (root_eq_some.mp hi)
  rw [setRoot, ← hget, List.set_getElem_self]

namespace Exact

theorem applyAssign (h : Exact P n c) (hop : op ≠ .not)
    (hc : c.applyAssign P fuel op i j = some c') (ha : c.AssignsRoot P op i j) :
    Exact P n c' := by
  obtain ⟨⟨x, y⟩, ho, hc⟩ := Option.bind_eq_some_iff.mp hc
  obtain ⟨⟨r, s⟩, hrun, hc⟩ := Option.bind_eq_some_iff.mp hc
  cases hc
  obtain ⟨hn, hkeeps⟩ := ha x y ho
  have hi := (node_eq_some.mp (operands_eq_some ho).1).1
  have hself := setRoot_self (c := { c with table := s }) hi
  rw [(h.result_eq_left_iff ho hop hn hrun).mpr hkeeps, hself]
  exact (h.operate ho hn hrun).1

/-- **Every permitted command keeps the invariant.** -/
theorem perform (h : Exact P n c) {e : Command} (hc : c.perform P fuel e = some c')
    (he : c.Permits P e) (hfit : c'.ReferencesFit) : Exact P n c' := by
  cases e with
  | act a => exact h.exec hc he hfit
  | assign op i j =>
    rw [Client.perform] at hc
    split at hc
    · simp at hc
    · next hop => exact h.applyAssign hop hc he
  | nanobddBddAssign op lhs rhs =>
    rw [Client.perform] at hc
    split at hc
    · simp at hc
    · next hop =>
      rcases lhs with - | i
      · cases hc
        exact h
      rcases rhs with - | j
      · cases hc
        exact h
      exact h.applyAssign hop hc (he i j rfl rfl)

end Exact

theorem referencesFit_start (h : State.Ready P s n n) : (start s).ReferencesFit := fun p _ => by
  rw [references_start]
  exact lt_of_le_of_lt (h.permanent_le_one p) (by decide)

/-- **Programs whose compound assignments are right.** In every state of such a run the counters
are exact, a collection spares the root of every object, and a compound assignment agrees with
the plain one exactly under `KeepsRoot`. -/
theorem compound_of_run {rand₁ rand₂ : ℕ → ℕ} {tableSize cacheSize varNum : ℕ}
    (hv : varNum < uintMax)
    (hi : State.init P fuel rand₁ rand₂ tableSize cacheSize varNum = some s)
    (hc : Relation.ReflTransGen (Performs P) (start s) c) :
    (∀ p ∈ c.table.stored, (c.table.heap p).refCount = c.handles p + c.table.permanent p) ∧
      (∀ k c', c.gc k = some c' → ∀ i p, c.node i = some p → p ∈ c'.table.stored) ∧
      ∀ op i j x y, op ≠ .not → c.operands op i j = some (x, y) →
        State.NoLoss P c.table op x y →
        (AssignAgrees P c op i j ↔ KeepsRoot op (c.table.denote x) (c.table.denote y)) := by
  have hready := State.ready_of_init hv hi
  obtain ⟨h, hfit⟩ : Exact P varNum c ∧ c.ReferencesFit := by
    refine Transition.invariant (I := fun c => Exact P varNum c ∧ c.ReferencesFit)
      (fun b d hbd hb => ?_) hc ⟨exact_of_ready hready, referencesFit_start hready⟩
    obtain ⟨e, k, hperform, he, hfit⟩ := hbd
    exact ⟨hb.1.perform hperform he hfit, hfit⟩
  refine ⟨h.counted, fun k c' hgc i p hp => ?_,
    fun op i j x y hnot ho hn => h.assignAgrees_iff hfit ho hnot hn⟩
  obtain ⟨h', -⟩ := h.gc hgc
  have hbdds : c'.bdds = c.bdds := by
    obtain ⟨t, -, hgc⟩ := Option.bind_eq_some_iff.mp hgc
    cases hgc
    rfl
  refine h'.node_mem (i := i) ?_
  rw [node, root, hbdds]
  exact hp

theorem performs_of_acts (h : CountedActs P c c') : Performs P c c' := by
  obtain ⟨a, fuel, hexec, ha, hfit⟩ := h
  exact ⟨.act a, fuel, hexec, noLoss_of_noAllocFails c a ha.1, hfit⟩

/-- A program that executes `a |= c` for `c = a & b`, and collects. -/
theorem compound_of_run_small : ∃ c d : Client,
    c.applyAssign State.smallPlatform 40 .or 0 2 = some d ∧
    d.bdds = [some 3, some 5, some 9] ∧ d.table.nodeCount = 9 ∧
    (∀ p ∈ d.table.stored, (d.table.heap p).refCount = d.handles p + d.table.permanent p) ∧
    ∀ k e, d.gc k = some e → ∀ i p, d.node i = some p → p ∈ e.table.stored := by
  have hsome : ([Action.getVar 0, .getVar 1, .apply .and 0 1].foldlM
      (briskly State.smallPlatform 20 40) (start State.small)).any (fun c =>
        (c.table.bddOp State.smallPlatform .or 40 3 9).any fun r =>
          (c.applyAssign State.smallPlatform 40 .or 0 2).any fun d => decide (
            c.operands .or 0 2 = some (3, 9) ∧ r.1 = 3 ∧
            Config.endsWithin State.smallPlatform 20 ⟨c.table, .call .or 3 9, []⟩ = true ∧
            d.bdds = [some 3, some 5, some 9] ∧ d.table.nodeCount = 9 ∧
            d.bdds.length + (d.table.vars.length + d.table.nvars.length + 2) < 2 ^ 32)) = true := by
    decide +kernel
  obtain ⟨c, hc, hsome⟩ := (Option.any_eq_true _ _).mp hsome
  obtain ⟨⟨r, t⟩, hr, hsome⟩ := (Option.any_eq_true _ _).mp hsome
  obtain ⟨d, hd, hfacts⟩ := (Option.any_eq_true _ _).mp hsome
  obtain ⟨ho, rfl, hends, hbdds, hcount, hfew⟩ := of_decide_eq_true hfacts
  have hacts : Relation.ReflTransGen (CountedActs State.smallPlatform) (start State.small) c :=
    run_of_briskly hc
  have h : Exact State.smallPlatform 3 c := (exact_of_ready State.ready_small).run
    (fun c a ha => noLoss_of_noAllocFails c a ha.1) (fun _ hfit => hfit) hacts
  have hn : State.NoLoss State.smallPlatform c.table .or 3 9 :=
    State.NoAllocFails.noLoss (not_allocFails_of_endsWithin hends)
  have hassign : Performs State.smallPlatform c d := by
    refine ⟨.assign .or 0 2, 40, hd, fun x y hxy => ?_, referencesFit_of_length hfew⟩
    rw [ho] at hxy
    cases hxy
    exact ⟨hn, (h.result_eq_left_iff ho (by decide) hn hr).mp rfl⟩
  have hrun := (Relation.ReflTransGen.mono (fun _ _ h => performs_of_acts h) _ _ hacts).tail hassign
  obtain ⟨hexact, hgc, -⟩ := compound_of_run (by decide) State.init_small hrun
  exact ⟨c, d, hd, hbdds, hcount, hexact, hgc⟩

/-- **`a &= b` for two variables.** The two assignments do not agree, and the next collection
takes the root of `a`. -/
theorem not_assignAgrees_small : ∃ s c d e r,
    State.init State.smallPlatform 40 id id 11 11 3 = some s ∧
      Relation.ReflTransGen (Performs State.smallPlatform) (start s) c ∧
      c.Admits (State.NoAllocFails State.smallPlatform) (.apply .and 0 1) ∧
      ¬ AssignAgrees State.smallPlatform c .and 0 1 ∧
      c.applyAssign State.smallPlatform 40 .and 0 1 = some d ∧ d.gc 40 = some e ∧
      e.node 0 = some r ∧ r ∉ e.table.stored := by
  have hrun := Relation.ReflTransGen.mono (fun _ _ h => performs_of_acts h) _ _ acts_smallPair
  have h : Exact State.smallPlatform 3 smallPair :=
    (exact_of_ready State.ready_small).run (fun c a ha => noLoss_of_noAllocFails c a ha.1)
      (fun _ hfit => hfit) acts_smallPair
  have hfit : smallPair.ReferencesFit := referencesFit_small rfl rfl (by decide)
  have hn : State.NoLoss State.smallPlatform smallPair.table .and 3 5 :=
    (admits_smallPair 3 5 operands_smallPair).noLoss
  have hsome : (smallPair.table.bddOp State.smallPlatform .and 40 3 5).any (fun r =>
      decide (r.1 = 9)) = true := by
    decide +kernel
  obtain ⟨⟨r, t⟩, hr, hfacts⟩ := (Option.any_eq_true _ _).mp hsome
  obtain rfl : r = 9 := of_decide_eq_true hfacts
  have hkeeps : ¬ KeepsRoot .and (smallPair.table.denote 3) (smallPair.table.denote 5) := fun hk =>
    absurd ((h.result_eq_left_iff operands_smallPair (by decide) hn hr).mpr hk) (by decide)
  have hgc : ((smallPair.applyAssign State.smallPlatform 40 .and 0 1).bind fun d =>
      (d.gc 40).map fun e => (d, e)).any (fun r =>
        decide (r.2.node 0 = some 9 ∧ 9 ∉ r.2.table.stored)) = true := by
    decide +kernel
  obtain ⟨⟨d, e⟩, hde, hfacts⟩ := (Option.any_eq_true _ _).mp hgc
  obtain ⟨d', hd, hde⟩ := Option.bind_eq_some_iff.mp hde
  obtain ⟨e', he, hde⟩ := Option.map_eq_some_iff.mp hde
  cases hde
  obtain ⟨hnode, hgone⟩ := of_decide_eq_true hfacts
  refine ⟨State.small, smallPair, d, e, 9, State.init_small, hrun, admits_smallPair, fun ha => ?_,
    hd, he, hnode, hgone⟩
  exact hkeeps ((h.assignAgrees_iff hfit operands_smallPair (by decide) hn).mp ha)

end Client

end Nanobdd
