import Nanobdd.Footprint
import Nanobdd.Values

/-!
# The Java interface

Java gets the nodes themselves, as numbers. A native method makes a `Bdd` of each argument, runs
the operator, takes the root of the result, and destroys the objects again: while the operator
runs its operands have references, and afterwards no counter has changed. A node stays in the
table over a collection only if the program calls `ref`.

A program in Java is a `Client` here whose objects are the temporaries of native methods and one
object for each call of `ref` that has not got its `deRef` yet. The objects for the calls of `ref`
are not in the program.

## Main definitions

* `NanoBDD` — the native methods
* `Native`, `Client.native` — calls, and what they do
* `Answers` — what a call gives back, and what it leaves

## Main results

* `Client.Exact.called` — a native method with temporaries
* `java_of_run` — **the Java interface** over whole runs
-/

namespace Nanobdd

open BoolFun Client

variable {P : Platform} {c c' d : Client} {s s' : State} {p q x y r : Ptr} {i n k fuel : ℕ}
  {op : Operator}

/-! ### The native methods -/

namespace Client

/-- A native method: a `Bdd` for each of the arguments, the object that `make` returns, its root,
and the destructors in reverse order. -/
def called (c : Client) (args : List Ptr) (make : ℕ → Client → Option Client) :
    Option (Ptr × Client) := do
  let n := c.bdds.length
  let c ← args.foldlM construct c
  let c ← make n c
  let r ← c.root (n + args.length)
  let c ← (List.range' n (args.length + 1)).reverse.foldlM destroy c
  some (r, c)

end Client

namespace NanoBDD

/-- `var` -/
def var (c : Client) (idx : ℕ) : Option (Ptr × Client) := c.called [] fun _ c => c.getVar idx

/-- `nvar` -/
def nvar (c : Client) (idx : ℕ) : Option (Ptr × Client) := c.called [] fun _ c => c.getNvar idx

/-- `getTrue` -/
def getTrue (c : Client) : Option (Ptr × Client) := c.called [] fun _ c => c.bddTrue

/-- `getFalse` -/
def getFalse (c : Client) : Option (Ptr × Client) := c.called [] fun _ c => c.bddFalse

/-- `not` -/
def not (P : Platform) (fuel : ℕ) (c : Client) (x : Ptr) : Option (Ptr × Client) :=
  c.called [x] fun n c => c.apply P fuel .not n n

/-- `and` -/
def and (P : Platform) (fuel : ℕ) (c : Client) (x y : Ptr) : Option (Ptr × Client) :=
  c.called [x, y] fun n c => c.apply P fuel .and n (n + 1)

/-- `or` -/
def or (P : Platform) (fuel : ℕ) (c : Client) (x y : Ptr) : Option (Ptr × Client) :=
  c.called [x, y] fun n c => c.apply P fuel .or n (n + 1)

/-- `diff` -/
def diff (P : Platform) (fuel : ℕ) (c : Client) (x y : Ptr) : Option (Ptr × Client) :=
  c.called [x, y] fun n c => c.apply P fuel .diff n (n + 1)

/-- `ref`, which does not test for a null pointer. -/
def ref (c : Client) (x : Ptr) : Option Client :=
  if x = nullptr then none else some ((c.ref x).push x)

/-- `deRef`, which does not test for a null pointer either. -/
def deRef (c : Client) (x : Ptr) : Option Client :=
  if x = nullptr then none else some ((c.deref x).setRoot (c.bdds.idxOf (some x)) none)

/-- `nodeCount` -/
def nodeCount (c : Client) : ℕ := c.table.nodeCount

end NanoBDD

/-- A call of a native method. -/
inductive Native
  | var (idx : ℕ)
  | nvar (idx : ℕ)
  | getTrue
  | getFalse
  | not (x : Ptr)
  | and (x y : Ptr)
  | or (x y : Ptr)
  | diff (x y : Ptr)
  | ref (x : Ptr)
  | deRef (x : Ptr)
  | gc
  | nodeCount
  deriving DecidableEq

namespace Client

/-- Perform a call. The methods without a result return `0` here. -/
def native (P : Platform) (fuel : ℕ) (c : Client) : Native → Option (ℕ × Client)
  | .var idx => NanoBDD.var c idx
  | .nvar idx => NanoBDD.nvar c idx
  | .getTrue => NanoBDD.getTrue c
  | .getFalse => NanoBDD.getFalse c
  | .not x => NanoBDD.not P fuel c x
  | .and x y => NanoBDD.and P fuel c x y
  | .or x y => NanoBDD.or P fuel c x y
  | .diff x y => NanoBDD.diff P fuel c x y
  | .ref x => (NanoBDD.ref c x).map (0, ·)
  | .deRef x => (NanoBDD.deRef c x).map (0, ·)
  | .gc => (c.gc fuel).map (0, ·)
  | .nodeCount => some (NanoBDD.nodeCount c, c)

/-! ### Temporaries -/

/-- No counter wraps around if there are `k` references more. -/
def Spare (k : ℕ) (c : Client) : Prop := ∀ p, p ≠ nullptr → c.references p + k < 2 ^ 32

theorem Spare.fits (h : Spare k c) : c.ReferencesFit := fun p hp =>
  (Nat.le_add_right _ _).trans_lt (h p hp)

theorem Spare.attach (h : Spare (k + 1) c) (r : Ptr) : Spare k ((c.ref r).push r) := by
  intro p hp
  have hlt := h p hp
  rw [references_push, references_ref]
  split <;> omega

theorem Spare.withTable (h : Spare k c) (hr : State.SameRoots c.table s) :
    Spare k { c with table := s } := by
  intro p hp
  show c.handles p + s.permanent p + k < 2 ^ 32
  rw [hr.permanent_eq]
  exact h p hp

theorem Spare.destroy (h : Spare k c) (hc : c.destroy i = some c') : Spare k c' := by
  obtain ⟨x, hx, hc⟩ := Option.bind_eq_some_iff.mp hc
  cases hc
  intro p hp
  have hroot : (c.deref x).root i = some x := (root_deref c x i).trans hx
  have hrefs := references_setRoot hroot none p
  simp only [references_deref, reduceCtorEq, if_false, Nat.add_zero] at hrefs
  have hlt := h p hp
  omega

/-- The objects for the arguments. -/
theorem Exact.constructAll : ∀ {args : List Ptr} {c d : Client}, Exact P n c →
    (∀ x ∈ args, x ∈ c.table.stored) → Spare (k + args.length) c →
    args.foldlM construct c = some d →
    Exact P n d ∧ Counted c.table d.table ∧ d.bdds = c.bdds ++ args.map some ∧ Spare k d := by
  intro args
  induction args with
  | nil =>
    intro c d h _ hspare hd
    cases hd
    exact ⟨h, Counted.refl _, by simp, hspare⟩
  | cons x args ih =>
    intro c d h hargs hspare hd
    rw [List.foldlM_cons] at hd
    obtain ⟨c₁, hc₁, hd⟩ := Option.bind_eq_some_iff.mp hd
    obtain ⟨-, rfl⟩ := construct_eq_some hc₁
    have hre : Counted c.table ((c.ref x).push x).table := counted_ref c x
    have hspare₁ : Spare (k + args.length) ((c.ref x).push x) := hspare.attach x
    have hexact := h.recount hre
      (h.tallied.construct (hargs x List.mem_cons_self) hc₁ hspare₁.fits)
    obtain ⟨hd', hre', hbdds, hk⟩ := ih hexact (fun y hy => by
      rw [hre.stored_eq]
      exact hargs y (List.mem_cons_of_mem _ hy)) hspare₁ hd
    refine ⟨hd', hre.trans hre', ?_, hk⟩
    rw [hbdds]
    simp [push]

/-- The destructors, from the last object to the first. -/
theorem Exact.destroyAll {objs : List (Option Ptr)} : ∀ {l : List Ptr} {dead : List (Option Ptr)}
    {c d : Client}, Exact P n c → c.ReferencesFit → c.bdds = objs ++ l.map some ++ dead →
    (∀ o ∈ dead, o = none) →
    (List.range' objs.length l.length).reverse.foldlM destroy c = some d →
    Exact P n d ∧ Counted c.table d.table ∧
      ∃ dead, d.bdds = objs ++ dead ∧ ∀ o ∈ dead, o = none := by
  intro l
  induction l using List.reverseRecOn with
  | nil =>
    intro dead c d h _ hbdds hdead hd
    cases hd
    exact ⟨h, Counted.refl _, dead, by simpa using hbdds, hdead⟩
  | append_singleton l x ih =>
    intro dead c d h hfit hbdds hdead hd
    rw [List.length_append, List.length_singleton, List.range'_1_concat, List.reverse_concat,
      List.foldlM_cons] at hd
    obtain ⟨c₁, hc₁, hd⟩ := Option.bind_eq_some_iff.mp hd
    have hfit₁ : c₁.ReferencesFit := (Spare.destroy (k := 0) hfit hc₁).fits
    have haction : c.exec P 0 (.destroy (objs.length + l.length)) = some c₁ := hc₁
    have hexact : Exact P n c₁ := h.exec haction trivial hfit₁
    have hre : Counted c.table c₁.table := counted_of_onObjects (a := .destroy _) trivial haction
    have hbdds₁ : c₁.bdds = objs ++ l.map some ++ none :: dead := by
      obtain ⟨y, -, hc₁⟩ := Option.bind_eq_some_iff.mp hc₁
      cases hc₁
      show (c.deref y).bdds.set _ none = _
      rw [deref_bdds, hbdds]
      simp
    obtain ⟨hd', hre', hrest⟩ := ih hexact hfit₁ hbdds₁ (fun o ho => by
      rcases List.mem_cons.mp ho with rfl | ho
      · rfl
      · exact hdead o ho) hd
    exact ⟨hd', hre.trans hre', hrest⟩

/-- The nodes with references, those of the table's own included. -/
def rooted (c : Client) : Set Ptr := {p | p ≠ nullptr ∧ 0 < c.references p}

theorem Exact.rooted_subset (h : Exact P n c) : c.rooted ⊆ {p | p ∈ c.table.stored} :=
  fun p hp => h.mem p hp.1 hp.2

/-- What becomes of a table in a call: the permanent nodes are the same ones, and every node of `A`
is there and denotes what it did. -/
structure Retains (A : Set Ptr) (s s' : State) : Prop where
  roots : State.SameRoots s s'
  mem : ∀ p ∈ A, p ∈ s'.stored
  denote_eq : ∀ p ∈ A, s'.denote p = s.denote p

theorem Retains.trans {A : Set Ptr} {s'' : State} (h : Retains A s s') (h' : Retains A s' s'') :
    Retains A s s'' :=
  ⟨h.roots.trans h'.roots, h'.mem, fun p hp => (h'.denote_eq p hp).trans (h.denote_eq p hp)⟩

theorem Retains.mono {A B : Set Ptr} (h : Retains B s s') (hAB : A ⊆ B) : Retains A s s' :=
  ⟨h.roots, fun p hp => h.mem p (hAB hp), fun p hp => h.denote_eq p (hAB hp)⟩

theorem Retains.of_counted {A : Set Ptr} (hr : State.Robdd P s) (hre : Counted s s')
    (hA : ∀ p ∈ A, p ∈ s.stored) : Retains A s s' :=
  ⟨⟨hre.falseNode, hre.trueNode, hre.vars, hre.nvars⟩, fun p hp => hre.stored_eq ▸ hA p hp,
    fun _ hp => hr.denote_eq hre.toRecounted.agrees (hA _ hp)⟩

/-- `make` has put a new object for `r` over the table `t`. -/
structure Makes (P : Platform) (n : ℕ) (A : Set Ptr) (c d : Client) (t : State) (r : Ptr) :
    Prop where
  eq : d = (({ c with table := t }).ref r).push r
  exact : Exact P n { c with table := t }
  mem : r ∈ t.stored
  retains : Retains A c.table t

/-- What a native method with temporaries has done. -/
structure Called (P : Platform) (n : ℕ) (A : Set Ptr) (c : Client) (t : State) (r : Ptr)
    (c' : Client) : Prop where
  exact : Exact P n c'
  mem : r ∈ c'.table.stored
  denote_eq : c'.table.denote r = t.denote r
  retains : Retains A c.table c'.table
  bdds : ∃ dead, c'.bdds = c.bdds ++ dead ∧ ∀ o ∈ dead, o = none

/-- **A native method with temporaries.** Its objects are gone when it returns, and no reference is
left of them. -/
theorem Exact.called {args : List Ptr} {make : ℕ → Client → Option Client} {A : Set Ptr}
    {R : Client → State → Ptr → Prop} (h : Exact P n c) (hargs : ∀ x ∈ args, x ∈ c.table.stored)
    (hA : ∀ p ∈ A, p ∈ c.table.stored) (hspare : Spare (1 + args.length) c)
    (hmake : ∀ d e, args.foldlM construct c = some d → Exact P n d → Counted c.table d.table →
      d.bdds = c.bdds ++ args.map some → make c.bdds.length d = some e →
      ∃ t r, Makes P n A d e t r ∧ R d t r)
    (hc : c.called args make = some (r, c')) :
    ∃ d t, Counted c.table d.table ∧ R d t r ∧ Called P n A c t r c' := by
  obtain ⟨d, hd, hc⟩ := Option.bind_eq_some_iff.mp hc
  obtain ⟨e, he, hc⟩ := Option.bind_eq_some_iff.mp hc
  obtain ⟨r', hr, hc⟩ := Option.bind_eq_some_iff.mp hc
  obtain ⟨c'', hdestroy, hc⟩ := Option.bind_eq_some_iff.mp hc
  cases hc
  obtain ⟨hexact, hre, hbdds, hone⟩ := h.constructAll hargs hspare hd
  obtain ⟨t, r', ⟨rfl, htable, hmem, hretains⟩, hR⟩ := hmake d e hd hexact hre hbdds he
  have hlen : d.bdds.length = c.bdds.length + args.length := by simp [hbdds]
  have hroot : ((({ d with table := t }).ref r').push r').root (c.bdds.length + args.length) =
      some r' := by
    have hpush := root_push_length (({ d with table := t } : Client).ref r') r'
    rw [ref_bdds] at hpush
    rw [← hlen]
    exact hpush
  obtain rfl := Option.some_inj.mp (hroot.symm.trans hr)
  -- the reference of the result
  have hcount : Counted t ((({ d with table := t }).ref r').push r').table :=
    counted_ref { d with table := t } r'
  have hspare' : Spare 0 ((({ d with table := t }).ref r').push r') :=
    (hone.withTable hretains.roots).attach r'
  have hpushed : Exact P n ((({ d with table := t }).ref r').push r') := by
    refine htable.recount hcount (htable.tallied.attach (fun _ => hmem) hspare'.fits)
  -- the destructors
  have hobjs : ((({ d with table := t }).ref r').push r').bdds =
      c.bdds ++ (args ++ [r']).map some ++ [] := by
    show (({ d with table := t } : Client).ref r').bdds ++ [some r'] = _
    rw [ref_bdds, hbdds]
    simp
  obtain ⟨hexact', hre', hdead⟩ := hpushed.destroyAll hspare'.fits hobjs
    (fun o ho => absurd ho List.not_mem_nil) (by simpa using hdestroy)
  have hback := hcount.trans hre'
  refine ⟨d, t, hre, hR, hexact', hback.stored_eq ▸ hmem, ?_, ?_, hdead⟩
  · exact htable.wf.toRobdd.denote_eq hback.toRecounted.agrees hmem
  · exact ((Retains.of_counted h.wf.toRobdd hre hA).trans hretains).trans
      (.of_counted htable.wf.toRobdd hback hretains.mem)

/-- `make` is an operator. -/
theorem Exact.makes_apply {A : Set Ptr} {j : ℕ} (h : Exact P n c) (hop : op ≠ .imp)
    (ho : c.operands op i j = some (x, y)) (hn : State.NoLoss P c.table op x y)
    (hA : (∀ p ∈ A, p ∈ c.table.stored ∧ c.table.Live p) ∨
      State.NoAllocFails P c.table op x y ∧ ∀ p ∈ A, p ∈ c.table.stored)
    (hc : c.apply P fuel op i j = some d) :
    ∃ t r, Makes P n A c d t r ∧
      t.denote r = map₂ op.connective (c.table.denote x) (c.table.denote y) := by
  rw [Client.apply, ho, Option.bind_eq_bind, Option.bind_some] at hc
  obtain ⟨⟨r, t⟩, hrun, hc⟩ := Option.bind_eq_some_iff.mp hc
  obtain ⟨-, rfl⟩ := construct_eq_some hc
  obtain ⟨hexact, hr, hd, hpres⟩ := h.operate ho hn hrun
  have hstored : State.Operands {p | p ∈ c.table.stored} op x y :=
    ⟨(h.operands_live ho).left.1, fun hnot => ((h.operands_live ho).right hnot).1⟩
  rw [State.answer_of_ne_imp h.wf.toRobdd hop hstored] at hd
  refine ⟨t, r, ⟨rfl, hexact, hr, ?_⟩, hd⟩
  rcases hA with hlive | ⟨hfails, hmem⟩
  · exact ⟨hpres.roots, fun p hp => (hpres.live p (hlive p hp).1 (hlive p hp).2).1,
      fun p hp => hpres.denote_eq p (hlive p hp).1 (hlive p hp).2⟩
  · obtain ⟨hcompletes, -⟩ := h.wf.completes ⟨trivial, trivial⟩ hstored hfails hrun
    have hext : State.Extends c.table t := ⟨hpres.roots, fun p hp => (hcompletes.kept p hp).1,
      fun p hp => (hcompletes.kept p hp).2⟩
    exact ⟨hpres.roots, fun p hp => hext.mem p (hmem p hp),
      fun p hp => h.wf.toRobdd.denote_eq hext.agrees (hmem p hp)⟩

/-- `make` returns a node that the table has. -/
theorem Exact.makes_construct {A : Set Ptr} (h : Exact P n c) (hp : p ∈ c.table.stored)
    (hA : ∀ q ∈ A, q ∈ c.table.stored) (hc : c.construct p = some d) :
    Makes P n A c d c.table p := by
  obtain ⟨-, rfl⟩ := construct_eq_some hc
  exact ⟨rfl, h, hp, .of_counted h.wf.toRobdd (Counted.refl _) hA⟩

end Client

/-! ### Calls -/

/-- The node `p` is stored, and denotes `f`. -/
def Client.Denotes (c : Client) (p : Ptr) (f : BoolFun) : Prop :=
  p ∈ c.table.stored ∧ c.table.denote p = f

namespace Native

/-- What an operator may be called with: stored nodes, and with references to them it runs under the
condition `ok`. -/
def Operates (ok : State → Operator → Ptr → Ptr → Prop) (c : Client) (op : Operator)
    (args : List Ptr) (i j : ℕ) : Prop :=
  (∀ x ∈ args, x ∈ c.table.stored) ∧
    ∀ d, args.foldlM construct c = some d → d.Admits ok (.apply op i j)

/-- The calls a program may make: every argument is a stored node, `deRef` gives back what a `ref`
has taken, and there is room for the references of the temporaries. -/
def Admits (ok : State → Operator → Ptr → Ptr → Prop) (c : Client) (e : Native) : Prop :=
  Spare 3 c ∧
    match e with
    | not x => Operates ok c .not [x] c.bdds.length c.bdds.length
    | and x y => Operates ok c .and [x, y] c.bdds.length (c.bdds.length + 1)
    | or x y => Operates ok c .or [x, y] c.bdds.length (c.bdds.length + 1)
    | diff x y => Operates ok c .diff [x, y] c.bdds.length (c.bdds.length + 1)
    | ref x => x ∈ c.table.stored
    | deRef x => x ∈ c.table.stored ∧ 0 < c.handles x
    | _ => True

/-- The variable of `var` and of `nvar` is one of the `n`. -/
def InRange (n : ℕ) : Native → Prop
  | var idx | nvar idx => idx < n
  | _ => True

/-- What a call over `n` variables gives back. -/
def Gives (n : ℕ) (c : Client) (out : ℕ) (c' : Client) : Native → Prop
  | var idx => idx < n ∧ c'.Denotes out (literal idx true)
  | nvar idx => idx < n ∧ c'.Denotes out (literal idx false)
  | getTrue => c'.Denotes out fun _ => true
  | getFalse => c'.Denotes out fun _ => false
  | not x => c'.Denotes out fun a => !c.table.denote x a
  | and x y => c'.Denotes out fun a => c.table.denote x a && c.table.denote y a
  | or x y => c'.Denotes out fun a => c.table.denote x a || c.table.denote y a
  | diff x y => c'.Denotes out fun a => c.table.denote x a && !c.table.denote y a
  | ref _ | deRef _ => c'.table.stored = c.table.stored
  | gc => ∀ p, p ∈ c'.table.stored ↔ p ∈ c.table.stored ∧ c.table.Live p
  | nodeCount => out = c.table.stored.length

end Native

/-- What a call gives back, and what it leaves. -/
structure Answers (P : Platform) (n : ℕ) (c : Client) (e : Native) (out : ℕ) (c' : Client) :
    Prop where
  gives : e.Gives n c out c'
  /-- Only `ref` and `deRef` change what the program holds. -/
  handles : ∀ p, c'.handles p + (if e = .deRef p then 1 else 0) =
    c.handles p + if e = .ref p then 1 else 0
  /-- A node that the program holds stays, with its function. -/
  kept : Retains c.rooted c.table c'.table
  /-- Without a collection every node stays. -/
  stays : e ≠ .gc → e.Admits (State.NoAllocFails P) c →
    Retains {p | p ∈ c.table.stored} c.table c'.table

/-- One call of a program. -/
def NativeStep (P : Platform) (c c' : Client) : Prop :=
  ∃ e fuel out, c.native P fuel e = some (out, c') ∧ e.Admits (State.NoLoss P) c

namespace Client

theorem handles_append_dead {objs dead : List (Option Ptr)} (hb : c.bdds = objs)
    (hb' : c'.bdds = objs ++ dead) (hdead : ∀ o ∈ dead, o = none) (p : Ptr) :
    c'.handles p = c.handles p := by
  have hzero : dead.count (some p) = 0 := List.count_eq_zero.mpr fun hmem => by
    cases hdead _ hmem
  rw [handles, handles, hb, hb', List.count_append, hzero, Nat.add_zero]

theorem Faithful.retained (h : Faithful P n c) (h' : Exact P n c')
    (hr : Retains c.rooted c.table c'.table) : Faithful P n c' :=
  ⟨h', h.wired.congr hr.roots fun p hp hpos =>
    hr.denote_eq p ⟨hp, Nat.lt_of_lt_of_le hpos (Nat.le_add_left _ _)⟩⟩

/-- A call of a method that returns a node of the table. -/
theorem Exact.called_construct {o : Option Ptr} (h : Exact P n c)
    (ho : ∀ p, o = some p → p ∈ c.table.stored) (hspare : Spare 3 c)
    (hc : c.called [] (fun _ d => o.bind d.construct) = some (r, c')) :
    Called P n {p | p ∈ c.table.stored} c c.table r c' ∧ o = some r := by
  have hspare' : Spare (1 + ([] : List Ptr).length) c := fun p hp => by
    have := hspare p hp
    simp only [List.length_nil]
    omega
  obtain ⟨d, t, -, ⟨hr, ht⟩, hcalled⟩ := h.called (R := fun _ t r => o = some r ∧ t = c.table)
    (by simp) (fun _ hq => hq) hspare' (fun d e hd hexact _ _ he => by
      cases hd
      obtain ⟨p, hp, he⟩ := Option.bind_eq_some_iff.mp he
      exact ⟨c.table, p, hexact.makes_construct (ho p hp) (fun _ hq => hq) he, hp, rfl⟩) hc
  subst ht
  exact ⟨hcalled, hr⟩

/-- A call of an operator. -/
theorem Exact.called_apply {args : List Ptr} {j : ℕ} (h : Exact P n c) (hop : op ≠ .imp)
    (hlen : args.length ≤ 2) (hspare : Spare 3 c)
    (ho : ∀ d : Client, d.bdds = c.bdds ++ args.map some → d.operands op i j = some (x, y))
    (hx : x ∈ c.table.stored) (hy : op = .not ∨ y ∈ c.table.stored)
    (hn : Native.Operates (State.NoLoss P) c op args i j)
    (hc : c.called args (fun _ d => d.apply P fuel op i j) = some (r, c')) :
    Exact P n c' ∧
      c'.Denotes r (map₂ op.connective (c.table.denote x) (c.table.denote y)) ∧
      (∀ p, c'.handles p = c.handles p) ∧
      Retains c.rooted c.table c'.table ∧
      (Native.Operates (State.NoAllocFails P) c op args i j →
        Retains {p | p ∈ c.table.stored} c.table c'.table) := by
  have hspare' : Spare (1 + args.length) c := fun p hp => by
    have := hspare p hp
    omega
  have hcalled : ∀ A : Set Ptr, (∀ q ∈ A, q ∈ c.table.stored) →
      (∀ p ∈ A, p ≠ nullptr ∧ 0 < c.references p) ∨
        Native.Operates (State.NoAllocFails P) c op args i j →
      ∃ (d : Client) (t : State), Counted c.table d.table ∧
        t.denote r = map₂ op.connective (d.table.denote x) (d.table.denote y) ∧
        Called P n A c t r c' := by
    intro A hA hcase
    refine h.called (R := fun (d : Client) (t : State) r =>
      t.denote r = map₂ op.connective (d.table.denote x) (d.table.denote y)) hn.1 hA hspare'
      (fun d e hd hexact hre hbdds he => ?_) hc
    refine hexact.makes_apply hop (ho d hbdds) (hn.2 d hd x y (ho d hbdds)) ?_ he
    rcases hcase with hrefs | hfails
    · refine .inl fun p hp => ?_
      obtain ⟨hne, hpos⟩ := hrefs p hp
      refine hexact.live_of_references hne (hpos.trans_le ?_)
      rw [references, references, hre.permanent_eq, handles, handles, hbdds, List.count_append]
      omega
    · exact .inr ⟨hfails.2 d hd x y (ho d hbdds), fun p hp => hre.stored_eq ▸ hA p hp⟩
  obtain ⟨d, t, hre, hdenote, hheld⟩ := hcalled c.rooted h.rooted_subset
    (.inl fun p hp => hp)
  obtain ⟨dead, hbdds, hdead⟩ := hheld.bdds
  refine ⟨hheld.exact, ⟨hheld.mem, ?_⟩, handles_append_dead rfl hbdds hdead, hheld.retains,
    fun hfails => ?_⟩
  · rw [hheld.denote_eq, hdenote, h.wf.toRobdd.denote_eq hre.toRecounted.agrees hx]
    refine map₂_connective_congr (fun hnot => ?_) _
    exact h.wf.toRobdd.denote_eq hre.toRecounted.agrees (hy.resolve_left hnot)
  · obtain ⟨d, t, -, -, hall⟩ := hcalled {p | p ∈ c.table.stored} (fun _ hp => hp) (.inr hfails)
    exact hall.retains

theorem operands_single (hx : x ≠ nullptr) (hb : d.bdds = c.bdds ++ [x].map some) :
    d.operands .not c.bdds.length c.bdds.length = some (x, nullptr) := by
  have hroot : d.node c.bdds.length = some x :=
    node_eq_some.mpr ⟨root_eq_some.mpr (by simp [hb]), hx⟩
  simp [operands, rightNode, hroot]

theorem operands_pair (hop : op ≠ .not) (hx : x ≠ nullptr) (hy : y ≠ nullptr)
    (hb : d.bdds = c.bdds ++ [x, y].map some) :
    d.operands op c.bdds.length (c.bdds.length + 1) = some (x, y) := by
  have hleft : d.node c.bdds.length = some x :=
    node_eq_some.mpr ⟨root_eq_some.mpr (by simp [hb]), hx⟩
  have hright : d.node (c.bdds.length + 1) = some y :=
    node_eq_some.mpr ⟨root_eq_some.mpr (by simp [hb]), hy⟩
  simp [operands, rightNode, hop, hleft, hright]

/-- `deRef` ends the object of a `ref`. -/
theorem deRef_eq (hpos : 0 < c.handles x) (hc : NanoBDD.deRef c x = some c') :
    c.root (c.bdds.idxOf (some x)) = some x ∧ c.destroy (c.bdds.idxOf (some x)) = some c' := by
  have hmem : some x ∈ c.bdds := List.count_pos_iff.mp hpos
  have hroot : c.root (c.bdds.idxOf (some x)) = some x :=
    root_eq_some.mpr (List.getElem?_idxOf hmem)
  refine ⟨hroot, ?_⟩
  rw [NanoBDD.deRef] at hc
  split at hc
  · cases hc
  · cases hc
    rw [Client.destroy, hroot]
    rfl

namespace Faithful

theorem native_construct {e : Native} {o : Option Ptr} {out : ℕ} (h : Faithful P n c)
    (ho : ∀ p, o = some p → p ∈ c.table.stored)
    (he : e.Admits (State.NoLoss P) c) (hne : ∀ p, e ≠ .ref p ∧ e ≠ .deRef p)
    (hc : c.called [] (fun _ d => o.bind d.construct) = some (out, c'))
    (hgives : o = some out → c'.Denotes out (c.table.denote out) → e.Gives n c out c') :
    Faithful P n c' ∧ Answers P n c e out c' := by
  obtain ⟨hcalled, hout⟩ := h.toExact.called_construct ho he.1 hc
  obtain ⟨dead, hbdds, hdead⟩ := hcalled.bdds
  have hkept : Retains c.rooted c.table c'.table :=
    hcalled.retains.mono h.rooted_subset
  refine ⟨h.retained hcalled.exact hkept, hgives hout ⟨hcalled.mem, hcalled.denote_eq⟩, fun p => ?_,
    hkept, fun _ _ => hcalled.retains⟩
  rw [if_neg (hne p).2, if_neg (hne p).1, handles_append_dead rfl hbdds hdead]

theorem native_apply {e : Native} {args : List Ptr} {j out : ℕ} (h : Faithful P n c)
    (hop : op ≠ .imp) (hlen : args.length ≤ 2)
    (ho : ∀ d : Client, d.bdds = c.bdds ++ args.map some → d.operands op i j = some (x, y))
    (hx : x ∈ c.table.stored) (hy : op = .not ∨ y ∈ c.table.stored)
    (he : ∀ ok, e.Admits ok c → Spare 3 c ∧ Native.Operates ok c op args i j)
    (hadm : e.Admits (State.NoLoss P) c) (hne : ∀ p, e ≠ .ref p ∧ e ≠ .deRef p)
    (hc : c.called args (fun _ d => d.apply P fuel op i j) = some (out, c'))
    (hgives : c'.Denotes out (map₂ op.connective (c.table.denote x) (c.table.denote y)) →
      e.Gives n c out c') :
    Faithful P n c' ∧ Answers P n c e out c' := by
  obtain ⟨hspare, hoperates⟩ := he _ hadm
  obtain ⟨hexact, hdenotes, hhandles, hkept, hstays⟩ :=
    h.toExact.called_apply hop hlen hspare ho hx hy hoperates hc
  refine ⟨h.retained hexact hkept, hgives hdenotes, fun p => ?_, hkept,
    fun _ hfails => hstays (he _ hfails).2⟩
  rw [if_neg (hne p).2, if_neg (hne p).1, hhandles]

theorem native_pair {e : Native} {out : ℕ} (h : Faithful P n c) (hop : op ≠ .imp)
    (hnot : op ≠ .not)
    (he : ∀ ok, e.Admits ok c → Spare 3 c ∧
      Native.Operates ok c op [x, y] c.bdds.length (c.bdds.length + 1))
    (hadm : e.Admits (State.NoLoss P) c) (hne : ∀ p, e ≠ .ref p ∧ e ≠ .deRef p)
    (hc : c.called [x, y] (fun n d => d.apply P fuel op n (n + 1)) = some (out, c'))
    (hgives : c'.Denotes out (map₂ op.connective (c.table.denote x) (c.table.denote y)) →
      e.Gives n c out c') :
    Faithful P n c' ∧ Answers P n c e out c' := by
  obtain ⟨-, hargs, -⟩ := he _ hadm
  have hx := hargs x List.mem_cons_self
  have hy := hargs y (List.mem_cons_of_mem _ List.mem_cons_self)
  exact h.native_apply hop (by simp)
    (fun d hd => operands_pair hnot (h.wf.ne_null hx) (h.wf.ne_null hy) hd) hx (.inr hy) he hadm hne
    hc hgives

theorem native_ref {out : ℕ} (h : Faithful P n c) (he : (Native.ref x).Admits (State.NoLoss P) c)
    (hc : c.native P fuel (.ref x) = some (out, c')) :
    Faithful P n c' ∧ Answers P n c (.ref x) out c' := by
  obtain ⟨d, hd, hc⟩ := Option.map_eq_some_iff.mp hc
  cases hc
  have hx : x ∈ c.table.stored := he.2
  rw [NanoBDD.ref, if_neg (h.wf.ne_null hx)] at hd
  cases hd
  have hre : Counted c.table ((c.ref x).push x).table := counted_ref c x
  have hexact := h.toExact.recount hre
    (h.tallied.attach (fun _ => hx) (Spare.attach (k := 2) he.1 x).fits)
  have hstays : Retains {p | p ∈ c.table.stored} c.table ((c.ref x).push x).table :=
    .of_counted h.wf.toRobdd hre fun _ hp => hp
  have hkept := hstays.mono h.rooted_subset
  refine ⟨h.retained hexact hkept, hre.stored_eq, fun p => ?_, hkept, fun _ _ => hstays⟩
  rw [handles_push, handles_ref]
  simp [eq_comm]

theorem native_deRef {out : ℕ} (h : Faithful P n c)
    (he : (Native.deRef x).Admits (State.NoLoss P) c)
    (hc : c.native P fuel (.deRef x) = some (out, c')) :
    Faithful P n c' ∧ Answers P n c (.deRef x) out c' := by
  obtain ⟨d, hd, hc⟩ := Option.map_eq_some_iff.mp hc
  cases hc
  obtain ⟨hroot, hdestroy⟩ := deRef_eq he.2.2 hd
  have haction : c.exec P 0 (.destroy (c.bdds.idxOf (some x))) = some c' := hdestroy
  have hexact : Exact P n c' := h.toExact.exec haction trivial (Spare.destroy he.1 hdestroy).fits
  have hre : Counted c.table c'.table := counted_of_onObjects (a := .destroy _) trivial haction
  have hstays : Retains {p | p ∈ c.table.stored} c.table c'.table :=
    .of_counted h.wf.toRobdd hre fun _ hp => hp
  have hkept := hstays.mono h.rooted_subset
  refine ⟨h.retained hexact hkept, hre.stored_eq, fun p => ?_, hkept, fun _ _ => hstays⟩
  rw [Client.destroy, hroot] at hdestroy
  cases hdestroy
  have hcount := handles_setRoot ((root_deref c x _).trans hroot) none p
  rw [handles_deref] at hcount
  simpa [eq_comm] using hcount

theorem native_gc {out : ℕ} (h : Faithful P n c)
    (hc : c.native P fuel .gc = some (out, c')) : Faithful P n c' ∧ Answers P n c .gc out c' := by
  obtain ⟨d, hd, hc⟩ := Option.map_eq_some_iff.mp hc
  cases hc
  obtain ⟨hexact, hswept⟩ := h.toExact.gc hd
  have hkept : Retains c.rooted c.table c'.table := by
    have hmem : ∀ p ∈ c.rooted, p ∈ c'.table.stored :=
      fun p hp => (hswept.mem_iff p).mpr (h.live_of_references hp.1 hp.2)
    exact ⟨hswept.roots, hmem, fun p hp => hswept.denote_eq hexact.wf.toRobdd (hmem p hp)⟩
  refine ⟨h.retained hexact hkept, hswept.mem_iff, fun p => ?_, hkept, fun hne => absurd rfl hne⟩
  obtain ⟨t, -, hd⟩ := Option.bind_eq_some_iff.mp hd
  cases hd
  rfl

/-- **One call.** -/
theorem native {e : Native} {out : ℕ} (h : Faithful P n c) (he : e.Admits (State.NoLoss P) c)
    (hc : c.native P fuel e = some (out, c')) : Faithful P n c' ∧ Answers P n c e out c' := by
  have hnull : ∀ {p}, p ∈ c.table.stored → p ≠ nullptr := fun hp => h.wf.ne_null hp
  cases e with
  | var idx =>
    refine h.native_construct (o := c.table.vars[idx]?)
      (fun p hp => h.wired_mem (.inl (List.mem_of_getElem? hp))) he (fun _ => ⟨nofun, nofun⟩) hc
      fun hp hd => ⟨?_, hd.1, hd.2.trans (h.wired.var idx out hp)⟩
    exact h.wired.vars_length ▸ (List.getElem?_eq_some_iff.mp hp).1
  | nvar idx =>
    refine h.native_construct (o := c.table.nvars[idx]?)
      (fun p hp => h.wired_mem (.inr (List.mem_of_getElem? hp))) he (fun _ => ⟨nofun, nofun⟩) hc
      fun hp hd => ⟨?_, hd.1, hd.2.trans (h.wired.nvar idx out hp)⟩
    exact h.wired.nvars_length ▸ (List.getElem?_eq_some_iff.mp hp).1
  | getTrue =>
    refine h.native_construct (o := some c.table.trueNode)
      (fun p hp => Option.some_inj.mp hp ▸ h.wf.true_mem) he (fun _ => ⟨nofun, nofun⟩) hc
      fun hp hd => ⟨hd.1, hd.2.trans ?_⟩
    rw [← Option.some_inj.mp hp]
    exact h.wf.toRobdd.denote_true
  | getFalse =>
    refine h.native_construct (o := some c.table.falseNode)
      (fun p hp => Option.some_inj.mp hp ▸ h.wf.false_mem) he (fun _ => ⟨nofun, nofun⟩) hc
      fun hp hd => ⟨hd.1, hd.2.trans ?_⟩
    rw [← Option.some_inj.mp hp]
    exact h.wf.toRobdd.denote_false
  | not x =>
    have hx := he.2.1 x List.mem_cons_self
    exact h.native_apply (by decide) (by simp)
      (fun d hd => operands_single (hnull hx) hd) hx (.inl rfl) (fun _ h => h) he
      (fun _ => ⟨nofun, nofun⟩) hc id
  | and x y =>
    exact h.native_pair (by decide) (by decide) (fun _ h => h) he (fun _ => ⟨nofun, nofun⟩) hc id
  | or x y =>
    exact h.native_pair (by decide) (by decide) (fun _ h => h) he (fun _ => ⟨nofun, nofun⟩) hc id
  | diff x y =>
    exact h.native_pair (by decide) (by decide) (fun _ h => h) he (fun _ => ⟨nofun, nofun⟩) hc id
  | ref x => exact h.native_ref he hc
  | deRef x => exact h.native_deRef he hc
  | gc => exact h.native_gc hc
  | nodeCount =>
    cases hc
    refine ⟨h, h.nodeCount, fun _ => rfl, ?_, fun _ _ => ?_⟩
    · exact .of_counted h.wf.toRobdd (Counted.refl _) h.rooted_subset
    · exact .of_counted h.wf.toRobdd (Counted.refl _) fun _ hp => hp

end Faithful

/-! ### Every call returns -/

theorem exists_constructAll : ∀ {args : List Ptr} {c : Client}, (∀ x ∈ args, x ≠ nullptr) →
    ∃ d, args.foldlM construct c = some d := by
  intro args
  induction args with
  | nil => exact fun _ => ⟨_, rfl⟩
  | cons x args ih =>
    intro c hargs
    obtain ⟨d, hd⟩ := ih (c := (c.ref x).push x) fun y hy => hargs y (List.mem_cons_of_mem _ hy)
    refine ⟨d, ?_⟩
    rw [List.foldlM_cons, construct, if_neg (hargs x List.mem_cons_self)]
    exact hd

theorem exists_destroyAll {objs : List (Option Ptr)} :
    ∀ {l : List Ptr} {dead : List (Option Ptr)} {c : Client}, c.bdds = objs ++ l.map some ++ dead →
      ∃ d, (List.range' objs.length l.length).reverse.foldlM destroy c = some d := by
  intro l
  induction l using List.reverseRecOn with
  | nil => exact fun _ => ⟨_, rfl⟩
  | append_singleton l x ih =>
    intro dead c hbdds
    have hroot : c.root (objs.length + l.length) = some x := root_eq_some.mpr (by simp [hbdds])
    have hrest : ((c.deref x).setRoot (objs.length + l.length) none).bdds =
        objs ++ l.map some ++ (none :: dead) := by
      show (c.deref x).bdds.set _ none = _
      rw [deref_bdds, hbdds]
      simp
    obtain ⟨d, hd⟩ := ih hrest
    refine ⟨d, ?_⟩
    rw [List.length_append, List.length_singleton, List.range'_1_concat, List.reverse_concat,
      List.foldlM_cons, destroy, hroot]
    exact hd

/-- A native method with temporaries returns if `make` does. -/
theorem exists_called {args : List Ptr} {make : ℕ → Client → Option Client}
    (hd : args.foldlM construct c = some d) (hbdds : d.bdds = c.bdds ++ args.map some)
    (hmake : make c.bdds.length d = some ((({ d with table := s }).ref r).push r)) :
    ∃ x, c.called args make = some x := by
  have hlen : d.bdds.length = c.bdds.length + args.length := by simp [hbdds]
  have hroot := root_push_length (({ d with table := s } : Client).ref r) r
  rw [ref_bdds] at hroot
  have hobjs : ((({ d with table := s }).ref r).push r).bdds =
      c.bdds ++ (args ++ [r]).map some ++ [] := by
    show (({ d with table := s } : Client).ref r).bdds ++ [some r] = _
    rw [ref_bdds, hbdds]
    simp
  obtain ⟨e, he⟩ := exists_destroyAll hobjs
  rw [List.length_append, List.length_singleton] at he
  refine ⟨(r, e), ?_⟩
  simp only [called, hd, hmake, Option.bind_eq_bind, Option.bind_some, ← hlen, hroot, he]

theorem Exact.exists_called_apply {args : List Ptr} {j : ℕ} (h : Exact P n c)
    (hlen : args.length ≤ 2) (hspare : Spare 3 c)
    (ho : ∀ d : Client, d.bdds = c.bdds ++ args.map some → d.operands op i j = some (x, y))
    (hn : Native.Operates (State.NoLoss P) c op args i j) :
    ∃ F, ∀ fuel ≥ F, ∃ x, c.called args (fun _ d => d.apply P fuel op i j) = some x := by
  have hspare' : Spare (1 + args.length) c := fun p hp => by
    have := hspare p hp
    omega
  obtain ⟨d, hd⟩ := exists_constructAll (c := c) fun x hx => h.wf.ne_null (hn.1 x hx)
  obtain ⟨hexact, -, hbdds, -⟩ := h.constructAll hn.1 hspare' hd
  obtain ⟨F, s, r, hF⟩ := hexact.exists_apply (ho d hbdds) (hn.2 d hd x y (ho d hbdds))
  exact ⟨F, fun fuel hfuel => exists_called hd hbdds (hF fuel hfuel)⟩

/-- **Every call returns.** -/
theorem Faithful.exists_native {e : Native} (h : Faithful P n c) (he : e.Admits (State.NoLoss P) c)
    (hn : e.InRange n) : ∃ F, ∀ fuel ≥ F, ∃ x, c.native P fuel e = some x := by
  have hnull : ∀ {p}, p ∈ c.table.stored → p ≠ nullptr := fun hp => h.wf.ne_null hp
  have hcon : ∀ {make : Client → Option Client} {p}, make c = some ((c.ref p).push p) →
      ∃ x, c.called [] (fun _ d => make d) = some x := fun hmake =>
    exists_called (s := c.table) rfl (by simp) hmake
  have hpair : ∀ {op x y}, op ≠ .not →
      Native.Operates (State.NoLoss P) c op [x, y] c.bdds.length (c.bdds.length + 1) →
      ∃ F, ∀ fuel ≥ F, ∃ z,
        c.called [x, y] (fun n d => d.apply P fuel op n (n + 1)) = some z := fun hop hargs =>
    h.toExact.exists_called_apply (by simp) he.1 (fun d hd => operands_pair hop
      (hnull (hargs.1 _ List.mem_cons_self))
      (hnull (hargs.1 _ (List.mem_cons_of_mem _ List.mem_cons_self))) hd) hargs
  cases e with
  | var idx =>
    obtain ⟨p, hp⟩ := h.exists_getVar hn
    exact ⟨0, fun _ _ => hcon hp⟩
  | nvar idx =>
    obtain ⟨p, hp⟩ := h.exists_getNvar hn
    exact ⟨0, fun _ _ => hcon hp⟩
  | getTrue => exact ⟨0, fun _ _ => hcon (h.construct_eq h.wf.true_mem)⟩
  | getFalse => exact ⟨0, fun _ _ => hcon (h.construct_eq h.wf.false_mem)⟩
  | not x =>
    exact h.toExact.exists_called_apply (by simp) he.1
      (fun d hd => operands_single (hnull (he.2.1 x List.mem_cons_self)) hd) he.2
  | and x y => exact hpair (by decide) he.2
  | or x y => exact hpair (by decide) he.2
  | diff x y => exact hpair (by decide) he.2
  | ref x =>
    refine ⟨0, fun _ _ => ⟨(0, (c.ref x).push x), ?_⟩⟩
    rw [Client.native, NanoBDD.ref, if_neg (hnull he.2)]
    rfl
  | deRef x =>
    refine ⟨0, fun _ _ => ⟨(0, (c.deref x).setRoot (c.bdds.idxOf (some x)) none), ?_⟩⟩
    rw [Client.native, NanoBDD.deRef, if_neg (hnull he.2.1)]
    rfl
  | gc =>
    obtain ⟨F, d, hF⟩ := h.toExact.exists_gc
    exact ⟨F, fun fuel hfuel => ⟨(0, d), by rw [Client.native, hF fuel hfuel]; rfl⟩⟩
  | nodeCount => exact ⟨0, fun _ _ => ⟨_, rfl⟩⟩

/-- **The Java interface.** A program starts after `init` and calls native methods, with stored
nodes as arguments and a `ref` for every `deRef`. In every state of its run two nodes are equal
exactly if their functions are, a counter is the number of references that the program holds and the
permanent ones, and the next call answers with the right node or number; what the program holds
stays as it is, and the rest stays until the next collection. And every such call returns. -/
theorem java_of_run {rand₁ rand₂ : ℕ → ℕ} {tableSize cacheSize varNum : ℕ} (hv : varNum < uintMax)
    (hi : State.init P fuel rand₁ rand₂ tableSize cacheSize varNum = some s)
    (hc : Relation.ReflTransGen (NativeStep P) (start s) c) :
    Canonical varNum c ∧
      (∀ p ∈ c.table.stored, (c.table.heap p).refCount = c.handles p + c.table.permanent p) ∧
      (∀ e k out c', c.native P k e = some (out, c') → e.Admits (State.NoLoss P) c →
        Answers P varNum c e out c') ∧
      ∀ e, e.Admits (State.NoLoss P) c → e.InRange varNum →
        ∃ F, ∀ fuel ≥ F, ∃ x, c.native P fuel e = some x := by
  have hrun : Faithful P varNum c := Transition.invariant (I := Faithful P varNum)
    (fun b d hbd hb => by
      obtain ⟨e, k, out, hd, hadm⟩ := hbd
      exact (hb.native hadm hd).1) hc (faithful_of_ready (State.ready_of_init hv hi))
  exact ⟨hrun.toExact.canonical, hrun.counted,
    fun e k out c' hd hadm => (hrun.native hadm hd).2,
    fun e hadm hrange => hrun.exists_native hadm hrange⟩

theorem spare_of_length
    (h : c.bdds.length + (c.table.vars.length + c.table.nvars.length + 2) + k < 2 ^ 32) :
    Spare k c := fun p _ => (Nat.add_le_add_right (c.references_le_length p) k).trans_lt h

theorem spare_small (hvars : c.table.vars = State.small.vars)
    (hnvars : c.table.nvars = State.small.nvars) (hb : c.bdds.length < 2 ^ 31) : Spare 3 c := by
  refine spare_of_length ?_
  rw [hvars, hnvars, State.vars_small, State.nvars_small]
  simp only [List.length_cons, List.length_nil]
  omega

/-- The conjunction of two variables that the program holds. -/
theorem java_of_run_small :
    (∃ F, ∀ fuel ≥ F, ∃ x, smallPair.native State.smallPlatform fuel (.and 3 5) = some x) ∧
      ∃ out c', smallPair.native State.smallPlatform 40 (.and 3 5) = some (out, c') ∧
        Answers State.smallPlatform 3 smallPair (.and 3 5) out c' := by
  have hstep : NativeStep State.smallPlatform (start State.small)
      (((start State.small).ref 3).push 3) :=
    ⟨.ref 3, 0, 0, rfl, spare_small rfl rfl (by decide), by decide +kernel⟩
  have hstep' : NativeStep State.smallPlatform (((start State.small).ref 3).push 3) smallPair :=
    ⟨.ref 5, 0, 0, rfl, spare_small rfl rfl (by decide), by decide +kernel⟩
  have hadm : (Native.and 3 5).Admits (State.NoLoss State.smallPlatform) smallPair := by
    refine ⟨spare_small rfl rfl (by decide), by decide +kernel, fun d hd x y ho => ?_⟩
    have hargs : [3, 5].foldlM construct smallPair =
        some ((((smallPair.ref 3).push 3).ref 5).push 5) := rfl
    cases hargs.symm.trans hd
    have hoperands : ((((smallPair.ref 3).push 3).ref 5).push 5).operands .and 2 3 =
        some (3, 5) := rfl
    cases hoperands.symm.trans ho
    exact State.NoAllocFails.noLoss (not_allocFails_of_endsWithin (n := 20) (by decide +kernel))
  have hsome : (smallPair.native State.smallPlatform 40 (.and 3 5)).isSome = true := by
    decide +kernel
  obtain ⟨⟨out, c'⟩, hc⟩ := Option.isSome_iff_exists.mp hsome
  obtain ⟨-, -, hanswers, hreturns⟩ := java_of_run (by decide) State.init_small
    ((Relation.ReflTransGen.single hstep).tail hstep')
  exact ⟨hreturns _ hadm trivial, out, c', hc, hanswers _ 40 out c' hc hadm⟩

end Client

end Nanobdd
