import Nanobdd.Builds
import Nanobdd.Compound
import Nanobdd.Slots

/-!
# The default build

The other modules keep the cache of the default build in the table. A session keeps it beside the
table, so that the other build fits in. Put back together they are the same program: what the
recursive functions and the commands of a program do is a run of the session.

## Main definitions

* `World.merged` — the program of a session of the default build

## Main results

* `Session.step_of_step` — a step of the machine is a step of the session
* `Session.steps_of_bddOp` — an operator is a run of the session
* `Session.steps_of_perform` — a command is one
* `Session.steps_of_run` — every program after `init` is a run of the session
-/

namespace Nanobdd

variable {P : Platform} {s s' t : State} {x y r : Ptr} {op : Operator} {fuel : ℕ}
  {k k' : List Frame} {control control' : Control} {c c' : Client} {a : Action}

/-! ### The cache in the table -/

namespace State

theorem terminal_withCache (s : State) (d : Option LockFreeCache) (op : Operator) (x y : Ptr) :
    (s.withCache d).terminal op x y = s.terminal op x y := by
  cases op <;> rfl

theorem topLevel_withCache (s : State) (d : Option LockFreeCache) (op : Operator) (x y : Ptr) :
    (s.withCache d).topLevel op x y = s.topLevel op x y := by
  cases op <;> rfl

end State

namespace Client

/-- The same program with another cache in its table. -/
def withCache (c : Client) (d : Option LockFreeCache) : Client :=
  { c with table := c.table.withCache d }

theorem ref_withCache (c : Client) (d : Option LockFreeCache) (p : Ptr) :
    (c.withCache d).ref p = (c.ref p).withCache d := by
  rw [ref, ref]
  split <;> rfl

theorem deref_withCache (c : Client) (d : Option LockFreeCache) (p : Ptr) :
    (c.withCache d).deref p = (c.deref p).withCache d := by
  rw [deref, deref]
  split <;> rfl

theorem construct_withCache (c : Client) (d : Option LockFreeCache) (p : Ptr) :
    (c.withCache d).construct p = (c.construct p).map fun c => c.withCache d := by
  rw [construct, construct, ref_withCache]
  split <;> rfl

/-- Actions on objects do not look at the cache. -/
theorem exec_withCache (ha : OnObjects a) (P : Platform) (fuel : ℕ) (c : Client)
    (d : Option LockFreeCache) :
    (c.withCache d).exec P fuel a = (c.exec P fuel a).map fun c => c.withCache d := by
  have hroot : ∀ i, (c.withCache d).root i = c.root i := fun _ => rfl
  cases a with
  | constructDefault => exact construct_withCache c d _
  | construct p => exact construct_withCache c d p
  | copyConstruct i =>
    simp only [exec, copyConstruct, hroot, ref_withCache]
    cases c.root i <;> rfl
  | moveConstruct i =>
    simp only [exec, moveConstruct, hroot]
    cases c.root i <;> rfl
  | destroy i =>
    simp only [exec, destroy, hroot, deref_withCache]
    cases c.root i <;> rfl
  | copyAssign i j =>
    simp only [exec, copyAssign, hroot, ref_withCache, deref_withCache]
    cases c.root i <;> cases c.root j <;> try rfl
    simp only [Option.bind_eq_bind, Option.bind_some]
    split <;> rfl
  | moveAssign i j =>
    simp only [exec, moveAssign, hroot, deref_withCache]
    cases c.root i <;> cases c.root j <;> try rfl
    simp only [Option.bind_eq_bind, Option.bind_some]
    split <;> rfl
  | apply op i j => exact ha.elim
  | getVar id =>
    have hvar : (c.withCache d).table.vars[id]? = c.table.vars[id]? := rfl
    simp only [exec, getVar, hvar]
    cases c.table.vars[id]? with
    | none => rfl
    | some p => exact construct_withCache c d p
  | getNvar id =>
    have hnvar : (c.withCache d).table.nvars[id]? = c.table.nvars[id]? := rfl
    simp only [exec, getNvar, hnvar]
    cases c.table.nvars[id]? with
    | none => rfl
    | some p => exact construct_withCache c d p
  | bddFalse => exact construct_withCache c d _
  | bddTrue => exact construct_withCache c d _
  | gc => exact ha.elim

end Client

namespace World

variable {w : World LockFreeCache}

/-- The program of a session, with the cache in its table. -/
def merged (w : World LockFreeCache) : Client := w.client.withCache (some w.cache)

theorem merged_table (w : World LockFreeCache) :
    w.merged.table = w.table.withCache (some w.cache) := rfl

theorem cacheLookup_merged (w : World LockFreeCache) (P : Platform) (f : Bool) (op : Operator)
    (x y : Ptr) : w.merged.table.cacheLookup P op x (op.right y) =
      some ((w.lookup lockFreeBuild P f op x y).1,
        (w.lookup lockFreeBuild P f op x y).2.merged.table) := by
  have hslot : State.hashVal P w.cache op x (op.right y) = w.slot lockFreeBuild P op x y :=
    State.hashVal_eq P w.cache op x (op.right y)
  rw [State.cacheLookup, show w.merged.table.cache = some w.cache from rfl, Option.map_some, hslot]
  rfl

theorem cacheInsert_merged (w : World LockFreeCache) (P : Platform) (op : Operator)
    (res x y : Ptr) : w.merged.table.cacheInsert P op res x (op.right y) =
      some (w.insert lockFreeBuild P (P.fails w.table.clock) op res x y).merged.table := by
  have hslot : State.hashVal P w.cache op x (op.right y) = w.slot lockFreeBuild P op x y :=
    State.hashVal_eq P w.cache op x (op.right y)
  rw [State.cacheInsert, show w.merged.table.cache = some w.cache from rfl, Option.map_some, hslot]
  rfl

/-- **A collection with the cache**, and maintenance. -/
theorem gcLocked_merged (h : w.merged.table.gcLocked fuel = some s) :
    ∃ t, w.table.collectNodes fuel = some t ∧ (w.collected lockFreeBuild t).merged =
      { w.merged with table := s } := by
  rw [State.gcLocked_eq_collectNodes (c := w.cache) rfl] at h
  rw [merged_table, State.collectNodes_withCache] at h
  obtain ⟨u, hu, rfl⟩ := Option.map_eq_some_iff.mp h
  obtain ⟨t, ht, rfl⟩ := Option.map_eq_some_iff.mp hu
  exact ⟨t, ht, rfl⟩

theorem performMaintenance_merged (h : w.merged.table.performMaintenance P fuel = some s) :
    ∃ t, w.table.collectNodes fuel = some t ∧ (w.collected lockFreeBuild (t.extend P)).merged =
      { w.merged with table := s } := by
  rw [State.performMaintenance_eq] at h
  obtain ⟨u, hu, rfl⟩ := Option.map_eq_some_iff.mp h
  obtain ⟨t, ht, hmerged⟩ := gcLocked_merged hu
  refine ⟨t, ht, ?_⟩
  have htable : u = t.withCache (some w.cache.invalidateAll) :=
    (congrArg Client.table hmerged).symm
  rw [htable, State.extend_withCache]
  rfl

end World

/-! ### Operators -/

namespace Session

open World

variable {w : World LockFreeCache}

/-- Any number of steps of the default build. -/
abbrev DefaultSteps (P : Platform) : Session LockFreeCache → Session LockFreeCache → Prop :=
  Relation.ReflTransGen (Step lockFreeBuild P)

/-- **A step of the machine is a step of the session.** -/
theorem step_of_step (h : Nanobdd.Step P ⟨w.merged.table, control, k⟩ ⟨s', control', k'⟩) :
    ∃ w' : World LockFreeCache,
      Step lockFreeBuild P (running w control k) (running w' control' k') ∧
        w'.merged = { w.merged with table := s' } := by
  cases h with
  | terminal hterm =>
    rw [merged_table, State.terminal_withCache] at hterm
    exact ⟨w, Or.inl (.terminal hterm), rfl⟩
  | @hit s s' op x y r k hterm hl hr =>
    rw [merged_table, State.terminal_withCache] at hterm
    rw [w.cacheLookup_merged P false op x y] at hl
    cases hl
    exact ⟨_, Or.inl (.hit false hterm hr), rfl⟩
  | @miss s s' op x y k hterm hl =>
    rw [merged_table, State.terminal_withCache] at hterm
    rw [w.cacheLookup_merged P false op x y] at hl
    obtain ⟨hnull, rfl⟩ := Prod.mk.inj (Option.some_inj.mp hl)
    have hlevel : (w.lookup lockFreeBuild P false op x y).2.merged.table.topLevel op x y =
        w.table.topLevel op x y := State.topLevel_withCache _ _ op x y
    rw [hlevel]
    exact ⟨_, Or.inl (.miss false hterm hnull), rfl⟩
  | second => exact ⟨w, Or.inl .second, rfl⟩
  | equal => exact ⟨w, Or.inl .equal, rfl⟩
  | differ hne => exact ⟨w, Or.inl (.differ hne), rfl⟩
  | create hcreate =>
    rw [merged_table, State.getOrCreateOnce_withCache] at hcreate
    obtain ⟨⟨q, t⟩, ht, hcreate⟩ := Option.map_eq_some_iff.mp hcreate
    cases hcreate
    exact ⟨_, Or.inl (.create ht), rfl⟩
  | exhaust hf =>
    rw [State.AllocFails, merged_table, State.getOrCreateOnce_withCache,
      Option.map_eq_none_iff] at hf
    exact ⟨w, Or.inl (.exhaust hf), rfl⟩
  | maintain fuel hm =>
    obtain ⟨t, ht, hmerged⟩ := performMaintenance_merged hm
    exact ⟨_, Or.inr (Or.inl (.maintain fuel ht)), hmerged⟩
  | insert hi =>
    rw [w.cacheInsert_merged] at hi
    cases hi
    exact ⟨_, Or.inl (.insert _), rfl⟩

/-- **A run of the machine is a run of the session.** -/
theorem steps_of_steps {b : Config} (h : Steps P ⟨w.merged.table, control, k⟩ b) :
    ∃ w' : World LockFreeCache,
      DefaultSteps P (running w control k) (running w' b.control b.stack) ∧
        w'.merged = { w.merged with table := b.state } := by
  induction h with
  | refl => exact ⟨w, .refl, rfl⟩
  | @tail d e _ hde ih =>
    obtain ⟨u, hu, hmerged⟩ := ih
    have hd : d.state = u.merged.table := (congrArg Client.table hmerged).symm
    obtain ⟨ds, dcontrol, dstack⟩ := d
    obtain rfl : ds = u.merged.table := hd
    obtain ⟨w', hw', hmerged'⟩ := step_of_step hde
    refine ⟨w', hu.tail hw', ?_⟩
    rw [hmerged', hmerged]

/-- **An operator is a run of the session.** -/
theorem steps_of_bddOp (h : w.merged.table.bddOp P op fuel x y = some (r, s')) :
    ∃ w' : World LockFreeCache,
      DefaultSteps P (running w (.call op x y) k) (running w' (.ret r) k) ∧
        w'.merged = { w.merged with table := s' } :=
  steps_of_steps (State.steps_of_bddOp h)

/-! ### Programs -/

/-- The result of an operator becomes a new object. -/
theorem steps_of_apply {i j : ℕ} (h : w.merged.apply P fuel op i j = some c') :
    ∃ w' : World LockFreeCache, DefaultSteps P (rest w) (rest w') ∧ w'.merged = c' := by
  obtain ⟨⟨x, y⟩, ho, h⟩ := Option.bind_eq_some_iff.mp h
  obtain ⟨⟨r, t⟩, hrun, h⟩ := Option.bind_eq_some_iff.mp h
  obtain ⟨u, hu, hmerged⟩ := steps_of_bddOp (k := []) hrun
  have hconstruct : u.merged.construct r = some c' := by
    rw [hmerged]
    exact h
  rw [merged, Client.construct_withCache] at hconstruct
  obtain ⟨d, hd, rfl⟩ := Option.map_eq_some_iff.mp hconstruct
  have henter : Step lockFreeBuild P (rest w) (running w (.call op x y) []) :=
    Or.inr (Or.inr (Or.inl (.enter ho)))
  have hleave : Step lockFreeBuild P (running u (.ret r) []) (rest { u with client := d }) :=
    Or.inr (Or.inr (Or.inl (.leave hd)))
  exact ⟨_, (hu.head henter).tail hleave, rfl⟩

/-- The result of an operator is written to an object. -/
theorem steps_of_applyAssign {i j : ℕ} (h : w.merged.applyAssign P fuel op i j = some c') :
    ∃ w' : World LockFreeCache, DefaultSteps P (rest w) (rest w') ∧ w'.merged = c' := by
  obtain ⟨⟨x, y⟩, ho, h⟩ := Option.bind_eq_some_iff.mp h
  obtain ⟨⟨r, t⟩, hrun, h⟩ := Option.bind_eq_some_iff.mp h
  cases h
  obtain ⟨u, hu, hmerged⟩ := steps_of_bddOp (k := []) hrun
  have hroot : u.client.root i = some x := by
    have hbdds : u.merged.bdds = w.merged.bdds := by rw [hmerged]
    show u.merged.bdds[i]?.join = some x
    rw [hbdds]
    exact (Client.node_eq_some.mp (Client.operands_eq_some ho).1).1
  have henter : Step lockFreeBuild P (rest w) (running w (.call op x y) []) :=
    Or.inr (Or.inr (Or.inl (.enter ho)))
  have hassign : Step lockFreeBuild P (running u (.ret r) [])
      (rest { u with client := u.client.setRoot i (some r) }) :=
    Or.inr (Or.inr (Or.inr (.assign i hroot)))
  refine ⟨_, (hu.head henter).tail hassign, ?_⟩
  show u.merged.setRoot i (some r) = _
  rw [hmerged]

/-- **A command of a program is a run of the session.** -/
theorem steps_of_perform {e : Client.Command} (h : w.merged.perform P fuel e = some c')
    (hnode : ∀ p, e = .act (.construct p) → p ∈ w.table.stored) :
    ∃ w' : World LockFreeCache, DefaultSteps P (rest w) (rest w') ∧ w'.merged = c' := by
  cases e with
  | act a =>
    by_cases ha : Client.OnObjects a
    · rw [Client.perform, merged, Client.exec_withCache ha] at h
      obtain ⟨d, hd, rfl⟩ := Option.map_eq_some_iff.mp h
      have hdrive : Drives P (rest w) (rest { w with client := d }) :=
        .act a fuel ha (fun p hp => hnode p (congrArg _ hp)) hd
      exact ⟨_, .single (Or.inr (Or.inr (Or.inl hdrive))), rfl⟩
    · cases a with
      | apply op i j => exact steps_of_apply h
      | gc =>
        obtain ⟨s, hs, h⟩ := Option.bind_eq_some_iff.mp h
        cases h
        obtain ⟨t, ht, hmerged⟩ := gcLocked_merged hs
        exact ⟨_, .single (Or.inr (Or.inl (.gc fuel ht))), hmerged⟩
      | _ => exact absurd trivial ha
  | assign op i j =>
    rw [Client.perform] at h
    split at h
    · cases h
    · exact steps_of_applyAssign h
  | nanobddBddAssign op lhs rhs =>
    rw [Client.perform] at h
    split at h
    · cases h
    · cases lhs with
      | none =>
        cases h
        exact ⟨w, .refl, rfl⟩
      | some i =>
        cases rhs with
        | none =>
          cases h
          exact ⟨w, .refl, rfl⟩
        | some j => exact steps_of_applyAssign h

/-- **A program is a run of the session.** -/
theorem steps_of_performs (h : Relation.ReflTransGen (Client.Performs P) w.merged c') :
    ∃ w' : World LockFreeCache, DefaultSteps P (rest w) (rest w') ∧ w'.merged = c' := by
  induction h with
  | refl => exact ⟨w, .refl, rfl⟩
  | tail _ hperform ih =>
    obtain ⟨u, hu, rfl⟩ := ih
    obtain ⟨e, fuel, he, hpermits, -⟩ := hperform
    obtain ⟨w', hw', hmerged⟩ := steps_of_perform he fun p hp => by
      subst hp
      exact hpermits
    exact ⟨w', hu.trans hw', hmerged⟩

end Session

/-! ### The first program -/

namespace State

variable {m n varNum : ℕ} {low high : Ptr} {h : 0 < n}

theorem getOrCreateOnce_cache (ho : s.getOrCreateOnce P m low high = some (r, s')) :
    s'.cache = s.cache := by
  have hsame := getOrCreateOnce_withCache P s s.cache m low high
  rw [show s.withCache s.cache = s from rfl, ho, Option.map_some, Option.some_inj] at hsame
  exact congrArg (fun r => r.2.cache) hsame

/-- A collection empties the cache. -/
theorem gcLocked_invalidates (hg : s.gcLocked fuel = some s') :
    ∃ c : LockFreeCache, s'.cache = some c.invalidateAll := by
  obtain ⟨c, hc⟩ := gcLocked_cache hg
  rw [gcLocked_eq_collectNodes hc, Option.map_eq_some_iff] at hg
  obtain ⟨u, -, rfl⟩ := hg
  exact ⟨c, rfl⟩

theorem performMaintenance_invalidates (hm : s.performMaintenance P fuel = some s') :
    ∃ c : LockFreeCache, s'.cache = some c.invalidateAll := by
  rw [performMaintenance_eq, Option.map_eq_some_iff] at hm
  obtain ⟨t, ht, rfl⟩ := hm
  have hsame : (extend P (t.withCache t.cache)).cache = t.cache := by
    rw [extend_withCache]
    rfl
  rw [show (t.extend P).cache = t.cache from hsame]
  exact gcLocked_invalidates ht

/-- An empty cache stays empty. -/
theorem getOrCreateNode_cache (hn : s.getOrCreateNode P fuel m low high = some (r, s'))
    (hc : s.cache = some (.new n h)) : s'.cache = some (.new n h) := by
  induction fuel generalizing s with
  | zero => cases hn
  | succ fuel ih =>
    cases honce : s.getOrCreateOnce P m low high with
    | some q =>
      rw [getOrCreateNode_of_once honce] at hn
      cases hn
      rw [getOrCreateOnce_cache honce, hc]
    | none =>
      rw [getOrCreateNode_of_allocFails honce, Option.bind_eq_some_iff] at hn
      obtain ⟨t, ht, hn⟩ := hn
      refine ih hn ?_
      rw [performMaintenance_eq, gcLocked_eq_collectNodes hc] at ht
      obtain ⟨u, hu, rfl⟩ := Option.map_eq_some_iff.mp ht
      obtain ⟨v, -, rfl⟩ := Option.map_eq_some_iff.mp hu
      rw [extend_withCache]
      rfl

theorem createVar_cache {id : ℕ} (hv : s.createVar P fuel id = some s')
    (hc : s.cache = some (.new n h)) : s'.cache = some (.new n h) := by
  obtain ⟨⟨p, t⟩, ht, hv⟩ := Option.bind_eq_some_iff.mp hv
  obtain ⟨⟨q, u⟩, hu, hv⟩ := Option.bind_eq_some_iff.mp hv
  cases hv
  have htc : t.cache = some (.new n h) := getOrCreateNode_cache ht hc
  have huc : u.cache = some (.new n h) := getOrCreateNode_cache hu htc
  exact huc

theorem createVars_cache (hv : s.createVars P fuel varNum = some s')
    (hc : s.cache = some (.new n h)) : s'.cache = some (.new n h) := by
  rw [createVars] at hv
  generalize List.range varNum = ids at hv
  induction ids generalizing s with
  | nil =>
    cases hv
    exact hc
  | cons id ids ih =>
    rw [List.foldlM_cons] at hv
    obtain ⟨t, ht, hv⟩ := Option.bind_eq_some_iff.mp hv
    exact ih (createVar_cache ht hc) hv

theorem init_cache {rand₁ rand₂ : ℕ → ℕ} {tableSize cacheSize : ℕ}
    (hi : init P fuel rand₁ rand₂ tableSize cacheSize varNum = some s) :
    ∃ n h, s.cache = some (.new n h) := by
  obtain ⟨size, -, hi⟩ := Option.bind_eq_some_iff.mp hi
  obtain ⟨t, -, hi⟩ := Option.bind_eq_some_iff.mp hi
  obtain ⟨n, -, hi⟩ := Option.bind_eq_some_iff.mp hi
  split at hi
  · next h => exact ⟨n, h, createVars_cache hi rfl⟩
  · cases hi

end State

/-- **Every program is a session.** What a program of the default build reaches after `init` is
reached by a session that starts with the same table and an empty cache. -/
theorem Session.steps_of_run {rand₁ rand₂ : ℕ → ℕ} {tableSize cacheSize varNum : ℕ}
    (hi : State.init P fuel rand₁ rand₂ tableSize cacheSize varNum = some s)
    (h : Relation.ReflTransGen (Client.Performs P) (Client.start s) c) :
    ∃ size hsize, ∃ w : World LockFreeCache,
      DefaultSteps P (start lockFreeBuild s size hsize) (rest w) ∧ w.merged = c := by
  obtain ⟨size, hsize, hcache⟩ := State.init_cache hi
  have hmerged :
      (World.fresh lockFreeBuild (Client.start s) size hsize).merged = Client.start s := by
    show Client.start (s.withCache (some (.new size hsize))) = _
    rw [← hcache]
    rfl
  rw [← hmerged] at h
  obtain ⟨w, hw, hc⟩ := steps_of_performs h
  exact ⟨size, hsize, w, hw, hc⟩

end Nanobdd
