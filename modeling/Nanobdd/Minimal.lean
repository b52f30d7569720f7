import Nanobdd.Footprint
import Nanobdd.Values

/-!
# The table after a collection

A collection leaves the diagrams of the functions in use, and nothing else: those of the objects,
of the variables and of the two constants. So the number of nodes after a collection is a
property of what the program holds. It does not depend on how the program came to hold it, nor on
the sizes given to `init`, the addresses, or the collections before.

## Main definitions

* `Values.needed`, `Values.diagrams` — the functions in use, and all nodes of their diagrams

## Main results

* `Client.minimal_of_run` — **minimality** over whole runs
* `Client.numNodes_eq_of_runs` — two programs with the same functions have equally many nodes
-/

namespace Nanobdd

open BoolFun

variable {P P' : Platform} {s s' : State} {p q r : Ptr} {i n fuel : ℕ} {f : BoolFun}

namespace Values

/-- The functions in use in a program over `n` variables. -/
def needed (n : ℕ) (v : Values) : Set BoolFun :=
  {f | (∃ b, f = fun _ => b) ∨ (∃ i < n, ∃ b, f = literal i b) ∨ ∃ i, v.fn i = some f}

/-- The nodes of their diagrams. -/
def diagrams (n : ℕ) (v : Values) : Set BoolFun := {g | ∃ f ∈ v.needed n, g ∈ subs f}

theorem needed_subset_diagrams (n : ℕ) (v : Values) : v.needed n ⊆ v.diagrams n :=
  fun f hf => ⟨f, hf, Sub.refl⟩

theorem needed_congr {v v' : Values} (h : ∀ f, (∃ i, v.fn i = some f) ↔ ∃ i, v'.fn i = some f) :
    v.needed n = v'.needed n := by
  ext f
  exact or_congr_right (or_congr_right (h f))

/-- The diagrams that are always there. -/
theorem diagrams_of_no_functions {v : Values} (h : ∀ i, v.fn i = none) :
    v.diagrams n = {f | (∃ b, f = fun _ => b) ∨ ∃ i < n, ∃ b, f = literal i b} := by
  ext g
  constructor
  · rintro ⟨f, ⟨b, rfl⟩ | ⟨i, hi, b, rfl⟩ | ⟨i, hi⟩, hg⟩
    · rw [subs_const] at hg
      exact Or.inl ⟨b, hg⟩
    · rw [subs_literal] at hg
      rcases hg with rfl | rfl | rfl
      · exact Or.inr ⟨i, hi, b, rfl⟩
      · exact Or.inl ⟨false, rfl⟩
      · exact Or.inl ⟨true, rfl⟩
    · rw [h i] at hi
      exact absurd hi (Option.some_ne_none f).symm
  · rintro (hb | hi)
    · exact v.needed_subset_diagrams n (Or.inl hb)
    · exact v.needed_subset_diagrams n (Or.inr (Or.inl hi))

/-- Two constants, and two literals for each variable. -/
theorem encard_diagrams_of_no_functions {v : Values} (h : ∀ i, v.fn i = none) :
    (v.diagrams n).encard = 2 + 2 * n := by
  have hconst : ({f | ∃ b, f = fun _ => b} : Set BoolFun) = {fun _ => false, fun _ => true} := by
    ext f
    constructor
    · rintro ⟨b, rfl⟩
      cases b
      · exact Or.inl rfl
      · exact Or.inr rfl
    · rintro (rfl | rfl)
      · exact ⟨false, rfl⟩
      · exact ⟨true, rfl⟩
  have hliterals : ({f | ∃ i < n, ∃ b, f = literal i b} : Set BoolFun) =
      (fun p : ℕ × Bool => literal p.1 p.2) '' (Set.Iio n ×ˢ Set.univ) := by
    ext f
    constructor
    · rintro ⟨i, hi, b, rfl⟩
      exact ⟨(i, b), ⟨hi, trivial⟩, rfl⟩
    · rintro ⟨⟨i, b⟩, ⟨hi, -⟩, rfl⟩
      exact ⟨i, hi, b, rfl⟩
  have hinj : Set.InjOn (fun p : ℕ × Bool => literal p.1 p.2) (Set.Iio n ×ˢ Set.univ) := by
    rintro ⟨i, b⟩ - ⟨j, d⟩ - he
    obtain ⟨rfl, rfl⟩ := literal_inj he
    rfl
  have hdisj : Disjoint ({f | ∃ b, f = fun _ => b} : Set BoolFun)
      {f | ∃ i < n, ∃ b, f = literal i b} := by
    rw [Set.disjoint_left]
    rintro f ⟨b, rfl⟩ ⟨i, -, d, he⟩
    exact literal_ne_const i d b he.symm
  have hpair : (fun _ => false : BoolFun) ≠ fun _ => true := const_not_ne true
  have hbool : (Set.univ : Set Bool).encard = 2 := by
    rw [Set.encard_univ]
    simp
  have hbelow : (Set.Iio n).encard = n := Set.Nat.encard_range n
  rw [diagrams_of_no_functions h, Set.ofPred_or, Set.encard_union_eq hdisj, hconst,
    Set.encard_pair hpair, hliterals, hinj.encard_image, Set.encard_prod, hbool, hbelow, mul_comm]

end Values

namespace State

/-- The live functions are the diagrams of the nodes with a counter. -/
theorem Robdd.mem_liveFunctions_iff (hr : Robdd P s) :
    f ∈ s.liveFunctions ↔ ∃ r ∈ s.roots, f ∈ subs (s.denote r) := by
  constructor
  · rintro ⟨p, ⟨-, r, hroot, hreach⟩, rfl⟩
    refine ⟨r, hroot, ?_⟩
    rw [← hr.denote_cone (mem_roots.mp hroot).1]
    exact ⟨p, hreach, rfl⟩
  · rintro ⟨r, hroot, hf⟩
    have hmem := (mem_roots.mp hroot).1
    rw [← hr.denote_cone hmem] at hf
    obtain ⟨p, hp, rfl⟩ := hf
    exact ⟨p, ⟨hr.cone_stored hmem p hp, r, hroot, hp⟩, rfl⟩

end State

namespace Client

variable {c c' d : Client}

/-- The functions of the nodes with a counter are the functions in use. -/
theorem Faithful.mem_needed_iff (h : Faithful P n c) :
    f ∈ c.values.needed n ↔ ∃ r ∈ c.table.roots, c.table.denote r = f := by
  have hr := h.wf.toRobdd
  have hroot : ∀ {p}, p ≠ nullptr → 0 < c.references p → p ∈ c.table.roots := fun hp hpos => by
    have hmem := h.mem _ hp hpos
    exact State.mem_roots.mpr ⟨hmem, by rw [h.counted _ hmem]; exact hpos.ne'⟩
  have hperm : ∀ {p}, p ≠ nullptr → 0 < c.table.permanent p → p ∈ c.table.roots := fun hp hpos =>
    hroot hp (Nat.add_pos_right _ hpos)
  constructor
  · rintro (⟨b, rfl⟩ | ⟨i, hi, b, rfl⟩ | ⟨i, hi⟩)
    · cases b with
      | false =>
        exact ⟨_, hperm (hr.ne_null hr.false_mem) (State.permanent_pos_iff.mpr (Or.inl rfl)),
          hr.denote_false⟩
      | true =>
        exact ⟨_, hperm (hr.ne_null hr.true_mem)
          (State.permanent_pos_iff.mpr (Or.inr (Or.inl rfl))), hr.denote_true⟩
    · cases b with
      | false =>
        have hlt : i < c.table.nvars.length := h.wired.nvars_length.symm ▸ hi
        have hin : c.table.nvars[i] ∈ c.table.vars ∨ c.table.nvars[i] ∈ c.table.nvars :=
          Or.inr (List.getElem_mem hlt)
        exact ⟨_, hperm (h.wired.ne_null _ hin) (State.permanent_pos_iff.mpr (Or.inr (Or.inr hin))),
          h.wired.nvar i _ (List.getElem?_eq_getElem hlt)⟩
      | true =>
        have hlt : i < c.table.vars.length := h.wired.vars_length.symm ▸ hi
        have hin : c.table.vars[i] ∈ c.table.vars ∨ c.table.vars[i] ∈ c.table.nvars :=
          Or.inl (List.getElem_mem hlt)
        exact ⟨_, hperm (h.wired.ne_null _ hin) (State.permanent_pos_iff.mpr (Or.inr (Or.inr hin))),
          h.wired.var i _ (List.getElem?_eq_getElem hlt)⟩
    · rw [values_fn, Option.map_eq_some_iff] at hi
      obtain ⟨p, hp, rfl⟩ := hi
      exact ⟨p, hroot (node_eq_some.mp hp).2 (references_pos (node_eq_some.mp hp).1), rfl⟩
  · rintro ⟨r, hroot, rfl⟩
    obtain ⟨hmem, hcount⟩ := State.mem_roots.mp hroot
    rw [h.counted r hmem] at hcount
    rcases Nat.eq_zero_or_pos (c.handles r) with hzero | hpos
    · have hp : 0 < c.table.permanent r := by
        have := Nat.pos_of_ne_zero hcount
        rwa [references, hzero, Nat.zero_add] at this
      rcases State.permanent_pos_iff.mp hp with rfl | rfl | hv | hv
      · exact Or.inl ⟨false, hr.denote_false⟩
      · exact Or.inl ⟨true, hr.denote_true⟩
      · obtain ⟨i, hi⟩ := List.mem_iff_getElem?.mp hv
        exact Or.inr (Or.inl ⟨i, h.wired.vars_length ▸ (List.getElem?_eq_some_iff.mp hi).1, true,
          h.wired.var i r hi⟩)
      · obtain ⟨i, hi⟩ := List.mem_iff_getElem?.mp hv
        exact Or.inr (Or.inl ⟨i, h.wired.nvars_length ▸ (List.getElem?_eq_some_iff.mp hi).1, false,
          h.wired.nvar i r hi⟩)
    · obtain ⟨i, hi⟩ := List.mem_iff_getElem?.mp (List.count_pos_iff.mp hpos)
      refine Or.inr (Or.inr ⟨i, ?_⟩)
      rw [values_fn, node_eq_some.mpr ⟨root_eq_some.mpr hi, hr.ne_null hmem⟩, Option.map_some]

theorem Faithful.liveFunctions_eq (h : Faithful P n c) :
    c.table.liveFunctions = c.values.diagrams n := by
  ext g
  rw [h.wf.toRobdd.mem_liveFunctions_iff]
  constructor
  · rintro ⟨r, hr, hg⟩
    exact ⟨_, h.mem_needed_iff.mpr ⟨r, hr, rfl⟩, hg⟩
  · rintro ⟨f, hf, hg⟩
    obtain ⟨r, hr, rfl⟩ := h.mem_needed_iff.mp hf
    exact ⟨r, hr, hg⟩

/-- The table after a collection. -/
structure MinimalAfter (n : ℕ) (c c' : Client) : Prop where
  functions : c'.table.functions = c.values.diagrams n
  numNodes : (c'.table.nodeCount : ℕ∞) = (c.values.diagrams n).encard
  values : c'.values = c.values

/-- Without functions in use the table is as `init` left it. -/
theorem MinimalAfter.nodeCount_eq (h : MinimalAfter n c c') (hnone : ∀ i, c.values.fn i = none) :
    c'.table.nodeCount = 2 + 2 * n := by
  have hcount := h.numNodes
  rw [Values.encard_diagrams_of_no_functions hnone] at hcount
  exact_mod_cast hcount

/-- **A collection leaves the functions in use.** -/
theorem Faithful.gc_minimal (h : Faithful P n c) (hc : c.exec P fuel .gc = some c') :
    MinimalAfter n c c' := by
  obtain ⟨hexact, hswept⟩ := h.gc hc
  have hfunctions : c'.table.functions = c.values.diagrams n := by
    rw [hswept.functions_eq hexact.wf.toRobdd, h.liveFunctions_eq]
  refine ⟨hfunctions, ?_, ?_⟩
  · rw [hexact.nodeCount, ← hfunctions, hexact.wf.toRobdd.encard_functions]
  · have hvalues := h.exec_values hc trivial trivial
    exact (Option.some_inj.mp hvalues).symm

/-- **Minimality over whole runs.** Whatever plain actions a program has taken, a collection leaves
exactly the diagrams of the functions in use, each node once. -/
theorem minimal_of_run {rand₁ rand₂ : ℕ → ℕ} {tableSize cacheSize varNum : ℕ} {k : ℕ}
    (hv : varNum < uintMax)
    (hi : State.init P k rand₁ rand₂ tableSize cacheSize varNum = some s)
    (hc : Relation.ReflTransGen (PlainActs P) (start s) c) (hg : c.exec P fuel .gc = some c') :
    MinimalAfter varNum c c' ∧
      ((∀ i, c.values.fn i = none) → c'.table.nodeCount = 2 + 2 * varNum) := by
  have hmin := ((faithful_of_ready (State.ready_of_init hv hi)).run hc).1.gc_minimal hg
  exact ⟨hmin, hmin.nodeCount_eq⟩

/-- **History does not matter.** Two programs over the same variables that hold the same
functions, by whichever plain actions they came by them and whatever their tables look like, have
equally many nodes after a collection. -/
theorem numNodes_eq_of_runs {rand₁ rand₂ rand₁' rand₂' : ℕ → ℕ}
    {tableSize cacheSize tableSize' cacheSize' varNum : ℕ} {k k' fuel' : ℕ} {d' : Client}
    (hv : varNum < uintMax)
    (hi : State.init P k rand₁ rand₂ tableSize cacheSize varNum = some s)
    (hi' : State.init P' k' rand₁' rand₂' tableSize' cacheSize' varNum = some s')
    (hc : Relation.ReflTransGen (PlainActs P) (start s) c)
    (hd : Relation.ReflTransGen (PlainActs P') (start s') d)
    (hsame : ∀ f, (∃ i, c.values.fn i = some f) ↔ ∃ i, d.values.fn i = some f)
    (hg : c.exec P fuel .gc = some c') (hg' : d.exec P' fuel' .gc = some d') :
    c'.table.nodeCount = d'.table.nodeCount ∧ c'.table.functions = d'.table.functions := by
  have hmin := ((faithful_of_ready (State.ready_of_init hv hi)).run hc).1.gc_minimal hg
  have hmin' := ((faithful_of_ready (State.ready_of_init hv hi')).run hd).1.gc_minimal hg'
  have hdiagrams : c.values.diagrams varNum = d.values.diagrams varNum := by
    rw [Values.diagrams, Values.diagrams, Values.needed_congr hsame]
  refine ⟨?_, by rw [hmin.functions, hmin'.functions, hdiagrams]⟩
  have hcount := hmin.numNodes
  rw [hdiagrams, ← hmin'.numNodes] at hcount
  exact_mod_cast hcount

/-! ### Small programs -/

theorem minimal_of_run_small : ∃ c', smallPair.exec State.smallPlatform 40 .gc = some c' ∧
    MinimalAfter 3 smallPair c' := by
  have hsome : (smallPair.exec State.smallPlatform 40 .gc).isSome = true := by decide +kernel
  obtain ⟨c', hc'⟩ := Option.isSome_iff_exists.mp hsome
  exact ⟨c', hc', (minimal_of_run (by decide) State.init_small plainActs_smallPair hc').1⟩

/-- A program that made an object for the first variable and destroyed it. -/
def smallReleased : Client := ((((start State.small).ref 3).push 3).deref 3).setRoot 0 none

theorem plainActs_smallReleased :
    Relation.ReflTransGen (PlainActs State.smallPlatform) (start State.small) smallReleased :=
  (Relation.ReflTransGen.single plainActs_smallFirst).tail
    ⟨.destroy 0, 0, by simp [exec, destroy, root, push, start, smallReleased], ⟨trivial, trivial⟩,
      referencesFit_small rfl rfl (by decide)⟩

/-- It has as many nodes after a collection as a program that did nothing. -/
theorem numNodes_eq_of_runs_small : ∃ c' d', (start State.small).exec State.smallPlatform 40 .gc =
      some c' ∧ smallReleased.exec State.smallPlatform 40 .gc = some d' ∧
    c'.table.nodeCount = d'.table.nodeCount ∧ c'.table.functions = d'.table.functions := by
  have hsome : ((start State.small).exec State.smallPlatform 40 .gc).isSome = true := by
    decide +kernel
  have hsome' : (smallReleased.exec State.smallPlatform 40 .gc).isSome = true := by decide +kernel
  obtain ⟨c', hc'⟩ := Option.isSome_iff_exists.mp hsome
  obtain ⟨d', hd'⟩ := Option.isSome_iff_exists.mp hsome'
  have hnone : ∀ i, (start State.small).values.fn i = none := fun i => by
    rw [values_fn, show (start State.small).node i = none by simp [node, root, start],
      Option.map_none]
  have hnone' : ∀ i, smallReleased.values.fn i = none := fun i => by
    rw [values_fn, show smallReleased.node i = none by cases i <;> rfl, Option.map_none]
  refine ⟨c', d', hc', hd', numNodes_eq_of_runs (by decide) State.init_small State.init_small .refl
    plainActs_smallReleased (fun f => ?_) hc' hd'⟩
  simp only [hnone, hnone']

end Client

end Nanobdd
