import Nanobdd.InitSpec
import Nanobdd.PrimeSpec

/-!
# `init` ends

A table has at least three buckets, and the first slab as many slots as that, so the constructor
finds a slot for both terminals at once: no maintenance runs before the cache exists. From then on
`getOrCreateNode` ends, with however many collections, slabs and bucket arrays it takes, and every
node that is stored is referenced before the next one is asked for.

## Main definitions

* `ConstructedAtOnce` — the constructor runs no maintenance
* `Built` — the table that `init` leaves

## Main results

* `newTable_isSome`, `Ready.createVars_isSome` — the constructor and the loop of `init` end
* `init_built` — **`init` ends, with exactly the terminals and the variables**
-/

namespace Nanobdd

open NodeAllocator

variable {P : Platform} {s s' : State} {p r low high : Ptr} {level n m varNum size : ℕ}

namespace State

/-! ### The constructor -/

/-- The constructor gets both terminals in the first pass of the loop of `getOrCreateNode`, so it
calls neither `performMaintenance` nor `gcLocked`. -/
def ConstructedAtOnce (P : Platform) (size : ℕ) : Prop :=
  ∃ f s₁ t s₂, (empty size).getOrCreateOnce P uintMax nullptr nullptr = some (f, s₁) ∧
    { s₁ with falseNode := f }.getOrCreateOnce P (uintMax - 1) nullptr nullptr = some (t, s₂)

theorem constructedAtOnce (P : Platform) (hsize : 3 ≤ size) : ConstructedAtOnce P size := by
  obtain ⟨hempty, hslots, -⟩ := store_empty P hsize
  obtain ⟨f, s₁, h₁, hstore, hle⟩ :=
    hempty.getOrCreateOnce_isSome (by omega) uintMax nullptr nullptr
  have hnext : Store P { s₁ with falseNode := f } := hstore.setRoots f s₁.trueNode s₁.cache
  have hfree : 0 < ({ s₁ with falseNode := f } : State).freeSlots := by
    show 0 < s₁.freeSlots
    omega
  obtain ⟨t, s₂, h₂, -⟩ := hnext.getOrCreateOnce_isSome hfree (uintMax - 1) nullptr nullptr
  exact ⟨f, s₁, t, s₂, h₁, h₂⟩

/-- The constructor ends, and any fuel is enough. -/
theorem newTable_isSome (h : ConstructedAtOnce P size) :
    ∃ s, ∀ fuel ≥ 1, newTable P fuel size = some s := by
  obtain ⟨f, s₁, t, s₂, h₁, h₂⟩ := h
  refine ⟨{ s₂ with trueNode := t, heap := (s₂.heap.ref s₂.falseNode).ref t }, fun fuel hfuel => ?_⟩
  obtain ⟨k, rfl⟩ := Nat.exists_eq_add_of_le' hfuel
  rw [newTable, getOrCreateNode_of_once h₁]
  simp only [Option.bind_eq_bind, Option.bind_some, getOrCreateNode_of_once h₂]

/-! ### The loop -/

namespace Ready

/-- A node is found or created, with maintenance if it has to be. -/
theorem getOrCreateNode_isSome (h : Ready P s n m) (level : ℕ) (low high : Ptr) :
    ∃ F r s', ∀ fuel ≥ F, s.getOrCreateNode P fuel level low high = some (r, s') := by
  obtain ⟨c, hc, -⟩ := h.wf.cache
  exact h.wf.toStore.getOrCreateNode_isSome h.wf.closed h.unmarked hc level low high

theorem createVar_isSome (h : Ready P s n n) (hn : n < uintMax - 1) :
    ∃ F s', ∀ fuel ≥ F, s.createVar P fuel n = some s' := by
  obtain ⟨F₁, r₁, t₁, h₁⟩ := h.getOrCreateNode_isSome n s.falseNode s.trueNode
  have hpos := h.createVar_pos hn (h₁ F₁ le_rfl)
  obtain ⟨F₂, r₂, t₂, h₂⟩ := hpos.getOrCreateNode_isSome n t₁.trueNode t₁.falseNode
  refine ⟨max F₁ F₂, { t₂ with heap := t₂.heap.ref r₂, nvars := t₂.nvars.insertIdx n r₂ },
    fun fuel hfuel => ?_⟩
  rw [State.createVar, h₁ fuel (le_of_max_le_left hfuel)]
  simp only [Option.bind_eq_bind, Option.bind_some, h₂ fuel (le_of_max_le_right hfuel)]

/-- The loop of `init` ends. -/
theorem createVars_isSome (h : Ready P s 0 0) : ∀ {varNum : ℕ}, varNum < uintMax →
    ∃ F s', ∀ fuel ≥ F, s.createVars P fuel varNum = some s' := by
  intro varNum
  induction varNum with
  | zero => exact fun _ => ⟨0, s, fun _ _ => rfl⟩
  | succ n ih =>
    intro hn
    have hn' : n < uintMax - 1 := by omega
    have hu : u32 n = n := Nat.mod_eq_of_lt (lt_trans hn' (by decide))
    obtain ⟨F₁, t, h₁⟩ := ih (by omega)
    obtain ⟨F₂, s', h₂⟩ := (h.createVars (by omega) (h₁ F₁ le_rfl)).createVar_isSome hn'
    refine ⟨max F₁ F₂, s', fun fuel hfuel => ?_⟩
    have h₁' := h₁ fuel (le_of_max_le_left hfuel)
    rw [State.createVars] at h₁' ⊢
    rw [List.range_succ, List.foldlM_append, h₁', Option.bind_eq_bind, Option.bind_some,
      List.foldlM_cons, hu, h₂ fuel (le_of_max_le_right hfuel)]
    rfl

end Ready

/-! ### What `init` leaves -/

/-- A table with the terminals and `n` variables, each node referenced once, and nothing else. -/
structure Built (P : Platform) (s : State) (n : ℕ) : Prop where
  nodeCount : s.nodeCount = 2 + 2 * n
  vars_length : s.vars.length = n
  nvars_length : s.nvars.length = n
  var : ∀ i < n, ∃ p, s.vars[i]? = some p ∧ s.HasKey p i s.falseNode s.trueNode
  nvar : ∀ i < n, ∃ p, s.nvars[i]? = some p ∧ s.HasKey p i s.trueNode s.falseNode
  /-- The nodes are pairwise distinct, and these are the stored ones. -/
  distinct : (s.falseNode :: s.trueNode :: (s.vars ++ s.nvars)).Nodup
  stored : s.stored.Perm (s.falseNode :: s.trueNode :: (s.vars ++ s.nvars))
  placed : ∀ p ∈ s.stored, p ∈ s.buckets (s.home P p)
  referenced : ∀ p ∈ s.stored, (s.heap p).refCount = 1

/-- What the table references is what is stored. -/
theorem Ready.built (h : Ready P s n n) : Built P s n := by
  have hcount : ∀ p, s.permanent p =
      (s.falseNode :: s.trueNode :: (s.vars ++ s.nvars)).count p := fun p => by
    rw [show s.falseNode :: s.trueNode :: (s.vars ++ s.nvars) =
      [s.falseNode, s.trueNode] ++ (s.vars ++ s.nvars) from rfl, List.count_append,
      List.count_append, permanent, Nat.add_assoc]
  have hdistinct : (s.falseNode :: s.trueNode :: (s.vars ++ s.nvars)).Nodup :=
    List.nodup_iff_count_le_one.mpr fun p => hcount p ▸ h.permanent_le_one p
  have hperm : s.stored.Perm (s.falseNode :: s.trueNode :: (s.vars ++ s.nvars)) := by
    refine (List.perm_ext_iff_of_nodup h.wf.hashed.nodup hdistinct).mpr fun p => ?_
    rw [h.mem_iff, hcount, List.count_pos_iff]
  refine ⟨?_, h.vars_length, h.nvars_length, fun i hi => ?_, fun i hi => ?_, hdistinct, hperm,
    fun p hp => h.wf.hashed.mem_home hp, fun p hp => ?_⟩
  · rw [h.nodeCount, hperm.length_eq]
    simp only [List.length_cons, List.length_append, h.vars_length, h.nvars_length]
    omega
  · have hget := List.getElem?_eq_getElem (h.vars_length.symm ▸ hi)
    exact ⟨_, hget, h.var i _ hget⟩
  · have hget := List.getElem?_eq_getElem (h.nvars_length.symm ▸ hi)
    exact ⟨_, hget, h.nvar i _ hget⟩
  · rw [h.counted p hp]
    exact le_antisymm (h.permanent_le_one p) ((h.mem_iff p).mp hp)

/-- **Initialisation survives its own maintenance.** For every size that the prime search
returns, the constructor runs no maintenance, and `init` ends, given enough fuel, with exactly
the terminals and the variables. -/
theorem init_built {rand₁ rand₂ : ℕ → ℕ} {tableSize cacheSize k₁ k₂ size₁ size₂ : ℕ}
    (hv : varNum < uintMax) (h₁ : bddPrimeGte k₁ rand₁ tableSize = some size₁)
    (h₂ : bddPrimeGte k₂ rand₂ cacheSize = some size₂) :
    ConstructedAtOnce P size₁ ∧
      ∃ F s, (∀ fuel ≥ F, init P fuel rand₁ rand₂ tableSize cacheSize varNum = some s) ∧
        Built P s varNum := by
  have hsize := bddPrimeGte_ge h₁
  have hconstructed := constructedAtOnce P hsize
  obtain ⟨t, ht⟩ := newTable_isSome hconstructed
  have hpos : 0 < size₂ := lt_of_lt_of_le (by decide) (bddPrimeGte_ge h₂)
  have hready := ready_of_newTable hsize (ht 1 le_rfl) (c := .new size₂ hpos) fun _ => rfl
  obtain ⟨F, s, hF⟩ := hready.createVars_isSome hv
  refine ⟨hconstructed, max (max k₁ k₂) (max 1 F), s, fun fuel hfuel => ?_,
    (hready.createVars hv (hF F le_rfl)).built⟩
  obtain ⟨hk, hf⟩ := max_le_iff.mp hfuel
  obtain ⟨hk₁, hk₂⟩ := max_le_iff.mp hk
  obtain ⟨hone, hF'⟩ := max_le_iff.mp hf
  have hb₁ : bddPrimeGte fuel rand₁ tableSize = some size₁ := primeSearch_mono h₁ hk₁
  have hb₂ : bddPrimeGte fuel rand₂ cacheSize = some size₂ := primeSearch_mono h₂ hk₂
  rw [init, hb₁, Option.bind_eq_bind, Option.bind_some, ht fuel hone, Option.bind_eq_bind,
    Option.bind_some, hb₂, Option.bind_some, dif_pos hpos]
  exact hF fuel hF'

/-- Three variables, so eight nodes, in a table that starts with three slots. -/
theorem init_built_small : ∃ F s,
    (∀ fuel ≥ F, init smallPlatform fuel id id 3 3 3 = some s) ∧ Built smallPlatform s 3 := by
  have h : bddPrimeGte 40 id 3 = some 3 := by decide +kernel
  exact (init_built (by decide) h h).2

example : tight.allocator.capacity = 9 := by decide +kernel

end State

end Nanobdd
