import Nanobdd.Hashed
import Nanobdd.Lib.Marking

/-!
# Mark and sweep

`gcLocked` phase by phase. The recursion `markRec` is the depth-first marking of `Marking` on the
graph of non-null children, so what it marks is known exactly; the sweep is a filter, and the
freed nodes go to the free list.

## Main results

* `markPhase_eq` — the first loop is `Marking.visitAll` from the referenced nodes
* `Store.gcLocked` — what any finished collection has done, whatever the shape of the graph
* `Store.gcLocked_swept` — **exactness**: on a table closed under children and without marks, the
  collection keeps exactly the live nodes
* `Store.gcLocked_isSome` — it finishes, given a fuel above the number of stored nodes
* `Store.performMaintenance` — the same for maintenance, which leaves a free slot
-/

namespace Nanobdd

open NodeAllocator

variable {P : Platform} {s s' : State} {p q : Ptr} {fuel : ℕ} {h : Heap} {m : Ptr → Bool}

/-! ### Marking -/

namespace Heap

/-- The marks of all nodes. -/
def marks (h : Heap) : Ptr → Bool := fun p => (h p).inUse

/-- The same memory with other marks. -/
def withMarks (h : Heap) (m : Ptr → Bool) : Heap := fun p => { h p with inUse := m p }

/-- The non-null children of a node. -/
def children (h : Heap) (p : Ptr) : List Ptr :=
  [(h p).low, (h p).high].filter fun q => decide (q ≠ nullptr)

@[simp] theorem withMarks_marks (h : Heap) : h.withMarks h.marks = h := rfl

theorem mem_children : q ∈ h.children p ↔ (q = (h p).low ∨ q = (h p).high) ∧ q ≠ nullptr := by
  simp [children]

theorem setInUse_withMarks (h : Heap) (m : Ptr → Bool) (p : Ptr) (b : Bool) :
    (h.withMarks m).setInUse p b = h.withMarks (Function.update m p b) := by
  funext q
  by_cases hq : q = p
  · subst hq
    simp [setInUse, withMarks]
  · simp [setInUse, withMarks, modify_of_ne hq, Function.update_of_ne hq]

end Heap

open Heap

theorem markRec_succ (fuel : ℕ) (h : Heap) (p : Ptr) : markRec (fuel + 1) h p =
    if (h p).inUse then some h
    else (if (h p).low ≠ nullptr then markRec fuel (h.setInUse p true) (h p).low
        else some (h.setInUse p true)).bind fun h =>
      if (h p).high ≠ nullptr then markRec fuel h (h p).high else some h := by
  rw [markRec]
  simp only [setInUse, modify_self]
  by_cases hl : (h p).low = nullptr
  · simp only [hl, ne_eq, not_true_eq_false, if_false]
    rfl
  · simp only [hl, ne_eq, not_false_eq_true, if_true]
    rfl

/-- **`markRec` is a depth-first marking.** -/
theorem markRec_eq (h : Heap) : ∀ (fuel : ℕ) (m : Ptr → Bool) (p : Ptr),
    markRec fuel (h.withMarks m) p = (Marking.visit h.children fuel m p).map h.withMarks := by
  intro fuel
  induction fuel with
  | zero => intro m p; rfl
  | succ fuel ih =>
    -- the guarded call on one child, as a visit of the list that holds it unless it is null
    have hchild : ∀ (m : Ptr → Bool) (c : Ptr),
        (if c ≠ nullptr then markRec fuel (h.withMarks m) c else some (h.withMarks m)) =
          (Marking.visitAll h.children fuel m ([c].filter fun q => decide (q ≠ nullptr))).map
            h.withMarks := by
      intro m c
      by_cases hc : c = nullptr
      · rw [if_neg (not_not.mpr hc)]
        simp [hc, Marking.visitAll_nil]
      · rw [if_pos hc, ih]
        simp [hc, Marking.visitAll_cons, Marking.visitAll_nil]
    intro m p
    rw [markRec_succ, Marking.visit_succ]
    by_cases hp : m p = true
    · simp [withMarks, hp]
    · rw [if_neg (by simpa [withMarks] using hp), if_neg hp, setInUse_withMarks]
      have hsplit : h.children p = ([(h p).low].filter fun q => decide (q ≠ nullptr)) ++
          [(h p).high].filter fun q => decide (q ≠ nullptr) := by
        rw [← List.filter_append]
        rfl
      rw [hsplit, Marking.visitAll_append]
      rw [show ((h.withMarks m) p).low = (h p).low from rfl, hchild]
      cases Marking.visitAll h.children fuel (Function.update m p true)
          ([(h p).low].filter fun q => decide (q ≠ nullptr)) with
      | none => rfl
      | some m₁ => exact hchild m₁ (h p).high

/-- The nodes a collection starts from. -/
def Heap.referenced (h : Heap) (nodes : List Ptr) : List Ptr :=
  nodes.filter fun p => decide ((h p).refCount ≠ 0)

theorem markNodesUnsafe_eq (fuel : ℕ) (h : Heap) : ∀ (nodes : List Ptr) (m : Ptr → Bool),
    markNodesUnsafe fuel (h.withMarks m) nodes =
      (Marking.visitAll h.children fuel m (h.referenced nodes)).map h.withMarks := by
  intro nodes
  induction nodes with
  | nil => intro m; rfl
  | cons p nodes ih =>
    intro m
    have hcons : markNodesUnsafe fuel (h.withMarks m) (p :: nodes) =
        (if (h p).refCount ≠ 0 then markRec fuel (h.withMarks m) p
          else some (h.withMarks m)).bind fun h => markNodesUnsafe fuel h nodes := rfl
    rw [hcons]
    by_cases hp : (h p).refCount = 0
    · have href : h.referenced (p :: nodes) = h.referenced nodes := by simp [referenced, hp]
      rw [if_neg (not_not.mpr hp), Option.bind_some, ih, href]
    · have href : h.referenced (p :: nodes) = p :: h.referenced nodes := by simp [referenced, hp]
      rw [if_pos hp, markRec_eq, href, Marking.visitAll_cons]
      cases Marking.visit h.children fuel m p with
      | none => rfl
      | some m₁ => exact ih m₁

theorem foldlM_markNodesUnsafe (f : ℕ → List Ptr) : ∀ (n : ℕ) (h : Heap),
    (List.range n).foldlM (fun h i => markNodesUnsafe fuel h (f i)) h =
      markNodesUnsafe fuel h ((List.range n).flatMap f) := by
  intro n
  induction n with
  | zero => intro h; rfl
  | succ n ih =>
    intro h
    rw [List.range_succ, List.foldlM_append, List.flatMap_append, ih, markNodesUnsafe,
      markNodesUnsafe, List.foldlM_append]
    congr 1
    funext h
    simp [markNodesUnsafe]

namespace State

/-- The nodes with a nonzero counter. -/
def roots (s : State) : List Ptr := s.heap.referenced s.stored

theorem mem_roots : p ∈ s.roots ↔ p ∈ s.stored ∧ (s.heap p).refCount ≠ 0 := by
  simp [roots, Heap.referenced]

/-- **The first loop.** -/
theorem markPhase_eq (s : State) (fuel : ℕ) : s.markPhase fuel =
    (Marking.visitAll s.heap.children fuel s.heap.marks s.roots).map fun m =>
      { s with heap := s.heap.withMarks m } := by
  rw [markPhase, foldlM_markNodesUnsafe]
  have hmark := markNodesUnsafe_eq fuel s.heap s.stored s.heap.marks
  rw [withMarks_marks] at hmark
  rw [show (List.range s.tableSize).flatMap s.buckets = s.stored from rfl, hmark, Option.map_map]
  rfl

/-! ### Sweeping -/

theorem sweepNodesUnsafe_eq (h : Heap) : ∀ (nodes freed : List Ptr),
    sweepNodesUnsafe h nodes freed =
      (nodes.filter fun p => !isDead h p, freed ++ nodes.filter (isDead h)) := by
  intro nodes
  induction nodes with
  | nil => intro freed; simp [sweepNodesUnsafe]
  | cons p nodes ih =>
    intro freed
    rw [sweepNodesUnsafe, ih, ih]
    cases hp : isDead h p <;> simp [hp]

/-- **The second loop.** -/
theorem sweepPhase_eq (s : State) : s.sweepPhase =
    ({ s with buckets := fun i => (s.buckets i).filter fun p => !isDead s.heap p },
      s.stored.filter (isDead s.heap)) := by
  have hfreed : ∀ n, (List.range n).foldl
      (fun freed i => (sweepNodesUnsafe s.heap (s.buckets i) freed).2) [] =
        ((List.range n).flatMap s.buckets).filter (isDead s.heap) := by
    intro n
    induction n with
    | zero => rfl
    | succ n ih =>
      rw [List.range_succ, List.foldl_append, ih, List.flatMap_append, List.filter_append]
      simp [sweepNodesUnsafe_eq]
  rw [sweepPhase, hfreed]
  simp only [sweepNodesUnsafe_eq]
  rfl

theorem stored_filter (s : State) (d : Ptr → Bool) :
    ({ s with buckets := fun i => (s.buckets i).filter d } : State).stored =
      s.stored.filter d := by
  simp [stored, List.filter_flatMap]

theorem unmarkNodesUnsafe_apply : ∀ (nodes : List Ptr) (h : Heap) (p : Ptr),
    unmarkNodesUnsafe h nodes p = if p ∈ nodes then { h p with inUse := false } else h p := by
  intro nodes
  induction nodes with
  | nil => intro h p; rfl
  | cons q nodes ih =>
    intro h p
    rw [show unmarkNodesUnsafe h (q :: nodes) = unmarkNodesUnsafe (h.setInUse q false) nodes from
      rfl, ih]
    by_cases hpq : p = q
    · subst hpq
      simp [setInUse]
    · simp [setInUse, modify_of_ne hpq, hpq]

theorem foldl_unmarkNodesUnsafe (f : ℕ → List Ptr) : ∀ (n : ℕ) (h : Heap),
    (List.range n).foldl (fun h i => unmarkNodesUnsafe h (f i)) h =
      unmarkNodesUnsafe h ((List.range n).flatMap f) := by
  intro n
  induction n with
  | zero => intro h; rfl
  | succ n ih =>
    intro h
    rw [List.range_succ, List.foldl_append, List.flatMap_append, ih]
    simp [unmarkNodesUnsafe, List.foldl_append]

/-- **The third loop.** -/
theorem unmarkPhase_eq (s : State) : s.unmarkPhase =
    { s with heap := fun p =>
        if p ∈ s.stored then { s.heap p with inUse := false } else s.heap p } := by
  rw [unmarkPhase, foldl_unmarkNodesUnsafe]
  congr 1
  funext p
  exact unmarkNodesUnsafe_apply s.stored s.heap p

/-! ### A whole collection -/

/-- The same table with other counters. -/
def recount (s : State) (counts : Ptr → ℕ) : State :=
  { s with heap := fun p => { s.heap p with refCount := counts p } }

/-- The same table with other marks. -/
def remark (s : State) (m : Ptr → Bool) : State := { s with heap := s.heap.withMarks m }

/-- What a collection has done that swept the stored nodes in `dead`. -/
structure Collected (s s' : State) (dead : Ptr → Bool) : Prop where
  buckets : ∀ i, s'.buckets i = (s.buckets i).filter fun p => !dead p
  tableSize : s'.tableSize = s.tableSize
  heap : ∀ p ∈ s.stored, dead p = false → s'.heap p = { s.heap p with inUse := false }
  frame : ∀ p, p ∉ s.stored → (s'.heap p).SameKey (s.heap p)
  nodeCount : s'.nodeCount = s.nodeCount - (s.stored.filter dead).length
  roots : SameRoots s s'
  clock : s'.clock = s.clock
  cache : ∃ c, s.cache = some c ∧ s'.cache = some c.invalidateAll
  slab : s'.allocator.currentSlab = s.allocator.currentSlab
  nextSlab : s'.allocator.nextSlabCapacity = s.allocator.nextSlabCapacity

theorem Collected.congr {dead dead' : Ptr → Bool} (h : Collected s s' dead)
    (hd : ∀ p ∈ s.stored, dead' p = dead p) (hb : ∀ i, ∀ p ∈ s.buckets i, dead' p = dead p) :
    Collected s s' dead' :=
  { h with
    buckets := fun i => by
      rw [h.buckets i]
      exact List.filter_congr fun p hp => by rw [hb i p hp]
    heap := fun p hp hdp => h.heap p hp (by rwa [← hd p hp])
    nodeCount := by
      rw [List.filter_congr hd]
      exact h.nodeCount }

theorem Collected.stored {dead : Ptr → Bool} (h : Collected s s' dead) :
    s'.stored = s.stored.filter fun p => !dead p := by
  rw [State.stored, State.stored, h.tableSize, List.filter_flatMap]
  exact List.flatMap_congr fun i _ => h.buckets i

theorem Collected.mem_iff {dead : Ptr → Bool} (h : Collected s s' dead) :
    p ∈ s'.stored ↔ p ∈ s.stored ∧ dead p = false := by
  rw [h.stored, List.mem_filter, Bool.not_eq_true']

theorem Collected.heap_eq {dead : Ptr → Bool} (h : Collected s s' dead) (hp : p ∈ s'.stored) :
    s'.heap p = { s.heap p with inUse := false } :=
  h.heap p (h.mem_iff.mp hp).1 (h.mem_iff.mp hp).2

theorem releasePhase_eq {c : LockFreeCache} (hc : s.cache = some c) (freed : List Ptr) :
    s.releasePhase freed = some { s with
      allocator := (s.allocator.freeAll s.heap freed).1
      heap := (s.allocator.freeAll s.heap freed).2
      nodeCount := s.nodeCount - freed.length
      cache := some c.invalidateAll } := by
  simp only [releasePhase, hc]

/-- **The phases after the marking**, whatever was marked and whatever is on the free list. `h₁`
is the memory when the first node is freed. -/
theorem collected_of_marks {c : LockFreeCache} (hc : s.cache = some c)
    (hnull : nullptr ∉ s.stored) (m : Ptr → Bool) :
    ∃ s' h₁, (s.remark m).sweepPhase.1.unmarkPhase.releasePhase (s.remark m).sweepPhase.2 =
        some s' ∧
      Collected s s' (fun p => !m p && (s.heap p).refCount == 0) ∧
      (∀ p, (h₁ p).nextFree = (s.heap p).nextFree) ∧
      s.allocator.freeAll h₁ (s.stored.filter fun p => !m p && (s.heap p).refCount == 0) =
        (s'.allocator, s'.heap) := by
  set dead : Ptr → Bool := fun p => !m p && (s.heap p).refCount == 0 with hdead
  -- the table after the second loop and the memory after the third
  set t : State := { s.remark m with buckets := fun i => (s.buckets i).filter fun p => !dead p }
    with ht
  have htstored : t.stored = s.stored.filter fun p => !dead p := stored_filter s _
  set h₁ : Heap := fun p => if p ∈ t.stored then { t.heap p with inUse := false } else t.heap p
    with hh₁
  have hsweep : (s.remark m).sweepPhase = (t, s.stored.filter dead) := sweepPhase_eq _
  have hunmark : (s.remark m).sweepPhase.1.unmarkPhase = { t with heap := h₁ } := by
    rw [unmarkPhase_eq, hsweep]
  have hcache : ({ t with heap := h₁ } : State).cache = some c := hc
  rw [hunmark, hsweep, releasePhase_eq hcache]
  have hkey : ∀ p, (h₁ p).SameKey (s.heap p) := fun p => by
    simp only [hh₁]
    split <;> exact ⟨rfl, rfl, rfl⟩
  have hlink : ∀ p, (h₁ p).nextFree = (s.heap p).nextFree := fun p => by
    simp only [hh₁]
    split <;> rfl
  obtain ⟨hframe, hfst⟩ := AllocInv.freeAll_frame (a := s.allocator) (h := h₁)
    (l := s.stored.filter dead)
    fun p hp he => hnull (he ▸ List.mem_of_mem_filter hp)
  refine ⟨_, h₁, rfl,
    { buckets := fun i => rfl
      tableSize := rfl
      heap := fun p hp hdp => ?_
      frame := fun p hp => ?_
      nodeCount := rfl
      roots := ⟨rfl, rfl, rfl, rfl⟩
      clock := rfl
      cache := ⟨c, hc, rfl⟩
      slab := by
        show (s.allocator.freeAll h₁ (s.stored.filter dead)).1.currentSlab = _
        rw [hfst]
      nextSlab := by
        show (s.allocator.freeAll h₁ (s.stored.filter dead)).1.nextSlabCapacity = _
        rw [hfst] }, hlink, rfl⟩
  · have hnot : p ∉ s.stored.filter dead := fun hmem => by
      rw [List.mem_filter, hdp] at hmem
      exact absurd hmem.2 (by simp)
    have hmem : p ∈ t.stored := by
      rw [htstored]
      exact List.mem_filter.mpr ⟨hp, by rw [hdp]; rfl⟩
    show (s.allocator.freeAll h₁ (s.stored.filter dead)).2 p = _
    rw [hframe p hnot, hh₁]
    simp only [if_pos hmem]
    rfl
  · have hnot : p ∉ s.stored.filter dead := fun hmem => hp (List.mem_of_mem_filter hmem)
    show ((s.allocator.freeAll h₁ (s.stored.filter dead)).2 p).SameKey _
    rw [hframe p hnot]
    exact hkey p

/-- The same when the free list is sound. The nodes of `used` include the stored ones; the others,
allocated and not yet stored, are left alone. -/
theorem collected_of_release {used : Ptr → Prop} {fl : List Ptr} {c : LockFreeCache}
    (hc : s.cache = some c) (hinv : s.allocator.AllocInv s.heap used fl)
    (hused : ∀ p ∈ s.stored, used p) (hnodup : s.stored.Nodup) (m : Ptr → Bool) :
    ∃ s', (s.remark m).sweepPhase.1.unmarkPhase.releasePhase (s.remark m).sweepPhase.2 = some s' ∧
      Collected s s' (fun p => !m p && (s.heap p).refCount == 0) ∧
      s'.allocator.AllocInv s'.heap
        (fun p => used p ∧ p ∉ s.stored.filter fun p => !m p && (s.heap p).refCount == 0)
        ((s.stored.filter fun p => !m p && (s.heap p).refCount == 0).reverse ++ fl) := by
  obtain ⟨s', h₁, hs', hcol, hlink, hfreed⟩ :=
    collected_of_marks hc (fun h0 => hinv.used_pos _ (hused _ h0) rfl) m
  have hinv₁ : s.allocator.AllocInv h₁ used fl := hinv.congr fun p _ => hlink p
  have hfree := hinv₁.freeAll (fun p hp => hused p (List.mem_of_mem_filter hp))
    (hnodup.filter fun p => !m p && (s.heap p).refCount == 0)
  rw [hfreed] at hfree
  exact ⟨s', hs', hcol, hfree⟩

/-! ### `gcLocked` -/

theorem gcLocked_eq (s : State) (fuel : ℕ) : s.gcLocked fuel =
    (Marking.visitAll s.heap.children fuel s.heap.marks s.roots).bind fun m =>
      (s.remark m).sweepPhase.1.unmarkPhase.releasePhase (s.remark m).sweepPhase.2 := by
  rw [gcLocked, markPhase_eq]
  cases Marking.visitAll s.heap.children fuel s.heap.marks s.roots <;> rfl

/-- What the marking `m` leaves to be swept. -/
def unreferenced (s : State) (m : Ptr → Bool) (p : Ptr) : Bool := !m p && (s.heap p).refCount == 0

theorem Hashed.collected {dead : Ptr → Bool} (h : Hashed P s) (hc : Collected s s' dead) :
    Hashed P s' := by
  refine ⟨?_, fun i hi p hp => ?_, ?_, fun p hp q hq hsame => ?_⟩
  · rw [hc.tableSize]
    exact h.size_pos
  · rw [hc.tableSize] at hi
    rw [hc.buckets i] at hp
    have hpi := List.mem_of_mem_filter hp
    have hmem : p ∈ s'.stored := by
      refine mem_stored.mpr ⟨i, by rwa [hc.tableSize], ?_⟩
      rwa [hc.buckets i]
    have hhome := h.placed i hi p hpi
    rw [home, hash, hc.heap_eq hmem, hc.tableSize]
    exact hhome
  · rw [hc.stored]
    exact h.nodup.filter _
  · rw [hc.heap_eq hp, hc.heap_eq hq] at hsame
    exact h.unique p (hc.mem_iff.mp hp).1 q (hc.mem_iff.mp hq).1 hsame

/-- **What any finished collection has done**, whatever the shape of the graph. -/
theorem Store.gcLocked (h : Store P s) {c : LockFreeCache} (hc : s.cache = some c)
    (hg : s.gcLocked fuel = some s') :
    ∃ m, Marking.visitAll s.heap.children fuel s.heap.marks s.roots = some m ∧
      Collected s s' (s.unreferenced m) ∧ Store P s' ∧
      s'.freeSlots + s'.stored.length = s.freeSlots + s.stored.length := by
  rw [gcLocked_eq, Option.bind_eq_some_iff] at hg
  obtain ⟨m, hm, hrel⟩ := hg
  obtain ⟨fl, hfl⟩ := h.alloc
  obtain ⟨t, ht, hcol, halloc⟩ :=
    collected_of_release hc hfl (fun p hp => hp) h.hashed.nodup m
  rw [hrel, Option.some_inj] at ht
  subst ht
  have hstored := hcol.stored
  have hfl' : s'.allocator.AllocInv s'.heap (· ∈ s'.stored)
      ((s.stored.filter (s.unreferenced m)).reverse ++ fl) := by
    refine halloc.mono fun p hp => ?_
    have hp' := hcol.mem_iff.mp hp
    refine ⟨hp'.1, fun hmem => ?_⟩
    have hdead := (List.mem_filter.mp hmem).2
    rw [hp'.2] at hdead
    exact absurd hdead (by simp)
  refine ⟨m, hm, hcol, ⟨h.hashed.collected hcol, _, hfl'⟩, ?_⟩
  have hcount : (s.stored.filter (s.unreferenced m)).length +
      (s.stored.filter fun p => !s.unreferenced m p).length = s.stored.length := by
    simpa using (List.length_eq_length_filter_add (l := s.stored) (s.unreferenced m)).symm
  rw [freeSlots_eq hfl', freeSlots_eq hfl, slots, slots, hcol.slab, hstored, List.length_append,
    List.length_reverse]
  show _ + (s.stored.filter fun p => !s.unreferenced m p).length = _
  omega

/-! ### Exactness -/

/-- The table has the children of its nodes. -/
def Closed (s : State) : Prop := ∀ p ∈ s.stored, ∀ q ∈ s.heap.children p, q ∈ s.stored

/-- No stored node carries a mark, as always between two collections. -/
def Unmarked (s : State) : Prop := ∀ p ∈ s.stored, (s.heap p).inUse = false

/-- A stored node with a nonzero counter is at `p` or above it. -/
def Live (s : State) (p : Ptr) : Prop := ∃ r ∈ s.roots, Marking.Reach s.heap.children r p

theorem Live.of_refCount (hp : p ∈ s.stored) (h : (s.heap p).refCount ≠ 0) : s.Live p :=
  ⟨p, mem_roots.mpr ⟨hp, h⟩, Relation.ReflTransGen.refl⟩

theorem Live.child (h : s.Live p) (hq : q ∈ s.heap.children p) : s.Live q := by
  obtain ⟨r, hr, hreach⟩ := h
  exact ⟨r, hr, hreach.tail hq⟩

/-- What was live before a collection is live after it. -/
theorem Live.kept (hclosed : s.Closed) (hmem : ∀ p, p ∈ s'.stored ↔ p ∈ s.stored ∧ s.Live p)
    (hheap : ∀ p ∈ s'.stored, s'.heap p = s.heap p) (hp : s.Live p) : s'.Live p := by
  obtain ⟨r, hr, hreach⟩ := hp
  obtain ⟨hrs, hcount⟩ := mem_roots.mp hr
  have hpath : ∀ q, Marking.Reach s.heap.children r q →
      q ∈ s'.stored ∧ Marking.Reach s'.heap.children r q := by
    intro q hq
    induction hq with
    | refl => exact ⟨(hmem r).mpr ⟨hrs, Live.of_refCount hrs hcount⟩, .refl⟩
    | @tail q q' hq hc ih =>
      obtain ⟨hqs, hlive⟩ := (hmem q).mp ih.1
      refine ⟨(hmem q').mpr ⟨hclosed q hqs q' hc, hlive.child hc⟩, ih.2.tail ?_⟩
      rw [Heap.children, hheap q ih.1]
      exact hc
  obtain ⟨hrs', -⟩ := hpath r .refl
  refine ⟨r, mem_roots.mpr ⟨hrs', ?_⟩, (hpath p hreach).2⟩
  rw [hheap r hrs']
  exact hcount

/-- What a collection of a closed table without marks leaves behind. -/
structure Swept (P : Platform) (s s' : State) : Prop where
  store : Store P s'
  mem_iff : ∀ p, p ∈ s'.stored ↔ p ∈ s.stored ∧ s.Live p
  heap_eq : ∀ p ∈ s'.stored, s'.heap p = s.heap p
  nodeCount : s.nodeCount = s.stored.length → s'.nodeCount = s'.stored.length
  roots : SameRoots s s'
  cache : ∃ c, s.cache = some c ∧ s'.cache = some c.invalidateAll

theorem unreferenced_iff {m : Ptr → Bool} (hclosed : s.Closed) (hunmarked : s.Unmarked)
    (hm : Marking.visitAll s.heap.children fuel s.heap.marks s.roots = some m)
    (hp : p ∈ s.stored) : s.unreferenced m p = false ↔ s.Live p := by
  have hexact := Marking.visitAll_iff_reach (T := {p | p ∈ s.stored}) hclosed
    (fun r hr => (mem_roots.mp hr).1) hunmarked hm (hunmarked p hp)
  rw [unreferenced, Bool.and_eq_false_iff, Bool.not_eq_false', beq_eq_false_iff_ne, hexact]
  constructor
  · rintro (hlive | hcount)
    · exact hlive
    · exact Live.of_refCount hp hcount
  · exact Or.inl

/-- **Exactness.** The nodes that stay are the live ones, unchanged. -/
theorem Store.gcLocked_swept (h : Store P s) (hclosed : s.Closed) (hunmarked : s.Unmarked)
    {c : LockFreeCache} (hc : s.cache = some c) (hg : s.gcLocked fuel = some s') :
    Swept P s s' ∧ s'.freeSlots + s'.stored.length = s.freeSlots + s.stored.length ∧
      s'.allocator.nextSlabCapacity = s.allocator.nextSlabCapacity ∧ s'.clock = s.clock := by
  obtain ⟨m, hm, hcol, hstore, hslots⟩ := h.gcLocked hc hg
  have hmem : ∀ p, p ∈ s'.stored ↔ p ∈ s.stored ∧ s.Live p := fun p => by
    rw [hcol.mem_iff]
    exact and_congr_right fun hp => unreferenced_iff hclosed hunmarked hm hp
  refine ⟨⟨hstore, hmem, fun p hp => ?_, fun hn => ?_, hcol.roots, hcol.cache⟩, hslots,
    hcol.nextSlab, hcol.clock⟩
  · rw [hcol.heap_eq hp, ← hunmarked p ((hmem p).mp hp).1]
  · have hcount := List.length_eq_length_filter_add (l := s.stored) (s.unreferenced m)
    rw [hcol.nodeCount, hcol.stored, hn, hcount]
    exact Nat.add_sub_cancel_left ..

/-- **Enough fuel**: one more than the stored nodes. -/
theorem visitAll_roots_isSome (hclosed : s.Closed) (hfuel : s.stored.length < fuel) :
    ∃ m, Marking.visitAll s.heap.children fuel s.heap.marks s.roots = some m := by
  have hcard : (Marking.unmarked s.stored.toFinset s.heap.marks).card < fuel :=
    lt_of_le_of_lt ((Finset.card_filter_le _ _).trans (List.toFinset_card_le _)) hfuel
  exact Marking.visitAll_isSome (T := s.stored.toFinset)
    (fun q hq r hr => List.mem_toFinset.mpr (hclosed q (List.mem_toFinset.mp hq) r hr))
    (fun r hr => List.mem_toFinset.mpr (mem_roots.mp hr).1) hcard

theorem Store.gcLocked_isSome (h : Store P s) (hclosed : s.Closed) {c : LockFreeCache}
    (hc : s.cache = some c) (hfuel : s.stored.length < fuel) :
    ∃ s', s.gcLocked fuel = some s' := by
  obtain ⟨m, hm⟩ := visitAll_roots_isSome hclosed hfuel
  obtain ⟨fl, hfl⟩ := h.alloc
  obtain ⟨s', hs', -⟩ := collected_of_release hc hfl (fun p hp => hp) h.hashed.nodup m
  exact ⟨s', by rw [gcLocked_eq, hm]; exact hs'⟩

/-! ### `performMaintenance` -/

theorem Swept.rebucket {s'' : State} (h : Swept P s s') (hr : Rebucketed s' s'')
    (hh : Hashed P s'') : Swept P s s'' where
  store := h.store.rebucket hr hh
  mem_iff p := hr.mem_iff.trans (h.mem_iff p)
  heap_eq p hp := by
    rw [hr.heap_eq]
    exact h.heap_eq p (hr.mem_iff.mp hp)
  nodeCount hn := by
    rw [hr.nodeCount_eq, hr.perm.length_eq]
    exact h.nodeCount hn
  roots := h.roots.trans hr.sameRoots
  cache := by
    rw [hr.cache_eq]
    exact h.cache

/-- A table whose allocator has a new slab. -/
def growSlab (s : State) : State := { s with allocator := s.allocator.grow }

theorem Swept.growSlab (h : Swept P s s') : Swept P s s'.growSlab := by
  obtain ⟨fl, hfl⟩ := h.store.alloc
  have hh := h.store.hashed
  have hr := h.roots
  exact { h with
    store := ⟨⟨hh.size_pos, hh.placed, hh.nodup, hh.unique⟩, fl, hfl.grow.1⟩
    roots := ⟨hr.falseNode, hr.trueNode, hr.vars, hr.nvars⟩ }

/-- How many slots are left after a collection and, if it freed nothing, the new slab. -/
def slotsAfter (s s' : State) : ℕ :=
  if s.freeSlots + s.stored.length = s'.stored.length then s.allocator.nextSlabCapacity
  else s.freeSlots + s.stored.length - s'.stored.length

/-- What `performMaintenance` does after the collection. -/
def extend (P : Platform) (s : State) : State :=
  let s := if s.allocator.hasFreeSlot then s else { s with allocator := s.allocator.grow }
  if s.shouldGrowBucketsLocked then s.growToPrime P else s

theorem performMaintenance_eq (P : Platform) (fuel : ℕ) (s : State) :
    s.performMaintenance P fuel = (s.gcLocked fuel).map (extend P) := by
  rw [State.performMaintenance]
  cases s.gcLocked fuel <;> rfl

/-- A new slab if no slot is free, and then perhaps more buckets. -/
theorem extend_cases (P : Platform) (s : State) :
    ∃ u, (s.allocator.hasFreeSlot = true ∧ u = s ∨
        s.allocator.hasFreeSlot = false ∧ u = s.growSlab) ∧
      (Hashed P u → Hashed P (s.extend P) ∧ Rebucketed u (s.extend P)) := by
  refine ⟨if s.allocator.hasFreeSlot then s else s.growSlab, ?_, Hashed.growIfLoaded⟩
  cases hfree : s.allocator.hasFreeSlot with
  | true => exact Or.inl ⟨rfl, if_pos rfl⟩
  | false => exact Or.inr ⟨rfl, if_neg Bool.false_ne_true⟩

/-- **`performMaintenance`** keeps the live nodes and leaves a free slot. -/
theorem Store.performMaintenance (h : Store P s) (hclosed : s.Closed) (hunmarked : s.Unmarked)
    {c : LockFreeCache} (hc : s.cache = some c) (hpm : s.performMaintenance P fuel = some s') :
    Swept P s s' ∧ 0 < s'.freeSlots ∧ s'.freeSlots = s.slotsAfter s' := by
  rw [performMaintenance_eq, Option.map_eq_some_iff] at hpm
  obtain ⟨t, ht, rfl⟩ := hpm
  obtain ⟨hswept, hslots, hnext, -⟩ := h.gcLocked_swept hclosed hunmarked hc ht
  obtain ⟨fl, hfl⟩ := hswept.store.alloc
  have hfree := freeSlots_eq hfl
  obtain ⟨u, hu, hgrown⟩ := extend_cases P t
  -- the table once a free slot is sure
  obtain ⟨hswept', hpos, hafter, hlen⟩ : Swept P s u ∧ 0 < u.freeSlots ∧
      u.freeSlots = s.slotsAfter t ∧ u.stored.length = t.stored.length := by
    rcases hu with ⟨hslot, rfl⟩ | ⟨hfull, rfl⟩
    · have hpos := hfl.hasFreeSlot_iff.mp hslot
      rw [← hfree] at hpos
      refine ⟨hswept, hpos, ?_, rfl⟩
      rw [slotsAfter, if_neg (by omega)]
      omega
    · have hzero := hfl.slots_eq_zero hfull
      obtain ⟨hinv, hcount⟩ := hfl.grow
      have hnil : fl.length = 0 := by
        rw [NodeAllocator.slots] at hzero
        omega
      have hnew : t.growSlab.freeSlots = s.allocator.nextSlabCapacity := by
        rw [freeSlots_eq (s := t.growSlab) hinv]
        show t.allocator.grow.slots fl = _
        rw [hcount, hnil, hnext, Nat.zero_add]
      refine ⟨hswept.growSlab, ?_, ?_, rfl⟩
      · rw [hnew, ← hnext]
        exact hfl.grow_pos
      · rw [hnew, slotsAfter, if_pos (by omega)]
  obtain ⟨hh, hr⟩ := hgrown hswept'.store.hashed
  refine ⟨hswept'.rebucket hr hh, ?_, ?_⟩
  · rw [hr.freeSlots_eq]
    exact hpos
  · rw [hr.freeSlots_eq, hafter, slotsAfter, slotsAfter, hr.perm.length_eq, hlen]

theorem Store.performMaintenance_isSome (h : Store P s) (hclosed : s.Closed) {c : LockFreeCache}
    (hc : s.cache = some c) (hfuel : s.stored.length < fuel) :
    ∃ s', s.performMaintenance P fuel = some s' := by
  obtain ⟨t, ht⟩ := h.gcLocked_isSome hclosed hc hfuel
  exact ⟨_, by rw [performMaintenance_eq, ht]; rfl⟩

theorem performMaintenance_mono {k : ℕ} (hk : fuel ≤ k)
    (h : s.performMaintenance P fuel = some s') : s.performMaintenance P k = some s' := by
  rw [performMaintenance_eq, Option.map_eq_some_iff] at h
  obtain ⟨t, ht, h⟩ := h
  rw [gcLocked_eq, Option.bind_eq_some_iff] at ht
  obtain ⟨m, hm, ht⟩ := ht
  rw [performMaintenance_eq, gcLocked_eq, Marking.visitAll_mono hk hm, Option.bind_some, ht,
    Option.map_some, h]

/-- **The loop of `getOrCreateNode` ends.** After one round of maintenance a slot is free. -/
theorem Store.getOrCreateNode_isSome (h : Store P s) (hclosed : s.Closed)
    (hunmarked : s.Unmarked) {c : LockFreeCache} (hc : s.cache = some c) (level : ℕ)
    (low high : Ptr) :
    ∃ F r s', ∀ fuel ≥ F, s.getOrCreateNode P fuel level low high = some (r, s') := by
  have honce : ∀ {t : State} {r : Ptr × State}, t.getOrCreateOnce P level low high = some r →
      ∀ fuel ≥ 1, t.getOrCreateNode P fuel level low high = some r := fun ht fuel hfuel => by
    obtain ⟨fuel, rfl⟩ := Nat.exists_eq_add_of_le' hfuel
    exact getOrCreateNode_of_once ht
  rcases h.getOrCreateOnce level low high with
    ⟨p, -, -, hsome⟩ | ⟨-, ⟨hfails, -⟩ | ⟨p, t, -, hsome⟩⟩
  · exact ⟨1, p, s, honce hsome⟩
  · obtain ⟨t, ht⟩ := h.performMaintenance_isSome (P := P) hclosed hc (Nat.lt_succ_self _)
    obtain ⟨hswept, hpos, -⟩ := h.performMaintenance hclosed hunmarked hc ht
    obtain ⟨r, u, hsome, -⟩ := hswept.store.getOrCreateOnce_isSome hpos level low high
    refine ⟨s.stored.length + 2, r, u, fun fuel hfuel => ?_⟩
    obtain ⟨fuel, rfl⟩ := Nat.exists_eq_add_of_le' (le_trans (Nat.le_add_left 1 _) hfuel)
    rw [getOrCreateNode_of_allocFails hfails,
      performMaintenance_mono (show s.stored.length + 1 ≤ fuel by omega) ht, Option.bind_some]
    exact honce hsome fuel (by omega)
  · exact ⟨1, p, t, honce hsome⟩

end State

end Nanobdd
