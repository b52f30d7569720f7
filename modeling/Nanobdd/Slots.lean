import Nanobdd.Building
import Nanobdd.Lib.Transition

/-!
# Where every slot is

A table on which `createVar`, `getOrCreateNode` with any arguments and `gc` are called, and whose
counters change in any way in between. Nodes lose their children, the terminals may go, and a
slot may be marked that is on the free list. Still every slot of every slab is in one of three
places: stored in one bucket, on the free list once, or not yet issued.

The slabs follow each other without a gap, so the slots are counted: as many can be allocated as
are not stored. A new slab is added only when all slots are stored, which makes it harmless to
give up the old one, and a node that was asked for is there after one round of maintenance.

## Main definitions

* `NodeAllocator.slotList`, `NodeAllocator.Unissued` — the slots, and those in the tail
* `SlotStep` — a call, or a change of the counters
* `Conserved` — the invariant
* `Partitioned`, `Progress` — what it is good for

## Main results

* `Conserved.step` — the step lemma
* `slots_conserved` — **no slot is lost, and no call fails**
-/

namespace Nanobdd

open LinkedList

variable {P : Platform} {s s' : State} {p q r low high : Ptr} {fuel level id size : ℕ}
  {fl : List Ptr} {a a' a'' : NodeAllocator} {h : Heap}

namespace NodeAllocator

/-! ### Slabs -/

/-- The slots of all slabs, slab after slab. -/
def slotList (a : NodeAllocator) : List Ptr :=
  (a.olderSlabs ++ [a.currentSlab]).flatMap fun slab => List.range' slab.base slab.capacity

/-- The slot was not issued yet. -/
def Unissued (a : NodeAllocator) (p : Ptr) : Prop :=
  a.currentSlab.base + a.currentSlab.next ≤ p ∧ p < a.currentSlab.base + a.currentSlab.capacity

instance (a : NodeAllocator) (p : Ptr) : Decidable (a.Unissued p) :=
  inferInstanceAs (Decidable (_ ∧ _))

/-- The slabs follow each other, from slot `1` on. -/
structure Tiled (a : NodeAllocator) : Prop where
  slots : a.slotList = List.range' 1 a.capacity
  end_eq : a.currentSlab.base + a.currentSlab.capacity = 1 + a.capacity

theorem Tiled.mem_iff (h : Tiled a) : p ∈ a.slotList ↔ 1 ≤ p ∧ p < 1 + a.capacity := by
  rw [h.slots, List.mem_range'_1]

theorem tiled_new (n : ℕ) : Tiled (.new n) := by
  constructor
  · simp [slotList, capacity, new]
  · simp [capacity, new]

/-- The new slab starts where the last one ends. -/
theorem Tiled.grow (h : Tiled a) : Tiled a.grow := by
  have hcap : a.grow.capacity = a.capacity + a.nextSlabCapacity := by
    simp [capacity, NodeAllocator.grow]
  have hend := h.end_eq
  constructor
  · have hlist : a.grow.slotList = a.slotList ++
        List.range' (a.currentSlab.base + a.currentSlab.capacity) a.nextSlabCapacity := by
      simp [slotList, NodeAllocator.grow]
    rw [hlist, h.slots, hcap, hend]
    exact List.range'_append_1
  · rw [hcap]
    simp only [NodeAllocator.grow]
    omega

/-- `a'` has the slabs of `a`, and may have issued more of the current one. -/
structure SameSlabs (a a' : NodeAllocator) : Prop where
  older : a'.olderSlabs = a.olderSlabs
  base : a'.currentSlab.base = a.currentSlab.base
  capacity : a'.currentSlab.capacity = a.currentSlab.capacity
  next_le : a.currentSlab.next ≤ a'.currentSlab.next

namespace SameSlabs

theorem refl (a : NodeAllocator) : SameSlabs a a := ⟨rfl, rfl, rfl, le_rfl⟩

theorem trans (h : SameSlabs a a') (h' : SameSlabs a' a'') : SameSlabs a a'' :=
  ⟨h'.older.trans h.older, h'.base.trans h.base, h'.capacity.trans h.capacity,
    h.next_le.trans h'.next_le⟩

theorem capacity_eq (h : SameSlabs a a') : a'.capacity = a.capacity := by
  rw [NodeAllocator.capacity, NodeAllocator.capacity, h.older, h.capacity]

theorem tiled (h : SameSlabs a a') (ht : Tiled a) : Tiled a' := by
  constructor
  · have hlist : a'.slotList = a.slotList := by
      simp [slotList, h.older, h.base, h.capacity]
    rw [hlist, h.capacity_eq]
    exact ht.slots
  · rw [h.base, h.capacity, h.capacity_eq]
    exact ht.end_eq

theorem bound_le (h : SameSlabs a a') : a.bound ≤ a'.bound := by
  rw [bound, bound, h.base]
  exact Nat.add_le_add_left h.next_le _

/-- Only the head of the free list differs. -/
theorem setFreeList (a : NodeAllocator) (p : Ptr) : SameSlabs a { a with freeList := p } :=
  ⟨rfl, rfl, rfl, le_rfl⟩

theorem free (a : NodeAllocator) (h : Heap) (p : Ptr) : SameSlabs a (a.free h p).1 := by
  by_cases hp : p = nullptr
  · rw [NodeAllocator.free, if_pos hp]
    exact refl a
  · rw [AllocInv.free_fst a h hp]
    exact setFreeList a p

theorem allocate {h' : Heap} (ha : a.allocate h level low high = some (p, a', h')) :
    SameSlabs a a' := by
  rw [NodeAllocator.allocate, popFree] at ha
  by_cases hf : a.freeList = nullptr
  · rw [if_pos hf] at ha
    simp only [allocateFromSlab] at ha
    split at ha
    · cases ha
      exact ⟨rfl, rfl, rfl, Nat.le_succ _⟩
    · simp at ha
  · rw [if_neg hf] at ha
    cases ha
    exact setFreeList a _

end SameSlabs

end NodeAllocator

open NodeAllocator

namespace State

/-! ### The slabs in the calls -/

theorem growBucketsLocked_allocator (P : Platform) (s : State) (newSize : ℕ) :
    (s.growBucketsLocked P newSize).allocator = s.allocator := by
  rw [growBucketsLocked]
  split
  · rfl
  · rw [rehash_eq]

theorem maybeGrowBuckets_allocator (P : Platform) (s : State) :
    (s.maybeGrowBuckets P).allocator = s.allocator := by
  rw [maybeGrowBuckets]
  split
  · rfl
  · split
    · exact growBucketsLocked_allocator P _ _
    · rfl

theorem getOrCreateOnce_sameSlabs (ho : s.getOrCreateOnce P level low high = some (r, s')) :
    SameSlabs s.allocator s'.allocator := by
  rw [State.getOrCreateOnce] at ho
  split at ho
  · cases ho
    exact SameSlabs.refl _
  · split at ho
    · simp at ho
    · next candidate t ht =>
      obtain ⟨⟨c, a', h'⟩, ha, he⟩ := Option.map_eq_some_iff.mp ht
      cases he
      have hsame := SameSlabs.allocate ha
      rw [insertIfAbsent] at ho
      split at ho
      · next hfound =>
        split at hfound
        · cases hfound
          cases ho
          exact hsame.trans (SameSlabs.free _ _ _)
        · cases hfound
      · next hstored =>
        split at hstored
        · cases hstored
        · cases hstored
          cases ho
          rw [maybeGrowBuckets_allocator]
          exact hsame

theorem gcLocked_cache (hg : s.gcLocked fuel = some s') : ∃ c, s.cache = some c := by
  rw [gcLocked_eq, Option.bind_eq_some_iff] at hg
  obtain ⟨m, -, hrel⟩ := hg
  cases hc : s.cache with
  | some c => exact ⟨c, rfl⟩
  | none =>
    have hnone : (s.remark m).sweepPhase.1.unmarkPhase.cache = none := hc
    rw [releasePhase] at hrel
    simp only [hnone] at hrel
    cases hrel

theorem gcLocked_sameSlabs (hnull : nullptr ∉ s.stored) (hg : s.gcLocked fuel = some s') :
    SameSlabs s.allocator s'.allocator := by
  obtain ⟨c, hc⟩ := gcLocked_cache hg
  rw [gcLocked_eq, Option.bind_eq_some_iff] at hg
  obtain ⟨m, -, hrel⟩ := hg
  obtain ⟨t, h₁, ht, -, -, hfreed⟩ := collected_of_marks hc hnull m
  rw [ht] at hrel
  cases hrel
  have hframe := (AllocInv.freeAll_frame (a := s.allocator) (h := h₁)
    (l := s.stored.filter fun p => !m p && (s.heap p).refCount == 0)
    fun p hp he => hnull (he ▸ List.mem_of_mem_filter hp)).2
  rw [hfreed] at hframe
  have halloc : s'.allocator = { s.allocator with freeList := s'.allocator.freeList } := hframe
  rw [halloc]
  exact SameSlabs.setFreeList _ _

/-! ### The invariant -/

/-- Every slot is stored or can be allocated, and what was never issued has no children. -/
structure Conserved (P : Platform) (s : State) : Prop extends Store P s where
  tiled : s.allocator.Tiled
  slots : s.freeSlots + s.stored.length = s.allocator.capacity
  nodeCount : s.nodeCount = s.stored.length
  blank : ∀ p ≥ s.allocator.bound, s.heap.children p = []

namespace Conserved

/-- A step that keeps the slabs, the number of slots and the slots that were never issued. -/
theorem of_sameSlabs (h : Conserved P s) (hs : Store P s')
    (hsame : SameSlabs s.allocator s'.allocator)
    (hslots : s'.freeSlots + s'.stored.length = s.freeSlots + s.stored.length)
    (hcount : s'.nodeCount = s'.stored.length)
    (hkey : ∀ p ≥ s'.allocator.bound, (s'.heap p).SameKey (s.heap p)) : Conserved P s' := by
  refine ⟨hs, hsame.tiled h.tiled, ?_, hcount, fun p hp => ?_⟩
  · rw [hslots, hsame.capacity_eq]
    exact h.slots
  · obtain ⟨-, hlow, hhigh⟩ := hkey p hp
    rw [Heap.children, hlow, hhigh]
    exact h.blank p (hsame.bound_le.trans hp)

theorem null_not_mem (h : Conserved P s) : nullptr ∉ s.stored := fun h0 => by
  obtain ⟨fl, hfl⟩ := h.alloc
  exact hfl.used_pos _ h0 rfl

theorem lt_bound (h : Conserved P s) (hp : p ∈ s.stored) : p < s.allocator.bound := by
  obtain ⟨fl, hfl⟩ := h.alloc
  exact hfl.used_lt p hp

theorem getOrCreateOnce (h : Conserved P s)
    (ho : s.getOrCreateOnce P level low high = some (r, s')) :
    Conserved P s' ∧ r ≠ nullptr ∧ s'.cache = s.cache := by
  have hsame := getOrCreateOnce_sameSlabs ho
  rcases h.toStore.getOrCreateOnce level low high with
    ⟨p, hp, -, hsome⟩ | ⟨-, ⟨hfails, -⟩ | ⟨p, t, hcr, hsome⟩⟩
  · rw [hsome] at ho
    cases ho
    exact ⟨h, fun h0 => h.null_not_mem (h0 ▸ hp), rfl⟩
  · rw [AllocFails, ho] at hfails
    cases hfails
  · rw [hsome] at ho
    cases ho
    have hlen := hcr.perm.length_eq
    have hslots := hcr.slots
    rw [List.length_cons] at hlen
    refine ⟨h.of_sameSlabs hcr.store hsame (by omega) ?_ fun q hq => ?_, hcr.ne_null, hcr.cache⟩
    · rw [hcr.nodeCount, h.nodeCount, hlen]
    · obtain ⟨fl, hfl⟩ := hcr.store.alloc
      have hne : q ≠ r := fun he => absurd (hfl.used_lt r hcr.mem) (Nat.not_lt.mpr (he ▸ hq))
      rw [hcr.frame q hne]
      exact Node.SameKey.refl _

theorem gcLocked (h : Conserved P s) (hg : s.gcLocked fuel = some s') : Conserved P s' := by
  have hsame := gcLocked_sameSlabs h.null_not_mem hg
  obtain ⟨c, hc⟩ := gcLocked_cache hg
  obtain ⟨m, -, hcol, hstore, hslots⟩ := h.toStore.gcLocked hc hg
  refine h.of_sameSlabs hstore hsame hslots ?_ fun p hp => ?_
  · have hlen := congrArg List.length hcol.stored
    have hsplit := List.length_eq_length_filter_add (l := s.stored) (s.unreferenced m)
    rw [hcol.nodeCount, h.nodeCount, hlen]
    omega
  · have hnot : p ∉ s.stored := fun hps =>
      absurd (h.lt_bound hps) (Nat.not_lt.mpr (hsame.bound_le.trans hp))
    exact hcol.frame p hnot

theorem cache_ne_none (h : Conserved P s) (hg : s.gcLocked fuel = some s') : s'.cache ≠ none := by
  obtain ⟨c, hc⟩ := gcLocked_cache hg
  obtain ⟨m, -, hcol, -⟩ := h.toStore.gcLocked hc hg
  obtain ⟨c', -, hc'⟩ := hcol.cache
  rw [hc']
  exact Option.some_ne_none _

/-- A new slab, when no slot can be allocated. -/
theorem growSlab (h : Conserved P s) (hfull : s.allocator.hasFreeSlot = false) :
    Conserved P s.growSlab := by
  obtain ⟨fl, hfl⟩ := h.alloc
  have hh := h.hashed
  obtain ⟨hinv, hcount⟩ := hfl.grow
  have hzero := hfl.slots_eq_zero hfull
  have hslots := h.slots
  have hnext := hfl.next_le
  rw [freeSlots_eq hfl, hzero] at hslots
  rw [NodeAllocator.slots] at hzero
  have hcap : s.growSlab.allocator.capacity =
      s.allocator.capacity + s.allocator.nextSlabCapacity := by
    simp [State.growSlab, capacity, NodeAllocator.grow]
  have hbound : s.growSlab.allocator.bound = s.allocator.bound := by
    simp only [State.growSlab, bound, NodeAllocator.grow]
    omega
  refine ⟨⟨⟨hh.size_pos, hh.placed, hh.nodup, hh.unique⟩, fl, hinv⟩, h.tiled.grow, ?_, h.nodeCount,
    fun p hp => h.blank p (hbound ▸ hp)⟩
  have hfree : s.growSlab.freeSlots = fl.length + s.allocator.nextSlabCapacity :=
    (freeSlots_eq hinv).trans hcount
  have hstored : s.growSlab.stored = s.stored := rfl
  rw [hfree, hcap, hstored]
  omega

theorem rebucket (h : Conserved P s) (hr : Rebucketed s s') (hh : Hashed P s') :
    Conserved P s' := by
  have hlen := hr.perm.length_eq
  refine h.of_sameSlabs (h.toStore.rebucket hr hh) ?_ ?_ ?_ fun p _ => ?_
  · rw [hr.allocator_eq]
    exact SameSlabs.refl _
  · rw [hr.freeSlots_eq, hlen]
  · rw [hr.nodeCount_eq, hlen]
    exact h.nodeCount
  · rw [hr.heap_eq]
    exact Node.SameKey.refl _

theorem recounted (h : Conserved P s) (hr : Recounted s s') : Conserved P s' := by
  have hstored := hr.stored_eq
  obtain ⟨fl, hfl⟩ := h.alloc
  have hfl' : s'.allocator.AllocInv s'.heap (· ∈ s'.stored) fl := by
    rw [hr.allocator, hstored]
    exact hfl.congr fun p _ => hr.nextFree_eq p
  refine h.of_sameSlabs (hr.store h.toStore) ?_ ?_ ?_ fun p _ => hr.key p
  · rw [hr.allocator]
    exact SameSlabs.refl _
  · rw [freeSlots_eq hfl', freeSlots_eq hfl, hr.allocator, hstored]
  · rw [hr.nodeCount, hstored]
    exact h.nodeCount

/-- **Maintenance.** Whether or not there is a new slab, a slot is free after it. -/
theorem performMaintenance (h : Conserved P s) (hm : s.performMaintenance P fuel = some s') :
    Conserved P s' ∧ 0 < s'.freeSlots ∧ s'.cache ≠ none := by
  rw [performMaintenance_eq, Option.map_eq_some_iff] at hm
  obtain ⟨t, ht, rfl⟩ := hm
  have hgc := h.gcLocked ht
  have hcache := h.cache_ne_none ht
  obtain ⟨fl, hfl⟩ := hgc.alloc
  obtain ⟨u, hu, hrebucket⟩ := extend_cases P t
  obtain ⟨hgrown, hpos, hcache'⟩ : Conserved P u ∧ 0 < u.freeSlots ∧ u.cache ≠ none := by
    rcases hu with ⟨hslot, rfl⟩ | ⟨hfull, rfl⟩
    · refine ⟨hgc, ?_, hcache⟩
      rw [freeSlots_eq hfl]
      exact hfl.hasFreeSlot_iff.mp hslot
    · refine ⟨hgc.growSlab hfull, ?_, hcache⟩
      obtain ⟨hinv, hcount⟩ := hfl.grow
      have hslots : t.growSlab.freeSlots = fl.length + t.allocator.nextSlabCapacity :=
        (freeSlots_eq hinv).trans hcount
      have hnew := hfl.grow_pos
      omega
  obtain ⟨hh, hr⟩ := hrebucket hgrown.hashed
  refine ⟨hgrown.rebucket hr hh, ?_, ?_⟩
  · rw [hr.freeSlots_eq]
    exact hpos
  · rw [hr.cache_eq]
    exact hcache'

/-- **`getOrCreateNode`**, with however many rounds of maintenance. -/
theorem getOrCreateNode : ∀ {fuel : ℕ} {s : State}, Conserved P s →
    s.getOrCreateNode P fuel level low high = some (r, s') →
    Conserved P s' ∧ (s.cache ≠ none → s'.cache ≠ none) := by
  intro fuel
  induction fuel with
  | zero => intro s _ hg; simp [State.getOrCreateNode] at hg
  | succ fuel ih =>
    intro s h hg
    cases ho : s.getOrCreateOnce P level low high with
    | some x =>
      rw [getOrCreateNode_of_once ho] at hg
      cases hg
      obtain ⟨hc, -, hcache⟩ := h.getOrCreateOnce ho
      exact ⟨hc, fun hne => hcache ▸ hne⟩
    | none =>
      rw [getOrCreateNode_of_allocFails ho, Option.bind_eq_some_iff] at hg
      obtain ⟨t, ht, hg⟩ := hg
      obtain ⟨hc, -, hcache⟩ := h.performMaintenance ht
      obtain ⟨hc', hcache'⟩ := ih hc hg
      exact ⟨hc', fun _ => hcache' hcache⟩

theorem createVar (h : Conserved P s) (hv : s.createVar P fuel id = some s') :
    Conserved P s' ∧ (s.cache ≠ none → s'.cache ≠ none) := by
  obtain ⟨⟨node, t⟩, ht, hv⟩ := Option.bind_eq_some_iff.mp hv
  obtain ⟨⟨nvar, u⟩, hu, hv⟩ := Option.bind_eq_some_iff.mp hv
  cases hv
  obtain ⟨hc, hcache⟩ := h.getOrCreateNode ht
  have hpos : Recounted t { t with heap := t.heap.ref node, vars := t.vars.insertIdx id node } :=
    ⟨rfl, rfl, rfl, rfl, rfl, rfl, rfl, fun p => Heap.exists_ref _ _ p⟩
  obtain ⟨hc', hcache'⟩ := (hc.recounted hpos).getOrCreateNode hu
  have hneg : Recounted u { u with heap := u.heap.ref nvar, nvars := u.nvars.insertIdx id nvar } :=
    ⟨rfl, rfl, rfl, rfl, rfl, rfl, rfl, fun p => Heap.exists_ref _ _ p⟩
  exact ⟨hc'.recounted hneg, fun hne => hcache' (hcache hne)⟩

/-- Roots and cache do not matter. -/
theorem setRoots (h : Conserved P s) (f t : Ptr) (c : Option LockFreeCache) :
    Conserved P { s with falseNode := f, trueNode := t, cache := c } :=
  ⟨h.toStore.setRoots f t c, h.tiled, h.slots, h.nodeCount, h.blank⟩

end Conserved

/-! ### Runs -/

/-- A call of `createVar`, `getOrCreateNode` or `gc`, or any change of the counters. -/
inductive SlotStep (P : Platform) : State → State → Prop
  | createVar {s s' : State} (fuel id : ℕ) : s.createVar P fuel id = some s' → SlotStep P s s'
  | getOrCreateNode {s s' : State} (fuel level : ℕ) (low high r : Ptr) :
      s.getOrCreateNode P fuel level low high = some (r, s') → SlotStep P s s'
  | gc {s s' : State} (fuel : ℕ) : s.gc fuel = some s' → SlotStep P s s'
  | recount {s : State} (counts : Ptr → ℕ) : SlotStep P s (s.recount counts)

/-- **The step lemma.** -/
theorem Conserved.step (h : Conserved P s) (hc : s.cache ≠ none) (hs : SlotStep P s s') :
    Conserved P s' ∧ s'.cache ≠ none := by
  cases hs with
  | createVar fuel id hv => exact (h.createVar hv).imp_right fun hcache => hcache hc
  | getOrCreateNode fuel level low high r hg =>
    exact (h.getOrCreateNode hg).imp_right fun hcache => hcache hc
  | gc fuel hg => exact ⟨h.gcLocked hg, h.cache_ne_none hg⟩
  | recount counts =>
    exact ⟨h.recounted ⟨rfl, rfl, rfl, rfl, rfl, rfl, rfl, fun p => ⟨_, rfl⟩⟩, hc⟩

theorem conserved_empty (hsize : 3 ≤ size) : Conserved P (empty size) := by
  obtain ⟨hstore, hslots, hnone⟩ := store_empty P hsize
  refine ⟨hstore, tiled_new size, ?_, ?_, fun _ _ => rfl⟩
  · rw [hslots, hnone]
    simp only [List.length_nil, empty, capacity, NodeAllocator.new, List.map_nil, List.sum_nil]
    omega
  · rw [hnone]
    rfl

/-- The constructor. -/
theorem conserved_newTable (hsize : 3 ≤ size) (hn : newTable P fuel size = some s) :
    Conserved P s := by
  obtain ⟨⟨f, s₁⟩, h₁, hn⟩ := Option.bind_eq_some_iff.mp hn
  obtain ⟨⟨t, s₂⟩, h₂, hn⟩ := Option.bind_eq_some_iff.mp hn
  cases hn
  obtain ⟨hc₁, -⟩ := (conserved_empty hsize).getOrCreateNode h₁
  obtain ⟨hc₂, -⟩ := (hc₁.setRoots f s₁.trueNode s₁.cache).getOrCreateNode h₂
  have hc := hc₂.setRoots s₂.falseNode t s₂.cache
  refine hc.recounted ⟨rfl, rfl, rfl, rfl, rfl, rfl, rfl, fun p => ?_⟩
  obtain ⟨n, hn⟩ := Heap.exists_ref s₂.heap s₂.falseNode p
  obtain ⟨m, hm⟩ := Heap.exists_ref (s₂.heap.ref s₂.falseNode) t p
  exact ⟨m, hm.trans (by rw [hn])⟩

/-! ### Three places -/

/-- Every slot is in one of three places: stored in one bucket, on the free list `fl` once, or not
yet issued. -/
structure Partitioned (s : State) (fl : List Ptr) : Prop where
  chain : Chain (fun p => (s.heap p).nextFree) nullptr s.allocator.freeList fl
  once : ∀ p ∈ s.allocator.slotList,
    s.stored.count p + fl.count p + (if s.allocator.Unissued p then 1 else 0) = 1
  capacity : s.allocator.capacity = s.nodeCount + fl.length +
    (s.allocator.currentSlab.capacity - s.allocator.currentSlab.next)

theorem mem_issued {used : Ptr → Prop} (hfl : s.allocator.AllocInv s.heap used fl) :
    p ∈ List.range' 1 (s.allocator.bound - 1) ↔ 1 ≤ p ∧ p < s.allocator.bound := by
  have hb : 1 + (s.allocator.bound - 1) = s.allocator.bound := by
    have := hfl.base_pos
    rw [bound]
    omega
  rw [List.mem_range'_1, hb]

/-- What was issued is stored or free. -/
theorem Conserved.perm (h : Conserved P s)
    (hfl : s.allocator.AllocInv s.heap (· ∈ s.stored) fl) :
    (s.stored ++ fl).Perm (List.range' 1 (s.allocator.bound - 1)) := by
  have hnodup : (s.stored ++ fl).Nodup :=
    h.hashed.nodup.append hfl.nodup fun p hp hmem => hfl.not_used p hmem hp
  have hsub : s.stored ++ fl ⊆ List.range' 1 (s.allocator.bound - 1) := by
    intro p hp
    refine (mem_issued hfl).mpr ?_
    rcases List.mem_append.mp hp with hp | hp
    · exact ⟨Nat.pos_of_ne_zero (hfl.used_pos p hp), hfl.used_lt p hp⟩
    · exact ⟨Nat.pos_of_ne_zero (hfl.free_ne_null hp), hfl.free_lt p hp⟩
  refine (hnodup.subperm hsub).perm_of_length_le ?_
  have hslots := h.slots
  have hend := h.tiled.end_eq
  have hnext := hfl.next_le
  rw [freeSlots_eq hfl, NodeAllocator.slots] at hslots
  rw [List.length_range', List.length_append, bound]
  omega

theorem Conserved.partitioned (h : Conserved P s)
    (hfl : s.allocator.AllocInv s.heap (· ∈ s.stored) fl) : Partitioned s fl := by
  have hperm := h.perm hfl
  have hend := h.tiled.end_eq
  refine ⟨hfl.chain, fun p hp => ?_, ?_⟩
  · have hmem := h.tiled.mem_iff.mp hp
    have hun : s.allocator.Unissued p ↔ s.allocator.bound ≤ p :=
      ⟨And.left, fun hle => ⟨hle, hend.symm ▸ hmem.2⟩⟩
    rw [← List.count_append, hperm.count_eq]
    by_cases hle : s.allocator.bound ≤ p
    · have hnot : p ∉ List.range' 1 (s.allocator.bound - 1) := fun hr =>
        absurd ((mem_issued hfl).mp hr).2 (Nat.not_lt.mpr hle)
      rw [if_pos (hun.mpr hle), List.count_eq_zero.mpr hnot]
    · have hr : p ∈ List.range' 1 (s.allocator.bound - 1) :=
        (mem_issued hfl).mpr ⟨hmem.1, Nat.not_le.mp hle⟩
      rw [if_neg (hun.not.mpr hle), List.count_eq_one_of_mem List.nodup_range' hr]
  · rw [← h.slots, freeSlots_eq hfl, NodeAllocator.slots, h.nodeCount]
    omega

/-! ### Progress -/

/-- What the calls can rely on. -/
structure Progress (P : Platform) (s : State) : Prop where
  hasFreeSlot : ∀ level low high, (s.allocate level low high).isSome = s.allocator.hasFreeSlot
  /-- `performMaintenance` calls `grow` only when every slot is stored. -/
  full : ∀ fuel t, s.gcLocked fuel = some t → t.allocator.hasFreeSlot = false →
    ∀ p ∈ t.allocator.slotList, t.stored.count p = 1
  /-- Maintenance ends, and the next call of `allocate` returns a node. -/
  maintained : ∃ F t, (∀ fuel ≥ F, s.performMaintenance P fuel = some t) ∧
    ∀ level low high, (t.allocate level low high).isSome = true
  /-- `getOrCreateNode` returns a node, in the first pass of its loop or after one round of
  maintenance. -/
  ends : ∀ level low high, ∃ F r s', (∀ fuel ≥ F,
      s.getOrCreateNode P fuel level low high = some (r, s')) ∧ r ≠ nullptr ∧
    (s.getOrCreateOnce P level low high = some (r, s') ∨
      s.getOrCreateOnce P level low high = none ∧
        ∃ t, (∀ fuel ≥ F, s.performMaintenance P fuel = some t) ∧
          t.getOrCreateOnce P level low high = some (r, s'))

theorem Store.allocate_isSome (h : Store P s) (level : ℕ) (low high : Ptr) :
    (s.allocate level low high).isSome = s.allocator.hasFreeSlot := by
  obtain ⟨fl, hfl⟩ := h.alloc
  have hiff := hfl.hasFreeSlot_iff
  rcases hfl.allocate level low high with ⟨ha, hslots⟩ | ⟨p, a', fl', ha, -, -, hslots, -⟩
  · have hfree : s.allocator.hasFreeSlot = false :=
      Bool.eq_false_iff.mpr fun ht => by
        have := hiff.mp ht
        omega
    rw [allocate, ha, hfree]
    rfl
  · rw [allocate, ha, hiff.mpr (by omega)]
    rfl

/-- The marking ends: only slots that were issued have children. -/
theorem Conserved.gcLocked_isSome (h : Conserved P s) (hc : s.cache ≠ none) :
    ∃ F t, ∀ fuel ≥ F, s.gcLocked fuel = some t := by
  obtain ⟨c, hc⟩ := Option.ne_none_iff_exists'.mp hc
  obtain ⟨fl, hfl⟩ := h.alloc
  let issued : Finset Ptr := Finset.range s.allocator.bound
  let T : Finset Ptr := issued ∪ (issued.image fun p => (s.heap p).low) ∪
    (issued.image fun p => (s.heap p).high)
  have hclosed : ∀ p ∈ T, ∀ q ∈ s.heap.children p, q ∈ T := by
    intro p _ q hq
    have hp : p ∈ issued := by
      rw [Finset.mem_range]
      by_contra hge
      rw [h.blank p (Nat.not_lt.mp hge)] at hq
      cases hq
    rcases (Heap.mem_children.mp hq).1 with rfl | rfl
    · exact Finset.mem_union_left _ (Finset.mem_union_right _ (Finset.mem_image_of_mem _ hp))
    · exact Finset.mem_union_right _ (Finset.mem_image_of_mem _ hp)
  have hroots : ∀ p ∈ s.roots, p ∈ T := fun p hp => Finset.mem_union_left _
    (Finset.mem_union_left _ (Finset.mem_range.mpr (h.lt_bound (mem_roots.mp hp).1)))
  obtain ⟨m, hm⟩ := Marking.visitAll_isSome (m := s.heap.marks) hclosed hroots
    (Nat.lt_succ_self _)
  obtain ⟨t, ht, -⟩ := collected_of_release hc hfl (fun p hp => hp) h.hashed.nodup m
  refine ⟨(Marking.unmarked T s.heap.marks).card + 1, t, fun fuel hfuel => ?_⟩
  rw [gcLocked_eq, Marking.visitAll_mono hfuel hm]
  exact ht

theorem Conserved.performMaintenance_isSome (h : Conserved P s) (hc : s.cache ≠ none) :
    ∃ F t, ∀ fuel ≥ F, s.performMaintenance P fuel = some t := by
  obtain ⟨F, t, ht⟩ := h.gcLocked_isSome hc
  exact ⟨F, _, fun fuel hfuel => by rw [performMaintenance_eq, ht fuel hfuel]; rfl⟩

theorem Conserved.progress (h : Conserved P s) (hc : s.cache ≠ none) : Progress P s := by
  obtain ⟨F, t, ht⟩ := h.performMaintenance_isSome hc
  obtain ⟨hmaintained, hpos, -⟩ := h.performMaintenance (ht F le_rfl)
  refine ⟨h.toStore.allocate_isSome, fun fuel u hu hfull p hp => ?_,
    ⟨F, t, ht, fun level low high => ?_⟩, fun level low high => ?_⟩
  · have hgc := h.gcLocked hu
    obtain ⟨fl, hfl⟩ := hgc.alloc
    have hzero := hfl.slots_eq_zero hfull
    rw [NodeAllocator.slots, Nat.add_eq_zero_iff, List.length_eq_zero_iff] at hzero
    have honce := (hgc.partitioned hfl).once p hp
    have hun : ¬ u.allocator.Unissued p := fun hun => by
      have hlt : u.allocator.currentSlab.base + u.allocator.currentSlab.next <
          u.allocator.currentSlab.base + u.allocator.currentSlab.capacity :=
        lt_of_le_of_lt hun.1 hun.2
      omega
    rw [hzero.1, if_neg hun] at honce
    exact honce
  · obtain ⟨fl, hfl⟩ := hmaintained.alloc
    rw [hmaintained.toStore.allocate_isSome, hfl.hasFreeSlot_iff, ← freeSlots_eq hfl]
    exact hpos
  · cases ho : s.getOrCreateOnce P level low high with
    | some x =>
      obtain ⟨-, hr, -⟩ := h.getOrCreateOnce ho
      refine ⟨1, x.1, x.2, fun fuel hfuel => ?_, hr, Or.inl rfl⟩
      obtain ⟨k, rfl⟩ := Nat.exists_eq_add_of_le' hfuel
      exact getOrCreateNode_of_once ho
    | none =>
      obtain ⟨r, s', hsome, -⟩ :=
        hmaintained.toStore.getOrCreateOnce_isSome hpos level low high
      obtain ⟨-, hr, -⟩ := hmaintained.getOrCreateOnce hsome
      refine ⟨F + 2, r, s', fun fuel hfuel => ?_, hr,
        Or.inr ⟨rfl, t, fun fuel hfuel => ht fuel (by omega), hsome⟩⟩
      obtain ⟨k, rfl⟩ := Nat.exists_eq_add_of_le' (show 2 ≤ fuel by omega)
      rw [getOrCreateNode_of_allocFails ho, ht (k + 1) (by omega), Option.bind_some,
        getOrCreateNode_of_once hsome]

/-- **No slot is lost, and no call fails.** In every state that calls of `createVar`,
`getOrCreateNode` and `gc` and changes of the counters reach from a new table, every slot is in
one of its three places, and a node that is asked for is found or created, after one round of
maintenance at most. -/
theorem slots_conserved {t : State} (hsize : 3 ≤ size) (hnew : newTable P fuel size = some t)
    {c : LockFreeCache}
    (hrun : Relation.ReflTransGen (SlotStep P) { t with cache := some c } s) :
    (∃ fl, Partitioned s fl) ∧ Progress P s := by
  have hstart : Conserved P { t with cache := some c } :=
    (conserved_newTable hsize hnew).setRoots t.falseNode t.trueNode (some c)
  have hinv : Conserved P s ∧ s.cache ≠ none :=
    Transition.invariant (I := fun s => Conserved P s ∧ s.cache ≠ none)
      (fun _ _ hs h => h.1.step h.2 hs) hrun ⟨hstart, Option.some_ne_none c⟩
  obtain ⟨hcons, hcache⟩ := hinv
  obtain ⟨fl, hfl⟩ := hcons.alloc
  exact ⟨⟨fl, hcons.partitioned hfl⟩, hcons.progress hcache⟩

/-- A table with three slots, with a cache. -/
def tiny : State :=
  { (newTable smallPlatform 1 3).getD (empty 3) with cache := some (.new 1 Nat.one_pos) }

/-- Its terminals were collected. -/
def tinyCollected : State := ((tiny.recount fun _ => 0).gc 1).getD tiny

/-- A node that has one of the freed slots for both children. -/
theorem slots_conserved_small :
    ∃ s : State, s.nodeCount = 1 ∧ (∃ fl, Partitioned s fl) ∧ Progress smallPlatform s := by
  have hnew := Option.getD_of_ne_none
    (Option.isSome_iff_ne_none.mp (show (newTable smallPlatform 1 3).isSome = true by
      decide +kernel)) (empty 3)
  have hgc := Option.getD_of_ne_none
    (Option.isSome_iff_ne_none.mp (show ((tiny.recount fun _ => 0).gc 1).isSome = true by
      decide +kernel)) tiny
  obtain ⟨⟨r, s⟩, hs, hcount⟩ := Option.any_eq_true _ _ |>.mp
    (show (tinyCollected.getOrCreateNode smallPlatform 1 5 2 2).any
      (fun x => x.2.nodeCount == 1) = true by decide +kernel)
  have hrun : Relation.ReflTransGen (SlotStep smallPlatform) tiny s :=
    ((Relation.ReflTransGen.single (.recount fun _ => 0)).tail (.gc 1 hgc.symm)).tail
      (.getOrCreateNode 1 5 2 2 r hs)
  exact ⟨s, beq_iff_eq.mp hcount, slots_conserved le_rfl hnew.symm hrun⟩

end State

end Nanobdd
