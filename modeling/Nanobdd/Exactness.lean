import Mathlib.Data.List.Flatten
import Nanobdd.Collect
import Nanobdd.Init

/-!
# Exactness of maintenance

`gcLocked` for every table it may meet, well placed or not: the stored nodes have their children,
each is stored once and is not on the free list, and none carries a mark. The collection ends,
keeps exactly what a referenced node reaches, in the old order, and puts every other node on the
free list once. A second collection has nothing to do.

`growBucketsLocked` for every new size: it does nothing, or it puts every node into its new
bucket, and no search can tell the difference.

## Main definitions

* `Collectable` — what the collection relies on
* `CollectedExactly` — what it has done
* `GrownExactly` — what growth has done

## Main results

* `gcLocked_exact` — **a collection is exact**
* `growBucketsLocked_exact` — **rehashing loses nothing**
-/

namespace Nanobdd

open LinkedList NodeAllocator

variable {P : Platform} {s s' : State} {p q : Ptr} {fl : List Ptr} {fuel : ℕ}

namespace State

/-- A table between two collections, with `fl` on the free list. -/
structure Collectable (s : State) (fl : List Ptr) : Prop where
  closed : s.Closed
  nodup : s.stored.Nodup
  not_null : nullptr ∉ s.stored
  chain : Chain (fun p => (s.heap p).nextFree) nullptr s.allocator.freeList fl
  not_free : ∀ p ∈ s.stored, p ∉ fl
  unmarked : s.Unmarked
  cache_ne_null : s.cache ≠ none

open Classical in
/-- The nodes that no referenced node reaches, bucket after bucket. -/
noncomputable def garbage (s : State) : List Ptr := s.stored.filter fun p => ¬ s.Live p

theorem mem_garbage : p ∈ s.garbage ↔ p ∈ s.stored ∧ ¬ s.Live p := by simp [garbage]

open Classical in
/-- `s'` is `s` without its garbage. -/
structure CollectedExactly (s s' : State) (fl : List Ptr) : Prop where
  /-- The live nodes stay, in their order, and no others. -/
  tableSize : s'.tableSize = s.tableSize
  buckets : ∀ i < s.tableSize, s'.buckets i = (s.buckets i).filter fun p => s.Live p
  node : ∀ p ∈ s'.stored, s'.heap p = s.heap p
  /-- The others are on the free list, once each. -/
  chain : Chain (fun p => (s'.heap p).nextFree) nullptr s'.allocator.freeList
    (s.garbage.reverse ++ fl)
  garbage_nodup : s.garbage.Nodup
  garbage_not_free : ∀ p ∈ s.garbage, p ∉ fl
  nodeCount : s.garbage.length ≤ s.nodeCount → s'.nodeCount + s.garbage.length = s.nodeCount
  unmarked : s'.Unmarked
  cache : ∃ c, s'.cache = some c ∧ ∀ i, (c.entry i).node = nullptr
  closed : s'.Closed

namespace CollectedExactly

theorem mem_iff (h : CollectedExactly s s' fl) (p : Ptr) :
    p ∈ s'.stored ↔ p ∈ s.stored ∧ s.Live p := by
  rw [mem_stored, mem_stored, h.tableSize]
  constructor
  · rintro ⟨i, hi, hp⟩
    rw [h.buckets i hi, List.mem_filter] at hp
    exact ⟨⟨i, hi, hp.1⟩, by simpa using hp.2⟩
  · rintro ⟨⟨i, hi, hp⟩, hlive⟩
    refine ⟨i, hi, ?_⟩
    rw [h.buckets i hi, List.mem_filter]
    exact ⟨hp, by simpa using hlive⟩

/-- The result can be collected again. -/
theorem collectable (h : CollectedExactly s s' fl) (hs : Collectable s fl) :
    Collectable s' (s.garbage.reverse ++ fl) := by
  have hmem : ∀ p ∈ s'.stored, p ∈ s.stored ∧ s.Live p := fun p => (h.mem_iff p).mp
  have hstored : s'.stored.Sublist s.stored := by
    rw [stored, stored, h.tableSize]
    refine List.Sublist.flatMap_right (List.range s.tableSize) fun i hi => ?_
    rw [h.buckets i (List.mem_range.mp hi)]
    exact List.filter_sublist
  refine ⟨h.closed, hs.nodup.sublist hstored, fun h0 => hs.not_null (hmem _ h0).1, h.chain,
    fun p hp hfree => ?_, h.unmarked, ?_⟩
  · rcases List.mem_append.mp hfree with hg | hfl
    · exact (mem_garbage.mp (List.mem_reverse.mp hg)).2 (hmem p hp).2
    · exact hs.not_free p (hmem p hp).1 hfl
  · obtain ⟨c, hc, -⟩ := h.cache
    rw [hc]
    exact Option.some_ne_none c

end CollectedExactly

/-- A finished collection has removed exactly the garbage. -/
theorem collectedExactly_of_marks (hs : Collectable s fl) {c : LockFreeCache}
    (hc : s.cache = some c) {m : Ptr → Bool}
    (hm : Marking.visitAll s.heap.children fuel s.heap.marks s.roots = some m) :
    ∃ s', (s.remark m).sweepPhase.1.unmarkPhase.releasePhase (s.remark m).sweepPhase.2 =
        some s' ∧ CollectedExactly s s' fl := by
  classical
  obtain ⟨s', h₁, hs', hcol, hlink, hfreed⟩ := collected_of_marks hc hs.not_null m
  have hdead : ∀ p ∈ s.stored, s.unreferenced m p = decide ¬ s.Live p := by
    intro p hp
    have hiff := unreferenced_iff hs.closed hs.unmarked hm hp
    by_cases hlive : s.Live p
    · rw [hiff.mpr hlive, decide_eq_false (not_not.mpr hlive)]
    · rw [decide_eq_true hlive]
      exact Bool.eq_true_of_not_eq_false fun hf => hlive (hiff.mp hf)
  have hgarbage : (s.stored.filter fun p => !m p && (s.heap p).refCount == 0) = s.garbage :=
    List.filter_congr hdead
  have hbuckets : ∀ i < s.tableSize, s'.buckets i = (s.buckets i).filter fun p => s.Live p := by
    intro i hi
    rw [hcol.buckets i]
    refine List.filter_congr fun p hp => ?_
    have hd := hdead p (mem_stored.mpr ⟨i, hi, hp⟩)
    rw [unreferenced] at hd
    rw [hd]
    by_cases hlive : s.Live p <;> simp [hlive]
  have hmem : ∀ p ∈ s'.stored, p ∈ s.stored ∧ s.Live p := fun p hp => by
    obtain ⟨hps, hd⟩ := hcol.mem_iff.mp hp
    exact ⟨hps, (unreferenced_iff hs.closed hs.unmarked hm hps).mp hd⟩
  have hheap : ∀ p ∈ s'.stored, s'.heap p = s.heap p := fun p hp => by
    rw [hcol.heap_eq hp, ← hs.unmarked p (hmem p hp).1]
  have hnodup : s.garbage.Nodup := hs.nodup.filter _
  have hdisj : ∀ p ∈ s.garbage, p ∉ fl := fun p hp => hs.not_free p (mem_garbage.mp hp).1
  rw [hgarbage] at hfreed
  refine ⟨s', hs', hcol.tableSize, hbuckets, hheap, ?_, hnodup, hdisj, fun hle => ?_,
    fun p hp => ?_, ?_, fun p hp q hq => ?_⟩
  · have hchain := AllocInv.freeAll_chain (hs.chain.congr fun p _ => hlink p)
      (fun p hp he => hs.not_null (he ▸ (mem_garbage.mp hp).1)) hdisj hnodup
    rwa [hfreed] at hchain
  · rw [hcol.nodeCount, hgarbage, Nat.sub_add_cancel hle]
  · rw [hheap p hp]
    exact hs.unmarked p (hmem p hp).1
  · obtain ⟨c', -, hc'⟩ := hcol.cache
    exact ⟨_, hc', fun _ => rfl⟩
  · rw [Heap.children, hheap p hp] at hq
    obtain ⟨hps, hlive⟩ := hmem p hp
    have hqs := hs.closed p hps q hq
    exact hcol.mem_iff.mpr
      ⟨hqs, (unreferenced_iff hs.closed hs.unmarked hm hqs).mpr (hlive.child hq)⟩

/-- **A collection is exact.** Given a fuel above the number of stored nodes it ends. What it
leaves does not depend on the fuel, and the next collection removes nothing. -/
theorem gcLocked_exact (hs : Collectable s fl) : ∃ s', CollectedExactly s s' fl ∧
    (∀ fuel > s.stored.length, s.gcLocked fuel = some s') ∧
    ∀ fuel > s'.stored.length, ∃ s'', s'.gcLocked fuel = some s'' ∧ s''.stored = s'.stored := by
  have hend : ∀ {t : State} {gl : List Ptr}, Collectable t gl →
      ∃ t', CollectedExactly t t' gl ∧ ∀ fuel > t.stored.length, t.gcLocked fuel = some t' := by
    intro t gl ht
    obtain ⟨c, hc⟩ := Option.ne_none_iff_exists'.mp ht.cache_ne_null
    obtain ⟨m, hm⟩ := visitAll_roots_isSome ht.closed (Nat.lt_succ_self t.stored.length)
    obtain ⟨t', ht', hex⟩ := collectedExactly_of_marks ht hc hm
    refine ⟨t', hex, fun fuel hfuel => ?_⟩
    rw [gcLocked_eq, Marking.visitAll_mono hfuel hm]
    exact ht'
  obtain ⟨s', hex, hgc⟩ := hend hs
  refine ⟨s', hex, hgc, fun fuel hfuel => ?_⟩
  obtain ⟨s'', hex', hgc'⟩ := hend (hex.collectable hs)
  refine ⟨s'', hgc' fuel hfuel, ?_⟩
  rw [stored, stored, hex'.tableSize]
  refine List.flatMap_congr fun i hi => ?_
  rw [hex'.buckets i (List.mem_range.mp hi), List.filter_eq_self]
  intro p hp
  obtain ⟨-, hlive⟩ := (hex.mem_iff p).mp (mem_stored.mpr ⟨i, List.mem_range.mp hi, hp⟩)
  simpa using hlive.kept hs.closed hex.mem_iff hex.node

/-- The small table with a node for the conjunction of the first two variables, which nobody
references. -/
def smallUnreferenced : State :=
  ((small.getOrCreateNode smallPlatform 1 0 1 5).map Prod.snd).getD small

theorem gcLocked_exact_small : ∃ s', CollectedExactly smallUnreferenced s' [] ∧
    (∀ fuel > smallUnreferenced.stored.length, smallUnreferenced.gcLocked fuel = some s') ∧
    ∀ fuel > s'.stored.length, ∃ s'', s'.gcLocked fuel = some s'' ∧ s''.stored = s'.stored :=
  gcLocked_exact
    { closed := by unfold Closed; decide +kernel
      nodup := by decide +kernel
      not_null := by decide +kernel
      chain := by show _ = _; decide +kernel
      not_free := by simp
      unmarked := by unfold Unmarked; decide +kernel
      cache_ne_null := Option.isSome_iff_ne_none.mp (by decide +kernel) }

/-! ### Growth -/

/-- `s'` is `s` with `newSize` buckets for the same nodes. -/
structure GrownExactly (P : Platform) (s s' : State) (newSize : ℕ) : Prop where
  /-- Nothing else has changed, no field of a node either. -/
  eq : ∃ buckets, s' = { s with tableSize := newSize, buckets := buckets }
  /-- The same nodes are stored, once each. -/
  perm : s'.stored.Perm s.stored
  nodup : s'.stored.Nodup
  placed : ∀ i < newSize, ∀ p ∈ s'.buckets i, s'.home P p = i

/-- A search cannot tell two tables with the same nodes apart. -/
theorem Hashed.find_congr (h : Hashed P s) (h' : Hashed P s') (hr : Rebucketed s s') (level : ℕ)
    (low high : Ptr) : s'.find (s'.hash P level low high) level low high =
      s.find (s.hash P level low high) level low high := by
  refine Option.ext fun p => ?_
  rw [h'.find_eq_some_iff, h.find_eq_some_iff, hr.mem_iff, hr.heap_eq]

/-- **Rehashing loses nothing.** A new size that is no larger leaves the table untouched. Any
other becomes the size of the table, with the same nodes in their new buckets, and every search
finds what it found before. -/
theorem growBucketsLocked_exact (h : Hashed P s) (newSize : ℕ) :
    (newSize ≤ s.tableSize → s.growBucketsLocked P newSize = s) ∧
      (s.tableSize < newSize → GrownExactly P s (s.growBucketsLocked P newSize) newSize) ∧
      ∀ level low high, (s.growBucketsLocked P newSize).find
          ((s.growBucketsLocked P newSize).hash P level low high) level low high =
        s.find (s.hash P level low high) level low high := by
  obtain ⟨hh, hr, hsize⟩ := h.growBucketsLocked newSize
  refine ⟨fun hle => if_pos hle, fun hlt => ?_, h.find_congr hh hr⟩
  rw [Nat.max_eq_right hlt.le] at hsize
  refine ⟨?_, hr.perm, hh.nodup, fun i hi => hh.placed i (hsize.symm ▸ hi)⟩
  rw [growBucketsLocked, if_neg (Nat.not_le.mpr hlt), rehash_eq]
  exact ⟨_, rfl⟩

/-- The small table with twenty-three buckets. -/
theorem growBucketsLocked_exact_small :
    GrownExactly smallPlatform small (small.growBucketsLocked smallPlatform 23) 23 := by
  have h : Hashed smallPlatform small :=
    { size_pos := by decide +kernel
      placed := by decide +kernel
      nodup := by decide +kernel
      unique := by unfold Node.SameKey; decide +kernel }
  exact (growBucketsLocked_exact h 23).2.1 (by decide +kernel)

end State

end Nanobdd
