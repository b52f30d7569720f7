import Nanobdd.Table
import Nanobdd.AllocatorSpec

/-!
# The unique table as a hash table

`Hashed P s` is the representation invariant of the bucket array: every stored node sits in the
bucket of its hash, once, and no two stored nodes have the same key. It makes `find` in one
bucket as good as a search of the whole table, and growth of the array keeps it.

`Store` adds the allocator. The main result is the case analysis of `getOrCreateNode`: it finds
the node, or creates it in a slot that was free, or has no slot left.
-/

namespace Nanobdd

open NodeAllocator LinkedList

variable {P : Platform} {s s' : State} {p q : Ptr} {level : ℕ} {low high : Ptr} {idx : ℕ}

theorem Node.hasKey_iff {n : Node} :
    n.hasKey level low high = true ↔ n.level = level ∧ n.low = low ∧ n.high = high := by
  simp only [Node.hasKey, Bool.and_eq_true, beq_iff_eq]
  tauto

/-- Two nodes with the same level and the same children. -/
def Node.SameKey (n n' : Node) : Prop := n.level = n'.level ∧ n.low = n'.low ∧ n.high = n'.high

theorem Node.SameKey.refl (n : Node) : n.SameKey n := ⟨rfl, rfl, rfl⟩

theorem Node.SameKey.symm {n n' : Node} (h : n.SameKey n') : n'.SameKey n :=
  ⟨h.1.symm, h.2.1.symm, h.2.2.symm⟩

theorem Node.SameKey.trans {n n' n'' : Node} (h : n.SameKey n') (h' : n'.SameKey n'') :
    n.SameKey n'' := ⟨h.1.trans h'.1, h.2.1.trans h'.2.1, h.2.2.trans h'.2.2⟩

namespace State

theorem mem_stored : p ∈ s.stored ↔ ∃ i < s.tableSize, p ∈ s.buckets i := by
  simp [stored]

/-- The bucket a node belongs into. -/
def home (P : Platform) (s : State) (p : Ptr) : ℕ :=
  s.hash P (s.heap p).level (s.heap p).low (s.heap p).high

/-- Every stored node is in its bucket, once, and keys are unique. -/
structure Hashed (P : Platform) (s : State) : Prop where
  size_pos : 0 < s.tableSize
  placed : ∀ i < s.tableSize, ∀ p ∈ s.buckets i, s.home P p = i
  nodup : s.stored.Nodup
  unique : ∀ p ∈ s.stored, ∀ q ∈ s.stored, (s.heap p).SameKey (s.heap q) → p = q

/-- How many times `allocate` can succeed in `s`. -/
def freeSlots (s : State) : ℕ :=
  s.allocator.slots
    (walk (fun p => (s.heap p).nextFree) nullptr s.allocator.bound s.allocator.freeList)

/-- The bucket array and the allocator are sound. -/
structure Store (P : Platform) (s : State) : Prop where
  hashed : Hashed P s
  alloc : ∃ fl, s.allocator.AllocInv s.heap (· ∈ s.stored) fl

/-! ### Finding -/

theorem mem_of_find (h : s.find idx level low high = some p) :
    p ∈ s.buckets idx ∧ (s.heap p).level = level ∧ (s.heap p).low = low ∧
      (s.heap p).high = high := by
  rw [find] at h
  have hkey : (s.heap p).hasKey level low high = true := by simpa using List.find?_some h
  exact ⟨List.mem_of_find?_eq_some h, Node.hasKey_iff.mp hkey⟩

theorem find_eq_none_iff : s.find idx level low high = none ↔
    ∀ p ∈ s.buckets idx, ¬ ((s.heap p).level = level ∧ (s.heap p).low = low ∧
      (s.heap p).high = high) := by
  rw [find, List.find?_eq_none]
  exact forall₂_congr fun p _ => by rw [Node.hasKey_iff]

namespace Hashed

theorem hash_lt (h : Hashed P s) (level : ℕ) (low high : Ptr) :
    s.hash P level low high < s.tableSize := Nat.mod_lt _ h.size_pos

theorem mem_home (h : Hashed P s) (hp : p ∈ s.stored) : p ∈ s.buckets (s.home P p) := by
  obtain ⟨i, hi, hpi⟩ := mem_stored.mp hp
  rwa [h.placed i hi p hpi]

/-- **Searching one bucket searches the table.** -/
theorem find_eq_some_iff (h : Hashed P s) :
    s.find (s.hash P level low high) level low high = some p ↔
      p ∈ s.stored ∧ (s.heap p).level = level ∧ (s.heap p).low = low ∧
        (s.heap p).high = high := by
  constructor
  · intro hf
    obtain ⟨hp, hkey⟩ := mem_of_find hf
    exact ⟨mem_stored.mpr ⟨_, h.hash_lt level low high, hp⟩, hkey⟩
  · rintro ⟨hp, rfl, rfl, rfl⟩
    have hmem := h.mem_home hp
    cases hf : s.find (s.home P p) (s.heap p).level (s.heap p).low (s.heap p).high with
    | none => exact absurd ⟨rfl, rfl, rfl⟩ (find_eq_none_iff.mp hf p hmem)
    | some q =>
      obtain ⟨hq, hkey⟩ := mem_of_find hf
      have hq' : q ∈ s.stored := mem_stored.mpr ⟨_, h.hash_lt _ _ _, hq⟩
      rw [h.unique q hq' p hp hkey] at hf
      exact hf

theorem find_eq_none_iff (h : Hashed P s) :
    s.find (s.hash P level low high) level low high = none ↔
      ∀ p ∈ s.stored, ¬ ((s.heap p).level = level ∧ (s.heap p).low = low ∧
        (s.heap p).high = high) := by
  rw [Option.eq_none_iff_forall_ne_some]
  constructor
  · exact fun hn p hp hkey => hn p (h.find_eq_some_iff.mpr ⟨hp, hkey⟩)
  · intro hn p hf
    obtain ⟨hp, hkey⟩ := h.find_eq_some_iff.mp hf
    exact hn p hp hkey

end Hashed

/-! ### Changing what is in no key -/

theorem stored_congr (hb : s'.buckets = s.buckets) (ht : s'.tableSize = s.tableSize) :
    s'.stored = s.stored := by
  rw [stored, stored, hb, ht]

/-- **Frame.** Only the keys of stored nodes matter. -/
theorem Hashed.congr (h : Hashed P s) (hb : s'.buckets = s.buckets)
    (ht : s'.tableSize = s.tableSize) (hk : ∀ p ∈ s.stored, (s'.heap p).SameKey (s.heap p)) :
    Hashed P s' := by
  have hstored := stored_congr hb ht
  refine ⟨by rw [ht]; exact h.size_pos, fun i hi p hp => ?_, by rw [hstored]; exact h.nodup,
    fun p hp q hq hsame => ?_⟩
  · rw [ht] at hi
    rw [hb] at hp
    obtain ⟨hlevel, hlow, hhigh⟩ := hk p (mem_stored.mpr ⟨i, hi, hp⟩)
    rw [home, hash, hlevel, hlow, hhigh, ht]
    exact h.placed i hi p hp
  · rw [hstored] at hp hq
    exact h.unique p hp q hq ((hk p hp).symm.trans (hsame.trans (hk q hq)))

/-! ### Storing one more node -/

theorem flatMap_pushBack (f : ℕ → List Ptr) {k : ℕ} (p : Ptr) : ∀ {n : ℕ}, k < n →
    ((List.range n).flatMap fun i => if i = k then f i ++ [p] else f i).Perm
      (p :: (List.range n).flatMap f) := by
  intro n
  induction n with
  | zero => intro hk; omega
  | succ n ih =>
    intro hk
    rw [List.range_succ, List.flatMap_append, List.flatMap_append]
    simp only [List.flatMap_cons, List.flatMap_nil, List.append_nil]
    by_cases hkn : k = n
    · subst hkn
      have hsame : ((List.range k).flatMap fun i => if i = k then f i ++ [p] else f i)
          = (List.range k).flatMap f := by
        refine List.flatMap_congr fun i hi => ?_
        rw [if_neg (List.mem_range.mp hi).ne]
      rw [hsame, if_pos rfl, ← List.append_assoc]
      exact List.perm_append_singleton p _
    · rw [if_neg (Ne.symm hkn)]
      exact (ih (by omega)).append_right (f n)

theorem pushBack_stored (h : idx < s.tableSize) (p : Ptr) :
    (s.pushBack idx p).stored.Perm (p :: s.stored) := flatMap_pushBack s.buckets p h

theorem Hashed.pushBack (h : Hashed P s) (hp : p ∉ s.stored)
    (hkey : ∀ q ∈ s.stored, ¬ (s.heap q).SameKey (s.heap p)) :
    Hashed P (s.pushBack (s.home P p) p) := by
  have hlt : s.home P p < s.tableSize := h.hash_lt _ _ _
  have hperm := pushBack_stored hlt p
  refine ⟨h.size_pos, fun i hi q hq => ?_, ?_, fun a ha b hb hab => ?_⟩
  · simp only [State.pushBack] at hq
    split at hq
    · next hip =>
      rcases List.mem_append.mp hq with hq | hq
      · exact h.placed i hi q hq
      · rw [List.mem_singleton.mp hq, hip]
        rfl
    · exact h.placed i hi q hq
  · exact hperm.nodup_iff.mpr (List.nodup_cons.mpr ⟨hp, h.nodup⟩)
  · have hcase : ∀ c ∈ (s.pushBack (s.home P p) p).stored, c = p ∨ c ∈ s.stored := fun c hc =>
      List.mem_cons.mp (hperm.mem_iff.mp hc)
    rcases hcase a ha with hap | has <;> rcases hcase b hb with hbp | hbs
    · rw [hap, hbp]
    · rw [hap] at hab
      exact absurd ⟨hab.1.symm, hab.2.1.symm, hab.2.2.symm⟩ (hkey b hbs)
    · rw [hbp] at hab
      exact absurd hab (hkey a has)
    · exact h.unique a has b hbs hab

/-! ### Growth

Growth touches the bucket array, its size and the clock, and permutes what is stored. -/

/-- `s'` is `s` with another bucket array for the same nodes. -/
structure Rebucketed (s s' : State) : Prop where
  eq : ∃ b t c, s' = { s with buckets := b, tableSize := t, clock := c }
  perm : s'.stored.Perm s.stored

theorem Rebucketed.refl (s : State) : Rebucketed s s := ⟨⟨_, _, _, rfl⟩, List.Perm.refl _⟩

theorem Rebucketed.trans {s'' : State} (h : Rebucketed s s') (h' : Rebucketed s' s'') :
    Rebucketed s s'' := by
  obtain ⟨b, t, c, rfl⟩ := h.eq
  obtain ⟨b', t', c', rfl⟩ := h'.eq
  exact ⟨⟨b', t', c', rfl⟩, h'.perm.trans h.perm⟩

theorem Rebucketed.clock (s : State) (c : ℕ) : Rebucketed s { s with clock := c } :=
  ⟨⟨_, _, _, rfl⟩, List.Perm.refl _⟩

theorem rehash_cons (P : Platform) (s : State) (p : Ptr) (l : List Ptr) :
    rehash P s (p :: l) = rehash P (s.pushBack (s.home P p) p) l := rfl

/-- Putting nodes back changes the bucket array only. -/
theorem rehash_eq (P : Platform) (s : State) (l : List Ptr) :
    rehash P s l = { s with buckets := (rehash P s l).buckets } := by
  induction l generalizing s with
  | nil => rfl
  | cons p l ih =>
    rw [rehash_cons, ih]
    rfl

/-- Putting nodes back one by one, into whatever is there already. -/
theorem Hashed.rehash : ∀ {l : List Ptr} {s : State}, Hashed P s → (l ++ s.stored).Nodup →
    (∀ p ∈ l ++ s.stored, ∀ q ∈ l ++ s.stored, (s.heap p).SameKey (s.heap q) → p = q) →
    Hashed P (rehash P s l) ∧ (State.rehash P s l).stored.Perm (l ++ s.stored) := by
  intro l
  induction l with
  | nil => exact fun h _ _ => ⟨h, List.Perm.refl _⟩
  | cons p l ih =>
    intro s h hnd hkeys
    have hp := List.nodup_cons.mp hnd
    have hlt : s.home P p < s.tableSize := h.hash_lt _ _ _
    have hpush : Hashed P (s.pushBack (s.home P p) p) := by
      refine h.pushBack (fun hps => hp.1 (List.mem_append_right _ hps)) fun q hq hsame => ?_
      have hqp := hkeys q (List.mem_append_right _ hq) p List.mem_cons_self hsame
      exact hp.1 (List.mem_append_right _ (hqp ▸ hq))
    -- the node moves from the list to the table
    have hmove : (l ++ (s.pushBack (s.home P p) p).stored).Perm (p :: l ++ s.stored) :=
      ((pushBack_stored hlt p).append_left l).trans List.perm_middle
    obtain ⟨hh, hperm⟩ := ih hpush (hmove.nodup_iff.mpr hnd)
      fun a ha c hc => hkeys a (hmove.mem_iff.mp ha) c (hmove.mem_iff.mp hc)
    rw [rehash_cons]
    exact ⟨hh, hperm.trans hmove⟩

theorem stored_of_no_nodes (h : ∀ i, s.buckets i = []) : s.stored = [] := by
  simp [stored, h]

/-- **`growBucketsLocked` loses nothing.** -/
theorem Hashed.growBucketsLocked (h : Hashed P s) (newSize : ℕ) :
    Hashed P (s.growBucketsLocked P newSize) ∧ Rebucketed s (s.growBucketsLocked P newSize) ∧
      (s.growBucketsLocked P newSize).tableSize = max s.tableSize newSize := by
  rw [State.growBucketsLocked]
  split
  · next hle => exact ⟨h, Rebucketed.refl s, (Nat.max_eq_left hle).symm⟩
  · next hlt =>
    have hempty : ({ s with buckets := fun _ => [], tableSize := newSize } : State).stored = [] :=
      stored_of_no_nodes fun _ => rfl
    have hstart : Hashed P { s with buckets := fun _ => [], tableSize := newSize } := by
      refine ⟨by show 0 < newSize; omega, by simp, ?_, ?_⟩
      · rw [hempty]
        exact List.nodup_nil
      · rw [hempty]
        simp
    obtain ⟨hh, hperm⟩ := hstart.rehash (l := s.stored)
      (by rw [hempty, List.append_nil]; exact h.nodup)
      (by rw [hempty, List.append_nil]; exact h.unique)
    rw [hempty, List.append_nil] at hperm
    have heq := rehash_eq P { s with buckets := fun _ => [], tableSize := newSize } s.stored
    refine ⟨hh, ⟨⟨_, newSize, s.clock, heq⟩, hperm⟩, ?_⟩
    rw [heq]
    show newSize = max s.tableSize newSize
    omega

theorem Hashed.setClock (h : Hashed P s) (c : ℕ) : Hashed P { s with clock := c } :=
  ⟨h.size_pos, h.placed, h.nodup, h.unique⟩

theorem Hashed.growToPrime (h : Hashed P s) :
    Hashed P (s.growToPrime P) ∧ Rebucketed s (s.growToPrime P) := by
  obtain ⟨hh, hr, -⟩ := (h.setClock (s.clock + 1)).growBucketsLocked
    (P.primeGte s.clock (u32 (s.tableSize * 2 + 1)))
  exact ⟨hh, (Rebucketed.clock s _).trans hr⟩

/-- The growth behind the test of the load. -/
theorem Hashed.growIfLoaded (h : Hashed P s) :
    Hashed P (if s.shouldGrowBucketsLocked then s.growToPrime P else s) ∧
      Rebucketed s (if s.shouldGrowBucketsLocked then s.growToPrime P else s) := by
  split
  · exact h.growToPrime
  · exact ⟨h, Rebucketed.refl s⟩

theorem Hashed.maybeGrowBuckets (h : Hashed P s) :
    Hashed P (s.maybeGrowBuckets P) ∧ Rebucketed s (s.maybeGrowBuckets P) := by
  have hc := h.setClock (s.clock + 1)
  rw [State.maybeGrowBuckets]
  split
  · exact ⟨hc, Rebucketed.clock s _⟩
  · exact ⟨hc.growIfLoaded.1, (Rebucketed.clock s _).trans hc.growIfLoaded.2⟩

namespace Rebucketed

theorem mem_iff (h : Rebucketed s s') : p ∈ s'.stored ↔ p ∈ s.stored := h.perm.mem_iff

theorem heap_eq (h : Rebucketed s s') : s'.heap = s.heap := by
  obtain ⟨b, t, c, rfl⟩ := h.eq
  rfl

theorem allocator_eq (h : Rebucketed s s') : s'.allocator = s.allocator := by
  obtain ⟨b, t, c, rfl⟩ := h.eq
  rfl

theorem nodeCount_eq (h : Rebucketed s s') : s'.nodeCount = s.nodeCount := by
  obtain ⟨b, t, c, rfl⟩ := h.eq
  rfl

theorem cache_eq (h : Rebucketed s s') : s'.cache = s.cache := by
  obtain ⟨b, t, c, rfl⟩ := h.eq
  rfl

theorem freeSlots_eq (h : Rebucketed s s') : s'.freeSlots = s.freeSlots := by
  rw [freeSlots, freeSlots, h.heap_eq, h.allocator_eq]

end Rebucketed

theorem Store.rebucket (h : Store P s) (hr : Rebucketed s s') (hh : Hashed P s') :
    Store P s' := by
  obtain ⟨fl, hfl⟩ := h.alloc
  refine ⟨hh, fl, ?_⟩
  rw [hr.allocator_eq, hr.heap_eq]
  exact hfl.mono fun p hp => hr.mem_iff.mp hp

/-! ### Counting the slots that are left -/

theorem freeSlots_eq {used : Ptr → Prop} {fl : List Ptr}
    (h : s.allocator.AllocInv s.heap used fl) : s.freeSlots = s.allocator.slots fl := by
  have hlen : fl.length ≤ s.allocator.bound := by
    have hsub : fl.toFinset ⊆ Finset.range s.allocator.bound := fun p hp =>
      Finset.mem_range.mpr (h.free_lt p (List.mem_toFinset.mp hp))
    have hcard := Finset.card_le_card hsub
    rwa [List.toFinset_card_of_nodup h.nodup, Finset.card_range] at hcard
  rw [freeSlots, h.chain.walk_eq hlen]

/-! ### Find or create -/

/-- The node table and its permanent nodes are the same objects in both states. -/
structure SameRoots (s s' : State) : Prop where
  falseNode : s'.falseNode = s.falseNode
  trueNode : s'.trueNode = s.trueNode
  vars : s'.vars = s.vars
  nvars : s'.nvars = s.nvars

theorem SameRoots.refl (s : State) : SameRoots s s := ⟨rfl, rfl, rfl, rfl⟩

theorem SameRoots.trans {s'' : State} (h : SameRoots s s') (h' : SameRoots s' s'') :
    SameRoots s s'' :=
  ⟨h'.falseNode.trans h.falseNode, h'.trueNode.trans h.trueNode, h'.vars.trans h.vars,
    h'.nvars.trans h.nvars⟩

theorem Rebucketed.sameRoots (h : Rebucketed s s') : SameRoots s s' := by
  obtain ⟨b, t, c, rfl⟩ := h.eq
  exact ⟨rfl, rfl, rfl, rfl⟩

/-- `s'` is `s` with one more node, `p`, in a slot that was not in use. -/
structure Created (P : Platform) (s s' : State) (p : Ptr) (level : ℕ) (low high : Ptr) :
    Prop where
  store : Store P s'
  fresh : p ∉ s.stored
  ne_null : p ≠ nullptr
  perm : s'.stored.Perm (p :: s.stored)
  node : s'.heap p = { level := level, low := low, high := high }
  frame : ∀ q, q ≠ p → s'.heap q = s.heap q
  roots : SameRoots s s'
  cache : s'.cache = s.cache
  nodeCount : s'.nodeCount = s.nodeCount + 1
  slots : s'.freeSlots + 1 = s.freeSlots
  nextSlab : s'.allocator.nextSlabCapacity = s.allocator.nextSlabCapacity

theorem Created.mem (h : Created P s s' p level low high) : p ∈ s'.stored :=
  h.perm.mem_iff.mpr List.mem_cons_self

theorem Created.mem_of_mem (h : Created P s s' p level low high) (hq : q ∈ s.stored) :
    q ∈ s'.stored := h.perm.mem_iff.mpr (List.mem_cons_of_mem _ hq)

theorem Created.heap_eq (h : Created P s s' p level low high) (hq : q ∈ s.stored) :
    s'.heap q = s.heap q := h.frame q fun he => h.fresh (he ▸ hq)

/-- The loop of `getOrCreateNode` needs a slot for this key and `allocate` returns null. -/
def AllocFails (P : Platform) (s : State) (level : ℕ) (low high : Ptr) : Prop :=
  s.getOrCreateOnce P level low high = none

theorem getOrCreateNode_of_once {fuel : ℕ} {r : Ptr × State}
    (h : s.getOrCreateOnce P level low high = some r) :
    s.getOrCreateNode P (fuel + 1) level low high = some r := by
  rw [getOrCreateNode, h]

theorem getOrCreateNode_of_allocFails {fuel : ℕ} (h : AllocFails P s level low high) :
    s.getOrCreateNode P (fuel + 1) level low high =
      (s.performMaintenance P fuel).bind fun s => s.getOrCreateNode P fuel level low high := by
  rw [AllocFails] at h
  rw [getOrCreateNode, h]
  rfl

/-- The table with a candidate, which is not stored yet. -/
def withCandidate (s : State) (a : NodeAllocator) (p : Ptr) (level : ℕ) (low high : Ptr) : State :=
  { s with allocator := a, heap := s.heap.resetNode p level low high }

section candidate

variable {a : NodeAllocator}

theorem heap_withCandidate_self :
    (s.withCandidate a p level low high).heap p = { level := level, low := low, high := high } :=
  Heap.resetNode_self ..

theorem heap_withCandidate (hp : p ∉ s.stored) :
    ∀ q ∈ s.stored, (s.withCandidate a p level low high).heap q = s.heap q :=
  fun _ hq => Heap.resetNode_of_ne fun he => hp (he ▸ hq)

theorem Hashed.withCandidate (h : Hashed P s) (hp : p ∉ s.stored) :
    Hashed P (s.withCandidate a p level low high) :=
  h.congr rfl rfl fun q hq => by
    rw [heap_withCandidate hp q hq]
    exact Node.SameKey.refl _

/-- The second search does not find the key either. -/
theorem Hashed.find_withCandidate (h : Hashed P s) (hp : p ∉ s.stored)
    (hnone : ∀ q ∈ s.stored, ¬ ((s.heap q).level = level ∧ (s.heap q).low = low ∧
      (s.heap q).high = high)) :
    (s.withCandidate a p level low high).find (s.hash P level low high) level low high = none := by
  refine State.find_eq_none_iff.mpr fun q hq => ?_
  have hq' : q ∈ s.stored := mem_stored.mpr ⟨_, h.hash_lt _ _ _, hq⟩
  rw [heap_withCandidate hp q hq']
  exact hnone q hq'

/-- A candidate with a new key can be stored. -/
theorem Hashed.push_withCandidate (h : Hashed P s) (hp : p ∉ s.stored)
    (hnone : ∀ q ∈ s.stored, ¬ ((s.heap q).level = level ∧ (s.heap q).low = low ∧
      (s.heap q).high = high)) :
    Hashed P ((s.withCandidate a p level low high).pushBack (s.hash P level low high) p) := by
  have hhome : (s.withCandidate a p level low high).home P p = s.hash P level low high := by
    rw [home, heap_withCandidate_self]
    rfl
  have ht : Hashed P (s.withCandidate a p level low high) := h.withCandidate hp
  have hpush := ht.pushBack (p := p) hp fun q hq hsame => by
    rw [heap_withCandidate hp q hq, heap_withCandidate_self] at hsame
    exact hnone q hq hsame
  rwa [hhome] at hpush

end candidate

/-- **The three outcomes of a pass of `getOrCreateNode`.** -/
theorem Store.getOrCreateOnce (h : Store P s) (level : ℕ) (low high : Ptr) :
    (∃ p ∈ s.stored, ((s.heap p).level = level ∧ (s.heap p).low = low ∧ (s.heap p).high = high) ∧
        s.getOrCreateOnce P level low high = some (p, s)) ∨
      ((∀ p ∈ s.stored, ¬ ((s.heap p).level = level ∧ (s.heap p).low = low ∧
          (s.heap p).high = high)) ∧
        ((AllocFails P s level low high ∧ s.freeSlots = 0) ∨
          ∃ p s', Created P s s' p level low high ∧
            s.getOrCreateOnce P level low high = some (p, s'))) := by
  obtain ⟨fl, hfl⟩ := h.alloc
  cases hf : s.find (s.hash P level low high) level low high with
  | some p =>
    obtain ⟨hp, hkey⟩ := h.hashed.find_eq_some_iff.mp hf
    refine Or.inl ⟨p, hp, hkey, ?_⟩
    rw [State.getOrCreateOnce]
    simp only [hf]
  | none =>
    have hnone := h.hashed.find_eq_none_iff.mp hf
    refine Or.inr ⟨hnone, ?_⟩
    rcases hfl.allocate level low high with
      ⟨ha, hslots⟩ | ⟨p, a', fl', ha, hp, hinv, hslots, -, -, -, hnext⟩
    · refine Or.inl ⟨?_, (freeSlots_eq hfl).trans hslots⟩
      have hnull : s.allocate level low high = none := by
        rw [allocate, ha]
        rfl
      rw [AllocFails, State.getOrCreateOnce]
      simp only [hf, hnull]
    · have halloc : s.allocate level low high = some (p, s.withCandidate a' p level low high) := by
        rw [allocate, ha]
        rfl
      have hfind := h.hashed.find_withCandidate (a := a') hp hnone
      have hpush := h.hashed.push_withCandidate (a := a') hp hnone
      let u : State := { (s.withCandidate a' p level low high).pushBack
        (s.hash P level low high) p with nodeCount := s.nodeCount + 1 }
      have hu : Hashed P u := ⟨hpush.size_pos, hpush.placed, hpush.nodup, hpush.unique⟩
      have huperm : u.stored.Perm (p :: s.stored) :=
        pushBack_stored (s := s.withCandidate a' p level low high)
          (h.hashed.hash_lt level low high) p
      obtain ⟨hgrown, hreb⟩ := hu.maybeGrowBuckets
      have hustore : Store P u := by
        refine ⟨hu, fl', hinv.mono fun q hq => ?_⟩
        exact List.mem_cons.mp (huperm.mem_iff.mp hq)
      refine Or.inr ⟨p, u.maybeGrowBuckets P,
        { store := hustore.rebucket hreb hgrown
          fresh := hp
          ne_null := hinv.used_pos p (Or.inl rfl)
          perm := hreb.perm.trans huperm
          node := by rw [hreb.heap_eq]; exact heap_withCandidate_self (a := a')
          frame := fun q hq => by rw [hreb.heap_eq]; exact Heap.resetNode_of_ne hq
          roots := ⟨hreb.sameRoots.falseNode, hreb.sameRoots.trueNode, hreb.sameRoots.vars,
            hreb.sameRoots.nvars⟩
          cache := hreb.cache_eq
          nodeCount := hreb.nodeCount_eq
          slots := ?_
          nextSlab := by rw [hreb.allocator_eq]; exact hnext }, ?_⟩
      · rw [hreb.freeSlots_eq, freeSlots_eq (s := u) hinv, freeSlots_eq hfl]
        exact hslots
      · rw [State.getOrCreateOnce]
        simp only [hf, halloc, insertIfAbsent, hfind]
        rfl

/-- While a slot is free, a pass of the loop succeeds. -/
theorem Store.getOrCreateOnce_isSome (h : Store P s) (hfree : 0 < s.freeSlots) (level : ℕ)
    (low high : Ptr) : ∃ r s', s.getOrCreateOnce P level low high = some (r, s') ∧ Store P s' ∧
      s.freeSlots ≤ s'.freeSlots + 1 := by
  rcases h.getOrCreateOnce level low high with
    ⟨p, -, -, hsome⟩ | ⟨-, ⟨-, hzero⟩ | ⟨p, t, hcr, hsome⟩⟩
  · exact ⟨p, s, hsome, h, Nat.le_succ _⟩
  · omega
  · exact ⟨p, t, hsome, hcr.store, hcr.slots.ge⟩

end State

end Nanobdd
