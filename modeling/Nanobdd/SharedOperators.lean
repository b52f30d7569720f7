import Nanobdd.DefaultBuild
import Nanobdd.Parallel
import Nanobdd.SharedTable

/-!
# Operators that meet in the table

`Parallel` takes a pass of the loop of `getOrCreateNode` as one step, but the threads hold the
lock of the table shared there. Here the operators of `Parallel` go through the table as in
`SharedTable`: between the search in the bucket, the allocation, the insertion, the return of a
candidate that came too late, the count and the growth, the other threads may do anything, in the
table as well. A collection holds the lock exclusively and is one step.

While a node is stored and not yet counted, `numNodes` is too small, and a slot may be neither
free nor stored. None of this shows in what the nodes mean.

## Main definitions

* `Task`, `Stepwise` — an operator and its place in the table, and what may come next
* `State.settled` — the table when all its nodes are counted
* `Steady` — the operators and the table are in order

## Main results

* `Steady.step` — **one step** keeps both in order
-/

namespace Nanobdd

open BoolFun State

variable {T : Type*} {P : Platform} {s s' : State} {c c' : Client} {l l' : Activity}
  {pl pl' : Place} {m : Move} {a : Action} {p q x y r : Ptr} {o op : Operator}
  {i j n fuel : ℕ} {st : List Frame} {k : Key}

/-! ### The table when all its nodes are counted -/

namespace State

/-- Another value of `nodeCount_`. -/
def withCount (s : State) (k : ℕ) : State := { s with nodeCount := k }

/-- The table when all its nodes are counted. -/
def settled (s : State) : State := s.withCount s.stored.length

theorem settled_eq (h : s.nodeCount = s.stored.length) : s.settled = s := by
  rw [settled, withCount, ← h]

theorem Hashed.withCount (h : Hashed P s) (k : ℕ) : Hashed P (s.withCount k) :=
  ⟨h.size_pos, h.placed, h.nodup, h.unique⟩

/-- The invariant of the table does not speak of the count. -/
theorem Robdd.withCount (h : Robdd P s) (k : ℕ) : Robdd P (s.withCount k) :=
  ⟨⟨h.hashed.withCount k, h.alloc⟩, h.false_mem, h.true_mem, h.false_node, h.true_node, h.low_mem,
    h.high_mem, h.low_ne_high, h.lt_low, h.lt_high, h.level_lt⟩

theorem Robdd.of_settled (h : Robdd P s.settled) : Robdd P s := h.withCount s.nodeCount

theorem Extends.settled (h : Extends s s') : Extends s.settled s'.settled :=
  ⟨⟨h.roots.falseNode, h.roots.trueNode, h.roots.vars, h.roots.nvars⟩, h.mem, h.heap_eq⟩

end State

namespace Client

/-- The objects with a table in which all nodes are counted. -/
def withCount (c : Client) (k : ℕ) : Client := { c with table := c.table.withCount k }

@[inherit_doc withCount]
def settled (c : Client) : Client := { c with table := c.table.settled }

theorem settled_eq (h : c.table.nodeCount = c.table.stored.length) : c.settled = c := by
  rw [settled, State.settled_eq h]

theorem withCount_ref (c : Client) (p : Ptr) (k : ℕ) :
    (c.withCount k).ref p = (c.ref p).withCount k := by
  rw [ref, ref]
  split <;> rfl

theorem withCount_deref (c : Client) (p : Ptr) (k : ℕ) :
    (c.withCount k).deref p = (c.deref p).withCount k := by
  rw [deref, deref]
  split <;> rfl

theorem withCount_construct (h : c.construct p = some c') (k : ℕ) :
    (c.withCount k).construct p = some (c'.withCount k) := by
  obtain ⟨hne, rfl⟩ := construct_eq_some h
  rw [construct, if_neg hne, withCount_ref]
  rfl

/-- The actions on objects do not touch the count. -/
theorem withCount_exec (ha : OnObjects a) (hc : c.exec P fuel a = some c') (k : ℕ) :
    (c.withCount k).exec P fuel a = some (c'.withCount k) := by
  cases a with
  | constructDefault => exact withCount_construct hc k
  | construct p => exact withCount_construct hc k
  | copyConstruct i =>
    obtain ⟨p, hp, hc⟩ := Option.bind_eq_some_iff.mp hc
    cases hc
    refine Option.bind_eq_some_iff.mpr ⟨p, hp, ?_⟩
    rw [withCount_ref]
    rfl
  | moveConstruct i =>
    obtain ⟨p, hp, hc⟩ := Option.bind_eq_some_iff.mp hc
    cases hc
    exact Option.bind_eq_some_iff.mpr ⟨p, hp, rfl⟩
  | destroy i =>
    obtain ⟨p, hp, hc⟩ := Option.bind_eq_some_iff.mp hc
    cases hc
    refine Option.bind_eq_some_iff.mpr ⟨p, hp, ?_⟩
    rw [withCount_deref]
    rfl
  | copyAssign i j =>
    obtain ⟨x, hx, hc⟩ := Option.bind_eq_some_iff.mp hc
    obtain ⟨y, hy, hc⟩ := Option.bind_eq_some_iff.mp hc
    refine Option.bind_eq_some_iff.mpr ⟨x, hx, Option.bind_eq_some_iff.mpr ⟨y, hy, ?_⟩⟩
    by_cases hij : i = j
    · rw [if_pos hij] at hc ⊢
      cases hc
      rfl
    · rw [if_neg hij] at hc ⊢
      cases hc
      rw [withCount_ref, withCount_deref]
      rfl
  | moveAssign i j =>
    obtain ⟨x, hx, hc⟩ := Option.bind_eq_some_iff.mp hc
    obtain ⟨y, hy, hc⟩ := Option.bind_eq_some_iff.mp hc
    refine Option.bind_eq_some_iff.mpr ⟨x, hx, Option.bind_eq_some_iff.mpr ⟨y, hy, ?_⟩⟩
    by_cases hij : i = j
    · rw [if_pos hij] at hc ⊢
      cases hc
      rfl
    · rw [if_neg hij] at hc ⊢
      cases hc
      rw [withCount_deref]
      rfl
  | apply op i j => exact ha.elim
  | getVar id =>
    obtain ⟨p, hp, hc⟩ := Option.bind_eq_some_iff.mp hc
    exact Option.bind_eq_some_iff.mpr ⟨p, hp, withCount_construct hc k⟩
  | getNvar id =>
    obtain ⟨p, hp, hc⟩ := Option.bind_eq_some_iff.mp hc
    exact Option.bind_eq_some_iff.mpr ⟨p, hp, withCount_construct hc k⟩
  | bddFalse => exact withCount_construct hc k
  | bddTrue => exact withCount_construct hc k
  | gc => exact ha.elim

/-! ### Outside of the table -/

theorem ref_frame (hr : r ≠ nullptr → r ∈ c.table.stored) (hp : p ∉ c.table.stored) :
    (c.ref r).table.heap p = c.table.heap p := by
  rw [ref]
  split
  · rfl
  · next hne =>
    have hpr : p ≠ r := fun he => hp (he ▸ hr hne)
    show c.table.heap.ref r p = _
    exact Heap.modify_of_ne hpr

theorem deref_frame (hr : r ≠ nullptr → r ∈ c.table.stored) (hp : p ∉ c.table.stored) :
    (c.deref r).table.heap p = c.table.heap p := by
  rw [deref]
  split
  · rfl
  · next hne =>
    have hpr : p ≠ r := fun he => hp (he ▸ hr hne)
    show c.table.heap.deref r p = _
    exact Heap.modify_of_ne hpr

theorem construct_frame (hc : c.construct r = some c') (hr : r ∈ c.table.stored)
    (hp : p ∉ c.table.stored) : c'.table.heap p = c.table.heap p := by
  obtain ⟨-, rfl⟩ := construct_eq_some hc
  exact ref_frame (fun _ => hr) hp

/-- **Frame.** The actions on objects write to stored nodes only. -/
theorem exec_frame (ha : OnObjects a) (hplain : a.Plain) (hc : c.exec P fuel a = some c')
    (hmem : ∀ q, q ≠ nullptr → 0 < c.references q → q ∈ c.table.stored)
    (hp : p ∉ c.table.stored) : c'.table.heap p = c.table.heap p := by
  have hroot : ∀ {i q}, c.root i = some q → q ≠ nullptr → q ∈ c.table.stored := fun hi hne =>
    hmem _ hne (references_pos hi)
  have hperm : ∀ {q}, c.construct q = some c' → 0 < c.table.permanent q →
      c'.table.heap p = c.table.heap p := fun {q} hc hpos =>
    construct_frame hc (hmem q (construct_eq_some hc).1 (Nat.add_pos_right _ hpos)) hp
  cases a with
  | constructDefault => exact hperm hc (State.permanent_pos_iff.mpr (Or.inl rfl))
  | construct q => exact hplain.elim
  | copyConstruct i =>
    obtain ⟨q, hq, hc⟩ := Option.bind_eq_some_iff.mp hc
    cases hc
    exact ref_frame (hroot hq) hp
  | moveConstruct i =>
    obtain ⟨q, -, hc⟩ := Option.bind_eq_some_iff.mp hc
    cases hc
    rfl
  | destroy i =>
    obtain ⟨q, hq, hc⟩ := Option.bind_eq_some_iff.mp hc
    cases hc
    exact deref_frame (hroot hq) hp
  | copyAssign i j =>
    obtain ⟨x, hx, hc⟩ := Option.bind_eq_some_iff.mp hc
    obtain ⟨y, hy, hc⟩ := Option.bind_eq_some_iff.mp hc
    split at hc <;> cases hc
    · rfl
    · have hstored : (c.ref y).table.stored = c.table.stored :=
        (counted_ref c y).toRecounted.stored_eq
      have hderef : ((c.ref y).deref x).table.heap p = (c.ref y).table.heap p :=
        deref_frame (hstored.symm ▸ hroot hx) (hstored.symm ▸ hp)
      exact hderef.trans (ref_frame (hroot hy) hp)
  | moveAssign i j =>
    obtain ⟨x, hx, hc⟩ := Option.bind_eq_some_iff.mp hc
    obtain ⟨y, -, hc⟩ := Option.bind_eq_some_iff.mp hc
    split at hc <;> cases hc
    · rfl
    · exact deref_frame (hroot hx) hp
  | apply op i j => exact ha.elim
  | getVar id =>
    obtain ⟨q, hq, hc⟩ := Option.bind_eq_some_iff.mp hc
    exact hperm hc (State.permanent_pos_iff.mpr
      (Or.inr (Or.inr (Or.inl (List.mem_of_getElem? hq)))))
  | getNvar id =>
    obtain ⟨q, hq, hc⟩ := Option.bind_eq_some_iff.mp hc
    exact hperm hc (State.permanent_pos_iff.mpr
      (Or.inr (Or.inr (Or.inr (List.mem_of_getElem? hq)))))
  | bddFalse => exact hperm hc (State.permanent_pos_iff.mpr (Or.inl rfl))
  | bddTrue => exact hperm hc (State.permanent_pos_iff.mpr (Or.inr (Or.inl rfl)))
  | gc => exact ha.elim

/-- What the table means does not depend on the count. -/
theorem Canonical.of_settled (h : Canonical n c.settled) : Canonical n c :=
  ⟨h.ordered, h.reduced, h.closed, h.unique, h.support, h.denote_eq_iff, h.node_mem, h.equals_iff,
    h.isTrue_iff, h.isFalse_iff⟩

end Client

/-- The next step of the thread is in the table. -/
def Activity.Creates : Activity → Prop
  | .running _ _ _ (.create ..) _ => True
  | _ => False

/-- What a move outside of the table may do to it. -/
structure Undisturbed (s s' : State) : Prop where
  buckets : s'.buckets = s.buckets
  tableSize : s'.tableSize = s.tableSize
  allocator : s'.allocator = s.allocator
  nodeCount : s'.nodeCount = s.nodeCount
  cache : (∃ k, s.cache = some k) → ∃ k, s'.cache = some k
  heap : ∀ p, ∃ n, s'.heap p = { s.heap p with refCount := n }
  frame : ∀ p, p ∉ s.stored → s'.heap p = s.heap p

theorem Undisturbed.of_counted (hre : Client.Counted s s')
    (hframe : ∀ p, p ∉ s.stored → s'.heap p = s.heap p) : Undisturbed s s' :=
  ⟨hre.buckets, hre.tableSize, hre.allocator, hre.nodeCount, fun h => hre.cache.symm ▸ h, hre.heap,
    hframe⟩

theorem Undisturbed.stored_eq (h : Undisturbed s s') : s'.stored = s.stored :=
  State.stored_congr h.buckets h.tableSize

/-- The cache may have changed. -/
theorem Undisturbed.of_cache (s : State) (k : LockFreeCache) (clock : ℕ) :
    Undisturbed s { s with cache := some k, clock := clock } :=
  ⟨rfl, rfl, rfl, rfl, fun _ => ⟨k, rfl⟩, fun p => ⟨(s.heap p).refCount, rfl⟩, fun _ _ => rfl⟩

theorem Undisturbed.refl (s : State) : Undisturbed s s :=
  ⟨rfl, rfl, rfl, rfl, id, fun p => ⟨(s.heap p).refCount, rfl⟩, fun _ _ => rfl⟩

theorem Undisturbed.carries (h : Undisturbed s s') (hroots : SameRoots s s') (hr : Robdd P s) :
    Carries s s' {p | p ∈ s.stored} := by
  have hkey : ∀ p, (s'.heap p).SameKey (s.heap p) := fun p => by
    obtain ⟨count, hcount⟩ := h.heap p
    rw [hcount]
    exact ⟨rfl, rfl, rfl⟩
  exact ⟨hroots, fun _ hp => h.stored_eq.symm ▸ hp, fun p _ => hkey p, fun p hp =>
    hr.denote_eq ⟨hroots.falseNode, hroots.trueNode, fun p _ => hkey p⟩ hp⟩

/-- A step of an operator outside of the table, with another count. -/
theorem Step.outside {s : State} {control control' : Control} {st' : List Frame}
    (h : Step P ⟨s, control, st⟩ ⟨s', control', st'⟩)
    (hm : ¬ Move.step.Collects (.running o i j control st))
    (hcr : ¬ (Activity.running o i j control st).Creates) :
    Undisturbed s s' ∧ SameRoots s s' ∧
      ∀ k, Step P ⟨s.withCount k, control, st⟩ ⟨s'.withCount k, control', st'⟩ := by
  cases h with
  | terminal hterm => exact ⟨.refl _, .refl _, fun k => .terminal hterm⟩
  | hit hterm hl hr =>
    obtain ⟨cache, hcache, -⟩ := Option.map_eq_some_iff.mp hl
    have hcount : ∀ k, (s.withCount k).cache = some cache := fun _ => hcache
    rw [cacheLookup_eq hcache] at hl
    obtain ⟨rfl, rfl⟩ := Prod.mk.inj (Option.some_inj.mp hl)
    exact ⟨.refl _, .refl _, fun k => .hit hterm (cacheLookup_eq (hcount k) ..) hr⟩
  | miss hterm hl =>
    obtain ⟨cache, hcache, -⟩ := Option.map_eq_some_iff.mp hl
    have hcount : ∀ k, (s.withCount k).cache = some cache := fun _ => hcache
    rw [cacheLookup_eq hcache] at hl
    obtain ⟨hr, rfl⟩ := Prod.mk.inj (Option.some_inj.mp hl)
    exact ⟨.refl _, .refl _, fun k => .miss hterm (hr ▸ cacheLookup_eq (hcount k) ..)⟩
  | second => exact ⟨.refl _, .refl _, fun k => .second⟩
  | equal => exact ⟨.refl _, .refl _, fun k => .equal⟩
  | differ hne => exact ⟨.refl _, .refl _, fun k => .differ hne⟩
  | create => exact absurd trivial hcr
  | exhaust => exact absurd trivial hcr
  | maintain => exact absurd trivial hm
  | insert hi =>
    obtain ⟨cache, hcache, hi⟩ := Option.map_eq_some_iff.mp hi
    cases hi
    exact ⟨.of_cache _ _ _, ⟨rfl, rfl, rfl, rfl⟩,
      fun k => .insert (Option.map_eq_some_iff.mpr ⟨cache, hcache, rfl⟩)⟩

/-- A move outside of the table leaves it as it is, up to counters and the cache, and can be made
with another count. -/
theorem TakesSafely.outside {others : Activity → Prop}
    (ht : TakesSafely P others m (c, l) (c', l')) (hm : ¬ m.Collects l) (hcr : ¬ l.Creates)
    (hmem : ∀ q, q ≠ nullptr → 0 < c.references q → q ∈ c.table.stored)
    (hheld : ∀ q ∈ l.held, q ∈ c.table.stored) :
    Undisturbed c.table c'.table ∧ SameRoots c.table c'.table ∧
      ∀ k, TakesSafely P others m (c.withCount k, l) (c'.withCount k, l') := by
  obtain ⟨ht, hplain, -, hfits⟩ := ht
  suffices h : Undisturbed c.table c'.table ∧ SameRoots c.table c'.table ∧
      ∀ k, Takes P others m (c.withCount k, l) (c'.withCount k, l') from
    ⟨h.1, h.2.1, fun k => ⟨h.2.2 k, hplain, fun hc => absurd hc hm, hfits⟩⟩
  cases ht with
  | @act _ _ a fuel hb hexec hk =>
    have ha : Client.OnObjects a := by
      cases a with
      | apply => exact hb.elim
      | gc => exact absurd trivial hm
      | _ => trivial
    have hre := Client.counted_of_onObjects ha hexec
    exact ⟨.of_counted hre fun p hp => Client.exec_frame ha hplain hexec hmem hp,
      ⟨hre.falseNode, hre.trueNode, hre.vars, hre.nvars⟩,
      fun k => .act fuel hb (Client.withCount_exec ha hexec k) hk⟩
  | call ho => exact ⟨.refl _, .refl _, fun k => .call ho⟩
  | step hst =>
    obtain ⟨hu, hr, hcount⟩ := Step.outside hst hm hcr
    exact ⟨hu, hr, fun k => .step (hcount k)⟩
  | construct hc =>
    have hre : Client.Counted c.table c'.table := by
      obtain ⟨-, rfl⟩ := Client.construct_eq_some hc
      exact Client.counted_ref c _
    exact ⟨.of_counted hre fun p hp => Client.construct_frame hc (hheld _ (by simp [Activity.held,
      Control.held])) hp, ⟨hre.falseNode, hre.trueNode, hre.vars, hre.nvars⟩,
      fun k => .construct (Client.withCount_construct hc k)⟩

/-! ### Inside of the table -/

/-- The thread is not in a collection. -/
def Place.Mild : Place → Prop
  | lock _ | mark _ | sweep _ | finish _ => False
  | _ => True

/-- What a step in the table does to it: the node of the result may be new. -/
structure Inward (pl pl' : Place) (s s' : State) : Prop where
  roots : SameRoots s s'
  cache : s'.cache = s.cache
  heap : ∀ q, pl.candidate ≠ some q → pl'.candidate ≠ some q → s'.heap q = s.heap q
  mem : ∀ q ∈ s.stored, q ∈ s'.stored
  fresh : ∀ q ∈ s'.stored, q ∉ s.stored →
    ∃ k idx, pl = .insert k idx q ∧ pl' = .count k q ∧ s'.heap q = s.heap q

theorem Inward.refl (pl pl' : Place) (s : State) : Inward pl pl' s s :=
  ⟨SameRoots.refl s, rfl, fun _ _ _ => rfl, fun _ hq => hq, fun _ hq hn => absurd hq hn⟩

theorem Inward.of_rebucketed (pl pl' : Place) (h : Rebucketed s s') : Inward pl pl' s s' :=
  ⟨h.sameRoots, h.cache_eq, fun q _ _ => by rw [h.heap_eq], fun _ hq => h.mem_iff.mpr hq,
    fun _ hq hn => absurd (h.mem_iff.mp hq) hn⟩

theorem View.inward {others : Place → Prop} {lag : ℕ} (h : View P others lag s pl) (hm : pl.Mild)
    (ht : Turn P others (s, pl) (s', pl')) : Inward pl pl' s s' := by
  cases ht with
  | @allocate _ _ k idx p ha =>
    obtain ⟨⟨r, a, heap⟩, hr, ha⟩ := Option.map_eq_some_iff.mp ha
    obtain ⟨rfl, rfl⟩ := Prod.mk.inj ha
    obtain ⟨fl, hfl⟩ := h.alloc
    refine ⟨⟨rfl, rfl, rfl, rfl⟩, rfl, fun q _ hq => ?_, fun _ hq => hq,
      fun _ hq hn => absurd hq hn⟩
    rcases hfl.allocate k.level k.low k.high with
      ⟨hnull, -⟩ | ⟨p', a', fl', hp', -, -, -⟩
    · rw [hr] at hnull
      cases hnull
    · rw [hr] at hp'
      cases hp'
      exact Heap.resetNode_of_ne fun he => hq (congrArg some he.symm)
  | @won _ _ k idx p q hi =>
    obtain ⟨-, hheap, -, -, -, hmem⟩ := h.won hi
    rw [State.insertIfAbsent] at hi
    split at hi
    · simp at hi
    · simp only [Prod.mk.injEq, true_and] at hi
      obtain ⟨rfl, rfl⟩ := hi
      have hlt : idx < s.tableSize := by
        rw [h.fits.1]
        exact h.hashed.hash_lt _ _ _
      refine ⟨⟨rfl, rfl, rfl, rfl⟩, rfl, fun _ _ _ => rfl, hmem, fun r hr hn => ?_⟩
      rcases List.mem_cons.mp ((pushBack_stored hlt p).mem_iff.mp hr) with rfl | hr
      · exact ⟨k, idx, rfl, rfl, rfl⟩
      · exact absurd hr hn
  | lost hi =>
    rw [State.insertIfAbsent] at hi
    split at hi
    · simp only [Prod.mk.injEq, true_and] at hi
      obtain ⟨-, rfl⟩ := hi
      exact .refl _ _ _
    · simp at hi
  | @recycle _ k p q =>
    obtain ⟨fl, hfl⟩ := h.alloc
    have hp0 := hfl.used_pos p (Or.inr (Or.inl rfl))
    refine ⟨⟨rfl, rfl, rfl, rfl⟩, rfl, fun r hr _ => ?_, fun _ hq => hq,
      fun _ hq hn => absurd hq hn⟩
    have hrp : r ≠ p := fun he => hr (congrArg some he.symm)
    show (s.allocator.free s.heap p).2 r = _
    rw [NodeAllocator.AllocInv.free_heap hp0, if_neg hrp]
  | count =>
    exact ⟨⟨rfl, rfl, rfl, rfl⟩, rfl, fun _ _ _ => rfl, fun _ hq => hq, fun _ hq hn => absurd hq hn⟩
  | busy =>
    exact ⟨⟨rfl, rfl, rfl, rfl⟩, rfl, fun _ _ _ => rfl, fun _ hq => hq, fun _ hq hn => absurd hq hn⟩
  | grow =>
    have hc := (h.hashed.setClock (s.clock + 1)).growIfLoaded
    exact .of_rebucketed _ _ ((Rebucketed.clock s _).trans hc.2)
  | lock => exact hm.elim
  | mark => exact hm.elim
  | sweep => exact hm.elim
  | leave => exact hm.elim
  | «extend» => exact hm.elim
  | _ => exact .refl _ _ _

/-! ### New nodes -/

namespace State

variable {D : Operator → Prop} {A : Set Ptr} {h : BoolFun} {fLow fHigh : Ptr} {level : ℕ}

/-- A table with more nodes, for parts of `h`. -/
theorem Preserved.of_extends (hx : Extends s s') (hr : Robdd P s) (hu : s.Unmarked)
    (hn : s'.nodeCount = s'.stored.length)
    (hfresh : ∀ q ∈ s'.stored, q ∉ s.stored → (s'.heap q).refCount = 0 ∧
      (s'.heap q).inUse = false ∧ s'.denote q ∈ subs h) : Preserved h s s' where
  roots := hx.roots
  unmarked q hq := by
    by_cases hqs : q ∈ s.stored
    · rw [hx.heap_eq q hqs]
      exact hu q hqs
    · exact (hfresh q hq hqs).2.1
  nodeCount _ := hn
  live q hq hl := ⟨hx.mem q hq, hx.heap_eq q hq, hx.live hr.closed hl⟩
  denote_eq q hq _ := hr.denote_eq hx.agrees hq
  rest q hq := by
    by_cases hqs : q ∈ s.stored
    · rw [hx.heap_eq q hqs]
      by_cases hcount : (s.heap q).refCount = 0
      · exact Or.inr hcount
      · exact Or.inl ⟨hqs, Live.of_refCount hqs hcount⟩
    · exact Or.inr (hfresh q hq hqs).1
  meaning q hq := by
    by_cases hqs : q ∈ s.stored
    · exact Or.inr ⟨q, hqs, hr.denote_eq hx.agrees hqs⟩
    · exact Or.inl (hfresh q hq hqs).2.2

/-- The new nodes of a table are over the two results that an operator has. -/
theorem Sound.extended (hs : Sound D P A h ⟨s, .create op x y level fLow fHigh, st⟩)
    (hx : Extends s s') (hstore : Store P s') (hcache : s'.cache = s.cache)
    (hnew : ∀ q ∈ s'.stored, q ∉ s.stored →
      s'.heap q = { level := level, low := fLow, high := fHigh }) :
    WellFormed D P s' ∧ ∀ q ∈ s'.stored, q ∉ s.stored → s'.denote q ∈ subs h := by
  obtain ⟨hw, hA, g, hg, hpend⟩ := hs
  have hc : Combines D A s op x y level fLow fHigh g := hg
  have hr := hw.toRobdd
  obtain ⟨hll, hlh⟩ := hc.lt_level hA hr
  have hr' : Robdd P s' := hr.extended hstore hx fun q hq hqs =>
    ⟨hnew q hq hqs, hc.low_mem, hc.high_mem, hc.low_ne_high, hll, hlh⟩
  have hc' : Combines D A s' op x y level fLow fHigh g := hc.carry <|
    (hx.carries hr).mono <| Set.union_subset hA.mem fun q hq => by
      rcases hq with rfl | rfl
      · exact hc.low_mem
      · exact hc.high_mem
  refine ⟨hw.extends_cache hx hr' hcache, fun q hq hqs => ?_⟩
  have hnode := hnew q hq hqs
  rw [hc'.denote_eq hr' hq (by rw [hnode]) (by rw [hnode]) (by rw [hnode])]
  exact hpend.sub hA hr

/-- The result of the call is a node with the key. -/
theorem Sound.settle (hs : Sound D P A h ⟨s, .create op x y level fLow fHigh, st⟩)
    (hp : p ∈ s.stored) (hlevel : (s.heap p).level = level) (hlow : (s.heap p).low = fLow)
    (hhigh : (s.heap p).high = fHigh) : Sound D P A h ⟨s, .insert op x y p, st⟩ := by
  obtain ⟨hw, hA, g, hg, hpend⟩ := hs
  have hc : Combines D A s op x y level fLow fHigh g := hg
  exact ⟨hw, hA, g, ⟨hc.expands.toOperands, hc.goal_eq, hp,
    hc.denote_eq hw.toRobdd hp hlevel hlow hhigh⟩, hpend⟩

theorem Sound.exhaust (hs : Sound D P A h ⟨s, .create op x y level fLow fHigh, st⟩) :
    Sound D P A h ⟨s, .maintain op x y level fLow fHigh, st⟩ :=
  ⟨hs.wf, hs.anchored, hs.expects⟩

end State

/-- **A larger table.** The objects hold what they held, and every operator goes on. -/
theorem Client.Faithful.extended {f : BoolFun} (h : Faithful P n c)
    (hw : WellFormed (fun _ => True) P s) (hx : Extends c.table s)
    (hn : s.nodeCount = s.stored.length)
    (hfresh : ∀ q ∈ s.stored, q ∉ c.table.stored → (s.heap q).refCount = 0 ∧
      (s.heap q).inUse = false ∧ s.denote q ∈ subs f)
    (hf : ∀ v, n ≤ v → f.Ignores v) :
    Faithful P n { c with table := s } ∧ ({ c with table := s } : Client).values = c.values ∧
      ∀ l, Works P c l → Works P { c with table := s } l := by
  have hr := h.wf.toRobdd
  obtain ⟨hfaithful, hvalues⟩ :=
    h.withTable hw (Preserved.of_extends hx hr h.unmarked hn hfresh) hf
  exact ⟨hfaithful, hvalues, fun l hl => hl.frame h.toExact hw (Unnoticed.of_extends hx hr l)⟩

/-! ### Threads -/

/-- What a thread is doing, and where it is in the code of the table. -/
structure Task where
  activity : Activity
  place : Place

/-- One step of a thread, with the move of `Parallel` it is, if it is one. While a thread is in
the table for a node, its operator is at `create`; it goes on as soon as the result is fixed. -/
inductive Stepwise (P : Platform) (others : Task → Prop) :
    Option Move → Client × Task → Client × Task → Prop
  | move {c c' : Client} {l l' : Activity} {m : Move} {pl : Place} : pl.Outside →
      ¬ m.Collects l → ¬ l.Creates →
      TakesSafely P (fun o => ∃ w, others w ∧ w.activity = o) m (c, l) (c', l') →
      Stepwise P others (some m) (c, ⟨l, pl⟩) (c', ⟨l', .idle⟩)
  | collect {c c' : Client} {l l' : Activity} {m : Move} {pl : Place} : pl.Outside →
      m.Collects l → (∀ w, others w → ¬ w.place.Holds) →
      TakesSafely P (fun o => ∃ w, others w ∧ w.activity = o) m (c, l) (c', l') →
      Stepwise P others (some m) (c, ⟨l, pl⟩) (c', ⟨l', .idle⟩)
  /-- Call `getOrCreateNode`. -/
  | call {c : Client} {o op : Operator} {i j : ℕ} {x y : Ptr} {k : Key} {st : List Frame}
      {pl : Place} : pl.Outside →
      Stepwise P others none
        (c, ⟨.running o i j (.create op x y k.level k.low k.high) st, pl⟩)
        (c, ⟨.running o i j (.create op x y k.level k.low k.high) st, .enter k⟩)
  | table {c : Client} {s : State} {l : Activity} {pl pl' : Place} : ¬ pl.Outside →
      pl'.result = pl.result → pl'.Mild →
      Turn P (fun o => ∃ w, others w ∧ w.place = o) (c.table, pl) (s, pl') →
      Stepwise P others none (c, ⟨l, pl⟩) ({ c with table := s }, ⟨l, pl'⟩)
  /-- The result of the call is fixed. -/
  | settle {c : Client} {s : State} {o op : Operator} {i j : ℕ} {x y r : Ptr} {k : Key}
      {st : List Frame} {pl pl' : Place} : pl.result = none → pl'.result = some (k, r) →
      Turn P (fun o => ∃ w, others w ∧ w.place = o) (c.table, pl) (s, pl') →
      Stepwise P others none
        (c, ⟨.running o i j (.create op x y k.level k.low k.high) st, pl⟩)
        ({ c with table := s }, ⟨.running o i j (.insert op x y r) st, pl'⟩)
  /-- `allocate` returned null: the lock is given back, and maintenance is next. -/
  | exhaust {c : Client} {o op : Operator} {i j idx : ℕ} {x y : Ptr} {k : Key}
      {st : List Frame} : c.table.allocate k.level k.low k.high = none →
      Stepwise P others none
        (c, ⟨.running o i j (.create op x y k.level k.low k.high) st, .allocate k idx⟩)
        (c, ⟨.running o i j (.maintain op x y k.level k.low k.high) st, .idle⟩)

namespace Place

/-- The key the thread is looking for. -/
def key : Place → Option Key
  | enter k | find k _ | allocate k _ | insert k _ _ => some k
  | _ => none

/-- The candidate is as `allocate` has left it. -/
def Pure (s : State) : Place → Prop
  | insert k _ p => s.heap p = { level := k.level, low := k.low, high := k.high }
  | _ => True

theorem Pure.congr (h : pl.Pure s) (hp : ∀ p, pl.candidate = some p → s'.heap p = s.heap p) :
    pl.Pure s' := by
  cases pl with
  | insert k idx p => exact (hp p rfl).trans h
  | _ => trivial

theorem Pure.of_not_holds (h : ¬ pl.Holds) : pl.Pure s := by
  cases pl with
  | insert => exact absurd (Or.inl trivial) h
  | _ => trivial

theorem Outside.not_holds (h : pl.Outside) : ¬ pl.Holds := by
  cases pl <;> first | exact fun hh => hh.elim id id | exact h.elim

theorem not_holds_idle : ¬ Place.idle.Holds := fun h => h.elim id id

theorem Outside.uncounted (h : pl.Outside) : pl.uncounted = 0 := by
  cases pl <;> first | rfl | exact h.elim

end Place

namespace Place

theorem mild_of_result (h : pl.result = some (k, r)) : pl.Mild := by
  cases pl <;> trivial

theorem key_of_result (h : pl.result = some (k, r)) : pl.key = none := by
  cases pl <;> first | rfl | exact absurd h nofun

end Place

theorem View.pure {others : Place → Prop} {lag : ℕ} (h : View P others lag s pl)
    (ht : Turn P others (s, pl) (s', pl')) : pl'.Pure s' := by
  cases ht with
  | @allocate _ _ k idx p ha =>
    obtain ⟨⟨r, a, heap⟩, hr, ha⟩ := Option.map_eq_some_iff.mp ha
    obtain ⟨rfl, rfl⟩ := Prod.mk.inj ha
    obtain ⟨fl, hfl⟩ := h.alloc
    rcases hfl.allocate k.level k.low k.high with
      ⟨hnull, -⟩ | ⟨p', a', fl', hp', -, -, -⟩
    · rw [hr] at hnull
      cases hnull
    · rw [hr] at hp'
      cases hp'
      exact Heap.resetNode_self ..
  | _ => trivial

theorem Turn.key {others : Place → Prop} (ht : Turn P others (s, pl) (s', pl'))
    (hout : ¬ pl.Outside) (hm : pl.Mild) (hk : pl'.key = some k) : pl.key = some k := by
  cases ht with
  | call _ ho => exact absurd ho hout
  | gc ho => exact absurd ho hout
  | «extend» => exact hm.elim
  | enter => exact hk
  | miss => exact hk
  | allocate => exact hk
  | _ => exact absurd hk nofun

/-- The actions that end with a step. -/
def recordOf (t : T) (om : Option Move) (l : Activity) : List (T × Action) :=
  om.elim [] fun m => record t m l

/-- A thread is in the table for the node that its operator needs, and not for a collection. -/
structure Task.Fits (w : Task) : Prop where
  mild : w.place.Mild
  seeks : ∀ k, w.place.key = some k → ∃ o i j op x y st,
    w.activity = .running o i j (.create op x y k.level k.low k.high) st

theorem Task.fits_idle (l : Activity) : Task.Fits ⟨l, .idle⟩ := ⟨trivial, nofun⟩

section pool

variable {d d' : Pool T Client Task} {t u : T}

/-- The operators of the threads, over a table in which all nodes are counted. -/
def activitiesOf (d : Pool T Client Task) : Pool T Client Activity :=
  d.map Client.settled Task.activity

/-- The places of the threads. -/
def placesOf (d : Pool T Client Task) : Pool T State Place :=
  d.map Client.table Task.place

/-- The operators and the table are in order. -/
structure Steady [DecidableEq T] [Fintype T] (P : Platform) (n : ℕ) (d : Pool T Client Task) :
    Prop where
  keeps : Pool.Keeps (Client.Faithful P n) (Works P) (activitiesOf d)
  table : Nanobdd.Sound P (placesOf d)
  pure : ∀ t, (d.pc t).place.Pure d.shared.table
  fits : ∀ t, (d.pc t).Fits

variable [DecidableEq T] [Fintype T]

/-- A thread outside of the table makes a move that does not touch it. -/
theorem sound_undisturbed {c : Pool T State Place} (h : Nanobdd.Sound P c)
    (hu : Undisturbed c.shared s) (hl : (c.pc t).Outside) :
    Nanobdd.Sound P (c.move t s .idle) := by
  obtain ⟨fl, hfl⟩ := h.alloc
  have hstored := hu.stored_eq
  have hkey : ∀ p, (s.heap p).SameKey (c.shared.heap p) ∧
      (s.heap p).nextFree = (c.shared.heap p).nextFree := fun p => by
    obtain ⟨count, hcount⟩ := hu.heap p
    rw [hcount]
    exact ⟨⟨rfl, rfl, rfl⟩, rfl⟩
  refine ⟨h.hashed.congr hu.buckets hu.tableSize fun p _ => (hkey p).1, ⟨fl, ?_⟩,
    hu.cache h.cache, ?_, ?_, ?_⟩
  · rw [Pool.move_shared, hu.allocator, hstored]
    refine (hfl.congr fun p _ => (hkey p).2).mono ?_
    rintro p (hp | hp)
    · exact Or.inl hp
    · rcases (Pool.exists_move fun o : Place => o.candidate = some p).mp hp with hp | hp
      · exact absurd hp nofun
      · obtain ⟨-, ⟨u, -, rfl⟩, hp⟩ := hp
        exact Or.inr ⟨u, hp⟩
  · refine (Pool.forall_move fun o : Place => o.Fits P s).mpr ⟨trivial, ?_⟩
    rintro - ⟨u, -, rfl⟩
    exact (h.fits u).congr hu.tableSize fun p _ => ⟨fun hp => hstored.symm ▸ hp, (hkey p).1⟩
  · exact Pool.pairwise_move Place.Apart h.apart fun o _ =>
      ⟨.of_not_holds Place.not_holds_idle, .of_not_holds_right Place.not_holds_idle⟩
  · have hcount := h.count
    rw [Pool.total_eq _ c t, hl.uncounted] at hcount
    rw [Pool.total_move, Pool.move_shared, hstored, hu.nodeCount]
    exact hcount

/-- A thread has the table for itself, and leaves it. -/
theorem sound_alone {c : Pool T State Place} (h : Nanobdd.Sound P c)
    (ho : ∀ o, c.others t o → ¬ o.Holds) (hstore : Store P s) (hcache : ∃ k, s.cache = some k)
    (hn : s.nodeCount = s.stored.length) : Nanobdd.Sound P (c.move t s .idle) := by
  obtain ⟨fl, hfl⟩ := hstore.alloc
  refine ⟨hstore.hashed, ⟨fl, hfl.mono ?_⟩, hcache, ?_, ?_, ?_⟩
  · rintro p (hp | hp)
    · exact hp
    · rcases (Pool.exists_move fun o : Place => o.candidate = some p).mp hp with hp | ⟨o, hoo, hp⟩
      · exact absurd hp nofun
      · exact absurd (Or.inl (Place.shared_of_candidate hp)) (ho o hoo)
  · exact (Pool.forall_move fun o : Place => o.Fits P s).mpr ⟨trivial, fun o hoo =>
      .of_not_shared fun hs => ho o hoo (Or.inl hs)⟩
  · exact Pool.pairwise_move Place.Apart h.apart fun o _ =>
      ⟨.of_not_holds Place.not_holds_idle, .of_not_holds_right Place.not_holds_idle⟩
  · have hrest : c.rest Place.uncounted t = 0 := Pool.rest_eq_zero fun o hoo => by
      by_contra hne
      exact ho o hoo (Or.inl (Place.shared_of_uncounted hne))
    rw [Pool.total_move, hrest]
    exact hn

/-- Nobody is in the table, so all its nodes are counted. -/
theorem Steady.settled_eq (h : Steady P n d) (ht : (d.pc t).place.Outside)
    (ho : ∀ w, d.others t w → ¬ w.place.Holds) : d.shared.settled = d.shared := by
  refine Client.settled_eq (h.table.inOrder.counted fun u hs => ?_)
  by_cases hu : u = t
  · subst hu
    exact ht.not_holds (Or.inl hs)
  · exact ho _ ⟨u, hu, rfl⟩ (Or.inl hs)

/-- A step in the table, for those outside of it. -/
theorem Steady.inward (h : Steady P n d) (hpc : d.pc t = ⟨l, pl⟩)
    (ht : Turn P ((placesOf d).others t) (d.shared.table, pl) (s, pl')) (hm : pl.Mild) :
    Nanobdd.Sound P ((placesOf d).move t s pl') ∧ Inward pl pl' d.shared.table s ∧
      Extends d.shared.table s ∧ Store P s := by
  have hpl : (placesOf d).pc t = pl := congrArg Task.place hpc
  have hview := h.table.view t
  rw [hpl] at hview
  have hin : Inward pl pl' d.shared.table s := hview.inward hm ht
  have hstep : TableStep P (placesOf d) ((placesOf d).move t s pl') := .turn (hpl.symm ▸ ht)
  have htable := (h.table.step hstep).1
  obtain ⟨fl, hfl⟩ := htable.alloc
  refine ⟨htable, hin, ⟨hin.roots, hin.mem, fun q hq => hin.heap q ?_ ?_⟩,
    ⟨htable.hashed, fl, hfl.mono fun p hp => Or.inl hp⟩⟩
  · exact fun hc => hview.fits.not_mem hc hq
  · have hfits := htable.fits t
    rw [Pool.move_pc_self] at hfits
    exact fun hc => hfits.not_mem hc (hin.mem q hq)

/-- A step in the table that takes the operators with it. -/
theorem Steady.of_turn (h : Steady P n d) (hpc : d.pc t = ⟨l, pl⟩)
    (hkeeps : Pool.Keeps (Client.Faithful P n) (Works P)
      ((activitiesOf d).move t ({ d.shared with table := s } : Client).settled l'))
    (ht : Turn P ((placesOf d).others t) (d.shared.table, pl) (s, pl')) (hm : pl.Mild)
    (hpure : pl'.Pure s) (hfits : Task.Fits ⟨l', pl'⟩) :
    Steady P n (d.move t { d.shared with table := s } ⟨l', pl'⟩) := by
  have hpl : (placesOf d).pc t = pl := congrArg Task.place hpc
  obtain ⟨htable, hin, -⟩ := h.inward hpc ht hm
  refine ⟨?_, ?_, ?_, ?_⟩
  · rw [activitiesOf, Pool.map_move]
    exact hkeeps
  · rw [placesOf, Pool.map_move]
    exact htable
  · refine (Pool.forall_move fun w : Task => w.place.Pure s).mpr ⟨hpure, ?_⟩
    rintro - ⟨u, hu, rfl⟩
    refine (h.pure u).congr fun p hp => hin.heap p ?_ ?_
    · have hapart := (h.table.apart t u hu.symm).2 p
      exact fun hc => hapart (hpl ▸ hc) hp
    · have hapart := (htable.apart t u hu.symm).2 p
      rw [Pool.move_pc_self, Pool.move_pc_of_ne hu] at hapart
      exact fun hc => hapart hc hp
  · refine (Pool.forall_move Task.Fits).mpr ⟨hfits, ?_⟩
    rintro - ⟨u, -, rfl⟩
    exact h.fits u

/-- The objects and the operators with a larger table. -/
theorem Steady.keeps_of_extends (h : Steady P n d) (t : T) (l' : Activity) (f : BoolFun)
    (hx : Extends d.shared.table s) (hw : WellFormed (fun _ => True) P s.settled)
    (hfresh : ∀ q ∈ s.stored, q ∉ d.shared.table.stored → (s.heap q).refCount = 0 ∧
      (s.heap q).inUse = false ∧ s.settled.denote q ∈ subs f)
    (hf : ∀ v, n ≤ v → f.Ignores v)
    (hl : (∀ l, Works P d.shared.settled l →
      Works P ({ d.shared with table := s } : Client).settled l) →
        Works P ({ d.shared with table := s } : Client).settled l') :
    Pool.Keeps (Client.Faithful P n) (Works P)
      ((activitiesOf d).move t ({ d.shared with table := s } : Client).settled l') ∧
      ({ d.shared with table := s } : Client).values = d.shared.values := by
  obtain ⟨hfaithful, hvalues, hworks⟩ := h.keeps.1.extended hw hx.settled rfl hfresh hf
  refine ⟨⟨hfaithful, (Pool.forall_move (Works P _)).mpr ⟨hl hworks, ?_⟩⟩, hvalues⟩
  rintro - ⟨u, -, rfl⟩
  exact hworks _ (h.keeps.2 u)

theorem Steady.works (h : Steady P n d) (hpc : d.pc t = ⟨l, pl⟩) :
    Works P d.shared.settled l := by
  have hl : (activitiesOf d).pc t = l := congrArg Task.activity hpc
  exact hl ▸ h.keeps.2 t

/-- A step in the table before the result is fixed, or after. -/
theorem Steady.table_step (h : Steady P n d) (hpc : d.pc t = ⟨l, pl⟩) (hout : ¬ pl.Outside)
    (hres : pl'.result = pl.result) (hmild : pl'.Mild)
    (ht : Turn P ((placesOf d).others t) (d.shared.table, pl) (s, pl')) :
    Steady P n (d.move t { d.shared with table := s } ⟨l, pl'⟩) ∧
      ({ d.shared with table := s } : Client).values = d.shared.values := by
  have hfits : Task.Fits ⟨l, pl⟩ := hpc ▸ h.fits t
  have hpl : (placesOf d).pc t = pl := congrArg Task.place hpc
  have hview := h.table.view t
  rw [hpl] at hview
  obtain ⟨-, hin, hx, hstore⟩ := h.inward hpc ht hfits.mild
  have hsame : ∀ q ∈ s.stored, q ∈ d.shared.table.stored := fun q hq => by
    by_contra hn
    obtain ⟨k, idx, rfl, rfl, -⟩ := hin.fresh q hq hn
    exact absurd hres nofun
  have hw : WellFormed (fun _ => True) P d.shared.table.settled := h.keeps.1.wf
  have hr : Robdd P s.settled := @Robdd.extended P _ _ 0 nullptr nullptr hw.toRobdd
    ⟨hstore.hashed.withCount _, hstore.alloc⟩ hx.settled fun q hq hn => absurd (hsame q hq) hn
  obtain ⟨hkeeps, hvalues⟩ := h.keeps_of_extends t l (fun _ => false) hx
    (hw.extends_cache hx.settled hr hin.cache) (fun q hq hn => absurd (hsame q hq) hn)
    (fun v _ => ignores_const false v) (fun hworks => hworks l (h.works hpc))
  exact ⟨h.of_turn hpc hkeeps ht hfits.mild (hview.pure ht)
    ⟨hmild, fun k hk => hfits.seeks k (ht.key hout hfits.mild hk)⟩, hvalues⟩

/-- **The result is fixed.** The node is found, or it is new and denotes what the operator needs
it for. -/
theorem Steady.settle (h : Steady P n d)
    (hpc : d.pc t = ⟨.running o i j (.create op x y k.level k.low k.high) st, pl⟩)
    (hnone : pl.result = none) (hsome : pl'.result = some (k, r))
    (ht : Turn P ((placesOf d).others t) (d.shared.table, pl) (s, pl')) :
    Steady P n (d.move t { d.shared with table := s }
        ⟨.running o i j (.insert op x y r) st, pl'⟩) ∧
      ({ d.shared with table := s } : Client).values = d.shared.values := by
  have hfits : Task.Fits ⟨.running o i j (.create op x y k.level k.low k.high) st, pl⟩ :=
    hpc ▸ h.fits t
  have hpl : (placesOf d).pc t = pl := congrArg Task.place hpc
  have hview := h.table.view t
  rw [hpl] at hview
  obtain ⟨-, hin, hx, hstore⟩ := h.inward hpc ht hfits.mild
  obtain ⟨hop, x', y', ho, hs⟩ := h.works hpc
  have hnew : ∀ q ∈ s.stored, q ∉ d.shared.table.stored →
      s.heap q = { level := k.level, low := k.low, high := k.high } := fun q hq hn => by
    obtain ⟨k', idx, rfl, rfl, hheap⟩ := hin.fresh q hq hn
    obtain ⟨rfl, -⟩ := Prod.mk.inj (Option.some_inj.mp hsome)
    have hpure := h.pure t
    rw [hpc] at hpure
    exact hheap.trans hpure
  obtain ⟨hw, hsub⟩ := hs.extended hx.settled
    (⟨hstore.hashed.withCount _, hstore.alloc⟩ : Store P s.settled) hin.cache hnew
  obtain ⟨hmem, ⟨hlevel, hlow, hhigh⟩, -⟩ := h.table.settles (t := t) (k := k) (p := r)
    ⟨.turn (l := pl') (s := s) (hpl.symm ▸ ht), hpl.symm ▸ hnone, by rwa [Pool.move_pc_self]⟩
  have hlive := h.keeps.1.operands_live ho
  obtain ⟨hkeeps, hvalues⟩ := h.keeps_of_extends t (.running o i j (.insert op x y r) st)
    (d.shared.settled.table.answer o x' y') hx hw
    (fun q hq hn => ⟨by rw [hnew q hq hn], by rw [hnew q hq hn], hsub q hq hn⟩)
    (fun v hv => h.keeps.1.answer_ignores ⟨hlive.left.1, fun hn => (hlive.right hn).1⟩ hv)
    fun hworks => by
      obtain ⟨-, x'', y'', ho', hs'⟩ := hworks _ (h.works hpc)
      exact ⟨hop, x'', y'', ho', hs'.settle hmem hlevel hlow hhigh⟩
  exact ⟨h.of_turn hpc hkeeps ht hfits.mild (hview.pure ht)
    ⟨Place.mild_of_result hsome, fun k' hk => absurd ((Place.key_of_result hsome).symm.trans hk)
      nofun⟩, hvalues⟩

/-- A thread that does not hold the lock goes on without a change of the table. -/
theorem Steady.release (h : Steady P n d) (hpc : d.pc t = ⟨l, pl⟩)
    (hl : Works P d.shared.settled l') (hh : ¬ pl'.Holds) (hu : pl'.uncounted = pl.uncounted)
    (hfits : Task.Fits ⟨l', pl'⟩) : Steady P n (d.move t d.shared ⟨l', pl'⟩) := by
  have hpl : (placesOf d).pc t = pl := congrArg Task.place hpc
  have hview := h.table.view t
  rw [hpl] at hview
  refine ⟨?_, ?_, ?_, (Pool.forall_move Task.Fits).mpr ⟨hfits, ?_⟩⟩
  · rw [activitiesOf, Pool.map_move]
    exact ⟨h.keeps.1, (Pool.forall_move (Works P _)).mpr ⟨hl, h.keeps.others⟩⟩
  · rw [placesOf, Pool.map_move]
    exact h.table.move (hview.release hh hu)
  · refine (Pool.forall_move fun w : Task => w.place.Pure d.shared.table).mpr
      ⟨.of_not_holds hh, ?_⟩
    rintro - ⟨u, -, rfl⟩
    exact h.pure u
  · rintro - ⟨u, -, rfl⟩
    exact h.fits u

theorem Steady.call (h : Steady P n d)
    (hpc : d.pc t = ⟨.running o i j (.create op x y k.level k.low k.high) st, pl⟩)
    (hpl : pl.Outside) : Steady P n (d.move t d.shared
      ⟨.running o i j (.create op x y k.level k.low k.high) st, .enter k⟩) := by
  refine h.release hpc (h.works hpc) (fun hh => hh.elim id id) hpl.uncounted.symm
    ⟨trivial, fun k' hk => ?_⟩
  cases hk
  exact ⟨o, i, j, op, x, y, st, rfl⟩

theorem Steady.exhaust {idx : ℕ} (h : Steady P n d)
    (hpc : d.pc t =
      ⟨.running o i j (.create op x y k.level k.low k.high) st, .allocate k idx⟩) :
    Steady P n (d.move t d.shared
      ⟨.running o i j (.maintain op x y k.level k.low k.high) st, .idle⟩) := by
  obtain ⟨hop, x', y', ho, hs⟩ := h.works hpc
  exact h.release hpc ⟨hop, x', y', ho, hs.exhaust⟩ Place.not_holds_idle rfl (Task.fits_idle _)

/-- A move of `Parallel` outside of the table. -/
theorem Steady.move (h : Steady P n d) (hpc : d.pc t = ⟨l, pl⟩) (hpl : pl.Outside)
    (hm : ¬ m.Collects l) (hcr : ¬ l.Creates)
    (ht : TakesSafely P ((activitiesOf d).others t) m (d.shared, l) (c', l')) :
    Steady P n (d.move t c' ⟨l', .idle⟩) ∧
      (m.ends l).foldlM (Values.exec n) d.shared.values = some c'.values := by
  have hplace : (placesOf d).pc t = pl := congrArg Task.place hpc
  have hl : (activitiesOf d).pc t = l := congrArg Task.activity hpc
  have hworks := h.works hpc
  obtain ⟨hu, -, hcount⟩ := ht.outside hm hcr h.keeps.1.mem hworks.held_mem
  have hsettled : d.shared.settled = d.shared.withCount d.shared.table.stored.length := rfl
  have hsettled' : c'.settled = c'.withCount d.shared.table.stored.length := by
    rw [Client.settled, State.settled, hu.stored_eq]
    rfl
  have hts : TakesSafely P ((activitiesOf d).others t) m (d.shared.settled, l)
      (c'.settled, l') := by
    rw [hsettled, hsettled']
    exact hcount _
  refine ⟨⟨?_, ?_, ?_, (Pool.forall_move Task.Fits).mpr ⟨Task.fits_idle _, ?_⟩⟩, ?_⟩
  · rw [activitiesOf, Pool.map_move]
    exact Pool.Run.keeps_move (stable P n) (hl.symm ▸ hts) h.keeps
  · rw [placesOf, Pool.map_move]
    exact sound_undisturbed h.table hu (hplace.symm ▸ hpl)
  · refine (Pool.forall_move fun w : Task => w.place.Pure c'.table).mpr ⟨trivial, ?_⟩
    rintro - ⟨u, -, rfl⟩
    exact (h.pure u).congr fun p hp => hu.frame p ((h.table.fits u).not_mem hp)
  · rintro - ⟨u, -, rfl⟩
    exact h.fits u
  · exact (hts.faithful h.keeps.1 hworks).2.2.2

/-- A collection, by a thread that has the table for itself. -/
theorem Steady.collect (h : Steady P n d) (hpc : d.pc t = ⟨l, pl⟩) (hpl : pl.Outside)
    (ho : ∀ w, d.others t w → ¬ w.place.Holds)
    (ht : TakesSafely P ((activitiesOf d).others t) m (d.shared, l) (c', l')) :
    Steady P n (d.move t c' ⟨l', .idle⟩) ∧
      (m.ends l).foldlM (Values.exec n) d.shared.values = some c'.values := by
  have hl : (activitiesOf d).pc t = l := congrArg Task.activity hpc
  have hpc' : (d.pc t).place.Outside := by rwa [hpc]
  have hsettled := h.settled_eq hpc' ho
  have hworks := h.works hpc
  have hkeeps := h.keeps.1
  have hts : TakesSafely P ((activitiesOf d).others t) m ((activitiesOf d).shared, l) (c', l') := by
    show TakesSafely _ _ _ (d.shared.settled, l) _
    rwa [hsettled]
  obtain ⟨hfaithful, -, -, hvalues⟩ := hts.faithful h.keeps.1 hworks
  have hsettled' : c'.settled = c' := Client.settled_eq hfaithful.nodeCount
  have hothers : ∀ o, (placesOf d).others t o → ¬ o.Holds := by
    rintro - ⟨u, hu, rfl⟩
    exact ho _ ⟨u, hu, rfl⟩
  obtain ⟨cache, hcache, -⟩ := hfaithful.wf.cache
  refine ⟨⟨?_, ?_, ?_, (Pool.forall_move Task.Fits).mpr ⟨Task.fits_idle _, ?_⟩⟩, hvalues⟩
  · rw [activitiesOf, Pool.map_move, hsettled']
    exact Pool.Run.keeps_move (stable P n) (hl.symm ▸ hts) h.keeps
  · rw [placesOf, Pool.map_move]
    exact sound_alone h.table hothers hfaithful.wf.toStore ⟨cache, hcache⟩ hfaithful.nodeCount
  · refine (Pool.forall_move fun w : Task => w.place.Pure c'.table).mpr ⟨trivial, ?_⟩
    exact fun w hw => .of_not_holds (ho w hw)
  · rintro - ⟨u, -, rfl⟩
    exact h.fits u

/-- The operator of a thread goes on elsewhere, not in the table. -/
theorem Steady.proceed (h : Steady P n d) (hpc : d.pc t = ⟨l, pl⟩)
    (hl : Works P d.shared.settled l') (hcr : ¬ l.Creates) :
    Steady P n (d.move t d.shared ⟨l', pl⟩) := by
  have hpl : (placesOf d).pc t = pl := congrArg Task.place hpc
  have hfits : Task.Fits ⟨l, pl⟩ := hpc ▸ h.fits t
  refine ⟨?_, ?_, ?_, (Pool.forall_move Task.Fits).mpr ⟨⟨hfits.mild, fun k hk => ?_⟩, ?_⟩⟩
  · rw [activitiesOf, Pool.map_move]
    exact ⟨h.keeps.1, (Pool.forall_move (Works P _)).mpr ⟨hl, h.keeps.others⟩⟩
  · have hsame : (placesOf d).move t d.shared.table pl = placesOf d := hpl ▸ Pool.move_self _ t
    rw [placesOf, Pool.map_move]
    exact hsame.symm ▸ h.table
  · refine (Pool.forall_move fun w : Task => w.place.Pure d.shared.table).mpr ⟨?_, ?_⟩
    · have hpure := h.pure t
      rwa [hpc] at hpure
    · rintro - ⟨u, -, rfl⟩
      exact h.pure u
  · obtain ⟨o, i, j, op, x, y, st, hl : l = _⟩ := hfits.seeks k hk
    subst hl
    exact absurd trivial hcr
  · rintro - ⟨u, -, rfl⟩
    exact h.fits u

/-- **One step.** The operators and the table stay in order, and what ends with the step is done
to the values. -/
theorem Steady.step {om : Option Move} {w : Task} (h : Steady P n d)
    (ht : Stepwise P (d.others t) om (d.shared, d.pc t) (c', w)) : Steady P n (d.move t c' w) ∧
      (recordOf t om (d.pc t).activity).foldlM (fun v ta => Values.exec n v ta.2)
        d.shared.values = some c'.values := by
  obtain ⟨c, pc⟩ := d
  change Stepwise P _ om (c, pc t) (c', w) at ht
  show Steady P n (Pool.move ⟨c, pc⟩ t c' w) ∧
    (recordOf t om (pc t).activity).foldlM (fun v ta => Values.exec n v ta.2) c.values =
      some c'.values
  have hactivities := Pool.map_others Client.settled Task.activity (⟨c, pc⟩ : Pool T Client Task) t
  have hplaces := Pool.map_others Client.table Task.place (⟨c, pc⟩ : Pool T Client Task) t
  generalize hpc : pc t = v at ht ⊢
  cases ht with
  | move hpl hm hcr hts =>
    obtain ⟨hd, hvalues⟩ := h.move hpc hpl hm hcr (hactivities.symm ▸ hts)
    exact ⟨hd, by rwa [recordOf, Option.elim_some, record, List.foldlM_map]⟩
  | collect hpl hm ho hts =>
    obtain ⟨hd, hvalues⟩ := h.collect hpc hpl ho (hactivities.symm ▸ hts)
    exact ⟨hd, by rwa [recordOf, Option.elim_some, record, List.foldlM_map]⟩
  | call hpl => exact ⟨h.call hpc hpl, rfl⟩
  | table hout hres hmild hts =>
    obtain ⟨hd, hvalues⟩ := h.table_step hpc hout hres hmild (hplaces.symm ▸ hts)
    exact ⟨hd, congrArg some hvalues.symm⟩
  | settle hnone hsome hts =>
    obtain ⟨hd, hvalues⟩ := h.settle hpc hnone hsome (hplaces.symm ▸ hts)
    exact ⟨hd, congrArg some hvalues.symm⟩
  | exhaust => exact ⟨h.exhaust hpc, rfl⟩

/-- A step that is not a collection keeps all nodes. -/
theorem Steady.carries {om : Option Move} {w : Task} (h : Steady P n d)
    (ht : Stepwise P (d.others t) om (d.shared, d.pc t) (c', w))
    (hm : ∀ m, om = some m → ¬ m.Collects (d.pc t).activity) :
    Carries d.shared.table c'.table {p | p ∈ d.shared.table.stored} := by
  obtain ⟨c, pc⟩ := d
  change Stepwise P _ om (c, pc t) (c', w) at ht
  show Carries c.table c'.table _
  have hr : Robdd P c.table := h.keeps.1.wf.toRobdd.of_settled
  have hplaces := Pool.map_others Client.table Task.place (⟨c, pc⟩ : Pool T Client Task) t
  have hmild := (h.fits t).mild
  have hrefl : Carries c.table c.table {p | p ∈ c.table.stored} := (Extends.refl _).carries hr
  change (pc t).place.Mild at hmild
  change ∀ m, om = some m → ¬ m.Collects (pc t).activity at hm
  generalize hpc : pc t = v at ht hm hmild
  cases ht with
  | move hpl hnot hcr hts =>
    obtain ⟨hu, hroots, -⟩ := hts.outside hnot hcr h.keeps.1.mem (h.works hpc).held_mem
    exact hu.carries hroots hr
  | collect hpl hcollects => exact absurd hcollects (hm _ rfl)
  | call => exact hrefl
  | table _ _ _ hts => exact (h.inward hpc (hplaces.symm ▸ hts) hmild).2.2.1.carries hr
  | settle _ _ hts => exact (h.inward hpc (hplaces.symm ▸ hts) hmild).2.2.1.carries hr
  | exhaust => exact hrefl

/-- Many threads right after `init`. -/
theorem steady_start (h : Ready P s n n) :
    Steady P n (⟨Client.start s, fun _ => ⟨.idle, .idle⟩⟩ : Pool T Client Task) := by
  have hfaithful := Client.faithful_of_ready h
  refine ⟨⟨?_, fun _ => trivial⟩, sound_start h, fun _ => trivial, fun _ => Task.fits_idle _⟩
  show Client.Faithful P n (Client.start s).settled
  rwa [Client.settled_eq hfaithful.nodeCount]

end pool

/-! ### Schedules -/

instance : DecidablePred Place.Mild
  | .lock _ | .mark _ | .sweep _ | .finish _ => isFalse id
  | .idle | .enter _ | .find .. | .allocate .. | .insert .. | .recycle .. | .count .. | .grow ..
  | .returned .. => isTrue trivial

/-- The next step of an operator in the table while no allocation fails. `free` and `alone` are as
in `State.go`. -/
def Task.go (P : Platform) (fuel : ℕ) (free alone : Bool) (c : Client) (w : Task) :
    Option (Client × Task) :=
  match w.activity, decide w.place.Outside with
  | .running o i j (.create op x y level low high) st, true =>
    some (c, ⟨.running o i j (.create op x y level low high) st, .enter ⟨level, low, high⟩⟩)
  | .running o i j (.create op x y level low high) st, false =>
    (c.table.go P fuel free alone w.place).bind fun b =>
      match b.2.result with
      | none =>
        if w.place.result = none ∧ b.2.Mild then
          some ({ c with table := b.1 },
            ⟨.running o i j (.create op x y level low high) st, b.2⟩)
        else none
      | some (k, r) =>
        if w.place.result = none ∧ k = ⟨level, low, high⟩ then
          some ({ c with table := b.1 }, ⟨.running o i j (.insert op x y r) st, b.2⟩)
        else none
  | l, false =>
    (c.table.go P fuel free alone w.place).bind fun b =>
      if b.2.result = w.place.result ∧ b.2.Mild then some ({ c with table := b.1 }, ⟨l, b.2⟩)
      else none
  | _, true => none

/-- What is executed is a step. -/
theorem Stepwise.of_go {others : Task → Prop} {free alone : Bool} {w w' : Task}
    (hfree : free = true → ∀ v, others v → ¬ v.place.Exclusive)
    (halone : alone = true → ∀ v, others v → ¬ v.place.Holds)
    (h : w.go P fuel free alone c = some (c', w')) : Stepwise P others none (c, w) (c', w') := by
  obtain ⟨l, pl⟩ := w
  have hturn : ∀ {b}, c.table.go P fuel free alone pl = some b →
      Turn P (fun o => ∃ v, others v ∧ v.place = o) (c.table, pl) b := by
    refine fun hb => .of_go (fun hf => ?_) (fun ha => ?_) hb
    · rintro - ⟨v, hv, rfl⟩
      exact hfree hf v hv
    · rintro - ⟨v, hv, rfl⟩
      exact halone ha v hv
  rw [Task.go] at h
  split at h
  · next hl hout =>
    cases h
    cases hl
    exact .call (k := ⟨_, _, _⟩) (of_decide_eq_true hout)
  · next level low high _ hl hout =>
    obtain ⟨⟨s, pl'⟩, hb, h⟩ := Option.bind_eq_some_iff.mp h
    cases hl
    split at h
    · next hnone =>
      split_ifs at h with hres
      cases h
      exact .table (of_decide_eq_false hout) (hnone.trans hres.1.symm) hres.2 (hturn hb)
    · next k r hsome =>
      split_ifs at h with hres
      cases h
      obtain ⟨hnone, rfl⟩ := hres
      exact .settle (k := ⟨level, low, high⟩) hnone hsome (hturn hb)
  · next hout _ =>
    obtain ⟨⟨s, pl'⟩, hb, h⟩ := Option.bind_eq_some_iff.mp h
    split_ifs at h with hres
    cases h
    exact .table (of_decide_eq_false hout) hres.1 hres.2 (hturn hb)
  · exact absurd h nofun

end Nanobdd
