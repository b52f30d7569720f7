import Nanobdd.Parallel
import Nanobdd.Slots

/-!
# How much memory a program takes

The table gets a new slab only when a collection has left no slot, so garbage never costs memory
for good. Slabs double, so the slots are at most twice as many as the nodes that were live at one
time, and the first slab on top.

## Main definitions

* `NodeAllocator.Thrifty` — slabs that double
* `Client.liveNodes` — the nodes that a collection has to keep

## Main results

* `capacity_of_run` — **the memory bound**, and where every slot is, in any interleaving
-/

namespace Nanobdd

variable {P : Platform} {s s' t : State} {p r low high : Ptr}
  {fuel level id size varNum first peak : ℕ} {a a' a'' : NodeAllocator} {h h' : Heap}
  {l : List Ptr}

namespace NodeAllocator

/-! ### Slabs that double -/

/-- Between two slabs only the free list and the tail of the current slab change. -/
def Reissued (a a' : NodeAllocator) : Prop :=
  ∃ f n, a' = { a with freeList := f, currentSlab := { a.currentSlab with next := n } }

namespace Reissued

theorem refl (a : NodeAllocator) : Reissued a a := ⟨a.freeList, a.currentSlab.next, rfl⟩

theorem trans (ha : Reissued a a') (ha' : Reissued a' a'') : Reissued a a'' := by
  obtain ⟨f, n, rfl⟩ := ha
  obtain ⟨f', n', rfl⟩ := ha'
  exact ⟨f', n', rfl⟩

theorem setFreeList (a : NodeAllocator) (p : Ptr) : Reissued a { a with freeList := p } :=
  ⟨p, a.currentSlab.next, rfl⟩

theorem free (a : NodeAllocator) (h : Heap) (p : Ptr) : Reissued a (a.free h p).1 := by
  by_cases hp : p = nullptr
  · rw [NodeAllocator.free, if_pos hp]
    exact refl a
  · rw [AllocInv.free_fst a h hp]
    exact setFreeList a p

theorem allocate (ha : a.allocate h level low high = some (p, a', h')) : Reissued a a' := by
  rw [NodeAllocator.allocate, popFree] at ha
  by_cases hf : a.freeList = nullptr
  · rw [if_pos hf] at ha
    simp only [allocateFromSlab] at ha
    split at ha
    · cases ha
      exact ⟨a.freeList, _, rfl⟩
    · simp at ha
  · rw [if_neg hf] at ha
    cases ha
    exact setFreeList a _

end Reissued

/-- The next slab is at most as large as all slabs so far together with the first one. -/
structure Thrifty (first : ℕ) (a : NodeAllocator) : Prop where
  factor : a.growthFactor = 2
  next_pos : 1 ≤ a.nextSlabCapacity
  next_le : a.nextSlabCapacity ≤ a.capacity + first

namespace Thrifty

theorem new (hsize : 1 ≤ size) : Thrifty size (.new size) := by
  refine ⟨rfl, le_max_right _ _, ?_⟩
  have hcap : (NodeAllocator.new size).capacity = max 1 size := by
    simp [capacity, NodeAllocator.new]
  have hwrap : u64 (max 1 size * 2) ≤ max 1 size * 2 := Nat.mod_le _ _
  rw [hcap]
  show max (u64 (max 1 size * 2)) 1 ≤ _
  omega

theorem reissued (ha : Thrifty first a) (hr : Reissued a a') :
    Thrifty first a' ∧ a'.capacity = a.capacity := by
  obtain ⟨f, n, rfl⟩ := hr
  exact ⟨⟨ha.factor, ha.next_pos, ha.next_le⟩, rfl⟩

/-- A new slab at most doubles what there was, and the first slab comes on top. -/
theorem grow (ha : Thrifty first a) :
    Thrifty first a.grow ∧ a.grow.capacity ≤ 2 * a.capacity + first := by
  have hcap : a.grow.capacity = a.capacity + a.nextSlabCapacity := by
    simp [capacity, NodeAllocator.grow]
  have hnext : a.grow.nextSlabCapacity ≤ max (a.nextSlabCapacity * 2) 1 := by
    show max (u64 (a.nextSlabCapacity * a.growthFactor)) 1 ≤ _
    rw [ha.factor]
    exact max_le_max (Nat.mod_le _ _) le_rfl
  have hpos := ha.next_pos
  have hle := ha.next_le
  exact ⟨⟨ha.factor, le_max_right _ _, by omega⟩, by omega⟩

end Thrifty

end NodeAllocator

open NodeAllocator

namespace State

/-! ### The slabs in the calls -/

theorem getOrCreateOnce_reissued (ho : s.getOrCreateOnce P level low high = some (r, s')) :
    Reissued s.allocator s'.allocator := by
  rw [State.getOrCreateOnce] at ho
  split at ho
  · cases ho
    exact Reissued.refl _
  · split at ho
    · simp at ho
    · next candidate t ht =>
      obtain ⟨⟨c, a', h'⟩, ha, he⟩ := Option.map_eq_some_iff.mp ht
      cases he
      have halloc := Reissued.allocate ha
      rw [insertIfAbsent] at ho
      split at ho
      · next hfound =>
        split at hfound
        · cases hfound
          cases ho
          exact halloc.trans (Reissued.free _ _ _)
        · cases hfound
      · next hstored =>
        split at hstored
        · cases hstored
        · cases hstored
          cases ho
          rw [maybeGrowBuckets_allocator]
          exact halloc

/-- A collection gives slots back, and there are no more nodes after it. -/
theorem Conserved.gcLocked_reissued (hc : Conserved P s) (hg : s.gcLocked fuel = some s') :
    Reissued s.allocator s'.allocator ∧ s'.stored.length ≤ s.stored.length := by
  obtain ⟨cache, hcache⟩ := gcLocked_cache hg
  rw [gcLocked_eq, Option.bind_eq_some_iff] at hg
  obtain ⟨m, -, hrel⟩ := hg
  obtain ⟨t, h₁, ht, hcol, -, hfreed⟩ := collected_of_marks hcache hc.null_not_mem m
  rw [ht] at hrel
  cases hrel
  have hframe := (AllocInv.freeAll_frame (a := s.allocator) (h := h₁)
    (l := s.stored.filter fun p => !m p && (s.heap p).refCount == 0)
    fun p hp he => hc.null_not_mem (he ▸ List.mem_of_mem_filter hp)).2
  rw [hfreed] at hframe
  have halloc : s'.allocator = { s.allocator with freeList := s'.allocator.freeList } := hframe
  rw [halloc, hcol.stored]
  exact ⟨Reissued.setFreeList _ _, List.length_filter_le _ _⟩

/-- Every slot is somewhere, and there are not many more than nodes were live at one time. -/
structure Provisioned (P : Platform) (first peak : ℕ) (s : State) : Prop extends Conserved P s where
  thrifty : s.allocator.Thrifty first
  capacity_le : s.allocator.capacity ≤ 2 * peak + first

namespace Provisioned

theorem mono {peak' : ℕ} (hp : Provisioned P first peak s) (hle : peak ≤ peak') :
    Provisioned P first peak' s :=
  ⟨hp.toConserved, hp.thrifty, hp.capacity_le.trans (by omega)⟩

theorem of_reissued (hp : Provisioned P first peak s) (hc : Conserved P s')
    (hr : Reissued s.allocator s'.allocator) : Provisioned P first peak s' := by
  obtain ⟨hthrifty, hcap⟩ := hp.thrifty.reissued hr
  exact ⟨hc, hthrifty, hcap ▸ hp.capacity_le⟩

theorem getOrCreateOnce (hp : Provisioned P first peak s)
    (ho : s.getOrCreateOnce P level low high = some (r, s')) :
    Provisioned P first peak s' ∧ s'.stored.length ≤ s.stored.length + 1 := by
  refine ⟨hp.of_reissued (hp.toConserved.getOrCreateOnce ho).1 (getOrCreateOnce_reissued ho), ?_⟩
  rcases hp.toStore.getOrCreateOnce level low high with
    ⟨p, -, -, hsome⟩ | ⟨-, ⟨hfails, -⟩ | ⟨p, t, hcr, hsome⟩⟩
  · rw [hsome] at ho
    cases ho
    exact Nat.le_succ _
  · rw [AllocFails, ho] at hfails
    cases hfails
  · rw [hsome] at ho
    cases ho
    rw [hcr.perm.length_eq, List.length_cons]

theorem gcLocked (hp : Provisioned P first peak s) (hg : s.gcLocked fuel = some s') :
    Provisioned P first peak s' :=
  hp.of_reissued (hp.toConserved.gcLocked hg) (hp.toConserved.gcLocked_reissued hg).1

/-- **A new slab is added to a table full of nodes that are in use.** -/
theorem performMaintenance (hp : Provisioned P first peak s)
    (hm : s.performMaintenance P fuel = some s') (hpeak : s'.stored.length ≤ peak) :
    Provisioned P first peak s' := by
  have hc := (hp.toConserved.performMaintenance hm).1
  rw [performMaintenance_eq, Option.map_eq_some_iff] at hm
  obtain ⟨t, ht, rfl⟩ := hm
  have hgc := hp.gcLocked ht
  obtain ⟨fl, hfl⟩ := hgc.alloc
  obtain ⟨u, hu, hrebucket⟩ := extend_cases P t
  rcases hu with ⟨-, rfl⟩ | ⟨hfull, rfl⟩
  · obtain ⟨-, hr⟩ := hrebucket hgc.hashed
    exact hgc.of_reissued hc (hr.allocator_eq ▸ Reissued.refl _)
  · obtain ⟨-, hr⟩ := hrebucket (hgc.toConserved.growSlab hfull).hashed
    have hlen : (t.extend P).stored.length = t.stored.length := hr.perm.length_eq
    have hzero := hfl.slots_eq_zero hfull
    have hslots := hgc.slots
    rw [State.freeSlots_eq hfl, hzero] at hslots
    obtain ⟨hthrifty, hcap⟩ := hgc.thrifty.grow
    have halloc : (t.extend P).allocator = t.allocator.grow := hr.allocator_eq
    exact ⟨hc, halloc ▸ hthrifty, by rw [halloc]; omega⟩

/-- A call while few nodes are stored. -/
theorem getOrCreateNode : ∀ {fuel : ℕ} {s : State}, Provisioned P first peak s →
    s.stored.length ≤ peak → s.getOrCreateNode P fuel level low high = some (r, s') →
    Provisioned P first peak s' ∧ s'.stored.length ≤ s.stored.length + 1 := by
  intro fuel
  induction fuel with
  | zero => intro s _ _ hg; simp [State.getOrCreateNode] at hg
  | succ fuel ih =>
    intro s hp hpeak hg
    cases ho : s.getOrCreateOnce P level low high with
    | some x =>
      rw [getOrCreateNode_of_once ho] at hg
      cases hg
      exact hp.getOrCreateOnce ho
    | none =>
      rw [getOrCreateNode_of_allocFails ho, Option.bind_eq_some_iff] at hg
      obtain ⟨t, ht, hg⟩ := hg
      have hle : t.stored.length ≤ s.stored.length := by
        rw [performMaintenance_eq, Option.map_eq_some_iff] at ht
        obtain ⟨u, hu, rfl⟩ := ht
        have hgc := hp.gcLocked hu
        obtain ⟨v, hv, hrebucket⟩ := extend_cases P u
        have hv' : Hashed P v ∧ v.stored = u.stored := by
          rcases hv with ⟨-, rfl⟩ | ⟨hfull, rfl⟩
          · exact ⟨hgc.hashed, rfl⟩
          · exact ⟨(hgc.toConserved.growSlab hfull).hashed, rfl⟩
        rw [(hrebucket hv'.1).2.perm.length_eq, hv'.2]
        exact (hp.toConserved.gcLocked_reissued hu).2
      obtain ⟨hp', hlen⟩ := ih (hp.performMaintenance ht (hle.trans hpeak)) (hle.trans hpeak) hg
      exact ⟨hp', hlen.trans (Nat.add_le_add_right hle 1)⟩

theorem recounted (hp : Provisioned P first peak s) (hr : Recounted s s') :
    Provisioned P first peak s' :=
  hp.of_reissued (hp.toConserved.recounted hr) (hr.allocator ▸ Reissued.refl _)

theorem createVar (hp : Provisioned P first peak s) (hpeak : s.stored.length + 2 ≤ peak)
    (hv : s.createVar P fuel id = some s') :
    Provisioned P first peak s' ∧ s'.stored.length ≤ s.stored.length + 2 := by
  obtain ⟨⟨node, t⟩, ht, hv⟩ := Option.bind_eq_some_iff.mp hv
  obtain ⟨⟨nvar, u⟩, hu, hv⟩ := Option.bind_eq_some_iff.mp hv
  cases hv
  obtain ⟨hp₁, hlen₁⟩ := hp.getOrCreateNode (by omega) ht
  have hpos : Recounted t { t with heap := t.heap.ref node, vars := t.vars.insertIdx id node } :=
    ⟨rfl, rfl, rfl, rfl, rfl, rfl, rfl, fun p => Heap.exists_ref _ _ p⟩
  rw [← hpos.stored_eq] at hlen₁
  obtain ⟨hp₂, hlen₂⟩ := (hp₁.recounted hpos).getOrCreateNode (hlen₁.trans (by omega)) hu
  have hneg : Recounted u { u with heap := u.heap.ref nvar, nvars := u.nvars.insertIdx id nvar } :=
    ⟨rfl, rfl, rfl, rfl, rfl, rfl, rfl, fun p => Heap.exists_ref _ _ p⟩
  refine ⟨hp₂.recounted hneg, ?_⟩
  rw [hneg.stored_eq]
  omega

theorem setRoots (hp : Provisioned P first peak s) (f t : Ptr) (c : Option LockFreeCache) :
    Provisioned P first peak { s with falseNode := f, trueNode := t, cache := c } :=
  hp.of_reissued (hp.toConserved.setRoots f t c) (Reissued.refl _)

/-- The constructor. -/
theorem newTable (hsize : 3 ≤ size) (hn : newTable P fuel size = some s) :
    Provisioned P size 2 s ∧ s.stored.length ≤ 2 := by
  have hempty : Provisioned P size 2 (State.empty size) := by
    refine ⟨conserved_empty hsize, Thrifty.new (by omega), ?_⟩
    show (NodeAllocator.new size).capacity ≤ _
    rw [show (NodeAllocator.new size).capacity = max 1 size by
      simp [NodeAllocator.capacity, NodeAllocator.new]]
    omega
  have hnone : (State.empty size).stored = [] := stored_of_no_nodes fun _ => rfl
  obtain ⟨⟨f, s₁⟩, h₁, hn⟩ := Option.bind_eq_some_iff.mp hn
  obtain ⟨⟨t, s₂⟩, h₂, hn⟩ := Option.bind_eq_some_iff.mp hn
  cases hn
  obtain ⟨hp₁, hlen₁⟩ := hempty.getOrCreateNode (by rw [hnone]; simp) h₁
  rw [hnone] at hlen₁
  have hlen₁' : ({ s₁ with falseNode := f } : State).stored.length ≤ 1 := hlen₁
  obtain ⟨hp₂, hlen₂⟩ := (hp₁.setRoots f s₁.trueNode s₁.cache).getOrCreateNode
    (hlen₁'.trans (by omega)) h₂
  have hre : Recounted { s₂ with trueNode := t }
      { s₂ with trueNode := t, heap := (s₂.heap.ref s₂.falseNode).ref t } := by
    refine ⟨rfl, rfl, rfl, rfl, rfl, rfl, rfl, fun p => ?_⟩
    obtain ⟨n, hn⟩ := Heap.exists_ref s₂.heap s₂.falseNode p
    obtain ⟨m, hm⟩ := Heap.exists_ref (s₂.heap.ref s₂.falseNode) t p
    exact ⟨m, hm.trans (by rw [hn])⟩
  refine ⟨(hp₂.setRoots s₂.falseNode t s₂.cache).recounted hre, ?_⟩
  rw [hre.stored_eq]
  exact hlen₂.trans (by omega)

/-- The loop of `init`. -/
theorem createVars (hp : Provisioned P first 2 s) (hlen : s.stored.length ≤ 2) :
    ∀ {varNum : ℕ} {s' : State}, s.createVars P fuel varNum = some s' →
      Provisioned P first (2 + 2 * varNum) s' ∧ s'.stored.length ≤ 2 + 2 * varNum := by
  intro varNum
  induction varNum with
  | zero =>
    intro s' hc
    cases hc
    exact ⟨hp, hlen⟩
  | succ n ih =>
    intro s' hc
    rw [State.createVars, List.range_succ, List.foldlM_append] at hc
    obtain ⟨t, ht, hc⟩ := Option.bind_eq_some_iff.mp hc
    obtain ⟨hpt, hlent⟩ := ih ht
    rw [List.foldlM_cons] at hc
    obtain ⟨u, hu, hc⟩ := Option.bind_eq_some_iff.mp hc
    cases hc
    obtain ⟨hpu, hlenu⟩ := (hpt.mono (show 2 + 2 * n ≤ 2 + 2 * (n + 1) by omega)).createVar
      (by omega) hu
    exact ⟨hpu, by omega⟩

/-- `init` -/
theorem init {rand₁ rand₂ : ℕ → ℕ} {tableSize cacheSize : ℕ}
    (hsize : bddPrimeGte fuel rand₁ tableSize = some size)
    (hi : State.init P fuel rand₁ rand₂ tableSize cacheSize varNum = some s) :
    Provisioned P size (2 + 2 * varNum) s := by
  obtain ⟨size', hsize', hi⟩ := Option.bind_eq_some_iff.mp hi
  rw [hsize] at hsize'
  cases hsize'
  obtain ⟨t, ht, hi⟩ := Option.bind_eq_some_iff.mp hi
  obtain ⟨csize, -, hi⟩ := Option.bind_eq_some_iff.mp hi
  split at hi
  · next h =>
    obtain ⟨hp, hlen⟩ := newTable (bddPrimeGte_ge hsize) ht
    exact (createVars (hp.setRoots t.falseNode t.trueNode (some (.new csize h))) hlen hi).1
  · simp at hi

end Provisioned

/-! ### Operators -/

theorem SameTable.of_cacheLookup {op : Operator} {x y : Ptr}
    (hl : s.cacheLookup P op x y = some (r, s')) : SameTable s s' := by
  obtain ⟨c, -, he⟩ := Option.map_eq_some_iff.mp hl
  cases he
  exact ⟨_, s.clock, rfl⟩

theorem SameTable.of_cacheInsert {op : Operator} {x y res : Ptr}
    (hi : s.cacheInsert P op res x y = some s') : SameTable s s' := by
  obtain ⟨c, -, he⟩ := Option.map_eq_some_iff.mp hi
  cases he
  exact ⟨_, _, rfl⟩

theorem Provisioned.sameTable (hp : Provisioned P first peak s) (hs : SameTable s s') :
    Provisioned P first peak s' := by
  obtain ⟨c, k, rfl⟩ := hs
  have hcache := hp.setRoots s.falseNode s.trueNode c
  exact hcache.of_reissued
    (hcache.toConserved.rebucket (Rebucketed.clock _ k) (hcache.hashed.setClock k))
    (Reissued.refl _)

/-- A step of an operator. -/
theorem Provisioned.step {a b : Config} (hp : Provisioned P first peak a.state) (hst : Step P a b)
    (hpeak : a.Maintains → b.state.stored.length ≤ peak) : Provisioned P first peak b.state := by
  cases hst with
  | terminal | second | equal | differ | exhaust => exact hp
  | hit _ hl _ => exact hp.sameTable (.of_cacheLookup hl)
  | miss _ hl => exact hp.sameTable (.of_cacheLookup hl)
  | create ho => exact (hp.getOrCreateOnce ho).1
  | maintain fuel hm => exact hp.performMaintenance hm (hpeak trivial)
  | insert hi => exact hp.sameTable (.of_cacheInsert hi)

end State

open State

/-- The nodes that a collection has to keep. -/
noncomputable def Client.liveNodes (c : Client) : ℕ :=
  {p | p ∈ c.table.stored ∧ c.table.Live p}.ncard

/-- A safe turn where at most `peak` nodes are live. -/
def TakesWithin (peak : ℕ) (P : Platform) (others : Activity → Prop) (m : Move)
    (a b : Client × Activity) : Prop :=
  TakesSafely P others m a b ∧ a.1.liveNodes ≤ peak

/-- After maintenance the live nodes are stored, and no others. -/
theorem Client.Exact.stored_le {c : Client} (h : Client.Exact P varNum c)
    (hm : c.table.performMaintenance P fuel = some s) : s.stored.length ≤ c.liveNodes := by
  obtain ⟨cache, hcache, -⟩ := h.wf.cache
  obtain ⟨hswept, -, -⟩ := h.wf.toStore.performMaintenance h.wf.closed h.unmarked hcache hm
  have hset : {p | p ∈ c.table.stored ∧ c.table.Live p} = (s.stored.toFinset : Set Ptr) := by
    ext p
    rw [Finset.mem_coe, List.mem_toFinset]
    exact (hswept.mem_iff p).symm
  rw [Client.liveNodes, hset, Set.ncard_coe_finset,
    List.toFinset_card_of_nodup hswept.store.hashed.nodup]

variable {T : Type*} {c : Client} {b : Client × Activity} {activity : Activity} {m : Move}
  {others : Activity → Prop}

theorem TakesWithin.provisioned (ht : TakesWithin peak P others m (c, activity) b)
    (h : Client.Faithful P varNum c) (hp : Provisioned P first peak c.table) :
    Provisioned P first peak b.1.table := by
  obtain ⟨⟨htakes, -, -, -⟩, hpeak⟩ := ht
  cases htakes with
  | act fuel hb hc =>
    rcases Client.exec_table hc with hre | ⟨op, i, j, x, y, r, s, rfl, -⟩ | ⟨rfl, hg⟩
    · exact hp.recounted hre.toRecounted
    · exact hb.elim
    · exact hp.gcLocked hg
  | call => exact hp
  | step hst =>
    refine hp.step hst fun hm => ?_
    cases hst with
    | maintain fuel hpm => exact (h.toExact.stored_le hpm).trans hpeak
    | _ => exact hm.elim
  | construct hc =>
    obtain ⟨-, rfl⟩ := Client.construct_eq_some hc
    exact hp.recounted (Client.counted_ref c _).toRecounted

/-- **The memory bound.** In any interleaving every slot is stored once, on the free list once, or
not issued yet, and if at most `peak` nodes are ever live at one time, the variables included,
there are at most `2 * peak` slots and the first slab: what the operators leave behind does not
accumulate. -/
theorem capacity_of_run [DecidableEq T] {rand₁ rand₂ : ℕ → ℕ} {tableSize cacheSize : ℕ}
    {w : List (T × Action)} {d : Pool T Client Activity} (hv : varNum < uintMax)
    (hsize : bddPrimeGte fuel rand₁ tableSize = some size)
    (hi : State.init P fuel rand₁ rand₂ tableSize cacheSize varNum = some s)
    (hpeak : 2 + 2 * varNum ≤ peak)
    (hd : Pool.Run (TakesWithin peak P) record w (Pool.start T s) d) :
    (∃ fl, Partitioned d.shared.table fl) ∧
      d.shared.table.allocator.capacity ≤ 2 * peak + size := by
  have hstart := keeps_start (T := T) (ready_of_init hv hi)
  have hprovisioned := (Provisioned.init hsize hi).mono hpeak
  have hstable : Pool.Run.Stable (TakesWithin peak P)
      (fun c => Client.Faithful P varNum c ∧ Provisioned P size peak c.table) (Works P) := by
    intro others m c l c' l' ht h hl ho
    obtain ⟨hfaithful, hworks, hothers⟩ := stable P varNum ht.1 h.1 hl ho
    exact ⟨⟨hfaithful, ht.provisioned h.1 h.2⟩, hworks, hothers⟩
  obtain ⟨⟨-, hp⟩, -⟩ := hd.invariant hstable ⟨⟨hstart.1, hprovisioned⟩, hstart.2⟩
  obtain ⟨fl, hfl⟩ := hp.alloc
  exact ⟨⟨fl, hp.toConserved.partitioned hfl⟩, hp.capacity_le⟩

theorem Client.liveNodes_le (c : Client) : c.liveNodes ≤ c.table.stored.length := by
  calc c.liveNodes ≤ (c.table.stored.toFinset : Set Ptr).ncard :=
        Set.ncard_le_ncard fun p hp => List.mem_toFinset.mpr hp.1
    _ = c.table.stored.toFinset.card := Set.ncard_coe_finset _
    _ ≤ c.table.stored.length := List.toFinset_card_le _

/-- A safe turn, computed, where at most `peak` nodes are stored. -/
def takenWithin [Fintype T] (peak : ℕ) (P : Platform) (fuel : ℕ) (d : Pool T Client Activity)
    (t : T) (m : Move) : Option (Move × Client × Activity) :=
  if d.shared.table.stored.length ≤ peak then taken P fuel d t m else none

theorem takesWithin_of_takenWithin [Fintype T] {d : Pool T Client Activity} {t : T}
    {b : Move × Client × Activity} (h : takenWithin peak P fuel d t m = some b) :
    TakesWithin peak P (d.others t) b.1 (d.shared, d.pc t) (b.2.1, b.2.2) := by
  rw [takenWithin] at h
  split_ifs at h with hstored
  exact ⟨takesSafely_of_taken h, d.shared.liveNodes_le.trans hstored⟩

/-- One thread takes the last slot for `v0 & v1`. The other one needs a slot for `v0 | v1`, and its
maintenance finds nothing to free. -/
def filling : List (Bool × Move) :=
  List.flatten [
    [(false, .act (.getVar 0)), (true, .act (.getVar 1)), (false, .call .and 0 1),
      (true, .call .or 0 1)],
    List.replicate 4 (true, .step), List.replicate 7 (false, .step), [(false, .construct)],
    List.replicate 5 (true, .step), [(true, .construct)]]

theorem capacity_of_run_small : ∃ d : Pool Bool Client Activity, d.shared.bdds.length = 4 ∧
    d.shared.table.nodeCount = 10 ∧ d.shared.table.allocator.capacity = 21 ∧
      (∃ fl, Partitioned d.shared.table fl) ∧
      d.shared.table.allocator.capacity ≤ 2 * 10 + 3 := by
  have hsome : (filling.foldlM (Pool.Run.play (takenWithin 10 smallPlatform 40) record)
      ([], Pool.start Bool tight)).any (fun r => decide (r.2.shared.bdds.length = 4 ∧
        r.2.shared.table.nodeCount = 10 ∧ r.2.shared.table.allocator.capacity = 21)) = true := by
    decide +kernel
  obtain ⟨⟨w, d⟩, hplay, hfacts⟩ := (Option.any_eq_true _ _).mp hsome
  obtain ⟨hbdds, hcount, hcapacity⟩ := of_decide_eq_true hfacts
  have hrun : Pool.Run (TakesWithin 10 smallPlatform) record w (Pool.start Bool tight) d :=
    Pool.Run.of_play (fun _ _ _ _ => takesWithin_of_takenWithin) hplay (.refl _)
  exact ⟨d, hbdds, hcount, hcapacity, capacity_of_run (by decide) (show bddPrimeGte 40 id 3 = some 3
    by decide +kernel) init_tight (by decide) hrun⟩

end Nanobdd
