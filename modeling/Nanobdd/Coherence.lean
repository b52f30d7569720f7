import Nanobdd.Builds

/-!
# The cache after a collection

The cache holds pointers that no counter knows about. `gcLocked` of the default build empties it;
the other build leaves it as it is, so an entry may point at a node that the collection has
freed, and a later lookup for the same operands returns that node.

A lookup is fit to be used if the node it returns is stored, under the key it had when it was
inserted. What keeps this true is small: the table stays closed under children, whatever the
diagrams mean, because a node that a collection takes is neither live, nor held by the locals of
an operator, nor in the cache.

## Main definitions

* `State.Whole` — a table closed under children
* `World.Current` — every cached node is stored under the key it was inserted with
* `Session.HeldLive`, `Session.CachedLive` — what a collection must not take
* `Session.Coherent` — lookups and operators return stored nodes

## Main results

* `Session.Sound.step` — the steps that spare what is held and what stays cached
* `Session.coherent_of_run` — **coherence** in both builds
-/

namespace Nanobdd

variable {κ : Type} {B : Build κ} {P : Platform} {s s' t : State} {p q x y r : Ptr} {fuel m : ℕ}
  {op : Operator} {f : Bool} {low high : Ptr}

namespace State

/-! ### A table closed under children -/

/-- The table has the children of its nodes, and the terminals lie above the inner nodes. -/
structure Whole (P : Platform) (s : State) : Prop extends Store P s, Capped s where
  closed : s.Closed
  unmarked : s.Unmarked
  false_mem : s.falseNode ∈ s.stored
  true_mem : s.trueNode ∈ s.stored

theorem Robdd.whole (h : Robdd P s) (hu : s.Unmarked) : Whole P s :=
  { h.toStore, h.capped with
    closed := h.closed
    unmarked := hu
    false_mem := h.false_mem
    true_mem := h.true_mem }

theorem SameRoots.inner_iff (h : SameRoots s s') : s'.Inner p ↔ s.Inner p := by
  rw [Inner, Inner, h.falseNode, h.trueNode]

/-- The live nodes of `s` are in `s'`, unchanged and live. -/
structure LiveKept (s s' : State) : Prop where
  roots : SameRoots s s'
  live : ∀ p ∈ s.stored, s.Live p → p ∈ s'.stored ∧ s'.heap p = s.heap p ∧ s'.Live p

theorem LiveKept.refl (s : State) : LiveKept s s := ⟨SameRoots.refl s, fun _ hp hl => ⟨hp, rfl, hl⟩⟩

theorem Extends.liveKept (h : Extends s s') (hclosed : s.Closed) : LiveKept s s' :=
  ⟨h.roots, fun p hp hl => ⟨h.mem p hp, h.heap_eq p hp, h.live hclosed hl⟩⟩

/-- A new node over stored children. -/
theorem Whole.created (h : Whole P s) (hc : Created P s s' p m low high) (hlow : low ∈ s.stored)
    (hhigh : high ∈ s.stored) (hm : m < uintMax - 1) : Whole P s' := by
  have hcase : ∀ q ∈ s'.stored, q = p ∨ q ∈ s.stored := fun q hq =>
    List.mem_cons.mp (hc.perm.mem_iff.mp hq)
  have hin : ∀ q, s'.Inner q → s.Inner q := fun q => hc.roots.inner_iff.mp
  refine { hc.store with
    false_level := ?_
    true_level := ?_
    inner_lt := fun q hq hi => ?_
    low_ne_null := fun q hq hi => ?_
    high_ne_null := fun q hq hi => ?_
    closed := fun q hq r hr => ?_
    unmarked := fun q hq => ?_
    false_mem := ?_
    true_mem := ?_ }
  · rw [hc.roots.falseNode, hc.heap_eq h.false_mem]
    exact h.false_level
  · rw [hc.roots.trueNode, hc.heap_eq h.true_mem]
    exact h.true_level
  · rcases hcase q hq with rfl | hqs
    · rw [hc.node]
      exact hm
    · rw [hc.heap_eq hqs]
      exact h.inner_lt q hqs (hin q hi)
  · rcases hcase q hq with rfl | hqs
    · rw [hc.node]
      exact h.ne_null hlow
    · rw [hc.heap_eq hqs]
      exact h.low_ne_null q hqs (hin q hi)
  · rcases hcase q hq with rfl | hqs
    · rw [hc.node]
      exact h.ne_null hhigh
    · rw [hc.heap_eq hqs]
      exact h.high_ne_null q hqs (hin q hi)
  · rcases hcase q hq with rfl | hqs
    · rw [Heap.mem_children, hc.node] at hr
      rcases hr.1 with rfl | rfl
      · exact hc.mem_of_mem hlow
      · exact hc.mem_of_mem hhigh
    · rw [Heap.children, hc.heap_eq hqs] at hr
      exact hc.mem_of_mem (h.closed q hqs r hr)
  · rcases hcase q hq with rfl | hqs
    · rw [hc.node]
    · rw [hc.heap_eq hqs]
      exact h.unmarked q hqs
  · rw [hc.roots.falseNode]
    exact hc.mem_of_mem h.false_mem
  · rw [hc.roots.trueNode]
    exact hc.mem_of_mem h.true_mem

/-- A state with the nodes of a set closed under children that holds the terminals. -/
theorem Whole.restrict (h : Whole P s) (hstore : Store P s') (ha : Agrees s' s)
    (hsub : ∀ p ∈ s'.stored, p ∈ s.stored) (hf : s.falseNode ∈ s'.stored)
    (ht : s.trueNode ∈ s'.stored)
    (hclosed : ∀ p ∈ s'.stored, ∀ q ∈ s.heap.children p, q ∈ s'.stored) (hu : s'.Unmarked) :
    Whole P s' := by
  have hkey := ha.key
  have hin : ∀ q, s'.Inner q → s.Inner q := fun q => ha.inner_iff.mpr
  refine { hstore with
    false_level := ?_
    true_level := ?_
    inner_lt := fun q hq hi => ?_
    low_ne_null := fun q hq hi => ?_
    high_ne_null := fun q hq hi => ?_
    closed := fun q hq r hr => ?_
    unmarked := hu
    false_mem := ha.falseNode ▸ hf
    true_mem := ha.trueNode ▸ ht }
  · rw [← ha.falseNode, ← (hkey _ hf).1]
    exact h.false_level
  · rw [← ha.trueNode, ← (hkey _ ht).1]
    exact h.true_level
  · rw [← (hkey q hq).1]
    exact h.inner_lt q (hsub q hq) (hin q hi)
  · rw [← (hkey q hq).2.1]
    exact h.low_ne_null q (hsub q hq) (hin q hi)
  · rw [← (hkey q hq).2.2]
    exact h.high_ne_null q (hsub q hq) (hin q hi)
  · rw [← Heap.children_congr (hkey q hq)] at hr
    exact hclosed q hq r hr

/-- Counters do not matter. -/
theorem Whole.recounted (h : Whole P s) (hre : Recounted s s') : Whole P s' := by
  refine h.restrict (hre.store h.toStore) hre.agrees' (fun p hp => hre.stored_eq ▸ hp)
    (hre.stored_eq ▸ h.false_mem) (hre.stored_eq ▸ h.true_mem) (fun p hp q hq => ?_)
    (hre.unmarked h.unmarked)
  rw [hre.stored_eq] at hp ⊢
  exact h.closed p hp q hq

/-! ### Collections -/

/-- The live nodes of `s`, unchanged. -/
structure Purged (P : Platform) (s s' : State) : Prop where
  store : Store P s'
  mem_iff : ∀ p, p ∈ s'.stored ↔ p ∈ s.stored ∧ s.Live p
  heap_eq : ∀ p ∈ s'.stored, s'.heap p = s.heap p
  roots : SameRoots s s'

theorem Store.withCache (h : Store P s) (c : Option LockFreeCache) : Store P (s.withCache c) :=
  ⟨⟨h.hashed.size_pos, h.hashed.placed, h.hashed.nodup, h.hashed.unique⟩, h.alloc⟩

theorem Swept.purged {c d : Option LockFreeCache} (h : Swept P (s.withCache c) (t.withCache d)) :
    Purged P s t where
  store := h.store.withCache t.cache
  mem_iff := h.mem_iff
  heap_eq := h.heap_eq
  roots := ⟨h.roots.falseNode, h.roots.trueNode, h.roots.vars, h.roots.nvars⟩

/-- **A collection without the cache**, and maintenance. Nothing in them looks at the cache, so
what is known of the default build carries over. -/
theorem Whole.collectNodes (h : Whole P s) (hg : s.collectNodes fuel = some t) :
    Purged P s t ∧ Purged P s (t.extend P) := by
  set c := LockFreeCache.new 1 Nat.one_pos
  have hstore : Store P (s.withCache (some c)) := h.toStore.withCache _
  have hgc : (s.withCache (some c)).gcLocked fuel = some (t.withCache (some c.invalidateAll)) := by
    rw [gcLocked_eq_collectNodes rfl, collectNodes_withCache, hg]
    rfl
  have hpm : (s.withCache (some c)).performMaintenance P fuel =
      some ((t.extend P).withCache (some c.invalidateAll)) := by
    rw [performMaintenance_eq, hgc, Option.map_some, extend_withCache]
  exact ⟨(hstore.gcLocked_swept h.closed h.unmarked rfl hgc).1.purged,
    (hstore.performMaintenance h.closed h.unmarked rfl hpm).1.purged⟩

theorem Purged.liveKept (h : Purged P s s') (hclosed : s.Closed) : LiveKept s s' :=
  ⟨h.roots, fun p hp hl => by
    have hmem := (h.mem_iff p).mpr ⟨hp, hl⟩
    exact ⟨hmem, h.heap_eq p hmem, hl.kept hclosed h.mem_iff h.heap_eq⟩⟩

/-- A collection that keeps the terminals. -/
theorem Whole.purged (h : Whole P s) (hp : Purged P s s') (hf : s.Live s.falseNode)
    (ht : s.Live s.trueNode) : Whole P s' := by
  have hagrees : Agrees s' s :=
    ⟨hp.roots.falseNode.symm, hp.roots.trueNode.symm, fun q hq => by
      rw [hp.heap_eq q hq]
      exact Node.SameKey.refl _⟩
  refine h.restrict hp.store hagrees (fun q hq => ((hp.mem_iff q).mp hq).1)
    ((hp.mem_iff _).mpr ⟨h.false_mem, hf⟩) ((hp.mem_iff _).mpr ⟨h.true_mem, ht⟩)
    (fun q hq r hr => ?_) fun q hq => ?_
  · obtain ⟨hqs, hlive⟩ := (hp.mem_iff q).mp hq
    exact (hp.mem_iff r).mpr ⟨h.closed q hqs r hr, hlive.child hr⟩
  · rw [hp.heap_eq q hq]
    exact h.unmarked q ((hp.mem_iff q).mp hq).1

/-- The entry is empty, or its node is stored under the key `k`. -/
def Stores (s : State) (e : Cached) (k : Key) : Prop :=
  e.node ≠ nullptr → e.node ∈ s.stored ∧ (s.heap e.node).key = k

end State

/-! ### The world between two steps -/

namespace World

/-- Every cached node is stored, under the key it was inserted with. -/
def Current (B : Build κ) (w : World κ) : Prop :=
  ∀ i, w.table.Stores (B.cached w.cache i) (w.noted i)

/-- The invariant of a program. -/
structure Sound (B : Build κ) (P : Platform) (w : World κ) : Prop where
  table : State.Whole P w.table
  tallied : w.client.Tallied
  current : w.Current B

variable {w : World κ}

namespace Sound

theorem live_false (h : w.Sound B P) : w.table.Live w.table.falseNode :=
  h.tallied.live_false h.table.false_mem

theorem live_true (h : w.Sound B P) : w.table.Live w.table.trueNode :=
  h.tallied.live_true h.table.true_mem

/-- **A lookup returns a stored node**, under the key it was inserted with. -/
theorem lookup_fst (h : w.Sound B P) (hr : (w.lookup B P f op x y).1 ≠ nullptr) :
    (w.lookup B P f op x y).1 ∈ w.table.stored ∧
      (w.table.heap (w.lookup B P f op x y).1).key = w.noted (w.slot B P op x y) := by
  have hnode := B.lookup_fst w.cache f (w.slot B P op x y) x (op.right y) op hr
  have hentry := h.current (w.slot B P op x y) (hnode ▸ hr)
  rw [← hnode] at hentry
  exact hentry

theorem lookup_snd (h : w.Sound B P) : (w.lookup B P f op x y).2.Sound B P where
  table := h.table
  tallied := h.tallied
  current i := by
    have hcached : B.cached (w.lookup B P f op x y).2.cache i = B.cached w.cache i :=
      B.cached_lookup w.cache f (w.slot B P op x y) x (op.right y) op i
    rw [hcached]
    exact h.current i

theorem insert (h : w.Sound B P) (hr : r ∈ w.table.stored) :
    (w.insert B P f op r x y).Sound B P := by
  have hclock : Client.Counted w.table (w.insert B P f op r x y).table :=
    ⟨⟨rfl, rfl, rfl, rfl, rfl, rfl, rfl, fun p => ⟨(w.table.heap p).refCount, rfl⟩⟩, rfl, rfl⟩
  refine ⟨h.table.recounted hclock.toRecounted,
    h.tallied.recount hclock h.tallied.mem h.tallied.counted, fun i => ?_⟩
  have hcached : B.cached (w.insert B P f op r x y).cache i = _ :=
    B.cached_insert w.cache f (w.slot B P op x y) r x (op.right y) op i
  rw [hcached]
  by_cases hw : B.writes w.cache f (w.slot B P op x y) = true ∧ i = w.slot B P op x y
  · have hnoted : (w.insert B P f op r x y).noted i = (w.table.heap r).key := if_pos hw
    rw [if_pos hw, hnoted]
    exact fun _ => ⟨hr, rfl⟩
  · have hnoted : (w.insert B P f op r x y).noted i = w.noted i := if_neg hw
    rw [if_neg hw, hnoted]
    exact h.current i

/-- A step that keeps all nodes. New nodes have no references. -/
theorem extends_table (h : w.Sound B P) (hx : State.Extends w.table t) (ht : State.Whole P t)
    (hnew : ∀ p ∈ t.stored, p ∉ w.table.stored → (t.heap p).refCount = 0) :
    (w.withTable t).Sound B P := by
  refine ⟨ht, h.tallied.withTable hx.roots (fun q hq => ht.ne_null hq)
    (fun q hq _ => ⟨hx.mem q hq, hx.heap_eq q hq⟩) (fun q hq => ?_), fun i hi => ?_⟩
  · by_cases hqs : q ∈ w.table.stored
    · by_cases hcount : (w.table.heap q).refCount = 0
      · rw [hx.heap_eq q hqs]
        exact Or.inr hcount
      · exact Or.inl ⟨hqs, State.Live.of_refCount hqs hcount⟩
    · exact Or.inr (hnew q hq hqs)
  · obtain ⟨hmem, hkey⟩ := h.current i hi
    refine ⟨hx.mem _ hmem, ?_⟩
    show (t.heap (B.cached w.cache i).node).key = _
    rw [hx.heap_eq _ hmem]
    exact hkey

/-- A collection that leaves only live nodes in the cache. -/
theorem collected (h : w.Sound B P) (hp : State.Purged P w.table t)
    (hleft : ∀ i, (B.cached (B.clear w.cache) i).node ≠ nullptr →
      w.table.Live (B.cached (B.clear w.cache) i).node) : (w.collected B t).Sound B P := by
  have ht := h.table.purged hp h.live_false h.live_true
  have hkept := hp.liveKept h.table.closed
  refine ⟨ht, h.tallied.withTable hp.roots (fun q hq => ht.ne_null hq)
    (fun q hq hl => ⟨(hkept.live q hq hl).1, (hkept.live q hq hl).2.1⟩)
    (fun q hq => Or.inl ((hp.mem_iff q).mp hq)), fun i hi => ?_⟩
  have hcached : B.cached (w.collected B t).cache i = B.cached w.cache i :=
    B.cached_clear w.cache i hi
  have hlive : w.table.Live (B.cached (w.collected B t).cache i).node := hleft i hi
  rw [hcached] at hi hlive ⊢
  obtain ⟨hmem, hkey⟩ := h.current i hi
  obtain ⟨hmem', hheap, -⟩ := hkept.live _ hmem hlive
  refine ⟨hmem', ?_⟩
  show (t.heap (B.cached w.cache i).node).key = _
  rw [hheap]
  exact hkey

/-- Other counters and objects. -/
theorem recounted {c : Client} (h : w.Sound B P) (hre : Client.Counted w.table c.table)
    (ht : c.Tallied) : ({ w with client := c } : World κ).Sound B P := by
  refine ⟨h.table.recounted hre.toRecounted, ht, fun i hi => ?_⟩
  obtain ⟨hmem, hkey⟩ := h.current i hi
  refine ⟨?_, ?_⟩
  · show _ ∈ c.table.stored
    rw [hre.toRecounted.stored_eq]
    exact hmem
  · show (c.table.heap _).key = _
    rw [(hre.toRecounted.key _).key_eq]
    exact hkey

end Sound

end World

/-! ### The recursion -/

open State

/-- What the running call relies on. -/
def Control.Safe (s : State) : Control → Prop
  | .call op x y => Operands {p | p ∈ s.stored ∧ s.Live p} op x y
  | .create _ _ _ m fLow fHigh => m < uintMax - 1 ∧ fLow ∈ s.stored ∧ fHigh ∈ s.stored
  | .maintain _ _ _ m fLow fHigh => m < uintMax - 1 ∧ fLow ∈ s.stored ∧ fHigh ∈ s.stored
  | .insert _ _ _ res => res ∈ s.stored
  | .ret r => r ∈ s.stored

/-- What a waiting call relies on. -/
def Frame.Safe (s : State) : Frame → Prop
  | .low op x y m => Expands {p | p ∈ s.stored ∧ s.Live p} s op x y m
  | .high _ _ _ m fLow => m < uintMax - 1 ∧ fLow ∈ s.stored

theorem State.LiveKept.operands (h : LiveKept s s')
    (ho : Operands {p | p ∈ s.stored ∧ s.Live p} op x y) :
    Operands {p | p ∈ s'.stored ∧ s'.Live p} op x y := by
  have hmem : ∀ p ∈ {p | p ∈ s.stored ∧ s.Live p}, p ∈ {p | p ∈ s'.stored ∧ s'.Live p} :=
    fun p hp => ⟨(h.live p hp.1 hp.2).1, (h.live p hp.1 hp.2).2.2⟩
  exact ⟨hmem x ho.left, fun hn => hmem y (ho.right hn)⟩

theorem Control.Safe.carry {control : Control} (hc : control.Safe s) (h : LiveKept s s')
    (hheld : ∀ p ∈ control.held, p ∈ s.stored → p ∈ s'.stored) : control.Safe s' := by
  cases control with
  | call op x y => exact h.operands hc
  | create op x y m fLow fHigh =>
    obtain ⟨hm, hlow, hhigh⟩ := hc
    exact ⟨hm, hheld fLow (by simp [Control.held]) hlow, hheld fHigh (by simp [Control.held]) hhigh⟩
  | maintain op x y m fLow fHigh =>
    obtain ⟨hm, hlow, hhigh⟩ := hc
    exact ⟨hm, hheld fLow (by simp [Control.held]) hlow, hheld fHigh (by simp [Control.held]) hhigh⟩
  | insert op x y res => exact hheld res (by simp [Control.held]) hc
  | ret r => exact hheld r (by simp [Control.held]) hc

theorem Frame.Safe.carry {frame : Frame} (hf : frame.Safe s) (h : LiveKept s s')
    (hheld : ∀ p ∈ frame.held, p ∈ s.stored → p ∈ s'.stored) : frame.Safe s' := by
  cases frame with
  | low op x y m =>
    have he : Expands {p | p ∈ s.stored ∧ s.Live p} s op x y m := hf
    have hat : ∀ z ∈ {p | p ∈ s.stored ∧ s.Live p}, Robdd.ExpandsAt s m z →
        Robdd.ExpandsAt s' m z := by
      intro z hz hat
      rw [Robdd.ExpandsAt, (h.live z hz.1 hz.2).2.1, h.roots.inner_iff]
      exact hat
    exact ⟨h.operands he.toOperands, hat x he.left he.left_at,
      fun hn => hat y (he.right hn) (he.right_at hn), he.lt⟩
  | high op x y m fLow =>
    obtain ⟨hm, hlow⟩ := hf
    exact ⟨hm, hheld fLow (by simp [Frame.held]) hlow⟩

namespace Session

variable {a b : Session κ} {w : World κ}

/-- The invariant of a session. -/
def Sound (B : Build κ) (P : Platform) : Session κ → Prop
  | rest w => w.Sound B P
  | running w control k => w.Sound B P ∧ control.Safe w.table ∧ ∀ frame ∈ k, frame.Safe w.table

theorem Sound.world (h : a.Sound B P) : a.world.Sound B P := by
  cases a with
  | rest w => exact h
  | running w control k => exact h.1

/-- The nodes that only local variables of an operator point at. -/
def held : Session κ → List Ptr
  | rest _ => []
  | running _ control k => control.held ++ k.flatMap Frame.held

/-- No collection takes a node that an operator holds. -/
def HeldLive (a : Session κ) : Prop := ∀ p ∈ a.held, a.world.table.Live p

/-- No collection takes a node that stays in the cache. -/
def CachedLive (B : Build κ) (a : Session κ) : Prop :=
  ∀ i, (B.cached (B.clear a.world.cache) i).node ≠ nullptr →
    a.world.table.Live (B.cached (B.clear a.world.cache) i).node

/-- No counter wraps around. -/
def Fits (a : Session κ) : Prop := a.world.client.ReferencesFit

/-! ### One step -/

/-- **The steps of an operator.** -/
theorem Sound.work (h : a.Sound B P) (hw : Work B P a b) : b.Sound B P := by
  cases hw with
  | terminal ht =>
    obtain ⟨hs, hc, hk⟩ := h
    have ho := Operands.stored hc (anchored_live hs.table.closed)
    exact ⟨hs, terminal_mem ho hs.table.false_mem hs.table.true_mem ht, hk⟩
  | hit f ht hr =>
    obtain ⟨hs, hc, hk⟩ := h
    exact ⟨hs.lookup_snd, (hs.lookup_fst hr).1, hk⟩
  | miss f ht hr =>
    obtain ⟨hs, hc, hk⟩ := h
    have hA := anchored_live hs.table.closed
    have he := Expands.of_terminal hc hA hs.table.toCapped ht
    refine ⟨hs.lookup_snd, (he.operands hA hs.table.toCapped).1, fun frame hf => ?_⟩
    rcases List.mem_cons.mp hf with rfl | hf
    · exact he
    · exact hk frame hf
  | second =>
    obtain ⟨hs, hc, hk⟩ := h
    have hA := anchored_live hs.table.closed
    have he : Expands _ _ _ _ _ _ := hk _ List.mem_cons_self
    refine ⟨hs, (he.operands hA hs.table.toCapped).2, fun frame hf => ?_⟩
    rcases List.mem_cons.mp hf with rfl | hf
    · exact ⟨he.lt, hc⟩
    · exact hk frame (List.mem_cons_of_mem _ hf)
  | equal =>
    obtain ⟨hs, hc, hk⟩ := h
    exact ⟨hs, hc, fun frame hf => hk frame (List.mem_cons_of_mem _ hf)⟩
  | differ hne =>
    obtain ⟨hs, hc, hk⟩ := h
    obtain ⟨hm, hlow⟩ := hk _ List.mem_cons_self
    exact ⟨hs, ⟨hm, hlow, hc⟩, fun frame hf => hk frame (List.mem_cons_of_mem _ hf)⟩
  | @create w t op x y m fLow fHigh res k honce =>
    obtain ⟨hs, ⟨hm, hlow, hhigh⟩, hk⟩ := h
    rcases hs.table.toStore.getOrCreateOnce m fLow fHigh with
      ⟨p, hp, -, hsome⟩ | ⟨-, ⟨hfails, -⟩ | ⟨p, u, hcr, hsome⟩⟩
    · rw [honce, Option.some_inj] at hsome
      cases hsome
      exact ⟨hs, hp, hk⟩
    · rw [AllocFails, honce] at hfails
      cases hfails
    · rw [honce, Option.some_inj] at hsome
      cases hsome
      have hkept := hcr.extends.liveKept hs.table.closed
      refine ⟨hs.extends_table hcr.extends (hs.table.created hcr hlow hhigh hm) fun q hq hnot => ?_,
        hcr.mem, fun frame hf => (hk frame hf).carry hkept fun q _ hq => hcr.extends.mem q hq⟩
      rcases List.mem_cons.mp (hcr.perm.mem_iff.mp hq) with rfl | hqs
      · rw [hcr.node]
      · exact absurd hqs hnot
  | exhaust _ => exact h
  | @insert w op x y res k f =>
    obtain ⟨hs, hc, hk⟩ := h
    -- only the clock and the cache change
    have hclock : LiveKept w.table (w.insert B P f op res x y).table :=
      ⟨⟨rfl, rfl, rfl, rfl⟩, fun p hp hl => ⟨hp, rfl, hl⟩⟩
    exact ⟨hs.insert hc, hc, fun frame hf => (hk frame hf).carry hclock fun _ _ hp => hp⟩

/-- **The steps that collect.** -/
theorem Sound.collects (h : a.Sound B P) (hc : Collects B P a b) (hheld : a.HeldLive)
    (hcached : a.CachedLive B) : b.Sound B P := by
  cases hc with
  | gc fuel hg => exact World.Sound.collected h (h.table.collectNodes hg).1 hcached
  | @maintain w t op x y m fLow fHigh k fuel hg =>
    obtain ⟨hs, hc, hk⟩ := h
    have hp := (hs.table.collectNodes hg).2
    have hkept := hp.liveKept hs.table.closed
    have hstay : ∀ p ∈ (Session.running w (.maintain op x y m fLow fHigh) k).held,
        p ∈ w.table.stored → p ∈ (t.extend P).stored :=
      fun p hp' hmem => (hkept.live p hmem (hheld p hp')).1
    have hcontrol : (Control.create op x y m fLow fHigh).Safe w.table := hc
    refine ⟨hs.collected hp hcached,
      hcontrol.carry hkept fun p hp' => hstay p (List.mem_append_left _ hp'),
      fun frame hf => (hk frame hf).carry hkept fun p hp' => hstay p ?_⟩
    exact List.mem_append_right _ (List.mem_flatMap.mpr ⟨frame, hf, hp'⟩)

/-- **The other steps of a program.** -/
theorem Sound.drives (h : a.Sound B P) (hd : Drives P a b) (hfit : b.Fits) : b.Sound B P := by
  cases hd with
  | @act w c action fuel ha hnode hc =>
    have hs : w.Sound B P := h
    exact hs.recounted (Client.counted_of_onObjects ha hc)
      (hs.tallied.exec hs.table.false_mem hs.table.true_mem ha hnode hc hfit)
  | @enter w op i j x y ho =>
    have hs : w.Sound B P := h
    exact ⟨hs, hs.tallied.operands_live ho, fun _ hf => absurd hf List.not_mem_nil⟩
  | @leave w c r hc =>
    obtain ⟨hs, hr, -⟩ := h
    have htally : c.Tallied := hs.tallied.construct hr hc hfit
    obtain ⟨-, rfl⟩ := Client.construct_eq_some hc
    exact hs.recounted (Client.counted_ref w.client r) htally

/-! ### Runs -/

/-- A step in which no collection takes a node an operator holds, no compound assignment gives
its object another node, and no counter wraps around. -/
def Sparing (B : Build κ) (P : Platform) (a b : Session κ) : Prop :=
  Step B P a b ∧ (Collects B P a b → a.HeldLive) ∧ (Assigns a b → b.world = a.world) ∧ b.Fits

/-- **The step lemma.** -/
theorem Sound.step (h : a.Sound B P) (hs : Sparing B P a b)
    (hcached : Collects B P a b → a.CachedLive B) : b.Sound B P := by
  obtain ⟨hw | hc | hd | ha, hheld, hsame, hfit⟩ := hs
  · exact h.work hw
  · exact h.collects hc (hheld hc) (hcached hc)
  · exact h.drives hd hfit
  · have hworld := h.world
    rw [← hsame ha] at hworld
    cases ha with
    | assign i _ => exact hworld

/-- What a lookup returns is stored, under the key it was inserted with, so no collection has
freed it since, or it is there again; and what an operator returns is stored. -/
structure Coherent (B : Build κ) (P : Platform) (a : Session κ) : Prop where
  lookup : ∀ w op x y k, a = running w (.call op x y) k → ∀ f,
    (w.lookup B P f op x y).1 ≠ nullptr →
      (w.lookup B P f op x y).1 ∈ w.table.stored ∧
        (w.table.heap (w.lookup B P f op x y).1).key = w.noted (w.slot B P op x y)
  result : ∀ w r, a = running w (.ret r) [] → r ∈ w.table.stored

theorem Sound.coherent (h : a.Sound B P) : a.Coherent B P where
  lookup w op x y k ha f hr := by
    subst ha
    exact h.1.lookup_fst hr
  result w r ha := by
    subst ha
    exact h.2.1

/-- **What a collection leaves in the cache.** If it spares what is held, the cache is right
after it if and only if every node that stays in the cache is live. -/
theorem Sound.current_iff (h : a.Sound B P) (hc : Collects B P a b) (hheld : a.HeldLive) :
    b.world.Current B ↔ a.CachedLive B := by
  constructor
  · intro hcur i hi
    cases hc with
    | @gc w t fuel hg =>
      have hp := (h.world.table.collectNodes hg).1
      exact ((hp.mem_iff _).mp (hcur i hi).1).2
    | @maintain w t op x y m fLow fHigh k fuel hg =>
      have hp := (h.world.table.collectNodes hg).2
      exact ((hp.mem_iff _).mp (hcur i hi).1).2
  · exact fun hcached => (h.collects hc hheld hcached).world.current

/-- A program starts with the invariant. -/
theorem sound_start {n : ℕ} (h : State.Ready P s n n) (size : ℕ) (hsize : 0 < size) :
    (start B s size hsize).Sound B P := by
  have hexact := Client.exact_of_ready h
  refine ⟨hexact.wf.toRobdd.whole hexact.unmarked, hexact.tallied, fun i hi => ?_⟩
  have hempty : B.cached (B.new size hsize) i = {} := B.cached_new size hsize i
  exact absurd (congrArg Cached.node hempty) hi

/-- An empty cache has nothing that a collection could take. -/
theorem cachedLive_fresh (B : Build κ) (c : Client) (size : ℕ) (hsize : 0 < size) :
    (rest (.fresh B c size hsize)).CachedLive B := by
  intro i hi
  have hcached := B.cached_clear (B.new size hsize) i hi
  rw [B.cached_new] at hcached
  exact absurd (congrArg Cached.node hcached) hi

/-- The default build leaves nothing in the cache. -/
theorem cachedLive_lockFree (a : Session LockFreeCache) : a.CachedLive lockFreeBuild :=
  fun _ hi => absurd rfl hi

/-- **Coherence in both builds.** In the default build, every lookup and every operator of a run
returns a stored node, if the collections of the run spare what the operators hold. In the other
build, this is so if they spare the nodes in the cache as well; and where one of them does not,
the cache is no longer right. -/
theorem coherent_of_run {rand₁ rand₂ : ℕ → ℕ} {tableSize cacheSize varNum : ℕ}
    (hv : varNum < uintMax)
    (hi : State.init P fuel rand₁ rand₂ tableSize cacheSize varNum = some s) (size : ℕ)
    (hsize : 0 < size) :
    (∀ a, Relation.ReflTransGen (Sparing lockFreeBuild P) (start lockFreeBuild s size hsize) a →
      a.Coherent lockFreeBuild P) ∧
    ∀ a, Relation.ReflTransGen
        (fun a b => Sparing mutexBuild P a b ∧
          (Collects mutexBuild P a b → a.CachedLive mutexBuild))
        (start mutexBuild s size hsize) a →
      a.Coherent mutexBuild P ∧ ∀ b, Collects mutexBuild P a b → a.HeldLive →
        (b.world.Current mutexBuild ↔ a.CachedLive mutexBuild) := by
  have hready := ready_of_init hv hi
  refine ⟨fun a ha => ?_, fun a ha => ?_⟩
  · have hsound : a.Sound lockFreeBuild P :=
      Transition.invariant (fun _ _ hbc hb => hb.step hbc fun _ => cachedLive_lockFree _) ha
        (sound_start hready size hsize)
    exact hsound.coherent
  · have hsound : a.Sound mutexBuild P :=
      Transition.invariant (fun _ _ hbc hb => hb.step hbc.1 hbc.2) ha
        (sound_start hready size hsize)
    exact ⟨hsound.coherent, fun _ hc hheld => hsound.current_iff hc hheld⟩

/-! ### Two runs of a small program -/

/-- Two variables, in either build. -/
def smallWorld (B : Build κ) : World κ := .fresh B Client.smallPair 11 (by decide)

/-- `v0 & v1` -/
def conjunction (w : World κ) : Session κ := running w (.call .and 3 5) []

/-- The build with mutexes computes it, its object is destroyed, and the nodes are collected. -/
def dropped : Option (World Cache) := do
  let (w, r) ← ((conjunction (smallWorld mutexBuild)).advance mutexBuild smallPlatform
    20).returned
  let c ← w.client.construct r
  let c ← c.exec smallPlatform 0 (.destroy 2)
  let t ← c.table.collectNodes 40
  some (({ w with client := c } : World Cache).collected mutexBuild t)

/-- The first two variables of a small table, in either build. The cache is not used. -/
theorem steps_smallPair (B : Build κ) (P : Platform) (step : Session κ → Session κ → Prop)
    (hstep : ∀ c b, Drives P (.rest (.fresh B c 11 (by decide))) b → b.Fits →
      step (.rest (.fresh B c 11 (by decide))) b) :
    Relation.ReflTransGen step (start B small 11 (by decide))
      (.rest (.fresh B Client.smallPair 11 (by decide))) := by
  have h₁ : (Client.start small).exec P 0 (.getVar 0) =
      some (((Client.start small).ref 3).push 3) :=
    Client.getVar_small rfl rfl (by decide)
  have h₂ : (((Client.start small).ref 3).push 3).exec P 0 (.getVar 1) = some Client.smallPair :=
    Client.getVar_small rfl rfl (by decide)
  have hfit₁ : (((Client.start small).ref 3).push 3).ReferencesFit :=
    Client.referencesFit_small rfl rfl (by decide)
  have hfit₂ : Client.smallPair.ReferencesFit :=
    Client.referencesFit_small rfl rfl (by decide)
  exact (Relation.ReflTransGen.single (hstep _ _ (.act (.getVar 0) 0 trivial nofun h₁) hfit₁)).tail
    (hstep _ _ (.act (.getVar 1) 0 trivial nofun h₂) hfit₂)

/-- **A node that the collection has freed.** `v0 & v1` is computed, dropped and collected. The
other build computes it again by looking it up. -/
theorem not_coherent : ∃ (s : State) (w : World Cache) (x y r : Ptr),
    State.init smallPlatform 40 id id 11 11 3 = some s ∧
      Relation.ReflTransGen (Step mutexBuild smallPlatform)
        (start mutexBuild s 11 (by decide)) (running w (.call .and x y) []) ∧
      w.table.terminal .and x y = none ∧
      (w.lookup mutexBuild smallPlatform false .and x y).1 = r ∧ r ≠ nullptr ∧
      r ∉ w.table.stored := by
  have hsome : dropped.any (fun w => decide (w.client.operands .and 0 1 = some (3, 5) ∧
      w.table.terminal .and 3 5 = none ∧
      (w.lookup mutexBuild smallPlatform false .and 3 5).1 = 9 ∧ 9 ∉ w.table.stored)) = true := by
    decide +kernel
  obtain ⟨w, hw, hfacts⟩ := (Option.any_eq_true _ _).mp hsome
  obtain ⟨hoperands, hterminal, hlookup, hgone⟩ := of_decide_eq_true hfacts
  refine ⟨small, w, 3, 5, 9, init_small, ?_, hterminal, hlookup, by decide, hgone⟩
  rw [dropped] at hw
  obtain ⟨⟨v, r⟩, hr, hw⟩ := Option.bind_eq_some_iff.mp hw
  obtain ⟨c, hc, hw⟩ := Option.bind_eq_some_iff.mp hw
  obtain ⟨c', hc', hw⟩ := Option.bind_eq_some_iff.mp hw
  obtain ⟨t, ht, hw⟩ := Option.bind_eq_some_iff.mp hw
  cases hw
  have hdrive : ∀ {a b}, Drives smallPlatform a b → Step mutexBuild smallPlatform a b :=
    fun hd => Or.inr (Or.inr (Or.inl hd))
  have hpair := steps_smallPair mutexBuild smallPlatform (Step mutexBuild smallPlatform)
    fun _ _ hd _ => hdrive hd
  have hand := steps_of_advance mutexBuild smallPlatform 20 (conjunction (smallWorld mutexBuild))
  rw [eq_of_returned hr] at hand
  have hcall := (hpair.tail (hdrive (.enter Client.operands_smallPair))).trans hand
  have hdrop := (hcall.tail (hdrive (.leave hc))).tail
    (hdrive (.act (.destroy 2) 0 trivial nofun hc'))
  exact (hdrop.tail (Or.inr (Or.inl (.gc 40 ht)))).tail (hdrive (.enter hoperands))

/-! ### A result that stays cached -/

/-- A step that is computed neither collects nor assigns. -/
theorem plain_of_next (h : a.next B P = some b) {c : Session κ} :
    ¬ Collects B P a c ∧ ¬ Assigns a c := by
  constructor
  · intro hc
    cases hc with
    | gc => exact absurd h nofun
    | maintain => exact absurd h nofun
  · intro hc
    cases hc with
    | assign => exact absurd h nofun

/-- The result that the step inserts. -/
def inserting : Session κ → List Ptr
  | running _ (.insert _ _ _ res) _ => [res]
  | _ => []

/-- What is in the cache after a step was there before, or is inserted. -/
theorem cached_of_next (h : a.next B P = some b) (i : ℕ) :
    (B.cached b.world.cache i).node = (B.cached a.world.cache i).node ∨
      (B.cached b.world.cache i).node ∈ a.inserting := by
  have hwork := work_of_next h
  cases hwork with
  | hit f => exact Or.inl (congrArg Cached.node (B.cached_lookup ..))
  | miss f => exact Or.inl (congrArg Cached.node (B.cached_lookup ..))
  | @insert w op x y res k f =>
    have hcached : B.cached (w.insert B P f op res x y).cache i = _ :=
      B.cached_insert w.cache f (w.slot B P op x y) res x (op.right y) op i
    have hmem : (B.cached (w.insert B P f op res x y).cache i).node = (B.cached w.cache i).node ∨
        (B.cached (w.insert B P f op res x y).cache i).node ∈ [res] := by
      rw [hcached]
      split
      · exact Or.inr List.mem_cons_self
      · exact Or.inl rfl
    exact hmem
  | _ => exact Or.inl rfl

/-- The results that an operator inserts in at most `n` steps. -/
def results (B : Build κ) (P : Platform) : ℕ → Session κ → List Ptr
  | 0, _ => []
  | n + 1, a =>
    match a.next B P with
    | some b => a.inserting ++ b.results B P n
    | none => []

theorem cached_advance (B : Build κ) (P : Platform) (i n : ℕ) (a : Session κ) :
    (B.cached (a.advance B P n).world.cache i).node = (B.cached a.world.cache i).node ∨
      (B.cached (a.advance B P n).world.cache i).node ∈ a.results B P n := by
  induction n generalizing a with
  | zero => exact Or.inl rfl
  | succ n ih =>
    rw [advance, results]
    cases hb : a.next B P with
    | none => exact Or.inl rfl
    | some b =>
      rcases ih b with he | hmem
      · dsimp only
        rw [he]
        exact (cached_of_next hb i).imp_right fun hmem => List.mem_append_left _ hmem
      · exact Or.inr (List.mem_append_right _ hmem)

/-- The constructor of an object is no assignment. -/
theorem not_assigns_of_construct {c : Client} (hc : w.client.construct r = some c) :
    ¬ Assigns (running w (.ret r) []) (rest { w with client := c }) := by
  obtain ⟨-, rfl⟩ := Client.construct_eq_some hc
  intro ha
  generalize hb : rest { w with client := (w.client.ref r).push r } = b at ha
  cases ha with
  | assign i _ =>
    injection hb with hb
    have hlength := congrArg (fun v : World κ => v.client.bdds.length) hb
    simp [Client.push, Client.setRoot, Client.ref_bdds] at hlength

/-- There are too few objects for a counter to wrap around. -/
def Few (a : Session κ) : Prop :=
  a.world.client.bdds.length + (a.world.table.vars.length + a.world.table.nvars.length + 2) < 2 ^ 32

instance : DecidablePred (Few (κ := κ)) := fun _ => inferInstanceAs (Decidable (_ < _))

theorem Few.fits (h : a.Few) : a.Fits := Client.referencesFit_of_length h

/-- There are few objects in all states of `n` steps. -/
def fewFor (B : Build κ) (P : Platform) : ℕ → Session κ → Bool
  | 0, a => decide a.Few
  | n + 1, a => decide a.Few && ((a.next B P).map (fewFor B P n)).getD true

theorem few_of_fewFor {n : ℕ} (h : a.fewFor B P n = true) : a.Few := by
  cases n with
  | zero => exact of_decide_eq_true h
  | succ n =>
    rw [fewFor, Bool.and_eq_true] at h
    exact of_decide_eq_true h.1

/-- A step that spares what has to be spared, in the cache as well. -/
def Spares (B : Build κ) (P : Platform) (a b : Session κ) : Prop :=
  Sparing B P a b ∧ (Collects B P a b → a.CachedLive B)

/-- The steps of an operator without maintenance. -/
theorem spares_of_advance {n : ℕ} (h : a.fewFor B P n = true) :
    Relation.ReflTransGen (Spares B P) a (a.advance B P n) := by
  induction n generalizing a with
  | zero => exact .refl
  | succ n ih =>
    rw [fewFor, Bool.and_eq_true] at h
    rw [advance]
    cases hb : a.next B P with
    | none => exact .refl
    | some b =>
      rw [hb] at h
      obtain ⟨hc, ha⟩ := plain_of_next hb (c := b)
      exact (ih h.2).head ⟨⟨Or.inl (work_of_next hb), fun h => absurd h hc, fun h => absurd h ha,
        (few_of_fewFor h.2).fits⟩, fun h => absurd h hc⟩

/-- It is computed, an object holds it, and the nodes are collected: the world before the
collection, and after it. -/
def kept (B : Build κ) : Option (World κ × World κ) := do
  let (w, r) ← ((conjunction (smallWorld B)).advance B smallPlatform 20).returned
  let c ← w.client.construct r
  let t ← c.table.collectNodes 40
  some ({ w with client := c }, ({ w with client := c } : World κ).collected B t)

/-- The result is the only node that was inserted, an object holds it, and the conjunction can be
computed again. -/
structure Keeps (B : Build κ) (w v : World κ) : Prop where
  few : (conjunction (smallWorld B)).fewFor B smallPlatform 20 = true
  results : (conjunction (smallWorld B)).results B smallPlatform 20 = [9]
  mem : 9 ∈ w.table.stored
  refCount : (w.table.heap 9).refCount ≠ 0
  before : (rest w).Few
  after : (conjunction v).fewFor B smallPlatform 20 = true
  operands : v.client.operands .and 0 1 = some (3, 5)
  bdds : v.client.bdds = [some 3, some 5, some 9]

instance (B : Build κ) (w v : World κ) : Decidable (Keeps B w v) :=
  decidable_of_iff (_ ∧ _ ∧ _ ∧ _ ∧ _ ∧ _ ∧ _ ∧ _)
    ⟨fun ⟨h₁, h₂, h₃, h₄, h₅, h₆, h₇, h₈⟩ => ⟨h₁, h₂, h₃, h₄, h₅, h₆, h₇, h₈⟩,
      fun h => ⟨h.1, h.2, h.3, h.4, h.5, h.6, h.7, h.8⟩⟩

/-- Whatever the cache holds is the result, which an object holds. -/
theorem Keeps.cachedLive {B : Build κ} {w v : World κ} (h : kept B = some (w, v))
    (hk : Keeps B w v) : (rest w).CachedLive B := by
  obtain ⟨⟨u, r⟩, hr, h⟩ := Option.bind_eq_some_iff.mp h
  obtain ⟨c, -, h⟩ := Option.bind_eq_some_iff.mp h
  obtain ⟨t, -, h⟩ := Option.bind_eq_some_iff.mp h
  cases h
  intro i hi
  change (B.cached (B.clear u.cache) i).node ≠ nullptr at hi
  show Live _ (B.cached (B.clear u.cache) i).node
  have hwas := cached_advance B smallPlatform i 20 (conjunction (smallWorld B))
  rw [eq_of_returned hr, hk.results, List.mem_singleton] at hwas
  have hclear := B.cached_clear u.cache i hi
  rw [hclear] at hi ⊢
  rcases hwas with hwas | hwas
  · exact absurd (hwas.trans (congrArg Cached.node (B.cached_new ..))) hi
  · rw [show (B.cached u.cache i).node = 9 from hwas]
    exact Live.of_refCount hk.mem hk.refCount

/-- The run to the collection, the collection, and the run through a second `v0 & v1`. -/
theorem run_kept (B : Build κ) {w v : World κ} (h : kept B = some (w, v)) (hk : Keeps B w v) :
    Relation.ReflTransGen (Spares B smallPlatform) (start B small 11 (by decide)) (rest w) ∧
      Collects B smallPlatform (rest w) (rest v) ∧
      Relation.ReflTransGen (Spares B smallPlatform) (start B small 11 (by decide))
        (conjunction v) ∧
      Relation.ReflTransGen (Spares B smallPlatform) (start B small 11 (by decide))
        ((conjunction v).advance B smallPlatform 20) := by
  have hcached := hk.cachedLive h
  obtain ⟨⟨u, r⟩, hr, h⟩ := Option.bind_eq_some_iff.mp h
  obtain ⟨c, hc, h⟩ := Option.bind_eq_some_iff.mp h
  obtain ⟨t, ht, h⟩ := Option.bind_eq_some_iff.mp h
  cases h
  have hlocals : ∀ w : World κ, (rest w).HeldLive := fun w p hp => absurd hp List.not_mem_nil
  have hpair := steps_smallPair B smallPlatform (Spares B smallPlatform) fun c b hd hfits =>
    ⟨⟨Or.inr (Or.inr (Or.inl hd)), fun _ => hlocals _, nofun, hfits⟩,
      fun _ => cachedLive_fresh B c 11 (by decide)⟩
  have hcall : Relation.ReflTransGen (Spares B smallPlatform) (start B small 11 (by decide))
      (conjunction (smallWorld B)) :=
    hpair.tail ⟨⟨Or.inr (Or.inr (Or.inl (.enter Client.operands_smallPair))),
      fun _ => hlocals _, nofun, (few_of_fewFor hk.few).fits⟩, nofun⟩
  have hand := hcall.trans (spares_of_advance hk.few)
  rw [eq_of_returned hr] at hand
  have hleave := hand.tail ⟨⟨Or.inr (Or.inr (Or.inl (.leave hc))), nofun,
    fun ha => absurd ha (not_assigns_of_construct hc), hk.before.fits⟩, nofun⟩
  have hgc : Collects B smallPlatform (rest { u with client := c })
      (rest (({ u with client := c } : World κ).collected B t)) := .gc 40 ht
  have hafter := hleave.tail ⟨⟨Or.inr (Or.inl hgc), fun _ => hlocals _, nofun,
    (few_of_fewFor hk.after).fits⟩, fun _ => hcached⟩
  have hagain := hafter.tail ⟨⟨Or.inr (Or.inr (Or.inl (.enter hk.operands))),
    fun _ => hlocals _, nofun, (few_of_fewFor hk.after).fits⟩, nofun⟩
  exact ⟨hleave, hgc, hagain, hagain.trans (spares_of_advance hk.after)⟩

/-- An object keeps `v0 & v1` over a collection, and the conjunction is computed again. The build
with mutexes finds it in the cache, which the collection leaves right; the other build has an
empty cache and finds the node in the table. -/
theorem coherent_of_run_small :
    (∃ (v u : World LockFreeCache), v.client.bdds = [some 3, some 5, some 9] ∧
      (conjunction v).Coherent lockFreeBuild smallPlatform ∧
      (running u (.ret 9) []).Coherent lockFreeBuild smallPlatform ∧ 9 ∈ u.table.stored) ∧
    ∃ v : World Cache, v.client.bdds = [some 3, some 5, some 9] ∧ v.Current mutexBuild ∧
      (v.lookup mutexBuild smallPlatform false .and 3 5).1 = 9 ∧ 9 ∈ v.table.stored ∧
      (v.table.heap 9).key = v.noted (v.slot mutexBuild smallPlatform .and 3 5) := by
  constructor
  · have hsome : (kept lockFreeBuild).any (fun b => decide (Keeps lockFreeBuild b.1 b.2) &&
        ((conjunction b.2).advance lockFreeBuild smallPlatform 20).returned.any
          fun d => decide (d.2 = 9)) = true := by
      decide +kernel
    obtain ⟨⟨w, v⟩, hkept, hfacts⟩ := (Option.any_eq_true _ _).mp hsome
    obtain ⟨hkeeps, hret⟩ := Bool.and_eq_true_iff.mp hfacts
    have hk := of_decide_eq_true hkeeps
    obtain ⟨⟨u, r⟩, hreturned, hr⟩ := (Option.any_eq_true _ _).mp hret
    obtain rfl : r = 9 := of_decide_eq_true hr
    obtain ⟨-, -, hcall, hrun⟩ := run_kept lockFreeBuild hkept hk
    rw [eq_of_returned hreturned] at hrun
    have hcoherent := (coherent_of_run (P := smallPlatform) (by decide) init_small 11
      (by decide)).1
    have hend := hcoherent _ (Relation.ReflTransGen.mono (fun _ _ h => h.1) _ _ hrun)
    exact ⟨v, u, hk.bdds, hcoherent _ (Relation.ReflTransGen.mono (fun _ _ h => h.1) _ _ hcall),
      hend, hend.result u 9 rfl⟩
  · have hsome : (kept mutexBuild).any (fun b => decide (Keeps mutexBuild b.1 b.2 ∧
        (b.2.lookup mutexBuild smallPlatform false .and 3 5).1 = 9)) = true := by
      decide +kernel
    obtain ⟨⟨w, v⟩, hkept, hfacts⟩ := (Option.any_eq_true _ _).mp hsome
    obtain ⟨hk, hlookup⟩ := of_decide_eq_true hfacts
    obtain ⟨hrun, hgc, hcall, -⟩ := run_kept mutexBuild hkept hk
    have hcoherent := (coherent_of_run (P := smallPlatform) (by decide) init_small 11
      (by decide)).2
    have hcurrent := (((hcoherent _ hrun).2 _ hgc fun p hp =>
      absurd hp List.not_mem_nil).mpr (hk.cachedLive hkept))
    obtain ⟨hmem, hkey⟩ := (hcoherent _ hcall).1.lookup v .and 3 5 [] rfl false
      (by rw [hlookup]; decide)
    rw [hlookup] at hmem hkey
    exact ⟨v, hk.bdds, hcurrent, hlookup, hmem, hkey⟩

end Session

end Nanobdd
