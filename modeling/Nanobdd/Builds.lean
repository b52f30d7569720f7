import Nanobdd.CacheSound
import Nanobdd.MutexCache
import Nanobdd.Programs

/-!
# Two builds

`NANOBDD_LOCK_FREE_CACHE` decides which cache the operators use, and whether `gcLocked` empties
it. A `Build` is what the operators and `gcLocked` see of a cache, with the few laws that both
caches obey; the source has two of them.

A `Session` is a program in one of the builds. Its table is that of a `Client`, and the field
`cache` of this table is not used: the cache stands beside it. So do the keys the nodes in the
cache had when they were inserted, which the program does not know.

## Main definitions

* `State.collectNodes` — `gcLocked` up to the `#ifdef`
* `Build`, `lockFreeBuild`, `mutexBuild` — the two caches
* `Session`, `Work`, `Collects`, `Drives`, `Assigns` — a program, and its steps

## Main results

* `State.gcLocked_eq_collectNodes` — `gcLocked` of the default build is `collectNodes` and an
  empty cache
* `Session.work_of_next` — the steps of an operator can be computed
-/

namespace Nanobdd

variable {P : Platform} {s s' t : State} {c d : Option LockFreeCache} {fuel : ℕ}

/-! ### The table without the cache -/

theorem Node.SameKey.key_eq {n n' : Node} (h : n.SameKey n') : n.key = n'.key := by
  rw [Node.key, Node.key, h.1, h.2.1, h.2.2]

/-- `HASH_UO_O_3` or `HASH_O_3` of the operands and the operator, modulo the size. -/
def hashSlot (P : Platform) (size : ℕ) (op : Operator) (x y : Ptr) : ℕ :=
  match op with
  | .and | .or | .xor => hashUoO3 (P.addr x) (P.addr y) op.toNat % size
  | .not => hashUoO3 (P.addr x) 0 op.toNat % size
  | .diff | .imp => hashO3 (P.addr x) (P.addr y) op.toNat % size

namespace State

theorem hashVal_eq (P : Platform) (c : LockFreeCache) (op : Operator) (x y : Ptr) :
    hashVal P c op x y = hashSlot P c.size op x y := by
  cases op <;> rfl

/-- The rest of `gcLocked`, up to `#ifdef NANOBDD_LOCK_FREE_CACHE`. -/
def releaseNodes (s : State) (freed : List Ptr) : State :=
  let r := s.allocator.freeAll s.heap freed
  { s with allocator := r.1, heap := r.2, nodeCount := s.nodeCount - freed.length }

/-- `gcLocked` up to `#ifdef NANOBDD_LOCK_FREE_CACHE`. -/
def collectNodes (fuel : ℕ) (s : State) : Option State := do
  let s ← s.markPhase fuel
  let r := s.sweepPhase
  some (r.1.unmarkPhase.releaseNodes r.2)

/-- The same table with another cache. -/
def withCache (s : State) (c : Option LockFreeCache) : State := { s with cache := c }

/-- **`gcLocked` of the default build.** -/
theorem gcLocked_eq_collectNodes {c : LockFreeCache} (hc : s.cache = some c) (fuel : ℕ) :
    s.gcLocked fuel =
      (s.collectNodes fuel).map fun t => t.withCache (some c.invalidateAll) := by
  rw [gcLocked, collectNodes, markPhase]
  cases (List.range s.tableSize).foldlM (fun h i => markNodesUnsafe fuel h (s.buckets i))
      s.heap with
  | none => rfl
  | some h =>
    have hcache : ({ s with heap := h } : State).sweepPhase.1.unmarkPhase.cache = some c := hc
    exact releasePhase_eq hcache _

/-! Nothing here looks at the cache. -/

theorem collectNodes_withCache (s : State) (c : Option LockFreeCache) (fuel : ℕ) :
    (s.withCache c).collectNodes fuel = (s.collectNodes fuel).map fun t => t.withCache c := by
  rw [collectNodes, collectNodes, markPhase, markPhase]
  show Option.bind (Option.map _ (List.foldlM (fun h i => markNodesUnsafe fuel h (s.buckets i))
    s.heap (List.range s.tableSize))) _ = _
  cases (List.range s.tableSize).foldlM (fun h i => markNodesUnsafe fuel h (s.buckets i)) s.heap
  · rfl
  · rfl

theorem rehash_withCache (P : Platform) (s : State) (c : Option LockFreeCache) (l : List Ptr) :
    rehash P (s.withCache c) l = (rehash P s l).withCache c := by
  induction l generalizing s with
  | nil => rfl
  | cons p l ih => exact ih (s.pushBack (s.home P p) p)

theorem growBucketsLocked_withCache (P : Platform) (s : State) (c : Option LockFreeCache)
    (newSize : ℕ) : (s.withCache c).growBucketsLocked P newSize =
      (s.growBucketsLocked P newSize).withCache c := by
  by_cases hle : newSize ≤ s.tableSize
  · have hle' : newSize ≤ (s.withCache c).tableSize := hle
    rw [growBucketsLocked, growBucketsLocked, if_pos hle, if_pos hle']
  · have hle' : ¬ newSize ≤ (s.withCache c).tableSize := hle
    rw [growBucketsLocked, growBucketsLocked, if_neg hle, if_neg hle']
    exact rehash_withCache P { s with buckets := fun _ => [], tableSize := newSize } c s.stored

theorem growToPrime_withCache (P : Platform) (s : State) (c : Option LockFreeCache) :
    (s.withCache c).growToPrime P = (s.growToPrime P).withCache c :=
  growBucketsLocked_withCache P { s with clock := s.clock + 1 } c _

theorem extend_withCache (P : Platform) (s : State) (c : Option LockFreeCache) :
    (s.withCache c).extend P = (s.extend P).withCache c := by
  have hgrow : ∀ u : State, (if (u.withCache c).shouldGrowBucketsLocked then
      (u.withCache c).growToPrime P else u.withCache c) =
        (if u.shouldGrowBucketsLocked then u.growToPrime P else u).withCache c := fun u => by
    have hload : (u.withCache c).shouldGrowBucketsLocked = u.shouldGrowBucketsLocked := rfl
    rw [hload, growToPrime_withCache]
    split <;> rfl
  by_cases hfree : s.allocator.hasFreeSlot = true
  · have hfree' : (s.withCache c).allocator.hasFreeSlot = true := hfree
    simp only [extend, hfree, hfree', if_true]
    exact hgrow s
  · have hfree' : ¬ (s.withCache c).allocator.hasFreeSlot = true := hfree
    simp only [extend, hfree, hfree']
    exact hgrow s.growSlab

theorem maybeGrowBuckets_withCache (P : Platform) (s : State) (c : Option LockFreeCache) :
    (s.withCache c).maybeGrowBuckets P = (s.maybeGrowBuckets P).withCache c := by
  set u : State := { s with clock := s.clock + 1 } with hu
  have hfails : P.fails (s.withCache c).clock = P.fails s.clock := rfl
  have hload : (u.withCache c).shouldGrowBucketsLocked = u.shouldGrowBucketsLocked := rfl
  show (if P.fails (s.withCache c).clock then u.withCache c
    else if (u.withCache c).shouldGrowBucketsLocked then (u.withCache c).growToPrime P
    else u.withCache c) =
      (if P.fails s.clock then u else if u.shouldGrowBucketsLocked then u.growToPrime P
        else u).withCache c
  rw [hfails, hload, growToPrime_withCache]
  split
  · rfl
  · split <;> rfl

theorem getOrCreateOnce_withCache (P : Platform) (s : State) (c : Option LockFreeCache)
    (level : ℕ) (low high : Ptr) : (s.withCache c).getOrCreateOnce P level low high =
      (s.getOrCreateOnce P level low high).map fun r => (r.1, r.2.withCache c) := by
  cases hf : s.find (s.hash P level low high) level low high with
  | some p =>
    have hf' : (s.withCache c).find ((s.withCache c).hash P level low high) level low high =
      some p := hf
    simp only [getOrCreateOnce, hf, hf', Option.map_some]
  | none =>
    have hf' : (s.withCache c).find ((s.withCache c).hash P level low high) level low high =
      none := hf
    cases ha : s.allocator.allocate s.heap level low high with
    | none =>
      have ha' : (s.withCache c).allocator.allocate (s.withCache c).heap level low high = none := ha
      simp only [getOrCreateOnce, allocate, hf, hf', ha, ha', Option.map_none]
    | some r =>
      have ha' : (s.withCache c).allocator.allocate (s.withCache c).heap level low high =
        some r := ha
      set t : State := { s with allocator := r.2.1, heap := r.2.2 } with ht
      have hallocate : s.allocate level low high = some (r.1, t) := by
        rw [allocate, ha]
        rfl
      have hallocate' : (s.withCache c).allocate level low high = some (r.1, t.withCache c) := by
        rw [allocate, ha']
        rfl
      cases hi : t.find (s.hash P level low high) level low high with
      | some q =>
        have hi' : (t.withCache c).find ((s.withCache c).hash P level low high) level low high =
          some q := hi
        simp only [getOrCreateOnce, hf, hf', hallocate, hallocate', insertIfAbsent, hi, hi',
          Option.map_some]
        rfl
      | none =>
        have hi' : (t.withCache c).find ((s.withCache c).hash P level low high) level low high =
          none := hi
        simp only [getOrCreateOnce, hf, hf', hallocate, hallocate', insertIfAbsent, hi, hi',
          Option.map_some]
        rw [← maybeGrowBuckets_withCache]
        rfl

end State

/-! ### The two caches -/

/-- A cache as the operators and `gcLocked` see it. The flags are compare-exchanges and
`try_lock`s that fail without a reason. -/
structure Build (κ : Type) where
  new : (size : ℕ) → 0 < size → κ
  size : κ → ℕ
  lookup : κ → Bool → ℕ → Ptr → Ptr → Operator → Ptr × κ
  insert : κ → Bool → ℕ → Ptr → Ptr → Ptr → Operator → κ
  /-- What `gcLocked` does to the cache. -/
  clear : κ → κ
  /-- What an entry holds. -/
  cached : κ → ℕ → Cached
  /-- Whether an insertion gets to its entry. -/
  writes : κ → Bool → ℕ → Bool
  cached_new : ∀ size h i, cached (new size h) i = {}
  lookup_fst : ∀ c f slot left right op, (lookup c f slot left right op).1 ≠ nullptr →
    (lookup c f slot left right op).1 = (cached c slot).node
  cached_lookup : ∀ c f slot left right op i,
    cached (lookup c f slot left right op).2 i = cached c i
  cached_insert : ∀ c f slot node left right op i,
    cached (insert c f slot node left right op) i =
      if writes c f slot = true ∧ i = slot then ⟨node, left, right, op⟩ else cached c i
  cached_clear : ∀ c i, (cached (clear c) i).node ≠ nullptr → cached (clear c) i = cached c i

theorem LockFreeCache.cached_insert (c : LockFreeCache) (f : Bool) (slot : ℕ)
    (node left right : Ptr) (op : Operator) (i : ℕ) :
    (c.insert f slot node left right op).cached i =
      if decide ((c.entry slot).useCount = 0 ∧ f = false) = true ∧ i = slot then
        ⟨node, left, right, op⟩
      else c.cached i := by
  rw [insert]
  by_cases hw : (c.entry slot).useCount = 0 ∧ f = false
  · rw [if_pos hw, LockFreeCache.cached, setEntry_entry]
    by_cases hi : i = slot
    · rw [if_pos hi, if_pos ⟨decide_eq_true hw, hi⟩]
    · rw [if_neg hi, if_neg fun h => hi h.2]
      rfl
  · rw [if_neg hw, if_neg fun h => hw (of_decide_eq_true h.1)]

/-- The build with `NANOBDD_LOCK_FREE_CACHE`. -/
def lockFreeBuild : Build LockFreeCache where
  new := .new
  size c := c.size
  lookup c _ := c.lookup
  insert c := c.insert
  clear c := c.invalidateAll
  cached c := c.cached
  writes c f slot := decide ((c.entry slot).useCount = 0 ∧ f = false)
  cached_new _ _ _ := rfl
  lookup_fst _ _ _ _ _ _ h := (LockFreeCache.lookup_fst h).1
  cached_lookup c _ slot left right op i := by rw [c.lookup_snd]
  cached_insert := LockFreeCache.cached_insert
  cached_clear _ _ h := absurd rfl h

namespace Cache

variable {c : Cache} {f : Bool} {slot i : ℕ} {node left right : Ptr} {op : Operator}

/-- Locks are not part of what is cached. -/
theorem cached_setMutex (c : Cache) (slot : ℕ) (m : SharedMutex) (i : ℕ) :
    (c.setEntry slot { c.entry slot with mutex := m }).cached i = c.cached i := by
  rw [cached, cached, entry_setEntry]
  split
  · next hi => rw [hi]
  · rfl

theorem lookup_fst (h : (c.lookup f slot left right op).1 ≠ nullptr) :
    (c.lookup f slot left right op).1 = (c.cached slot).node := by
  rw [lookup] at h ⊢
  split at h
  · exact absurd rfl h
  · simp only at h ⊢
    split at h
    · next hkey => rw [if_pos hkey]; rfl
    · next hkey =>
      rw [if_neg hkey]
      split at h
      · next hkeys => rw [if_pos hkeys]; rfl
      · exact absurd rfl h

theorem cached_lookup (c : Cache) (f : Bool) (slot : ℕ) (left right : Ptr) (op : Operator)
    (i : ℕ) : (c.lookup f slot left right op).2.cached i = c.cached i := by
  rw [lookup]
  split
  · rfl
  · next m _ =>
    simp only
    split
    · exact cached_setMutex c slot m i
    · split
      · exact cached_setMutex c slot m i
      · rw [← cached_setMutex c slot m.unlockShared i, cached, cached, entry_setEntry,
          entry_setEntry, entry_setEntry]
        split <;> rfl

theorem cached_insert (c : Cache) (f : Bool) (slot : ℕ) (node left right : Ptr) (op : Operator)
    (i : ℕ) : (c.insert f slot node left right op).cached i =
      if (if f then none else (c.entry slot).mutex.tryLock).isSome = true ∧ i = slot then
        ⟨node, left, right, op⟩
      else c.cached i := by
  rw [insert]
  cases (if f then none else (c.entry slot).mutex.tryLock) with
  | none => simp
  | some m =>
    rw [cached, entry_setEntry]
    by_cases hi : i = slot
    · simp [hi]
    · rw [if_neg hi, if_neg fun h => hi h.2]
      rfl

end Cache

/-- The build without `NANOBDD_LOCK_FREE_CACHE`: a collection leaves the cache alone. -/
def mutexBuild : Build Cache where
  new := .new
  size c := c.size
  lookup c := c.lookup
  insert c := c.insert
  clear c := c
  cached c := c.cached
  writes c f slot := (if f then none else (c.entry slot).mutex.tryLock).isSome
  cached_new _ _ _ := rfl
  lookup_fst _ _ _ _ _ _ h := Cache.lookup_fst h
  cached_lookup := Cache.cached_lookup
  cached_insert := Cache.cached_insert
  cached_clear _ _ _ := rfl

/-! ### Sessions -/

/-- A program in a build with the cache `κ`, and the key each cached node had when it was
inserted. -/
structure World (κ : Type) where
  client : Client
  cache : κ
  noted : ℕ → Key

/-- A program between two operators, or inside one. -/
inductive Session (κ : Type)
  | rest (w : World κ)
  | running (w : World κ) (control : Control) (stack : List Frame)

variable {κ : Type}

namespace World

variable (B : Build κ) (P : Platform) (w : World κ)

/-- The objects of a program, with an empty cache. -/
def fresh (c : Client) (size : ℕ) (h : 0 < size) : World κ :=
  ⟨c, B.new size h, fun _ => ⟨0, nullptr, nullptr⟩⟩

/-- The node table. -/
def table : State := w.client.table

/-- The same program with another table. -/
def withTable (s : State) : World κ := { w with client := { w.client with table := s } }

/-- The slot of the cache an operator uses. -/
def slot (op : Operator) (x y : Ptr) : ℕ := hashSlot P (B.size w.cache) op x (op.right y)

/-- `cache->lookup(hashVal, x, y, op)` -/
def lookup (f : Bool) (op : Operator) (x y : Ptr) : Ptr × World κ :=
  let r := B.lookup w.cache f (w.slot B P op x y) x (op.right y) op
  (r.1, { w with cache := r.2 })

/-- `cache->insert(hashVal, res, x, y, op)` -/
def insert (f : Bool) (op : Operator) (res x y : Ptr) : World κ :=
  { client := { w.client with table := { w.table with clock := w.table.clock + 1 } }
    cache := B.insert w.cache f (w.slot B P op x y) res x (op.right y) op
    noted := fun i =>
      if B.writes w.cache f (w.slot B P op x y) = true ∧ i = w.slot B P op x y then
        (w.table.heap res).key
      else w.noted i }

/-- A finished `gcLocked`, with the table it leaves. -/
def collected (s : State) : World κ := { w.withTable s with cache := B.clear w.cache }

end World

namespace Session

/-- One step of a program inside an operator, but for `performMaintenance`. -/
inductive Work (B : Build κ) (P : Platform) : Session κ → Session κ → Prop
  | terminal {w op x y r k} : w.table.terminal op x y = some r →
      Work B P (.running w (.call op x y) k) (.running w (.ret r) k)
  | hit {w op x y k} (f : Bool) : w.table.terminal op x y = none →
      (w.lookup B P f op x y).1 ≠ nullptr →
      Work B P (.running w (.call op x y) k)
        (.running (w.lookup B P f op x y).2 (.ret (w.lookup B P f op x y).1) k)
  | miss {w op x y k} (f : Bool) : w.table.terminal op x y = none →
      (w.lookup B P f op x y).1 = nullptr →
      Work B P (.running w (.call op x y) k)
        (.running (w.lookup B P f op x y).2
          (.call op.child (w.table.negCof x (w.table.topLevel op x y))
            (op.right (w.table.negCof y (w.table.topLevel op x y))))
          (.low op x y (w.table.topLevel op x y) :: k))
  | second {w op x y m fLow k} :
      Work B P (.running w (.ret fLow) (.low op x y m :: k))
        (.running w (.call op.child (w.table.posCof x m) (op.right (w.table.posCof y m)))
          (.high op x y m fLow :: k))
  | equal {w op x y m r k} :
      Work B P (.running w (.ret r) (.high op x y m r :: k)) (.running w (.insert op x y r) k)
  | differ {w op x y m fLow fHigh k} : fLow ≠ fHigh →
      Work B P (.running w (.ret fHigh) (.high op x y m fLow :: k))
        (.running w (.create op x y m fLow fHigh) k)
  | create {w t op x y m fLow fHigh res k} :
      w.table.getOrCreateOnce P m fLow fHigh = some (res, t) →
      Work B P (.running w (.create op x y m fLow fHigh) k)
        (.running (w.withTable t) (.insert op x y res) k)
  | exhaust {w op x y m fLow fHigh k} : w.table.AllocFails P m fLow fHigh →
      Work B P (.running w (.create op x y m fLow fHigh) k)
        (.running w (.maintain op x y m fLow fHigh) k)
  | insert {w op x y res k} (f : Bool) :
      Work B P (.running w (.insert op x y res) k)
        (.running (w.insert B P f op res x y) (.ret res) k)

/-- A step that runs `gcLocked`. -/
inductive Collects (B : Build κ) (P : Platform) : Session κ → Session κ → Prop
  | gc {w t} (fuel : ℕ) : w.table.collectNodes fuel = some t →
      Collects B P (.rest w) (.rest (w.collected B t))
  | maintain {w t op x y m fLow fHigh k} (fuel : ℕ) : w.table.collectNodes fuel = some t →
      Collects B P (.running w (.maintain op x y m fLow fHigh) k)
        (.running (w.collected B (t.extend P)) (.create op x y m fLow fHigh) k)

/-- What a program does with its objects: an action on them, a call of an operator, and the
constructor that takes the result. -/
inductive Drives (P : Platform) : Session κ → Session κ → Prop
  | act {w c} (a : Action) (fuel : ℕ) : Client.OnObjects a →
      (∀ p, a = .construct p → p ∈ w.table.stored) → w.client.exec P fuel a = some c →
      Drives P (.rest w) (.rest { w with client := c })
  | enter {w op i j x y} : w.client.operands op i j = some (x, y) →
      Drives P (.rest w) (.running w (.call op x y) [])
  | leave {w c r} : w.client.construct r = some c →
      Drives P (.running w (.ret r) []) (.rest { w with client := c })

/-- A compound assignment writes the result to `root_` and touches no counter. Which object it is
written to depends on the call; here it is any. -/
inductive Assigns : Session κ → Session κ → Prop
  | assign {w p r} (i : ℕ) : w.client.root i = some p →
      Assigns (.running w (.ret r) []) (.rest { w with client := w.client.setRoot i (some r) })

/-- Any step. -/
def Step (B : Build κ) (P : Platform) (a b : Session κ) : Prop :=
  Work B P a b ∨ Collects B P a b ∨ Drives P a b ∨ Assigns a b

/-- A program right after `init`, with an empty cache. -/
def start (B : Build κ) (s : State) (size : ℕ) (h : 0 < size) : Session κ :=
  .rest (.fresh B (Client.start s) size h)

/-- Everything but the recursion. -/
def world : Session κ → World κ
  | rest w => w
  | running w _ _ => w

/-- The step of an operator in which nothing fails without a reason. -/
def next (B : Build κ) (P : Platform) : Session κ → Option (Session κ)
  | rest _ => none
  | running w (.call op x y) k =>
    match w.table.terminal op x y with
    | some r => some (running w (.ret r) k)
    | none =>
      let l := w.lookup B P false op x y
      let m := w.table.topLevel op x y
      if l.1 = nullptr then
        some (running l.2 (.call op.child (w.table.negCof x m) (op.right (w.table.negCof y m)))
          (.low op x y m :: k))
      else some (running l.2 (.ret l.1) k)
  | running w (.ret fLow) (.low op x y m :: k) =>
    some (running w (.call op.child (w.table.posCof x m) (op.right (w.table.posCof y m)))
      (.high op x y m fLow :: k))
  | running w (.ret fHigh) (.high op x y m fLow :: k) =>
    if fLow = fHigh then some (running w (.insert op x y fLow) k)
    else some (running w (.create op x y m fLow fHigh) k)
  | running _ (.ret _) [] => none
  | running w (.create op x y m fLow fHigh) k =>
    match w.table.getOrCreateOnce P m fLow fHigh with
    | some r => some (running (w.withTable r.2) (.insert op x y r.1) k)
    | none => some (running w (.maintain op x y m fLow fHigh) k)
  | running _ (.maintain ..) _ => none
  | running w (.insert op x y res) k => some (running (w.insert B P false op res x y) (.ret res) k)

theorem work_of_next {B : Build κ} {a b : Session κ} (h : a.next B P = some b) : Work B P a b := by
  cases a with
  | rest w => cases h
  | running w control k =>
    cases control with
    | call op x y =>
      simp only [Session.next] at h
      split at h
      · next r ht =>
        cases h
        exact .terminal ht
      · next ht =>
        split at h <;> cases h
        · next hl => exact .miss false ht hl
        · next hl => exact .hit false ht hl
    | create op x y m fLow fHigh =>
      simp only [Session.next] at h
      split at h <;> cases h
      · next hc => exact .create hc
      · next hc => exact .exhaust hc
    | maintain op x y m fLow fHigh => cases h
    | insert op x y res =>
      cases h
      exact .insert false
    | ret r =>
      cases k with
      | nil => cases h
      | cons frame k =>
        cases frame with
        | low op x y m =>
          cases h
          exact .second
        | high op x y m fLow =>
          simp only [Session.next] at h
          split at h <;> cases h
          · next he =>
            subst he
            exact .equal
          · next hne => exact .differ hne

variable {B : Build κ} {a b : Session κ} {w : World κ} {r : Ptr}

/-- At most `n` steps of an operator. -/
def advance (B : Build κ) (P : Platform) : ℕ → Session κ → Session κ
  | 0, a => a
  | n + 1, a =>
    match a.next B P with
    | some b => b.advance B P n
    | none => a

theorem steps_of_advance (B : Build κ) (P : Platform) (n : ℕ) (a : Session κ) :
    Relation.ReflTransGen (Step B P) a (a.advance B P n) := by
  induction n generalizing a with
  | zero => exact .refl
  | succ n ih =>
    rw [advance]
    split
    · next b hb => exact (ih b).head (Or.inl (work_of_next hb))
    · exact .refl

/-- The result of an operator that has returned. -/
def returned : Session κ → Option (World κ × Ptr)
  | running w (.ret r) [] => some (w, r)
  | _ => none

theorem eq_of_returned (h : a.returned = some (w, r)) : a = running w (.ret r) [] := by
  rw [returned.eq_def] at h
  split at h <;> cases h
  rfl

end Session

end Nanobdd
