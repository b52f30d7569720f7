import Nanobdd.Cache

/-!
# The two operation caches

`Cache`, the cache of the build without `NANOBDD_LOCK_FREE_CACHE`, guards each entry with a
`std::shared_mutex`. Its `lookup` returns from a hit with the lock held, and compares the
operands of every operator in both orders. `LockFreeCache` does neither.

What both are meant to be is an array of the last insertion for each slot, and the histories of
calls for which each of them is that array are told apart here.

## Main definitions

* `SharedMutex`, `Cache` — the cache with mutexes
* `Cached`, `CacheCall`, `recentAfter` — the array of the last insertions
* `DirectMapped` — a cache is that array, and no entry is held
* `NoHit` — no lookup of the history finds anything

## Main results

* `answered_iff` — **when an answer is one to the question**
* `directMapped_iff` — **when the caches are the array**
-/

namespace Nanobdd

variable {left right node : Ptr} {op : Operator} {slot i : ℕ} {spurious : Bool}

/-! ### The cache with mutexes -/

/-- `std::shared_mutex`, whose `try_lock` and `try_lock_shared` count the locks of the calling
thread like those of any other. -/
structure SharedMutex where
  readers : ℕ := 0
  writer : Bool := false
  deriving DecidableEq, Repr

namespace SharedMutex

/-- `try_lock_shared` -/
def tryLockShared (m : SharedMutex) : Option SharedMutex :=
  if m.writer then none else some { m with readers := m.readers + 1 }

/-- `unlock_shared` -/
def unlockShared (m : SharedMutex) : SharedMutex := { m with readers := m.readers - 1 }

/-- `try_lock` -/
def tryLock (m : SharedMutex) : Option SharedMutex :=
  if m.writer || m.readers != 0 then none else some { m with writer := true }

/-- `unlock` -/
def unlock (m : SharedMutex) : SharedMutex := { m with writer := false }

/-- Nobody holds the lock. -/
def Free (m : SharedMutex) : Prop := m = {}

theorem Free.writer {m : SharedMutex} (h : m.Free) : m.writer = false := congrArg _ h

end SharedMutex

/-- `struct CacheEntry`; the vector zeroes it. -/
structure CacheEntry where
  node : Ptr := nullptr
  left : Ptr := nullptr
  right : Ptr := nullptr
  op : Operator := .and
  mutex : SharedMutex := {}
  deriving DecidableEq, Repr

/-- `Cache`. `getCache` returns `cache_` for every operator. -/
structure Cache where
  size : ℕ
  entry : ℕ → CacheEntry
  size_pos : 0 < size

namespace Cache

/-- The constructor. -/
def new (size : ℕ) (h : 0 < size) : Cache := ⟨size, fun _ => {}, h⟩

/-- Overwrite one entry. -/
def setEntry (c : Cache) (i : ℕ) (e : CacheEntry) : Cache :=
  { c with entry := fun j => if j = i then e else c.entry j }

/-- `lookup`, whose `try_lock_shared` may fail `spurious`ly. -/
def lookup (c : Cache) (spurious : Bool) (hash : ℕ) (left right : Ptr) (op : Operator) :
    Ptr × Cache :=
  let e := c.entry hash
  match if spurious then none else e.mutex.tryLockShared with
  | none => (nullptr, c)
  | some m =>
    let c := c.setEntry hash { e with mutex := m }
    if !isCommutativeOperator op && e.op == op && e.left == left && e.right == right then
      (e.node, c)
    else if e.op == op &&
        ((e.left == left && e.right == right) || (e.left == right && e.right == left)) then
      (e.node, c)
    else (nullptr, c.setEntry hash { e with mutex := m.unlockShared })

/-- `insert`, whose `try_lock` may fail `spurious`ly. -/
def insert (c : Cache) (spurious : Bool) (hash : ℕ) (node left right : Ptr) (op : Operator) :
    Cache :=
  match if spurious then none else (c.entry hash).mutex.tryLock with
  | none => c
  | some m =>
    c.setEntry hash { node := node, left := left, right := right, op := op, mutex := m.unlock }

end Cache

/-! ### What is cached -/

/-- A node with the key it was inserted for. -/
structure Cached where
  node : Ptr := nullptr
  left : Ptr := nullptr
  right : Ptr := nullptr
  op : Operator := .and
  deriving DecidableEq, Repr

namespace Cached

/-- The question is the one that was answered. -/
def Answers (e : Cached) (left right : Ptr) (op : Operator) : Prop :=
  e.op = op ∧ (e.left = left ∧ e.right = right ∨
    isCommutativeOperator op = true ∧ e.left = right ∧ e.right = left)

/-- The operands are the same, in one order or the other. -/
def Hits (e : Cached) (left right : Ptr) (op : Operator) : Prop :=
  e.op = op ∧ (e.left = left ∧ e.right = right ∨ e.left = right ∧ e.right = left)

instance (e : Cached) (left right : Ptr) (op : Operator) : Decidable (e.Hits left right op) :=
  inferInstanceAs (Decidable (_ ∧ _))

/-- The operands are the same in the wrong order, and the order matters. -/
def Exchanged (e : Cached) (left right : Ptr) (op : Operator) : Prop :=
  e.op = op ∧ isCommutativeOperator op = false ∧ e.left = right ∧ e.right = left ∧ left ≠ right

theorem hits_iff (e : Cached) (left right : Ptr) (op : Operator) :
    e.Hits left right op ↔ e.Answers left right op ∨ e.Exchanged left right op := by
  rw [Hits, Answers, Exchanged]
  by_cases hc : isCommutativeOperator op = true
  · simp [hc]
  · rw [Bool.not_eq_true] at hc
    by_cases hlr : left = right
    · simp only [hlr, hc]
      tauto
    · simp only [hc]
      tauto

theorem Exchanged.not_answers {e : Cached} (h : e.Exchanged left right op) :
    ¬ e.Answers left right op := by
  obtain ⟨-, hc, hleft, -, hne⟩ := h
  rintro ⟨-, ⟨hleft', -⟩ | ⟨hc', -⟩⟩
  · exact hne (hleft'.symm.trans hleft)
  · rw [hc] at hc'
    cases hc'

end Cached

/-- What an entry holds. -/
def Cache.cached (c : Cache) (i : ℕ) : Cached :=
  ⟨(c.entry i).node, (c.entry i).left, (c.entry i).right, (c.entry i).op⟩

@[inherit_doc Cache.cached]
def LockFreeCache.cached (c : LockFreeCache) (i : ℕ) : Cached :=
  ⟨(c.entry i).node, (c.entry i).left, (c.entry i).right, (c.entry i).op⟩

namespace Cache

variable {c : Cache}

theorem entry_setEntry (c : Cache) (i j : ℕ) (e : CacheEntry) :
    (c.setEntry i e).entry j = if j = i then e else c.entry j := rfl

/-- What holds of the new entry and of the old ones. -/
theorem forall_setEntry {p : CacheEntry → Prop} {e : CacheEntry} (he : p e)
    (h : ∀ j, p (c.entry j)) (i j : ℕ) : p ((c.setEntry i e).entry j) := by
  rw [entry_setEntry]
  split
  · exact he
  · exact h j

/-- The two branches of `lookup` are one comparison, in both orders. -/
theorem lookup_of_hits (hw : (c.entry slot).mutex.writer = false)
    (h : (c.cached slot).Hits left right op) :
    c.lookup false slot left right op = ((c.entry slot).node,
      c.setEntry slot { c.entry slot with
        mutex := ⟨(c.entry slot).mutex.readers + 1, false⟩ }) := by
  obtain ⟨hop, hkeys⟩ := h
  have hop' : (c.entry slot).op = op := hop
  have hkeys' : (c.entry slot).left = left ∧ (c.entry slot).right = right ∨
      (c.entry slot).left = right ∧ (c.entry slot).right = left := hkeys
  rw [lookup]
  simp only [Bool.false_eq_true, if_false, SharedMutex.tryLockShared, hw]
  split
  · rfl
  · rw [if_pos (by simpa [hop'] using hkeys')]

theorem lookup_of_not_hits (hw : (c.entry slot).mutex.writer = false)
    (h : ¬ (c.cached slot).Hits left right op) :
    c.lookup false slot left right op = (nullptr, c) := by
  have hkeys : ¬ ((c.entry slot).op = op ∧
      ((c.entry slot).left = left ∧ (c.entry slot).right = right ∨
        (c.entry slot).left = right ∧ (c.entry slot).right = left)) := h
  rw [lookup]
  simp only [Bool.false_eq_true, if_false, SharedMutex.tryLockShared, hw]
  rw [if_neg fun hc => hkeys ?_, if_neg fun hc => hkeys ?_]
  · congr 1
    rw [setEntry, setEntry, SharedMutex.unlockShared]
    congr 1
    funext j
    by_cases hj : j = slot
    · subst hj
      simp only [if_true, Nat.add_sub_cancel]
      rw [← hw]
    · simp [hj]
  · simpa using hc
  · simp only [Bool.and_eq_true, beq_iff_eq] at hc
    exact ⟨hc.1.1.2, Or.inl ⟨hc.1.2, hc.2⟩⟩

/-- An entry that nobody holds is overwritten. -/
theorem insert_of_free (h : (c.entry slot).mutex.Free) : c.insert false slot node left right op =
    c.setEntry slot { node := node, left := left, right := right, op := op } := by
  rw [SharedMutex.Free] at h
  rw [insert, h]
  rfl

/-- An entry that is held stays as it is. -/
theorem insert_of_held (h : (c.entry slot).mutex.tryLock = none) :
    c.insert spurious slot node left right op = c := by
  rw [insert, h]
  cases spurious <;> rfl

end Cache

/-! ### Histories -/

/-- A call of one of the caches. -/
inductive CacheCall
  | lookup (slot : ℕ) (left right : Ptr) (op : Operator)
  | insert (slot : ℕ) (node left right : Ptr) (op : Operator)
  deriving DecidableEq, Repr

/-- Another value at one place. -/
def place (f : ℕ → Option Cached) (i : ℕ) (e : Cached) : ℕ → Option Cached :=
  fun j => if j = i then some e else f j

/-- The cache with mutexes, and for each entry the last insertion that got its lock. -/
structure Traced where
  cache : Cache
  author : ℕ → Option Cached

namespace Traced

/-- One call, which may fail `spurious`ly. -/
def perform (t : Traced) : CacheCall × Bool → Traced
  | (.lookup slot left right op, spurious) =>
    { t with cache := (t.cache.lookup spurious slot left right op).2 }
  | (.insert slot node left right op, spurious) =>
    { cache := t.cache.insert spurious slot node left right op
      author :=
        if spurious || (t.cache.entry slot).mutex.tryLock.isNone then t.author
        else place t.author slot ⟨node, left, right, op⟩ }

/-- A whole history, from a fresh cache. -/
def after (size : ℕ) (h : 0 < size) (history : List (CacheCall × Bool)) : Traced :=
  history.foldl perform ⟨.new size h, fun _ => none⟩

/-- An entry holds what its author has inserted, and nobody writes between two calls. -/
structure Sound (t : Traced) : Prop where
  writer : ∀ i, (t.cache.entry i).mutex.writer = false
  cached : ∀ i, t.cache.cached i = (t.author i).getD {}

variable {t : Traced}

theorem Sound.lookup (h : t.Sound) (spurious : Bool) (slot : ℕ) (left right : Ptr)
    (op : Operator) : (t.perform (.lookup slot left right op, spurious)).Sound := by
  cases spurious with
  | true => exact h
  | false =>
    by_cases hhits : (t.cache.cached slot).Hits left right op
    · rw [perform, Cache.lookup_of_hits (h.writer slot) hhits]
      refine ⟨fun i => ?_, fun i => ?_⟩
      · rw [Cache.entry_setEntry]
        split
        · rfl
        · exact h.writer i
      · rw [← h.cached i]
        rw [Cache.cached, Cache.cached, Cache.entry_setEntry]
        split
        · next hi => rw [hi]
        · rfl
    · rw [perform, Cache.lookup_of_not_hits (h.writer slot) hhits]
      exact h

theorem Sound.insert (h : t.Sound) (spurious : Bool) (slot : ℕ) (node left right : Ptr)
    (op : Operator) : (t.perform (.insert slot node left right op, spurious)).Sound := by
  rw [perform]
  cases hlock : (t.cache.entry slot).mutex.tryLock with
  | none =>
    rw [Cache.insert_of_held hlock, Option.isNone_none, Bool.or_true, if_pos rfl]
    exact h
  | some m =>
    cases spurious with
    | true => exact h
    | false =>
      have hfree : (t.cache.entry slot).mutex.Free := by
        rw [SharedMutex.tryLock] at hlock
        split at hlock
        · cases hlock
        · next hnot =>
          have hreaders : (t.cache.entry slot).mutex.readers = 0 := by
            simpa [h.writer slot] using hnot
          rw [SharedMutex.Free, ← h.writer slot, ← hreaders]
      rw [Cache.insert_of_free hfree]
      refine ⟨fun i => ?_, fun i => ?_⟩
      · rw [Cache.entry_setEntry]
        split
        · rfl
        · exact h.writer i
      · rw [Cache.cached, Cache.entry_setEntry]
        by_cases hi : i = slot
        · simp [hi, place]
        · simp only [Option.isNone_some, Bool.or_false, Bool.false_eq_true, if_false, place, hi]
          exact h.cached i

theorem Sound.perform (h : t.Sound) (call : CacheCall × Bool) : (t.perform call).Sound := by
  obtain ⟨_ | _, spurious⟩ := call
  · exact h.lookup ..
  · exact h.insert ..

/-- **The run lemma.** -/
theorem sound_after (size : ℕ) (h : 0 < size) (history : List (CacheCall × Bool)) :
    (after size h history).Sound := by
  induction history using List.reverseRecOn with
  | nil => exact ⟨fun _ => rfl, fun _ => rfl⟩
  | append_singleton history call ih =>
    rw [after, List.foldl_append]
    exact ih.perform call

/-- An author is one of the insertions of the history. -/
theorem mem_of_author {size : ℕ} {h : 0 < size} {history : List (CacheCall × Bool)} {e : Cached}
    (he : (after size h history).author slot = some e) :
    (.insert slot e.node e.left e.right e.op, false) ∈ history := by
  induction history using List.reverseRecOn with
  | nil => cases he
  | append_singleton history call ih =>
    rw [after, List.foldl_append] at he
    rw [List.mem_append, List.mem_singleton]
    obtain ⟨call, spurious⟩ := call
    cases call with
    | lookup => exact Or.inl (ih he)
    | insert i node left right op =>
      simp only [List.foldl_cons, List.foldl_nil, Traced.perform] at he
      cases spurious with
      | true => exact Or.inl (ih he)
      | false =>
        split at he
        · exact Or.inl (ih he)
        · rw [place] at he
          split at he
          · next hi =>
            cases he
            exact Or.inr (hi ▸ rfl)
          · exact Or.inl (ih he)

end Traced

/-- **Soundness on keys**, for any history of calls and any lookup after it. A node that is
returned was stored by the last insertion that got the lock of the entry, and this insertion was
for the operator and the operands of the lookup, if and only if the insertion was not for a
non-commutative operator and the operands the other way round. -/
theorem answered_iff (size : ℕ) (h : 0 < size) (history : List (CacheCall × Bool)) (slot : ℕ)
    (left right : Ptr) (op : Operator) :
    (((Traced.after size h history).cache.lookup false slot left right op).1 ≠ nullptr →
        ∃ e, (Traced.after size h history).author slot = some e ∧
          (.insert slot e.node e.left e.right e.op, false) ∈ history ∧
          e.node = ((Traced.after size h history).cache.lookup false slot left right op).1 ∧
          e.Answers left right op) ↔
      ∀ e, (Traced.after size h history).author slot = some e → e.node ≠ nullptr →
        ¬ e.Exchanged left right op := by
  set t := Traced.after size h history with ht
  have hsound : t.Sound := Traced.sound_after size h history
  have hwriter := hsound.writer slot
  have hcached := hsound.cached slot
  constructor
  · intro hanswer e he hnode hex
    rw [he, Option.getD_some] at hcached
    have hout : (t.cache.lookup false slot left right op).1 = e.node := by
      rw [Cache.lookup_of_hits hwriter]
      · exact congrArg Cached.node hcached
      · rw [hcached, Cached.hits_iff]
        exact Or.inr hex
    obtain ⟨e', he', -, -, hans⟩ := hanswer (hout ▸ hnode)
    rw [he] at he'
    cases he'
    exact hex.not_answers hans
  · intro hex hout
    by_cases hhits : (t.cache.cached slot).Hits left right op
    · rw [Cache.lookup_of_hits hwriter hhits] at hout ⊢
      cases he : t.author slot with
      | none =>
        rw [he] at hcached
        exact absurd (congrArg Cached.node hcached) hout
      | some e =>
        rw [he, Option.getD_some] at hcached
        have hnode : e.node = (t.cache.entry slot).node := (congrArg Cached.node hcached).symm
        rw [hcached, Cached.hits_iff] at hhits
        exact ⟨e, rfl, Traced.mem_of_author he, hnode,
          hhits.resolve_right (hex e he (hnode ▸ hout))⟩
    · rw [Cache.lookup_of_not_hits hwriter hhits] at hout
      exact absurd rfl hout

/-- The difference of `1` and `2` is `7`, and that of `2` and `1` is looked up. -/
theorem not_answered : ∃ history : List (CacheCall × Bool),
    ((Traced.after 1 Nat.one_pos history).cache.lookup false 0 2 1 .diff).1 = 7 ∧
      ∀ e : Cached, (CacheCall.insert 0 e.node e.left e.right e.op, false) ∈ history →
        ¬ e.Answers 2 1 .diff := by
  refine ⟨[(.insert 0 7 1 2 .diff, false)], by decide, fun e he => ?_⟩
  rw [List.mem_singleton] at he
  injection he with he
  injection he with _ _ hleft hright _
  rintro ⟨-, ⟨hl, -⟩ | ⟨hc, -⟩⟩
  · rw [hleft] at hl
    exact absurd hl (by decide)
  · exact absurd hc (by decide)

/-- The right order is found. -/
theorem answered_iff_small : ∃ e, (Traced.after 1 Nat.one_pos
      [(.insert 0 7 1 2 .diff, false)]).author 0 = some e ∧ e.node = 7 ∧ e.Answers 1 2 .diff := by
  have hauthor : (Traced.after 1 Nat.one_pos [(.insert 0 7 1 2 .diff, false)]).author 0 =
      some ⟨7, 1, 2, .diff⟩ := rfl
  obtain ⟨e, he, -, hnode, hans⟩ := (answered_iff 1 Nat.one_pos [(.insert 0 7 1 2 .diff, false)] 0
    1 2 .diff).mpr (fun e he _ hex => by
      rw [hauthor] at he
      cases he
      exact absurd hex.2.2.1 (by decide)) (by decide)
  exact ⟨e, he, hnode, hans⟩

/-! ### The array of the last insertions -/

/-- The last insertions after a history that started with `recent`. -/
def recentAfter (recent : ℕ → Option Cached) : List CacheCall → ℕ → Option Cached
  | [] => recent
  | .lookup .. :: history => recentAfter recent history
  | .insert slot node left right op :: history =>
    recentAfter (place recent slot ⟨node, left, right, op⟩) history

/-- No lookup of the history asks for what the entry holds: neither for the key of the last
insertion, nor for that of an entry that was never written. -/
def NoHitFrom (recent : ℕ → Option Cached) : List CacheCall → Prop
  | [] => True
  | .lookup slot left right op :: history =>
    ¬ ((recent slot).getD {}).Hits left right op ∧ NoHitFrom recent history
  | .insert slot node left right op :: history =>
    NoHitFrom (place recent slot ⟨node, left, right, op⟩) history

/-- No lookup of a history hits, from a fresh cache. -/
def NoHit (history : List CacheCall) : Prop := NoHitFrom (fun _ => none) history

/-- A cache is the array of the last insertions: they are stored, they are found, and nobody holds
an entry. -/
structure DirectMapped (recent : ℕ → Option Cached) (cached : ℕ → Cached)
    (lookup : ℕ → Ptr → Ptr → Operator → Ptr) (free : ℕ → Prop) : Prop where
  stored : ∀ i e, recent i = some e → cached i = e
  found : ∀ i e, recent i = some e → lookup i e.left e.right e.op = e.node
  free : ∀ i, free i

namespace Cache

variable {c : Cache} {recent : ℕ → Option Cached}

/-- One call, which does not fail spuriously. -/
def perform (c : Cache) : CacheCall → Cache
  | .lookup slot left right op => (c.lookup false slot left right op).2
  | .insert slot node left right op => c.insert false slot node left right op

/-- The cache is the array. -/
def Maps (c : Cache) (recent : ℕ → Option Cached) : Prop :=
  DirectMapped recent c.cached (fun i left right op => (c.lookup false i left right op).1)
    fun i => (c.entry i).mutex.Free

/-- Every entry is what was inserted last, and free. -/
structure Faithful (c : Cache) (recent : ℕ → Option Cached) : Prop where
  cached : ∀ i, c.cached i = (recent i).getD {}
  free : ∀ i, (c.entry i).mutex.Free

theorem Faithful.maps (h : c.Faithful recent) : c.Maps recent := by
  have hstored : ∀ i e, recent i = some e → c.cached i = e := fun i e he => by
    rw [h.cached, he, Option.getD_some]
  refine ⟨hstored, fun i e he => ?_, h.free⟩
  have hhits : (c.cached i).Hits e.left e.right e.op := by
    rw [hstored i e he]
    exact ⟨rfl, Or.inl ⟨rfl, rfl⟩⟩
  show (c.lookup false i e.left e.right e.op).1 = e.node
  rw [lookup_of_hits (h.free i).writer hhits]
  exact congrArg Cached.node (hstored i e he)

/-- A free entry is overwritten. -/
theorem Faithful.insert (h : c.Faithful recent) (slot : ℕ) (node left right : Ptr)
    (op : Operator) :
    (c.insert false slot node left right op).Faithful
      (place recent slot ⟨node, left, right, op⟩) := by
  rw [insert_of_free (h.free slot)]
  refine ⟨fun i => ?_, forall_setEntry (p := fun e => e.mutex = {}) rfl h.free slot⟩
  rw [Cache.cached, entry_setEntry, place]
  by_cases hi : i = slot
  · simp [hi]
  · simp only [hi, if_false]
    exact h.cached i

/-- Somebody reads an entry, and never stops. -/
def Stuck (c : Cache) (i : ℕ) : Prop :=
  0 < (c.entry i).mutex.readers ∧ ∀ j, (c.entry j).mutex.writer = false

theorem Stuck.perform (h : c.Stuck i) (call : CacheCall) : (c.perform call).Stuck i := by
  obtain ⟨hpos, hw⟩ := h
  cases call with
  | lookup slot left right op =>
    by_cases hhits : (c.cached slot).Hits left right op
    · rw [Cache.perform, lookup_of_hits (hw slot) hhits]
      refine ⟨?_, forall_setEntry (p := fun e => e.mutex.writer = false) rfl hw slot⟩
      rw [entry_setEntry]
      split
      · exact Nat.succ_pos _
      · exact hpos
    · rw [Cache.perform, lookup_of_not_hits (hw slot) hhits]
      exact ⟨hpos, hw⟩
  | insert slot node left right op =>
    by_cases hlock : (c.entry slot).mutex.tryLock = none
    · rw [Cache.perform, insert_of_held hlock]
      exact ⟨hpos, hw⟩
    · have hreaders : (c.entry slot).mutex.readers = 0 := by
        by_contra hne
        exact hlock (by simp [SharedMutex.tryLock, hne])
      have hfree : (c.entry slot).mutex.Free := by
        rw [SharedMutex.Free, ← hw slot, ← hreaders]
      have hne : i ≠ slot := fun he => by
        rw [he, hreaders] at hpos
        exact absurd hpos (lt_irrefl 0)
      rw [Cache.perform, insert_of_free hfree]
      refine ⟨?_, forall_setEntry (p := fun e => e.mutex.writer = false) rfl hw slot⟩
      rw [entry_setEntry, if_neg hne]
      exact hpos

theorem Stuck.run (h : c.Stuck i) (history : List CacheCall) :
    (history.foldl Cache.perform c).Stuck i := by
  induction history generalizing c with
  | nil => exact h
  | cons call history ih => exact ih (h.perform call)

theorem Stuck.not_maps (h : c.Stuck i) : ¬ c.Maps recent := fun hm => by
  have hfree : (c.entry i).mutex.Free := hm.free i
  rw [SharedMutex.Free] at hfree
  have hpos := h.1
  rw [hfree] at hpos
  exact absurd hpos (lt_irrefl 0)

/-- A hit returns with the lock. -/
theorem Faithful.stuck (h : c.Faithful recent)
    (hhits : ((recent slot).getD {}).Hits left right op) :
    (c.lookup false slot left right op).2.Stuck slot := by
  have hw : ∀ j, (c.entry j).mutex.writer = false := fun j => (h.free j).writer
  rw [lookup_of_hits (hw slot) (by rwa [h.cached])]
  refine ⟨?_, forall_setEntry (p := fun e => e.mutex.writer = false) rfl hw slot⟩
  rw [entry_setEntry, if_pos rfl]
  exact Nat.succ_pos _

/-- **The cache with mutexes is the array as long as nothing is found in it.** -/
theorem Faithful.maps_iff (h : c.Faithful recent) (history : List CacheCall) :
    (history.foldl Cache.perform c).Maps (recentAfter recent history) ↔
      NoHitFrom recent history := by
  induction history generalizing c recent with
  | nil => exact ⟨fun _ => trivial, fun _ => h.maps⟩
  | cons call history ih =>
    cases call with
    | lookup slot left right op =>
      rw [List.foldl_cons, recentAfter, NoHitFrom, Cache.perform]
      by_cases hhits : ((recent slot).getD {}).Hits left right op
      · exact ⟨fun hm => absurd hm ((h.stuck hhits).run history).not_maps,
          fun hno => absurd hhits hno.1⟩
      · rw [lookup_of_not_hits (h.free slot).writer (by rwa [h.cached]), ih h]
        exact ⟨fun hno => ⟨hhits, hno⟩, And.right⟩
    | insert slot node left right op => exact ih (h.insert slot node left right op)

end Cache

namespace LockFreeCache

variable {c : LockFreeCache} {recent : ℕ → Option Cached}

/-- One call, which does not fail spuriously. -/
def perform (c : LockFreeCache) : CacheCall → LockFreeCache
  | .lookup slot left right op => (c.lookup slot left right op).2
  | .insert slot node left right op => c.insert false slot node left right op

/-- The cache is the array. -/
def Maps (c : LockFreeCache) (recent : ℕ → Option Cached) : Prop :=
  DirectMapped recent c.cached (fun i left right op => (c.lookup i left right op).1)
    fun i => (c.entry i).useCount = 0

/-- Every entry is what was inserted last, and free. -/
structure Faithful (c : LockFreeCache) (recent : ℕ → Option Cached) : Prop where
  cached : ∀ i, c.cached i = (recent i).getD {}
  free : ∀ i, (c.entry i).useCount = 0

theorem Faithful.maps (h : c.Faithful recent) : c.Maps recent := by
  have hstored : ∀ i e, recent i = some e → c.cached i = e := fun i e he => by
    rw [h.cached, he, Option.getD_some]
  refine ⟨hstored, fun i e he => ?_, h.free⟩
  have hnode : (c.entry i).node = e.node := congrArg Cached.node (hstored i e he)
  have hleft : (c.entry i).left = e.left := congrArg Cached.left (hstored i e he)
  have hright : (c.entry i).right = e.right := congrArg Cached.right (hstored i e he)
  have hop : (c.entry i).op = e.op := congrArg Cached.op (hstored i e he)
  have hanswers : (c.entry i).answers e.left e.right e.op = true := by
    rw [LockFreeCacheEntry.answers, hleft, hright, hop]
    cases isCommutativeOperator e.op <;> simp
  have hlocked : (c.entry i).useCount ≠ -1 := by
    rw [h.free i]
    decide
  show (c.lookup i e.left e.right e.op).1 = e.node
  rw [lookup]
  by_cases hnull : (c.entry i).node = nullptr
  · rw [if_pos hnull, ← hnode, hnull]
  · simp only [hnull, hlocked, hanswers, if_false, if_true]
    exact hnode

theorem Faithful.perform (h : c.Faithful recent) (call : CacheCall) :
    (c.perform call).Faithful (recentAfter recent [call]) := by
  cases call with
  | lookup slot left right op =>
    rw [LockFreeCache.perform, lookup_snd]
    exact h
  | insert slot node left right op =>
    rw [LockFreeCache.perform, insert, if_pos ⟨h.free slot, rfl⟩, recentAfter, recentAfter]
    refine ⟨fun i => ?_, fun i => ?_⟩
    · rw [LockFreeCache.cached, place]
      simp only [setEntry]
      by_cases hi : i = slot
      · simp [hi]
      · simp only [hi, if_false]
        exact h.cached i
    · simp only [setEntry]
      split
      · rfl
      · exact h.free i

/-- **The lock-free cache is the array.** -/
theorem Faithful.run (h : c.Faithful recent) (history : List CacheCall) :
    (history.foldl LockFreeCache.perform c).Faithful (recentAfter recent history) := by
  induction history generalizing c recent with
  | nil => exact h
  | cons call history ih =>
    have hnext := ih (h.perform call)
    cases call with
    | lookup => exact hnext
    | insert => exact hnext

end LockFreeCache

/-- **The same direct-mapped cache.** For every history of calls on two fresh caches of one size,
none of which fails without a reason: the lock-free cache is the array of the last insertions,
and the cache with mutexes is it if and only if no lookup of the history finds anything. -/
theorem directMapped_iff (size : ℕ) (h : 0 < size) (history : List CacheCall) :
    (history.foldl LockFreeCache.perform (.new size h)).Maps
        (recentAfter (fun _ => none) history) ∧
      ((history.foldl Cache.perform (.new size h)).Maps (recentAfter (fun _ => none) history) ↔
        NoHit history) := by
  have hlock : (LockFreeCache.new size h).Faithful fun _ => none := ⟨fun _ => rfl, fun _ => rfl⟩
  have hmutex : (Cache.new size h).Faithful fun _ => none := ⟨fun _ => rfl, fun _ => rfl⟩
  exact ⟨(hlock.run history).maps, hmutex.maps_iff history⟩

/-- Two insertions into one entry, and a miss in between. -/
theorem directMapped_iff_small :
    ([.insert 0 7 1 2 .and, .lookup 0 1 3 .and, .insert 0 8 3 4 .or].foldl Cache.perform
      (.new 1 Nat.one_pos)).Maps (recentAfter (fun _ => none)
        [.insert 0 7 1 2 .and, .lookup 0 1 3 .and, .insert 0 8 3 4 .or]) := by
  refine (directMapped_iff 1 Nat.one_pos _).2.mpr ⟨?_, trivial⟩
  show ¬ (Cached.mk 7 1 2 .and).Hits 1 3 .and
  decide

/-- After a hit, an insertion into the entry is lost, and the entry is never free again. -/
theorem not_directMapped : ∃ history : List CacheCall,
    recentAfter (fun _ => none) history 0 = some ⟨8, 3, 4, .or⟩ ∧
      ((history.foldl Cache.perform (.new 1 Nat.one_pos)).lookup false 0 3 4 .or).1 = nullptr ∧
      ((history.foldl Cache.perform (.new 1 Nat.one_pos)).entry 0).mutex = ⟨1, false⟩ := by
  refine ⟨[.insert 0 7 1 2 .and, .lookup 0 1 2 .and, .insert 0 8 3 4 .or], rfl, ?_, ?_⟩
  · decide
  · decide

end Nanobdd
