import Nanobdd.InitSpec
import Nanobdd.Lib.Threads
import Nanobdd.Lib.Transition

/-!
# The unique table under many threads

`getOrCreateNode` for any number of threads, as the sequence of its locked regions. A thread
holds `tableMutex_` shared from the search in the bucket until its node is counted, and the
table may change between any two of its steps; growth, `gc` and `performMaintenance` hold it
exclusively. `allocate` and `free` are atomic here.

Handles change the counters at any time, with no lock. A collection reads each counter once
while it marks and once while it sweeps, so what it sees is a change just before that phase.

## Main definitions

* `Place`, `Turn` — where a thread is, and what it does next
* `InOrder` — what the table promises in every state
* `Settles` — the step in which a call fixes its result

## Main results

* `inOrder_of_run` — the table is in order in every reachable state, and two calls for one key
  return one pointer while its node stays stored
* `run_of_getOrCreateNode` — a thread that runs alone computes `getOrCreateNode`
-/

namespace Nanobdd

open NodeAllocator LinkedList

/-- What holds the table exclusively for a collection. -/
inductive Job
  | gc
  /-- `performMaintenance` in the loop of the call for this key. -/
  | maintenance (k : Key)
  deriving DecidableEq, Repr

/-- Where a thread is. The arguments are the local variables that are still needed. -/
inductive Place
  /-- Outside of the table. -/
  | idle
  /-- At the head of the loop, without the lock. -/
  | enter (k : Key)
  | find (k : Key) (idx : ℕ)
  | allocate (k : Key) (idx : ℕ)
  | insert (k : Key) (idx : ℕ) (candidate : Ptr)
  /-- Another thread was first, with `node`. -/
  | recycle (k : Key) (candidate node : Ptr)
  /-- The node is stored and not yet counted. -/
  | count (k : Key) (node : Ptr)
  /-- The shared lock is released; `maybeGrowBuckets` is next. -/
  | grow (k : Key) (node : Ptr)
  | returned (k : Key) (node : Ptr)
  /-- Waiting for the exclusive lock. -/
  | lock (j : Job)
  | mark (j : Job)
  | sweep (j : Job)
  | finish (j : Job)
  deriving DecidableEq, Repr

/-- The node has this key. -/
def Key.Of (k : Key) (n : Node) : Prop := n.level = k.level ∧ n.low = k.low ∧ n.high = k.high

namespace Place

/-- The thread is in no call. -/
def Outside : Place → Prop
  | idle | returned .. => True
  | _ => False

/-- The thread holds `tableMutex_` shared. -/
def Shared : Place → Prop
  | find .. | allocate .. | insert .. | recycle .. | count .. => True
  | _ => False

/-- The thread holds `tableMutex_` exclusively. -/
def Exclusive : Place → Prop
  | mark _ | sweep _ | finish _ => True
  | _ => False

/-- The thread holds `tableMutex_`. -/
def Holds (l : Place) : Prop := l.Shared ∨ l.Exclusive

/-- The node the thread has allocated and not inserted. -/
def candidate : Place → Option Ptr
  | insert _ _ p | recycle _ p _ => some p
  | _ => none

/-- How many nodes the thread has inserted and not counted. -/
def uncounted : Place → ℕ
  | count .. => 1
  | _ => 0

/-- The result of the call, once it is fixed. -/
def result : Place → Option (Key × Ptr)
  | recycle k _ p | count k p | grow k p | returned k p => some (k, p)
  | _ => none

end Place

namespace State

/-- `Bucket::find` for a key. -/
def findKey (s : State) (idx : ℕ) (k : Key) : Option Ptr := s.find idx k.level k.low k.high

/-- `NodeTable::hash` of a key. -/
def hashKey (P : Platform) (s : State) (k : Key) : ℕ := s.hash P k.level k.low k.high

/-- What `maybeGrowBuckets` does with the lock. -/
def growOwned (P : Platform) (s : State) : State :=
  let s' := { s with clock := s.clock + 1 }
  if s'.shouldGrowBucketsLocked then s'.growToPrime P else s'

end State

/-- One step of a thread, given where the others are. -/
inductive Turn (P : Platform) (others : Place → Prop) : State × Place → State × Place → Prop
  /-- Call `getOrCreateNode`. -/
  | call {s l} (k : Key) : l.Outside → Turn P others (s, l) (s, .enter k)
  /-- Call `gc`. -/
  | gc {s l} : l.Outside → Turn P others (s, l) (s, .lock .gc)
  | enter {s k} : (∀ o, others o → ¬ o.Exclusive) →
      Turn P others (s, .enter k) (s, .find k (s.hashKey P k))
  | hit {s k idx p} : s.findKey idx k = some p →
      Turn P others (s, .find k idx) (s, .returned k p)
  | miss {s k idx} : s.findKey idx k = none →
      Turn P others (s, .find k idx) (s, .allocate k idx)
  | allocate {s s' k idx p} : s.allocate k.level k.low k.high = some (p, s') →
      Turn P others (s, .allocate k idx) (s', .insert k idx p)
  | exhaust {s k idx} : s.allocate k.level k.low k.high = none →
      Turn P others (s, .allocate k idx) (s, .lock (.maintenance k))
  | won {s s' k idx p q} : s.insertIfAbsent idx k.level k.low k.high p = (q, true, s') →
      Turn P others (s, .insert k idx p) (s', .count k q)
  | lost {s s' k idx p q} : s.insertIfAbsent idx k.level k.low k.high p = (q, false, s') →
      Turn P others (s, .insert k idx p) (s', .recycle k p q)
  | recycle {s k p q} : Turn P others (s, .recycle k p q) (s.free p, .returned k q)
  | count {s k p} :
      Turn P others (s, .count k p) ({ s with nodeCount := s.nodeCount + 1 }, .grow k p)
  /-- `try_to_lock` fails, for a reason or for none. -/
  | busy {s k p} : Turn P others (s, .grow k p) ({ s with clock := s.clock + 1 }, .returned k p)
  | grow {s k p} : (∀ o, others o → ¬ o.Holds) →
      Turn P others (s, .grow k p) (s.growOwned P, .returned k p)
  | lock {s j} : (∀ o, others o → ¬ o.Holds) → Turn P others (s, .lock j) (s, .mark j)
  | mark {s s' j} (fuel : ℕ) : s.markPhase fuel = some s' →
      Turn P others (s, .mark j) (s', .sweep j)
  | sweep {s s' j} : s.sweepPhase.1.unmarkPhase.releasePhase s.sweepPhase.2 = some s' →
      Turn P others (s, .sweep j) (s', .finish j)
  | leave {s} : Turn P others (s, .finish .gc) (s, .idle)
  | extend {s k} : Turn P others (s, .finish (.maintenance k)) (s.extend P, .enter k)

/-- Handles in any thread have changed counters. -/
def Recounts (s s' : State) : Prop := ∃ counts, s' = s.recount counts

variable {T : Type*} [DecidableEq T] {P : Platform} {s s' : State} {l l' o : Place} {k : Key}
  {p q : Ptr} {idx : ℕ} {others : Place → Prop}

/-- One step of the program. -/
abbrev TableStep (P : Platform) : Pool T State Place → Pool T State Place → Prop :=
  Pool.Step (Turn P) Recounts

/-! ### The invariant -/

namespace Place

/-- What a thread knows. The lock makes it last. -/
def Fits (P : Platform) (s : State) : Place → Prop
  | find k idx | allocate k idx => idx = s.hashKey P k
  | insert k idx p => idx = s.hashKey P k ∧ p ∉ s.stored ∧ k.Of (s.heap p)
  | recycle _ p _ => p ∉ s.stored
  | _ => True

/-- What keeps two threads apart: the lock, and their candidates. -/
def Apart (l o : Place) : Prop :=
  (l.Exclusive → ¬ o.Holds) ∧ ∀ p, l.candidate = some p → o.candidate ≠ some p

theorem shared_of_candidate (h : l.candidate = some p) : l.Shared := by
  cases l <;> simp [candidate, Shared] at h ⊢

theorem shared_of_uncounted (h : l.uncounted ≠ 0) : l.Shared := by
  cases l <;> simp [uncounted, Shared] at h ⊢

theorem Fits.of_not_shared (h : ¬ l.Shared) : l.Fits P s := by
  cases l <;> simp [Fits, Shared] at h ⊢

/-- **Frame.** What a thread knows depends on the size of the table and on its candidate. -/
theorem Fits.congr (h : l.Fits P s) (hsize : s'.tableSize = s.tableSize)
    (hcand : ∀ p, l.candidate = some p →
      (p ∉ s.stored → p ∉ s'.stored) ∧ (s'.heap p).SameKey (s.heap p)) : l.Fits P s' := by
  have hhash : ∀ k, s'.hashKey P k = s.hashKey P k := fun k => by
    rw [State.hashKey, State.hashKey, State.hash, State.hash, hsize]
  cases l with
  | find k idx => exact h.trans (hhash k).symm
  | allocate k idx => exact h.trans (hhash k).symm
  | insert k idx p =>
    obtain ⟨hidx, hp, hkey⟩ := h
    obtain ⟨hp', hsame⟩ := hcand p rfl
    refine ⟨hidx.trans (hhash k).symm, hp' hp, ?_⟩
    exact ⟨hsame.1.trans hkey.1, hsame.2.1.trans hkey.2.1, hsame.2.2.trans hkey.2.2⟩
  | recycle k p q => exact (hcand p rfl).1 h
  | _ => trivial

theorem Apart.of_not_holds (hl : ¬ l.Holds) : l.Apart o :=
  ⟨fun h => absurd (Or.inr h) hl, fun _ h => absurd (Or.inl (shared_of_candidate h)) hl⟩

theorem Apart.of_not_holds_right (ho : ¬ o.Holds) : l.Apart o :=
  ⟨fun _ => ho, fun _ _ h => absurd (Or.inl (shared_of_candidate h)) ho⟩

/-- Only the lock and the candidate matter. -/
theorem Apart.congr_left (h : l.Apart o) (hx : l'.Exclusive → l.Exclusive)
    (hc : ∀ p, l'.candidate = some p → l.candidate = some p) : l'.Apart o :=
  ⟨fun hl => h.1 (hx hl), fun p hp => h.2 p (hc p hp)⟩

theorem Apart.congr_right (h : l.Apart o) {o' : Place} (hx : o'.Holds → o.Holds)
    (hc : ∀ p, o'.candidate = some p → o.candidate = some p) : l.Apart o' :=
  ⟨fun hl ho => h.1 hl (hx ho), fun p hp hp' => h.2 p hp (hc p hp')⟩

end Place

/-- The table as one thread sees it. `lag` counts the nodes that the others have stored and not
yet counted. -/
structure View (P : Platform) (others : Place → Prop) (lag : ℕ) (s : State) (l : Place) :
    Prop where
  hashed : s.Hashed P
  alloc : ∃ fl, s.allocator.AllocInv s.heap
    (fun p => p ∈ s.stored ∨ l.candidate = some p ∨ ∃ o, others o ∧ o.candidate = some p) fl
  cache : ∃ c, s.cache = some c
  fits : l.Fits P s
  apart : ∀ o, others o → o.Fits P s ∧ l.Apart o ∧ o.Apart l
  count : s.nodeCount + (l.uncounted + lag) = s.stored.length

namespace View

variable {lag : ℕ}

/-- A step that changes nothing but the place. -/
theorem walk (h : View P others lag s l) (hf : l'.Fits P s)
    (ha : ∀ o, others o → l'.Apart o ∧ o.Apart l')
    (hc : ∀ p, l'.candidate = some p → l.candidate = some p) (hu : l'.uncounted = l.uncounted) :
    View P others lag s l' := by
  obtain ⟨fl, hfl⟩ := h.alloc
  refine ⟨h.hashed, ⟨fl, hfl.mono ?_⟩, h.cache, hf, fun o ho => ⟨(h.apart o ho).1, ha o ho⟩,
    by rw [hu]; exact h.count⟩
  rintro p (hp | hp | hp)
  · exact Or.inl hp
  · exact Or.inr (Or.inl (hc p hp))
  · exact Or.inr (Or.inr hp)

/-- The same, for a step that takes no lock. -/
theorem stay (h : View P others lag s l) (hf : l'.Fits P s) (hh : l'.Holds → l.Holds)
    (hx : l'.Exclusive → l.Exclusive) (hc : ∀ p, l'.candidate = some p → l.candidate = some p)
    (hu : l'.uncounted = l.uncounted) : View P others lag s l' :=
  h.walk hf (fun o ho => ⟨(h.apart o ho).2.1.congr_left hx hc,
    (h.apart o ho).2.2.congr_right hh hc⟩) hc hu

/-- A step of a thread without lock and candidate. -/
theorem release (h : View P others lag s l) (hl : ¬ l'.Holds) (hu : l'.uncounted = l.uncounted) :
    View P others lag s l' :=
  h.stay (.of_not_shared fun hs => hl (Or.inl hs)) (fun hh => absurd hh hl)
    (fun hx => absurd (Or.inr hx) hl)
    (fun _ hp => absurd (Or.inl (Place.shared_of_candidate hp)) hl) hu

/-- What a thread sees while no other thread holds the lock. -/
theorem alone (ho : ∀ o, others o → ¬ o.Holds)
    (hl : l'.candidate = none) (hhashed : s'.Hashed P)
    (halloc : ∃ fl, s'.allocator.AllocInv s'.heap (· ∈ s'.stored) fl)
    (hcache : ∃ c, s'.cache = some c) (hf : l'.Fits P s')
    (hcount : s'.nodeCount + (l'.uncounted + lag) = s'.stored.length) :
    View P others lag s' l' := by
  obtain ⟨fl, hfl⟩ := halloc
  refine ⟨hhashed, ⟨fl, hfl.mono ?_⟩, hcache, hf, fun o hoo => ⟨.of_not_shared fun hs =>
    ho o hoo (Or.inl hs), .of_not_holds_right (ho o hoo), .of_not_holds (ho o hoo)⟩, hcount⟩
  rintro p (hp | hp | ⟨o, hoo, hp⟩)
  · exact hp
  · rw [hl] at hp
    exact absurd hp (by simp)
  · exact absurd (Or.inl (Place.shared_of_candidate hp)) (ho o hoo)

/-- The allocator's invariant without the candidates. -/
theorem alloc_stored (h : View P others lag s l) :
    ∃ fl, s.allocator.AllocInv s.heap (· ∈ s.stored) fl := by
  obtain ⟨fl, hfl⟩ := h.alloc
  exact ⟨fl, hfl.mono fun p hp => Or.inl hp⟩

/-- `allocate` resets a slot that is neither stored nor a candidate. -/
theorem allocate (h : View P others lag s (.allocate k idx))
    (ha : s.allocate k.level k.low k.high = some (p, s')) :
    View P others lag s' (.insert k idx p) ∧
      ∀ q ∈ s.stored, (s'.heap q).SameKey (s.heap q) := by
  obtain ⟨fl, hfl⟩ := h.alloc
  rcases hfl.allocate k.level k.low k.high with
    ⟨hnull, -⟩ | ⟨p', a', fl', hp', hfresh, hinv, -⟩
  · rw [State.allocate, hnull] at ha
    exact absurd ha (by simp)
  · rw [State.allocate, hp', Option.map_some, Option.some_inj, Prod.mk.injEq] at ha
    obtain ⟨rfl, rfl⟩ := ha
    have hframe : ∀ q, q ≠ p' →
        (s.heap.resetNode p' k.level k.low k.high) q = s.heap q := fun q hq =>
      Heap.resetNode_of_ne hq
    have hstored : p' ∉ s.stored := fun hp => hfresh (Or.inl hp)
    have hkey : ∀ q, q ≠ p' →
        ((s.heap.resetNode p' k.level k.low k.high) q).SameKey (s.heap q) := fun q hq => by
      rw [hframe q hq]
      exact Node.SameKey.refl _
    refine ⟨⟨h.hashed.congr rfl rfl fun q hq => hkey q fun he => hstored (he ▸ hq),
      ⟨fl', hinv.mono ?_⟩, h.cache, ⟨h.fits, hstored, ?_⟩, fun o ho => ?_, h.count⟩,
      fun q hq => hkey q fun he => hstored (he ▸ hq)⟩
    · rintro q (hq | hq | hq)
      · exact Or.inr (Or.inl hq)
      · exact Or.inl (Option.some_inj.mp hq).symm
      · exact Or.inr (Or.inr (Or.inr hq))
    · show k.Of ((s.heap.resetNode p' k.level k.low k.high) p')
      rw [Heap.resetNode_self]
      exact ⟨rfl, rfl, rfl⟩
    · obtain ⟨hof, hlo, hol⟩ := h.apart o ho
      have hne : o.candidate ≠ some p' := fun hc => hfresh (Or.inr (Or.inr ⟨o, ho, hc⟩))
      refine ⟨hof.congr rfl fun q hq => ⟨id, hkey q ?_⟩, ⟨fun hx => hx.elim, ?_⟩, ⟨?_, ?_⟩⟩
      · rintro rfl
        exact hne hq
      · intro q hq
        rw [← Option.some_inj.mp hq]
        exact hne
      · exact fun hx hh => hol.1 hx (hh.imp id id)
      · rintro q hq hq'
        rw [← Option.some_inj.mp hq'] at hq
        exact hne hq

/-- Winning the insertion. -/
theorem won (h : View P others lag s (.insert k idx p))
    (hi : s.insertIfAbsent idx k.level k.low k.high p = (q, true, s')) :
    View P others lag s' (.count k q) ∧ s'.heap = s.heap ∧ q ∈ s'.stored ∧ k.Of (s'.heap q) ∧
      s.findKey idx k = none ∧ ∀ r ∈ s.stored, r ∈ s'.stored := by
  obtain ⟨hidx, hp, hkey⟩ := h.fits
  rw [State.insertIfAbsent] at hi
  split at hi
  · simp at hi
  · next hnone =>
    simp only [Prod.mk.injEq, true_and] at hi
    obtain ⟨rfl, rfl⟩ := hi
    have hhome : s.home P p = idx := by
      rw [hidx, State.home, hkey.1, hkey.2.1, hkey.2.2]
      rfl
    have hlt : idx < s.tableSize := by
      rw [hidx]
      exact h.hashed.hash_lt _ _ _
    have hperm := State.pushBack_stored (s := s) hlt p
    have hpush : (s.pushBack idx p).Hashed P := by
      rw [← hhome]
      refine h.hashed.pushBack hp fun r hr hsame => ?_
      have hnone' : s.find (s.hash P k.level k.low k.high) k.level k.low k.high = none := by
        rw [← hnone, hidx]
        rfl
      exact h.hashed.find_eq_none_iff.mp hnone' r hr
        ⟨hsame.1.trans hkey.1, hsame.2.1.trans hkey.2.1, hsame.2.2.trans hkey.2.2⟩
    have hmem : ∀ r, r ∈ (s.pushBack idx p).stored ↔ r = p ∨ r ∈ s.stored := fun r =>
      hperm.mem_iff.trans List.mem_cons
    obtain ⟨fl, hfl⟩ := h.alloc
    refine ⟨⟨hpush, ⟨fl, hfl.mono ?_⟩, h.cache, trivial, fun o ho => ?_, ?_⟩, rfl,
      (hmem p).mpr (Or.inl rfl), hkey, hnone, fun r hr => (hmem r).mpr (Or.inr hr)⟩
    · rintro r (hr | hr | hr)
      · rcases (hmem r).mp hr with rfl | hr
        · exact Or.inr (Or.inl rfl)
        · exact Or.inl hr
      · exact absurd hr (by simp [Place.candidate])
      · exact Or.inr (Or.inr hr)
    · obtain ⟨hof, hlo, hol⟩ := h.apart o ho
      refine ⟨hof.congr rfl fun r hr => ⟨fun hnot hr' => ?_, Node.SameKey.refl _⟩,
        hlo.congr_left (fun hx => hx.elim) (fun _ hr => absurd hr (by simp [Place.candidate])),
        hol.congr_right (fun _ => Or.inl trivial)
          (fun _ hr => absurd hr (by simp [Place.candidate]))⟩
      rcases (hmem r).mp hr' with rfl | hr'
      · exact hlo.2 r rfl hr
      · exact hnot hr'
    · have hcount := h.count
      rw [hperm.length_eq, List.length_cons, ← hcount]
      show s.nodeCount + (1 + lag) = s.nodeCount + (0 + lag) + 1
      omega

/-- Giving back the losing candidate. -/
theorem recycle (h : View P others lag s (.recycle k p q)) :
    View P others lag (s.free p) (.returned k q) ∧
      ∀ r ∈ s.stored, ((s.free p).heap r).SameKey (s.heap r) := by
  obtain ⟨fl, hfl⟩ := h.alloc
  have hp : p ∉ s.stored := h.fits
  have hused : p ∈ s.stored ∨ (Place.recycle k p q).candidate = some p ∨
      ∃ o, others o ∧ o.candidate = some p := Or.inr (Or.inl rfl)
  have hp0 := hfl.used_pos p hused
  have hframe : ∀ r, r ≠ p → (s.free p).heap r = s.heap r := fun r hr => by
    show (s.allocator.free s.heap p).2 r = _
    rw [AllocInv.free_heap hp0, if_neg hr]
  have hkey : ∀ r, r ≠ p → ((s.free p).heap r).SameKey (s.heap r) := fun r hr => by
    rw [hframe r hr]
    exact Node.SameKey.refl _
  refine ⟨⟨h.hashed.congr rfl rfl fun r hr => hkey r fun he => hp (he ▸ hr), ⟨p :: fl, ?_⟩,
    h.cache, trivial, fun o ho => ?_, h.count⟩, fun r hr => hkey r fun he => hp (he ▸ hr)⟩
  · refine hfl.free hused ?_
    rintro r (hr | hr | ⟨o, ho, hr⟩)
    · exact ⟨Or.inl hr, fun he => hp (he ▸ hr)⟩
    · exact absurd hr (by simp [Place.candidate])
    · refine ⟨Or.inr (Or.inr ⟨o, ho, hr⟩), ?_⟩
      rintro rfl
      exact (h.apart o ho).2.1.2 r rfl hr
  · obtain ⟨hof, hlo, hol⟩ := h.apart o ho
    refine ⟨hof.congr rfl fun r hr => ⟨id, hkey r ?_⟩, .of_not_holds ?_, .of_not_holds_right ?_⟩
    · rintro rfl
      exact hlo.2 r rfl hr
    · exact fun hh => hh.elim id id
    · exact fun hh => hh.elim id id

/-- The places of two threads do not change, and nothing they know about does. -/
theorem congr (h : View P others lag s l) (hb : s'.buckets = s.buckets)
    (ht : s'.tableSize = s.tableSize) (ha : s'.allocator = s.allocator)
    (hc : s'.cache = s.cache) (hn : s'.nodeCount = s.nodeCount)
    (hh : ∀ p, (s'.heap p).SameKey (s.heap p) ∧ (s'.heap p).nextFree = (s.heap p).nextFree) :
    View P others lag s' l := by
  have hstored := State.stored_congr hb ht
  have hfits : ∀ o : Place, o.Fits P s → o.Fits P s' := fun o ho =>
    ho.congr ht fun p _ => ⟨fun hp => by rwa [hstored], (hh p).1⟩
  obtain ⟨fl, hfl⟩ := h.alloc
  refine ⟨h.hashed.congr hb ht fun p _ => (hh p).1, ⟨fl, ?_⟩, by rw [hc]; exact h.cache,
    hfits l h.fits, fun o ho => ⟨hfits o (h.apart o ho).1, (h.apart o ho).2⟩,
    by rw [hn, hstored]; exact h.count⟩
  rw [ha, hstored]
  exact hfl.congr fun p _ => (hh p).2

/-- Counting the inserted node. -/
theorem count_node (h : View P others lag s (.count k p)) :
    View P others lag { s with nodeCount := s.nodeCount + 1 } (.grow k p) := by
  obtain ⟨fl, hfl⟩ := h.alloc
  refine ⟨h.hashed.congr rfl rfl fun q _ => Node.SameKey.refl _, ⟨fl, hfl⟩, h.cache, trivial,
    fun o ho => ?_, ?_⟩
  · obtain ⟨hof, -, -⟩ := h.apart o ho
    exact ⟨hof.congr rfl fun q _ => ⟨id, Node.SameKey.refl _⟩,
      .of_not_holds fun hh => hh.elim id id, .of_not_holds_right fun hh => hh.elim id id⟩
  · have hcount := h.count
    show s.nodeCount + 1 + (0 + lag) = s.stored.length
    rw [← hcount]
    show _ = s.nodeCount + (1 + lag)
    omega

/-- Growth of the bucket array, by a thread that holds the lock exclusively. -/
theorem rebucket (h : View P others lag s l) (ho : ∀ o, others o → ¬ o.Holds)
    (hs : s'.Hashed P) (hr : State.Rebucketed s s') (hl : l'.candidate = none)
    (hf : l'.Fits P s') (hu : l'.uncounted = l.uncounted) : View P others lag s' l' := by
  obtain ⟨fl, hfl⟩ := h.alloc_stored
  refine alone ho hl hs ⟨fl, ?_⟩ (by rw [hr.cache_eq]; exact h.cache) hf ?_
  · rw [hr.allocator_eq, hr.heap_eq]
    exact hfl.mono fun p hp => hr.mem_iff.mp hp
  · rw [hr.nodeCount_eq, hr.perm.length_eq, hu]
    exact h.count

/-- A new slab, while the lock is held exclusively. -/
theorem growSlab (h : View P others lag s l) (ho : ∀ o, others o → ¬ o.Holds)
    (hl : l.candidate = none) : View P others lag s.growSlab l := by
  obtain ⟨fl, hfl⟩ := h.alloc_stored
  exact alone ho hl (h.hashed.congr rfl rfl fun _ _ => Node.SameKey.refl _)
    ⟨fl, hfl.grow.1⟩ h.cache (h.fits.congr rfl fun _ _ => ⟨id, Node.SameKey.refl _⟩) h.count

/-- The others hold nothing while this thread holds the lock exclusively. -/
theorem not_holds (h : View P others lag s l) (hl : l.Exclusive) :
    ∀ o, others o → ¬ o.Holds := fun o ho => (h.apart o ho).2.1.1 hl

/-- **The subtraction of a collection does not wrap around.** -/
theorem removed_le (h : View P others lag s l) (hlag : lag = 0) (hl : l.uncounted = 0) :
    s.sweepPhase.2.length ≤ s.nodeCount := by
  have hcount := h.count
  rw [hl, hlag, Nat.add_zero] at hcount
  rw [State.sweepPhase_eq, hcount]
  exact List.length_filter_le _ _

/-- The second half of a collection. -/
theorem sweep {j : Job} (h : View P others lag s (.sweep j)) (hlag : lag = 0)
    (hr : s.sweepPhase.1.unmarkPhase.releasePhase s.sweepPhase.2 = some s') :
    View P others lag s' (.finish j) ∧
      ∀ p ∈ s'.stored, (s'.heap p).SameKey (s.heap p) := by
  obtain ⟨c, hc⟩ := h.cache
  obtain ⟨fl, hfl⟩ := h.alloc_stored
  obtain ⟨t, ht, hcol, hinv⟩ :=
    State.collected_of_release hc hfl (fun p hp => hp) h.hashed.nodup s.heap.marks
  have hself : s.remark s.heap.marks = s := rfl
  rw [hself, hr, Option.some_inj] at ht
  subst ht
  have hkeys : ∀ p ∈ s'.stored, (s'.heap p).SameKey (s.heap p) := fun p hp => by
    rw [hcol.heap_eq hp]
    exact ⟨rfl, rfl, rfl⟩
  refine ⟨alone (h.not_holds trivial) rfl (h.hashed.collected hcol) ⟨_, hinv.mono ?_⟩ ?_ trivial ?_,
    hkeys⟩
  · intro p hp
    obtain ⟨hmem, hdead⟩ := hcol.mem_iff.mp hp
    refine ⟨hmem, fun hp' => ?_⟩
    have hdead' := (List.mem_filter.mp hp').2
    rw [hdead] at hdead'
    exact absurd hdead' (by simp)
  · obtain ⟨c', -, hc'⟩ := hcol.cache
    exact ⟨_, hc'⟩
  · have hcount := h.count
    rw [hlag] at hcount ⊢
    have hsplit := List.length_eq_length_filter_add (l := s.stored)
      (fun p => !s.heap.marks p && (s.heap p).refCount == 0)
    rw [hcol.nodeCount, hcol.stored]
    have hcount' : s.nodeCount = s.stored.length := hcount
    rw [hcount', hsplit]
    exact Nat.add_sub_cancel_left ..

/-- **One turn of a thread**, as it sees the table. -/
theorem turn (h : View P others lag s l) (hlag : (∀ o, others o → ¬ o.Shared) → lag = 0)
    (ht : Turn P others (s, l) (s', l')) :
    View P others lag s' l' ∧
      ∀ p ∈ s.stored, p ∈ s'.stored → (s'.heap p).SameKey (s.heap p) := by
  have hsame : ∀ p ∈ s.stored, p ∈ s.stored → (s.heap p).SameKey (s.heap p) :=
    fun p _ _ => Node.SameKey.refl _
  cases ht with
  | call k ho =>
    refine ⟨h.release (fun hh => hh.elim id id) ?_, hsame⟩
    cases l <;> first | rfl | exact ho.elim
  | gc ho =>
    refine ⟨h.release (fun hh => hh.elim id id) ?_, hsame⟩
    cases l <;> first | rfl | exact ho.elim
  | enter hx =>
    refine ⟨h.walk rfl (fun o ho => ⟨⟨fun hx' => hx'.elim, ?_⟩, ⟨?_, ?_⟩⟩) ?_ rfl, hsame⟩
    · exact fun p hp => absurd hp (by simp [Place.candidate])
    · exact fun hx' => absurd hx' (hx o ho)
    · exact fun p _ => by simp [Place.candidate]
    · exact fun p hp => absurd hp (by simp [Place.candidate])
  | hit hf => exact ⟨h.release (fun hh => hh.elim id id) rfl, hsame⟩
  | miss hf =>
    exact ⟨h.stay h.fits (fun _ => Or.inl trivial) (fun hx => hx.elim) (fun _ hp => hp) rfl, hsame⟩
  | allocate ha =>
    obtain ⟨hv, hk⟩ := h.allocate ha
    exact ⟨hv, fun p hp _ => hk p hp⟩
  | exhaust ha => exact ⟨h.release (fun hh => hh.elim id id) rfl, hsame⟩
  | won hi =>
    obtain ⟨hv, hheap, -⟩ := h.won hi
    refine ⟨hv, fun p _ _ => ?_⟩
    rw [hheap]
    exact Node.SameKey.refl _
  | @lost _ _ _ _ p q hi =>
    rw [State.insertIfAbsent] at hi
    split at hi
    · simp only [Prod.mk.injEq, true_and] at hi
      obtain ⟨rfl, rfl⟩ := hi
      exact ⟨h.stay h.fits.2.1 (fun _ => Or.inl trivial) (fun hx => hx.elim) (fun _ hp => hp) rfl,
        hsame⟩
    · simp at hi
  | recycle =>
    obtain ⟨hv, hk⟩ := h.recycle
    exact ⟨hv, fun p hp _ => hk p hp⟩
  | count => exact ⟨h.count_node, hsame⟩
  | @busy _ k p =>
    have hclock : View P others lag { s with clock := s.clock + 1 } (.grow k p) :=
      h.congr rfl rfl rfl rfl rfl fun p => ⟨Node.SameKey.refl _, rfl⟩
    exact ⟨hclock.release (fun hh => hh.elim id id) rfl, hsame⟩
  | grow ho =>
    obtain ⟨hs, hr⟩ : (s.growOwned P).Hashed P ∧ State.Rebucketed s (s.growOwned P) := by
      have hc := (h.hashed.setClock (s.clock + 1)).growIfLoaded
      exact ⟨hc.1, (State.Rebucketed.clock s _).trans hc.2⟩
    refine ⟨h.rebucket ho hs hr rfl trivial rfl, fun p _ _ => ?_⟩
    rw [hr.heap_eq]
    exact Node.SameKey.refl _
  | lock ho =>
    refine ⟨h.walk trivial (fun o hoo => ⟨.of_not_holds_right (ho o hoo), .of_not_holds (ho o hoo)⟩)
      (fun p hp => absurd hp (by simp [Place.candidate])) rfl, hsame⟩
  | @mark _ _ j fuel hm =>
    rw [State.markPhase_eq, Option.map_eq_some_iff] at hm
    obtain ⟨m, -, rfl⟩ := hm
    have hx := h.not_holds trivial
    have hmarked : View P others lag (s.remark m) (.mark j) :=
      h.congr rfl rfl rfl rfl rfl fun p => ⟨⟨rfl, rfl, rfl⟩, rfl⟩
    refine ⟨hmarked.walk trivial (fun o ho => ⟨.of_not_holds_right (hx o ho),
      .of_not_holds (hx o ho)⟩) (fun p hp => absurd hp (by simp [Place.candidate])) rfl,
      fun p _ _ => ⟨rfl, rfl, rfl⟩⟩
  | sweep hr =>
    have hx := h.not_holds trivial
    obtain ⟨hv, hk⟩ := h.sweep (hlag fun o ho hs => hx o ho (Or.inl hs)) hr
    exact ⟨hv, fun p _ hp => hk p hp⟩
  | leave => exact ⟨h.release (fun hh => hh.elim id id) rfl, hsame⟩
  | @extend _ k =>
    have hx := h.not_holds trivial
    obtain ⟨u, hu, hgrown⟩ := State.extend_cases P s
    obtain ⟨hview, huheap⟩ : View P others lag u (.finish (.maintenance k)) ∧ u.heap = s.heap := by
      rcases hu with ⟨-, rfl⟩ | ⟨-, rfl⟩
      · exact ⟨h, rfl⟩
      · exact ⟨h.growSlab hx rfl, rfl⟩
    obtain ⟨hs, hr⟩ := hgrown hview.hashed
    refine ⟨hview.rebucket hx hs hr rfl trivial rfl, fun p _ _ => ?_⟩
    rw [hr.heap_eq, huheap]
    exact Node.SameKey.refl _

end View

/-! ### All threads -/

section pool

variable [Fintype T] {c c' c₁ c₂ c₃ : Pool T State Place} {t u : T}

/-- What holds in every reachable state. -/
structure Sound (P : Platform) (c : Pool T State Place) : Prop where
  hashed : c.shared.Hashed P
  alloc : ∃ fl, c.shared.allocator.AllocInv c.shared.heap
    (fun p => p ∈ c.shared.stored ∨ ∃ t, (c.pc t).candidate = some p) fl
  cache : ∃ k, c.shared.cache = some k
  fits : ∀ t, (c.pc t).Fits P c.shared
  apart : ∀ t u, t ≠ u → (c.pc t).Apart (c.pc u)
  count : c.shared.nodeCount + c.total Place.uncounted = c.shared.stored.length

/-- What thread `t` sees. -/
theorem Sound.view (h : Sound P c) (t : T) :
    View P (c.others t) (c.rest Place.uncounted t) c.shared (c.pc t) := by
  obtain ⟨fl, hfl⟩ := h.alloc
  refine ⟨h.hashed, ⟨fl, hfl.mono ?_⟩, h.cache, h.fits t, ?_, ?_⟩
  · rintro p (hp | hp | ⟨-, ⟨u, -, rfl⟩, hp⟩)
    · exact Or.inl hp
    · exact Or.inr ⟨t, hp⟩
    · exact Or.inr ⟨u, hp⟩
  · rintro - ⟨u, hu, rfl⟩
    exact ⟨h.fits u, h.apart t u hu.symm, h.apart u t hu⟩
  · rw [← Pool.total_eq]
    exact h.count

/-- What the mover sees is enough. -/
theorem Sound.move (h : Sound P c)
    (hv : View P (c.others t) (c.rest Place.uncounted t) s l) : Sound P (c.move t s l) := by
  obtain ⟨fl, hfl⟩ := hv.alloc
  refine ⟨hv.hashed, ⟨fl, hfl.mono ?_⟩, hv.cache, ?_, ?_, ?_⟩
  · rintro p (hp | hp)
    · exact Or.inl hp
    · exact Or.inr ((Pool.exists_move fun o : Place => o.candidate = some p).mp hp)
  · exact (Pool.forall_move fun o : Place => o.Fits P s).mpr
      ⟨hv.fits, fun o ho => (hv.apart o ho).1⟩
  · exact Pool.pairwise_move Place.Apart h.apart fun o ho => (hv.apart o ho).2
  · rw [Pool.total_move]
    exact hv.count

omit [DecidableEq T] in
/-- Counters are not part of the invariant. -/
theorem Sound.recount (h : Sound P c) (hs : Recounts c.shared s) : Sound P ⟨s, c.pc⟩ := by
  obtain ⟨counts, rfl⟩ := hs
  obtain ⟨fl, hfl⟩ := h.alloc
  exact ⟨h.hashed.congr rfl rfl fun _ _ => ⟨rfl, rfl, rfl⟩, ⟨fl, hfl.congr fun _ _ => rfl⟩, h.cache,
    fun t => (h.fits t).congr rfl fun _ _ => ⟨id, rfl, rfl, rfl⟩, h.apart, h.count⟩

/-- **Every step keeps the invariant**, and the keys of the nodes that stay. -/
theorem Sound.step (h : Sound P c) (hs : TableStep P c c') :
    Sound P c' ∧ ∀ p ∈ c.shared.stored, p ∈ c'.shared.stored →
      (c'.shared.heap p).SameKey (c.shared.heap p) := by
  cases hs with
  | @turn t s l ht =>
    have hlag : (∀ o, c.others t o → ¬ o.Shared) → c.rest Place.uncounted t = 0 := fun ho =>
      Pool.rest_eq_zero fun o hoo => by
        by_contra hne
        exact ho o hoo (Place.shared_of_uncounted hne)
    obtain ⟨hv, hk⟩ := (h.view t).turn hlag ht
    exact ⟨h.move hv, hk⟩
  | env hr =>
    refine ⟨h.recount hr, fun p _ _ => ?_⟩
    obtain ⟨counts, rfl⟩ := hr
    exact ⟨rfl, rfl, rfl⟩

/-! ### What the table promises -/

/-- The table is in order. -/
structure InOrder (P : Platform) (c : Pool T State Place) : Prop where
  unique : ∀ p ∈ c.shared.stored, ∀ q ∈ c.shared.stored,
    (c.shared.heap p).SameKey (c.shared.heap q) → p = q
  placed : ∀ p ∈ c.shared.stored, ∀ i < c.shared.tableSize,
    p ∈ c.shared.buckets i ↔ i = c.shared.home P p
  once : c.shared.stored.Nodup
  not_free : ∃ fl, Chain (fun p => (c.shared.heap p).nextFree) nullptr
    c.shared.allocator.freeList fl ∧ ∀ p ∈ c.shared.stored, p ∉ fl
  not_candidate : ∀ t p, (c.pc t).candidate = some p → p ∉ c.shared.stored
  counted : (∀ t, ¬ (c.pc t).Shared) → c.shared.nodeCount = c.shared.stored.length
  removed_le : ∀ t j, c.pc t = .sweep j → c.shared.sweepPhase.2.length ≤ c.shared.nodeCount

theorem Place.Fits.not_mem (h : l.Fits P s) (hp : l.candidate = some p) : p ∉ s.stored := by
  cases l with
  | insert k idx q =>
    obtain rfl : q = p := Option.some_inj.mp hp
    exact h.2.1
  | recycle k q r =>
    obtain rfl : q = p := Option.some_inj.mp hp
    exact h
  | _ => exact absurd hp (by simp [Place.candidate])

theorem Sound.inOrder (h : Sound P c) : InOrder P c := by
  obtain ⟨fl, hfl⟩ := h.alloc
  have hcounted : (∀ t, ¬ (c.pc t).Shared) → c.shared.nodeCount = c.shared.stored.length :=
    fun hn => by
      rw [← h.count, Pool.total_eq_zero fun t => by
        by_contra hne
        exact hn t (Place.shared_of_uncounted hne)]
      rfl
  refine ⟨h.hashed.unique, fun p hp i hi => ⟨fun hpi => (h.hashed.placed i hi p hpi).symm, ?_⟩,
    h.hashed.nodup, ⟨fl, hfl.chain, fun p hp hpf => hfl.not_used p hpf (Or.inl hp)⟩,
    fun t p hp => (h.fits t).not_mem hp, hcounted, fun t j ht => ?_⟩
  · rintro rfl
    exact h.hashed.mem_home hp
  · have hx : (c.pc t).Exclusive := by rw [ht]; trivial
    refine (h.view t).removed_le (Pool.rest_eq_zero fun o ho => ?_) (by rw [ht]; rfl)
    by_contra hne
    exact (h.view t).not_holds hx o ho (Or.inl (Place.shared_of_uncounted hne))

/-! ### One pointer for one key -/

/-- The step fixes the result of the call of thread `t`. -/
def Settles (P : Platform) (t : T) (k : Key) (p : Ptr) (c c' : Pool T State Place) : Prop :=
  TableStep P c c' ∧ (c.pc t).result = none ∧ (c'.pc t).result = some (k, p)

/-- A step after which `p` is still stored. -/
def Staying (P : Platform) (p : Ptr) (c c' : Pool T State Place) : Prop :=
  TableStep P c c' ∧ p ∈ c'.shared.stored

/-- The result is stored, and found or new. -/
theorem Sound.settles (h : Sound P c) (hs : Settles P t k p c c') :
    p ∈ c'.shared.stored ∧ k.Of (c'.shared.heap p) ∧
      ∀ q ∈ c.shared.stored, k.Of (c.shared.heap q) → p = q := by
  obtain ⟨hstep, hnone, hsome⟩ := hs
  cases hstep with
  | @turn u s l hturn =>
    by_cases hut : u = t
    · subst hut
      have hv := h.view u
      rw [Pool.move_pc_self] at hsome
      generalize c.pc u = l₀ at hturn hv hnone
      cases hturn with
      | @hit s₀ k₀ idx r hf =>
        obtain ⟨rfl, rfl⟩ := Prod.mk.inj (Option.some_inj.mp hsome)
        have hidx : idx = c.shared.hashKey P k₀ := hv.fits
        rw [State.findKey, hidx, State.hashKey, h.hashed.find_eq_some_iff] at hf
        refine ⟨hf.1, hf.2, fun q hq hk => h.hashed.unique _ hf.1 q hq ?_⟩
        exact ⟨hf.2.1.trans hk.1.symm, hf.2.2.1.trans hk.2.1.symm, hf.2.2.2.trans hk.2.2.symm⟩
      | @won s₀ s₁ k₀ idx r r' hi =>
        obtain ⟨rfl, rfl⟩ := Prod.mk.inj (Option.some_inj.mp hsome)
        obtain ⟨-, hheap, hmem, hk, hnot, -⟩ := hv.won hi
        have hidx : idx = c.shared.hashKey P k₀ := hv.fits.1
        rw [State.findKey, hidx, State.hashKey, h.hashed.find_eq_none_iff] at hnot
        exact ⟨hmem, hk, fun q hq hkq => absurd hkq (hnot q hq)⟩
      | @lost s₀ s₁ k₀ idx r r' hi =>
        obtain ⟨rfl, rfl⟩ := Prod.mk.inj (Option.some_inj.mp hsome)
        rw [State.insertIfAbsent] at hi
        split at hi
        · next hf =>
          simp only [Prod.mk.injEq, true_and] at hi
          obtain ⟨rfl, rfl⟩ := hi
          have hidx : idx = c.shared.hashKey P k₀ := hv.fits.1
          rw [hidx, State.hashKey, h.hashed.find_eq_some_iff] at hf
          refine ⟨hf.1, hf.2, fun q hq hk => h.hashed.unique _ hf.1 q hq ?_⟩
          exact ⟨hf.2.1.trans hk.1.symm, hf.2.2.1.trans hk.2.1.symm, hf.2.2.2.trans hk.2.2.symm⟩
        · simp at hi
      | recycle => simp [Place.result] at hnone
      | count => simp [Place.result] at hnone
      | busy => simp [Place.result] at hnone
      | grow => simp [Place.result] at hnone
      | _ => simp [Place.result] at hsome
    · rw [Pool.move_pc_of_ne (Ne.symm hut), hnone] at hsome
      exact absurd hsome (by simp)
  | env hr =>
    rw [show (Pool.mk _ c.pc).pc t = c.pc t from rfl, hnone] at hsome
    exact absurd hsome (by simp)

/-- A node that stays keeps its key. -/
theorem Sound.staying (h : Sound P c) (hp : p ∈ c.shared.stored) (hk : k.Of (c.shared.heap p))
    (hrun : Relation.ReflTransGen (Staying P p) c c') :
    Sound P c' ∧ p ∈ c'.shared.stored ∧ k.Of (c'.shared.heap p) := by
  refine Transition.invariant
    (I := fun c => Sound P c ∧ p ∈ c.shared.stored ∧ k.Of (c.shared.heap p)) ?_ hrun ⟨h, hp, hk⟩
  rintro a b ⟨hstep, hpb⟩ ⟨ha, hpa, hka⟩
  obtain ⟨hb, hkeys⟩ := ha.step hstep
  obtain ⟨hlevel, hlow, hhigh⟩ := hkeys p hpa hpb
  exact ⟨hb, hpb, hlevel.trans hka.1, hlow.trans hka.2.1, hhigh.trans hka.2.2⟩

/-- All threads are outside. -/
def start (s : State) : Pool T State Place := ⟨s, fun _ => .idle⟩

omit [DecidableEq T] in
theorem sound_start {n : ℕ} (h : s.Ready P n n) : Sound P (start (T := T) s) := by
  obtain ⟨fl, hfl⟩ := h.wf.alloc
  obtain ⟨k, hk, -⟩ := h.wf.cache
  refine ⟨h.wf.hashed, ⟨fl, hfl.mono ?_⟩, ⟨k, hk⟩, fun _ => trivial,
    fun _ _ _ => .of_not_holds fun hh => hh.elim id id, ?_⟩
  · rintro p (hp | ⟨u, hp⟩)
    · exact hp
    · exact absurd hp (by simp [start, Place.candidate])
  · rw [Pool.total_eq_zero fun _ => rfl]
    exact h.nodeCount

/-- **The unique table under any interleaving.** Any number of threads run `getOrCreateNode` and
`gc`, and handles change the counters. Every state reached is in order, and after a call for a
key has fixed its result, every call for this key fixes the same pointer as long as the node
stays in the table. -/
theorem inOrder_of_run {fuel : ℕ} {rand₁ rand₂ : ℕ → ℕ} {tableSize cacheSize varNum : ℕ}
    (hv : varNum < uintMax)
    (hi : State.init P fuel rand₁ rand₂ tableSize cacheSize varNum = some s)
    (hrun : Relation.ReflTransGen (TableStep P) (start (T := T) s) c) :
    InOrder P c ∧ ∀ t k p c₁, Settles P t k p c c₁ →
      ∀ c₂, Relation.ReflTransGen (Staying P p) c₁ c₂ →
        ∀ u q c₃, Settles P u k q c₂ c₃ → q = p := by
  have h : Sound P c := Transition.invariant (I := Sound P) (fun _ _ hs ha => (ha.step hs).1) hrun
    (sound_start (State.ready_of_init hv hi))
  refine ⟨h.inOrder, fun t k p c₁ hp c₂ hstay u q c₃ hq => ?_⟩
  obtain ⟨hmem, hk, -⟩ := h.settles hp
  obtain ⟨h₂, hmem₂, hk₂⟩ := (h.step hp.1).1.staying hmem hk hstay
  exact (h₂.settles hq).2.2 p hmem₂ hk₂

end pool

/-! ### A thread that runs alone -/

theorem maybeGrowBuckets_eq (P : Platform) (s : State) : s.maybeGrowBuckets P =
    if P.fails s.clock then { s with clock := s.clock + 1 } else s.growOwned P := rfl

theorem turns_of_once {s s' : State} {r : Ptr} (ho : ∀ o, others o → ¬ o.Holds)
    (h : s.getOrCreateOnce P k.level k.low k.high = some (r, s')) :
    Relation.ReflTransGen (Turn P others) (s, .enter k) (s', .returned k r) := by
  have henter : Turn P others (s, .enter k) (s, .find k (s.hashKey P k)) :=
    .enter fun o hoo hx => ho o hoo (Or.inr hx)
  rw [State.getOrCreateOnce] at h
  cases hf : s.findKey (s.hashKey P k) k with
  | some p =>
    simp only [show s.find (s.hash P k.level k.low k.high) k.level k.low k.high = some p from hf,
      Option.some_inj, Prod.mk.injEq] at h
    obtain ⟨rfl, rfl⟩ := h
    exact (Relation.ReflTransGen.single henter).tail (.hit hf)
  | none =>
    simp only [show s.find (s.hash P k.level k.low k.high) k.level k.low k.high = none from hf] at h
    cases ha : s.allocate k.level k.low k.high with
    | none => simp [ha] at h
    | some a =>
      obtain ⟨p, t⟩ := a
      simp only [ha] at h
      have hallocated : Relation.ReflTransGen (Turn P others) (s, .enter k)
          (t, .insert k (s.hashKey P k) p) :=
        ((Relation.ReflTransGen.single henter).tail (.miss hf)).tail (.allocate ha)
      cases hins : t.insertIfAbsent (s.hashKey P k) k.level k.low k.high p with
      | mk q rest =>
        obtain ⟨inserted, u⟩ := rest
        have hins' : t.insertIfAbsent (s.hash P k.level k.low k.high) k.level k.low k.high p =
            (q, inserted, u) := hins
        cases inserted with
        | false =>
          simp only [hins', Option.some_inj, Prod.mk.injEq] at h
          obtain ⟨rfl, rfl⟩ := h
          exact (hallocated.tail (.lost hins)).tail .recycle
        | true =>
          simp only [hins', Option.some_inj, Prod.mk.injEq] at h
          obtain ⟨rfl, rfl⟩ := h
          refine ((hallocated.tail (.won hins)).tail .count).tail ?_
          rw [maybeGrowBuckets_eq]
          split
          · exact .busy
          · exact .grow ho

theorem turns_of_allocFails (ho : ∀ o, others o → ¬ o.Holds)
    (h : s.AllocFails P k.level k.low k.high) :
    Relation.ReflTransGen (Turn P others) (s, .enter k) (s, .lock (.maintenance k)) := by
  have henter : Turn P others (s, .enter k) (s, .find k (s.hashKey P k)) :=
    .enter fun o hoo hx => ho o hoo (Or.inr hx)
  rw [State.AllocFails, State.getOrCreateOnce] at h
  cases hf : s.findKey (s.hashKey P k) k with
  | some p =>
    simp [show s.find (s.hash P k.level k.low k.high) k.level k.low k.high = some p from hf] at h
  | none =>
    simp only [show s.find (s.hash P k.level k.low k.high) k.level k.low k.high = none from hf] at h
    cases ha : s.allocate k.level k.low k.high with
    | none => exact ((Relation.ReflTransGen.single henter).tail (.miss hf)).tail (.exhaust ha)
    | some a =>
      simp only [ha] at h
      split at h <;> simp at h

theorem turns_of_gcLocked {fuel : ℕ} {j : Job} (ho : ∀ o, others o → ¬ o.Holds)
    (h : s.gcLocked fuel = some s') :
    Relation.ReflTransGen (Turn P others) (s, .lock j) (s', .finish j) := by
  obtain ⟨t, ht, h⟩ := Option.bind_eq_some_iff.mp h
  exact ((Relation.ReflTransGen.single (.lock ho)).tail (.mark fuel ht)).tail (.sweep h)

theorem turns_of_getOrCreateNode {r : Ptr} (ho : ∀ o, others o → ¬ o.Holds) :
    ∀ {fuel : ℕ} {s : State}, s.getOrCreateNode P fuel k.level k.low k.high = some (r, s') →
      Relation.ReflTransGen (Turn P others) (s, .enter k) (s', .returned k r) := by
  intro fuel
  induction fuel with
  | zero => intro s h; simp [State.getOrCreateNode] at h
  | succ fuel ih =>
    intro s h
    cases honce : s.getOrCreateOnce P k.level k.low k.high with
    | some b =>
      rw [State.getOrCreateNode_of_once honce, Option.some_inj] at h
      exact turns_of_once ho (h ▸ honce)
    | none =>
      rw [State.getOrCreateNode_of_allocFails honce, Option.bind_eq_some_iff] at h
      obtain ⟨t, ht, h⟩ := h
      obtain ⟨u, hu, ht⟩ := Option.bind_eq_some_iff.mp ht
      obtain rfl : u.extend P = t := Option.some_inj.mp ht
      exact (((turns_of_allocFails ho honce).trans (turns_of_gcLocked ho hu)).tail .extend).trans
        (ih h)

/-- **A thread that runs alone** computes `getOrCreateNode`. -/
theorem run_of_getOrCreateNode {c : Pool T State Place} {t : T} {fuel : ℕ} {r : Ptr}
    (ho : ∀ o, c.others t o → ¬ o.Holds) (ht : (c.pc t).Outside)
    (h : c.shared.getOrCreateNode P fuel k.level k.low k.high = some (r, s')) :
    Relation.ReflTransGen (TableStep P) c (c.move t s' (.returned k r)) :=
  Pool.run_of_turns ((turns_of_getOrCreateNode ho h).head (.call k ht))

/-! ### Schedules -/

instance : DecidablePred Place.Outside
  | .idle | .returned .. => isTrue trivial
  | .enter _ | .find .. | .allocate .. | .insert .. | .recycle .. | .count .. | .grow .. | .lock _
  | .mark _ | .sweep _ | .finish _ => isFalse id

instance : DecidablePred Place.Shared
  | .find .. | .allocate .. | .insert .. | .recycle .. | .count .. => isTrue trivial
  | .idle | .returned .. | .enter _ | .grow .. | .lock _ | .mark _ | .sweep _ | .finish _ =>
    isFalse id

instance : DecidablePred Place.Exclusive
  | .mark _ | .sweep _ | .finish _ => isTrue trivial
  | .idle | .returned .. | .enter _ | .find .. | .allocate .. | .insert .. | .recycle .. | .count ..
  | .grow .. | .lock _ => isFalse id

instance : DecidablePred Place.Holds := fun l =>
  inferInstanceAs (Decidable (l.Shared ∨ l.Exclusive))

/-- The next turn in the table. `free` says that nobody else holds the lock exclusively, `alone`
that nobody else holds it. `try_to_lock` does not fail without a reason. -/
def State.go (P : Platform) (fuel : ℕ) (free alone : Bool) (s : State) :
    Place → Option (State × Place)
  | .enter k => if free then some (s, .find k (s.hashKey P k)) else none
  | .find k idx =>
    some (s, match s.findKey idx k with
      | some p => .returned k p
      | none => .allocate k idx)
  | .allocate k idx =>
    match s.allocate k.level k.low k.high with
    | some (p, s') => some (s', .insert k idx p)
    | none => some (s, .lock (.maintenance k))
  | .insert k idx p =>
    match s.insertIfAbsent idx k.level k.low k.high p with
    | (q, true, s') => some (s', .count k q)
    | (q, false, s') => some (s', .recycle k p q)
  | .recycle k p q => some (s.free p, .returned k q)
  | .count k p => some ({ s with nodeCount := s.nodeCount + 1 }, .grow k p)
  | .grow k p =>
    some (if alone then s.growOwned P else { s with clock := s.clock + 1 }, .returned k p)
  | .lock j => if alone then some (s, .mark j) else none
  | .mark j => (s.markPhase fuel).map fun s' => (s', .sweep j)
  | .sweep j =>
    (s.sweepPhase.1.unmarkPhase.releasePhase s.sweepPhase.2).map fun s' => (s', .finish j)
  | .finish .gc => some (s, .idle)
  | .finish (.maintenance k) => some (s.extend P, .enter k)
  | .idle | .returned .. => none

/-- What is executed is a turn. -/
theorem Turn.of_go {fuel : ℕ} {free alone : Bool}
    (hfree : free = true → ∀ o, others o → ¬ o.Exclusive)
    (halone : alone = true → ∀ o, others o → ¬ o.Holds)
    (h : s.go P fuel free alone l = some (s', l')) : Turn P others (s, l) (s', l') := by
  cases l with
  | enter k =>
    rw [State.go] at h
    split_ifs at h with hx
    cases h
    exact .enter (hfree hx)
  | find k idx =>
    cases h
    cases hf : s.findKey idx k with
    | some p => exact .hit hf
    | none => exact .miss hf
  | allocate k idx =>
    rw [State.go] at h
    split at h
    · next ha =>
      cases h
      exact .allocate ha
    · next ha =>
      cases h
      exact .exhaust ha
  | insert k idx p =>
    rw [State.go] at h
    split at h
    · next hi =>
      cases h
      exact .won hi
    · next hi =>
      cases h
      exact .lost hi
  | recycle k p q =>
    cases h
    exact .recycle
  | count k p =>
    cases h
    exact .count
  | grow k p =>
    cases h
    split
    · next ha => exact .grow (halone ha)
    · exact .busy
  | lock j =>
    rw [State.go] at h
    split_ifs at h with ha
    cases h
    exact .lock (halone ha)
  | mark j =>
    obtain ⟨t, hm, he⟩ := Option.map_eq_some_iff.mp h
    cases he
    exact .mark fuel hm
  | sweep j =>
    obtain ⟨t, hs, he⟩ := Option.map_eq_some_iff.mp h
    cases he
    exact .sweep hs
  | finish j =>
    cases j with
    | gc =>
      cases h
      exact .leave
    | maintenance k =>
      cases h
      exact .extend
  | idle => exact absurd h nofun
  | returned k p => exact absurd h nofun

/-- The conjunction of the first two variables, in a small table. -/
def conjunction : Key := ⟨0, 1, 5⟩

/-- Two threads ask for one node, and both get it. -/
theorem inOrder_of_run_small : ∃ c : Pool Bool State Place,
    (∀ t, c.pc t = .returned conjunction 9) ∧ InOrder State.smallPlatform c := by
  have hsome : ((State.small.getOrCreateNode State.smallPlatform 2 0 1 5).bind fun a =>
      (a.2.getOrCreateNode State.smallPlatform 2 0 1 5).map fun b => (a, b)).any (fun r =>
        decide (r.1.1 = 9 ∧ r.2.1 = 9)) = true := by
    decide +kernel
  obtain ⟨⟨⟨p, s₁⟩, q, s₂⟩, hrun, hfacts⟩ := (Option.any_eq_true _ _).mp hsome
  obtain ⟨⟨p', s₁'⟩, hp, hrun⟩ := Option.bind_eq_some_iff.mp hrun
  obtain ⟨⟨q', s₂'⟩, hq, hrun⟩ := Option.map_eq_some_iff.mp hrun
  cases hrun
  obtain ⟨rfl, rfl⟩ : p = 9 ∧ q = 9 := of_decide_eq_true hfacts
  set c₀ : Pool Bool State Place := start State.small with hc₀
  set c₁ := c₀.move false s₁ (.returned conjunction 9) with hc₁
  have hfree : ∀ (c : Pool Bool State Place) (t : Bool), (∀ u, (c.pc u).Outside) →
      ∀ o, c.others t o → ¬ o.Holds := by
    rintro c t hc - ⟨u, -, rfl⟩ hh
    have hu := hc u
    cases hpc : c.pc u <;> rw [hpc] at hu hh <;> first | exact hh.elim id id | exact hu.elim
  have hout : ∀ u, (c₁.pc u).Outside := by
    intro u
    cases u <;> trivial
  have hfirst : Relation.ReflTransGen (TableStep State.smallPlatform) c₀ c₁ :=
    run_of_getOrCreateNode (hfree c₀ false fun _ => trivial) trivial hp
  have hsecond : Relation.ReflTransGen (TableStep State.smallPlatform) c₁
      (c₁.move true s₂ (.returned conjunction 9)) :=
    run_of_getOrCreateNode (hfree c₁ true hout) trivial hq
  refine ⟨_, fun t => ?_, (inOrder_of_run (by decide) State.init_small (hfirst.trans hsecond)).1⟩
  cases t <;> rfl

end Nanobdd
