import Nanobdd.SharedTable
import Nanobdd.Sizing
import Nanobdd.Slots

/-!
# How full the buckets are

A node is stored while the table is locked shared, and the test whether there are now too many
nodes for the bucket array comes later, with a lock that `try_to_lock` may not get. So there are
four nodes for a bucket, and one more for each thread between its insertion and its test, and one
for each test that did not take place.

The new size comes from `bdd_prime_gte`, which returns a number that is no smaller than the one it
is asked for.

## Main definitions

* `Platform.Searches` — the platform answers with results of `bdd_prime_gte`
* `Tries` — a turn in the table, and whether a `try_to_lock` fails in it

## Main results

* `le_bddPrimeGte` — the search does not return a smaller number
* `load_of_run` — **the load** in any interleaving
-/

namespace Nanobdd

/-! ### The search and the platform -/

/-- Below a prime the search ends in time, at a number that is not smaller. -/
theorem exists_bddPrimeGte {n : ℕ} (rand : ℕ → ℕ) (h2 : 2 ≤ n) (hn : n < 2 ^ 31) :
    ∃ r, bddPrimeGte (2 ^ 31) rand n = some r ∧ n ≤ r := by
  have hu : u32 n = n := Nat.mod_eq_of_lt (by omega)
  obtain ⟨src, hsrc, hle, hodd, hlast⟩ : ∃ src, bddPrimeGte (2 ^ 31) rand n =
      primeSearch rand (2 ^ 31) src 0 ∧ n ≤ src ∧ src % 2 = 1 ∧ src ≤ 2147483647 := by
    refine ⟨_, rfl, ?_⟩
    rw [hu]
    split <;> omega
  obtain ⟨r, hr, hler, -⟩ := primeSearch_le prime_mersenne31 (by decide) (by decide) rand 0
    hodd (by decide) (by omega) hlast (show 2147483647 - src < 2 ^ 31 by omega)
  exact ⟨r, hsrc.trans hr, hle.trans hler⟩

/-- **The search does not return a smaller number.** -/
theorem le_bddPrimeGte {fuel n r : ℕ} {rand : ℕ → ℕ} (hn : n < 2 ^ 31)
    (h : bddPrimeGte fuel rand n = some r) : n ≤ r := by
  by_cases hsmall : n ≤ 3
  · exact hsmall.trans (bddPrimeGte_ge h)
  · obtain ⟨r', hr', hle⟩ := exists_bddPrimeGte rand (by omega) hn
    have hboth := (primeSearch_mono h (le_max_left fuel _)).symm.trans
      (primeSearch_mono hr' (le_max_right fuel _))
    cases hboth
    exact hle

/-- What the platform answers to a call of `bdd_prime_gte` is a result of it, for some values of
`rand()`. -/
def Platform.Searches (P : Platform) : Prop :=
  ∀ k n, 2 ≤ n → n < 2 ^ 31 → ∃ fuel rand, bddPrimeGte fuel rand n = some (P.primeGte k n)

variable {P : Platform} {s s' : State} {p r low high : Ptr} {fuel level id size varNum m : ℕ}

theorem Platform.Searches.le (hP : P.Searches) {k n : ℕ} (h2 : 2 ≤ n) (hn : n < 2 ^ 31) :
    n ≤ P.primeGte k n := by
  obtain ⟨_, _, h⟩ := hP k n h2 hn
  exact le_bddPrimeGte hn h

/-- A platform with a `rand()` that always returns zero. -/
def searchingPlatform : Platform where
  addr p := 64 * p
  primeGte _ n := (bddPrimeGte (2 ^ 31) (fun _ => 0) n).getD 0
  fails _ := false

theorem searches_searchingPlatform : searchingPlatform.Searches := by
  intro k n h2 hn
  obtain ⟨r, hr, -⟩ := exists_bddPrimeGte (fun _ => 0) h2 hn
  refine ⟨2 ^ 31, fun _ => 0, ?_⟩
  show _ = some ((bddPrimeGte (2 ^ 31) (fun _ => 0) n).getD 0)
  rw [hr, Option.getD_some]

/-! ### Growth -/

namespace State

theorem growBucketsLocked_frame (P : Platform) (s : State) (newSize : ℕ) :
    (s.growBucketsLocked P newSize).tableSize = max s.tableSize newSize ∧
      (s.growBucketsLocked P newSize).nodeCount = s.nodeCount := by
  rw [growBucketsLocked]
  split
  · next hle => exact ⟨(max_eq_left hle).symm, rfl⟩
  · next hlt =>
    rw [rehash_eq]
    exact ⟨(max_eq_right (not_le.mp hlt).le).symm, rfl⟩

theorem growToPrime_frame (P : Platform) (s : State) :
    s.tableSize ≤ (s.growToPrime P).tableSize ∧ (s.growToPrime P).nodeCount = s.nodeCount := by
  obtain ⟨hsize, hcount⟩ := growBucketsLocked_frame P { s with clock := s.clock + 1 }
    (P.primeGte s.clock (u32 (s.tableSize * 2 + 1)))
  exact ⟨hsize ▸ le_max_left _ _, hcount⟩

/-- Growth more than doubles the array, and so makes up for many nodes. -/
theorem growToPrime_load (hP : P.Searches) (hcount : s.nodeCount ≤ 2 ^ 32)
    (hgrow : s.shouldGrowBucketsLocked = true) (hload : s.nodeCount ≤ 4 * s.tableSize + 1 + m) :
    s.nodeCount ≤ 4 * (s.growToPrime P).tableSize + m := by
  have hfull := (of_decide_eq_true hgrow).2
  have hwrap : u32 (s.tableSize * 2 + 1) = s.tableSize * 2 + 1 := Nat.mod_eq_of_lt (by omega)
  have hpos := (of_decide_eq_true hgrow).1
  have hnew := hP.le (k := s.clock) (n := s.tableSize * 2 + 1) (by omega) (by omega)
  have hsize : (s.growToPrime P).tableSize = max s.tableSize _ :=
    (growBucketsLocked_frame P { s with clock := s.clock + 1 } _).1
  rw [hwrap] at hsize
  have hle := le_max_right s.tableSize (P.primeGte s.clock (s.tableSize * 2 + 1))
  rw [← hsize] at hle
  omega

theorem not_shouldGrow (hs : s.shouldGrowBucketsLocked = false) (hpos : s.tableSize ≠ 0) :
    s.nodeCount ≤ 4 * s.tableSize := by
  have hnot := of_decide_eq_false hs
  rw [not_and] at hnot
  exact not_lt.mp (hnot hpos)

/-- **The test** makes up for one node. -/
theorem growOwned_load (hP : P.Searches) (hpos : s.tableSize ≠ 0) (hcount : s.nodeCount ≤ 2 ^ 32)
    (hload : s.nodeCount ≤ 4 * s.tableSize + 1 + m) :
    s.nodeCount ≤ 4 * (s.growOwned P).tableSize + m ∧ (s.growOwned P).nodeCount = s.nodeCount ∧
      s.tableSize ≤ (s.growOwned P).tableSize := by
  rw [growOwned]
  cases hs : ({ s with clock := s.clock + 1 } : State).shouldGrowBucketsLocked with
  | true =>
    obtain ⟨hsize, hsame⟩ := growToPrime_frame P { s with clock := s.clock + 1 }
    exact ⟨growToPrime_load (s := { s with clock := s.clock + 1 }) hP hcount hs hload, hsame, hsize⟩
  | false =>
    have hle := not_shouldGrow (s := { s with clock := s.clock + 1 }) hs hpos
    exact ⟨hle.trans (Nat.le_add_right _ _), rfl, le_rfl⟩

/-- Maintenance does not shrink the array. -/
theorem extend_tableSize (P : Platform) (s : State) : s.tableSize ≤ (s.extend P).tableSize := by
  obtain ⟨u, hu, hsize⟩ : ∃ u : State,
      s.extend P = (if u.shouldGrowBucketsLocked then u.growToPrime P else u) ∧
        u.tableSize = s.tableSize := by
    refine ⟨_, rfl, ?_⟩
    split <;> rfl
  rw [hu, ← hsize]
  split
  · exact (growToPrime_frame P u).1
  · exact le_rfl

/-! ### `init` -/

/-- Nobody is between an insertion and its test, and none was left out. -/
structure Loaded (s : State) : Prop where
  size_pos : s.tableSize ≠ 0
  load : s.nodeCount ≤ 4 * s.tableSize

namespace Loaded

theorem maybeGrowBuckets (hP : P.Searches) (hlocks : ∀ k, P.fails k = false)
    (hpos : s.tableSize ≠ 0) (hcount : s.nodeCount ≤ 2 ^ 32)
    (hload : s.nodeCount ≤ 4 * s.tableSize + 1) :
    Loaded (s.maybeGrowBuckets P) ∧ (s.maybeGrowBuckets P).nodeCount = s.nodeCount := by
  obtain ⟨hafter, hsame, hsize⟩ := growOwned_load (m := 0) hP hpos hcount hload
  rw [maybeGrowBuckets_eq, hlocks, if_neg Bool.false_ne_true]
  refine ⟨⟨fun hzero => hpos (Nat.le_zero.mp (hsize.trans hzero.le)), ?_⟩, hsame⟩
  rw [hsame]
  exact hafter

theorem congr (hl : Loaded s) (hsize : s'.tableSize = s.tableSize)
    (hcount : s'.nodeCount ≤ s.nodeCount) : Loaded s' :=
  ⟨hsize ▸ hl.size_pos, hcount.trans (hsize ▸ hl.load)⟩

theorem getOrCreateOnce (hP : P.Searches) (hlocks : ∀ k, P.fails k = false) (hl : Loaded s)
    (hcount : s.nodeCount < 2 ^ 32) (ho : s.getOrCreateOnce P level low high = some (r, s')) :
    Loaded s' ∧ s'.nodeCount ≤ s.nodeCount + 1 := by
  rw [State.getOrCreateOnce] at ho
  split at ho
  · cases ho
    exact ⟨hl, Nat.le_succ _⟩
  · split at ho
    · simp at ho
    · next candidate t ht =>
      obtain ⟨⟨c, a', h'⟩, -, he⟩ := Option.map_eq_some_iff.mp ht
      cases he
      rw [insertIfAbsent] at ho
      split at ho
      · next hfound =>
        split at hfound
        · cases hfound
          cases ho
          exact ⟨⟨hl.size_pos, hl.load⟩, Nat.le_succ _⟩
        · cases hfound
      · next hstored =>
        split at hstored
        · cases hstored
        · cases hstored
          cases ho
          have hload : s.nodeCount + 1 ≤ 4 * s.tableSize + 1 := Nat.add_le_add_right hl.load 1
          refine (Loaded.maybeGrowBuckets hP hlocks ?_ ?_ ?_).imp_right Eq.le
          · exact hl.size_pos
          · exact hcount
          · exact hload

theorem gcLocked (hl : Loaded s) (hg : s.gcLocked fuel = some s') :
    Loaded s' ∧ s'.nodeCount ≤ s.nodeCount := by
  obtain ⟨c, hc⟩ := gcLocked_cache hg
  rw [gcLocked_eq, Option.bind_eq_some_iff] at hg
  obtain ⟨m, -, hrel⟩ := hg
  have hcache : (s.remark m).sweepPhase.1.unmarkPhase.cache = some c := hc
  rw [releasePhase] at hrel
  simp only [hcache] at hrel
  cases hrel
  exact ⟨hl.congr rfl (Nat.sub_le _ _), Nat.sub_le _ _⟩

theorem performMaintenance (hl : Loaded s) (hm : s.performMaintenance P fuel = some s') :
    Loaded s' ∧ s'.nodeCount ≤ s.nodeCount := by
  rw [performMaintenance_eq, Option.map_eq_some_iff] at hm
  obtain ⟨t, ht, rfl⟩ := hm
  obtain ⟨hgc, hle⟩ := hl.gcLocked ht
  obtain ⟨u, hu, hload, hsame⟩ : ∃ u : State,
      t.extend P = (if u.shouldGrowBucketsLocked then u.growToPrime P else u) ∧ Loaded u ∧
        u.nodeCount = t.nodeCount := by
    refine ⟨_, rfl, ?_, ?_⟩
    · split
      · exact hgc
      · exact ⟨hgc.size_pos, hgc.load⟩
    · split <;> rfl
  have hnot : u.shouldGrowBucketsLocked = false :=
    decide_eq_false fun hgrow => absurd hload.load (not_le.mpr hgrow.2)
  rw [hu, hnot, if_neg Bool.false_ne_true]
  exact ⟨hload, hsame.le.trans hle⟩

theorem getOrCreateNode (hP : P.Searches) (hlocks : ∀ k, P.fails k = false) :
    ∀ {fuel : ℕ} {s : State}, Loaded s → s.nodeCount < 2 ^ 32 →
      s.getOrCreateNode P fuel level low high = some (r, s') →
      Loaded s' ∧ s'.nodeCount ≤ s.nodeCount + 1 := by
  intro fuel
  induction fuel with
  | zero => intro s _ _ hg; simp [State.getOrCreateNode] at hg
  | succ fuel ih =>
    intro s hl hcount hg
    cases ho : s.getOrCreateOnce P level low high with
    | some x =>
      rw [getOrCreateNode_of_once ho] at hg
      cases hg
      exact hl.getOrCreateOnce hP hlocks hcount ho
    | none =>
      rw [getOrCreateNode_of_allocFails ho, Option.bind_eq_some_iff] at hg
      obtain ⟨t, ht, hg⟩ := hg
      obtain ⟨hlt, hle⟩ := hl.performMaintenance ht
      obtain ⟨hl', hle'⟩ := ih hlt (hle.trans_lt hcount) hg
      exact ⟨hl', hle'.trans (Nat.add_le_add_right hle 1)⟩

theorem createVar (hP : P.Searches) (hlocks : ∀ k, P.fails k = false) (hl : Loaded s)
    (hcount : s.nodeCount + 2 ≤ 2 ^ 32) (hv : s.createVar P fuel id = some s') :
    Loaded s' ∧ s'.nodeCount ≤ s.nodeCount + 2 := by
  obtain ⟨⟨node, t⟩, ht, hv⟩ := Option.bind_eq_some_iff.mp hv
  obtain ⟨⟨nvar, u⟩, hu, hv⟩ := Option.bind_eq_some_iff.mp hv
  cases hv
  obtain ⟨hl₁, hle₁⟩ := hl.getOrCreateNode hP hlocks (by omega) ht
  have hl₁' : Loaded { t with heap := t.heap.ref node, vars := t.vars.insertIdx id node } :=
    ⟨hl₁.size_pos, hl₁.load⟩
  obtain ⟨hl₂, hle₂⟩ := hl₁'.getOrCreateNode hP hlocks (hle₁.trans_lt (by omega)) hu
  exact ⟨⟨hl₂.size_pos, hl₂.load⟩, hle₂.trans (by dsimp only; omega)⟩

theorem newTable (hP : P.Searches) (hlocks : ∀ k, P.fails k = false) (hsize : 3 ≤ size)
    (hn : newTable P fuel size = some s) : Loaded s ∧ s.nodeCount ≤ 2 := by
  have hempty : Loaded (State.empty size) := by
    refine ⟨?_, Nat.zero_le _⟩
    show size ≠ 0
    omega
  obtain ⟨⟨f, s₁⟩, h₁, hn⟩ := Option.bind_eq_some_iff.mp hn
  obtain ⟨⟨t, s₂⟩, h₂, hn⟩ := Option.bind_eq_some_iff.mp hn
  cases hn
  obtain ⟨hl₁, hle₁⟩ := hempty.getOrCreateNode hP hlocks (show 0 < 2 ^ 32 by decide) h₁
  have hle₁' : s₁.nodeCount ≤ 1 := hle₁
  have hl₁' : Loaded { s₁ with falseNode := f } := ⟨hl₁.size_pos, hl₁.load⟩
  obtain ⟨hl₂, hle₂⟩ := hl₁'.getOrCreateNode hP hlocks (hle₁'.trans_lt (by decide)) h₂
  exact ⟨⟨hl₂.size_pos, hl₂.load⟩, hle₂.trans (by dsimp only; omega)⟩

theorem createVars (hP : P.Searches) (hlocks : ∀ k, P.fails k = false) (hl : Loaded s)
    (hcount : s.nodeCount ≤ 2) : ∀ {varNum : ℕ} {s' : State}, 2 + 2 * varNum ≤ 2 ^ 32 →
      s.createVars P fuel varNum = some s' → Loaded s' ∧ s'.nodeCount ≤ 2 + 2 * varNum := by
  intro varNum
  induction varNum with
  | zero =>
    intro s' _ hc
    cases hc
    exact ⟨hl, hcount⟩
  | succ n ih =>
    intro s' hfit hc
    rw [State.createVars, List.range_succ, List.foldlM_append] at hc
    obtain ⟨t, ht, hc⟩ := Option.bind_eq_some_iff.mp hc
    obtain ⟨hlt, hlet⟩ := ih (by omega) ht
    rw [List.foldlM_cons] at hc
    obtain ⟨u, hu, hc⟩ := Option.bind_eq_some_iff.mp hc
    cases hc
    obtain ⟨hlu, hleu⟩ := hlt.createVar hP hlocks (by omega) hu
    exact ⟨hlu, by omega⟩

theorem init (hP : P.Searches) (hlocks : ∀ k, P.fails k = false) {rand₁ rand₂ : ℕ → ℕ}
    {tableSize cacheSize : ℕ} (hfit : 2 + 2 * varNum ≤ 2 ^ 32)
    (hi : State.init P fuel rand₁ rand₂ tableSize cacheSize varNum = some s) : Loaded s := by
  obtain ⟨size, hsize, hi⟩ := Option.bind_eq_some_iff.mp hi
  obtain ⟨t, ht, hi⟩ := Option.bind_eq_some_iff.mp hi
  obtain ⟨csize, -, hi⟩ := Option.bind_eq_some_iff.mp hi
  split at hi
  · next h =>
    obtain ⟨hl, hle⟩ := newTable hP hlocks (bddPrimeGte_ge hsize) ht
    have hl' : Loaded { t with cache := some (.new csize h) } := ⟨hl.size_pos, hl.load⟩
    exact (hl'.createVars hP hlocks hle hfit hi).1
  · simp at hi

end Loaded

end State

/-! ### Many threads -/

/-- The thread has inserted a node and has yet to come to the test. -/
def Place.untested : Place → ℕ
  | .count .. | .grow .. => 1
  | _ => 0

/-- The thread is at the test. -/
def Place.Tests : Place → Bool
  | .grow .. => true
  | _ => false

theorem Place.untested_of_outside {l : Place} (hl : l.Outside) : l.untested = 0 := by
  cases l with
  | idle => rfl
  | returned k p => rfl
  | _ => exact hl.elim

/-- A turn in the table, and whether a `try_to_lock` fails in it. A thread may change counters
instead. -/
inductive Tries (P : Platform) (others : Place → Prop) :
    Bool → State × Place → State × Place → Prop
  | busy {s k p} : Tries P others true (s, .grow k p)
      ({ s with clock := s.clock + 1 }, .returned k p)
  | grow {s k p} : (∀ o, others o → ¬ o.Holds) →
      Tries P others false (s, .grow k p) (s.growOwned P, .returned k p)
  | turn {s l b} : (∀ k p, l ≠ .grow k p) → Turn P others (s, l) b →
      Tries P others false (s, l) b
  | recount {s s' l} : Recounts s s' → Tries P others false (s, l) (s', l)

variable {T : Type*} [DecidableEq T] {others : Place → Prop} {l l' : Place} {failed : Bool}
  {a b : State × Place}

/-- Every turn in the table is one of these. -/
theorem Turn.tries (ht : Turn P others a b) : ∃ failed, Tries P others failed a b := by
  obtain ⟨s, l⟩ := a
  by_cases hl : ∃ k p, l = .grow k p
  · obtain ⟨k, p, rfl⟩ := hl
    cases ht with
    | call k ho => exact ho.elim
    | gc ho => exact ho.elim
    | busy => exact ⟨true, .busy⟩
    | grow ho => exact ⟨false, .grow ho⟩
  · exact ⟨false, .turn (fun k p he => hl ⟨k, p, he⟩) ht⟩

/-- Each of these is a step of the program. -/
theorem Tries.tableStep {c : Pool T State Place} {t : T}
    (ht : Tries P (c.others t) failed (c.shared, c.pc t) (s, l)) :
    TableStep P c (c.move t s l) := by
  generalize hpc : c.pc t = v at ht
  cases ht with
  | busy => exact .turn (hpc ▸ .busy)
  | grow ho => exact .turn (hpc ▸ .grow ho)
  | turn _ ht => exact .turn (hpc ▸ ht)
  | recount hr =>
    have hstay : c.move t s l = ⟨s, c.pc⟩ := by
      rw [Pool.move, ← hpc, Function.update_eq_self]
    rw [hstay]
    exact .env hr

/-- The threads whose `try_to_lock` has failed. -/
def missed (t : T) (failed : Bool) (_ : Place) : List T := if failed then [t] else []

/-- A run of the table with less than `2 ^ 32` nodes, and the list of the tests that did not take
place. -/
abbrev Filling (P : Platform) : List T → Pool T State Place → Pool T State Place → Prop :=
  Pool.Run (fun others failed a b => Tries P others failed a b ∧ a.1.stored.length < 2 ^ 32) missed

theorem View.sweep_length {j : Job} {lag : ℕ} (h : View P others lag s (.sweep j))
    (hr : s.sweepPhase.1.unmarkPhase.releasePhase s.sweepPhase.2 = some s') :
    s'.tableSize = s.tableSize ∧ s'.stored.length ≤ s.stored.length := by
  obtain ⟨c, hc⟩ := h.cache
  obtain ⟨fl, hfl⟩ := h.alloc_stored
  obtain ⟨t, ht, hcol, -⟩ :=
    State.collected_of_release hc hfl (fun p hp => hp) h.hashed.nodup s.heap.marks
  have hself : s.remark s.heap.marks = s := rfl
  rw [hself, hr, Option.some_inj] at ht
  subst ht
  refine ⟨hcol.tableSize, ?_⟩
  rw [hcol.stored]
  exact List.length_filter_le _ _

theorem View.extend_length {lag : ℕ} (h : View P others lag s (.finish (.maintenance k))) :
    (s.extend P).stored.length = s.stored.length := by
  obtain ⟨u, hu, hgrown⟩ := State.extend_cases P s
  have hview : View P others lag u (.finish (.maintenance k)) ∧ u.stored = s.stored := by
    rcases hu with ⟨-, rfl⟩ | ⟨-, rfl⟩
    · exact ⟨h, rfl⟩
    · exact ⟨h.growSlab (h.not_holds trivial) rfl, rfl⟩
  rw [(hgrown hview.1.hashed).2.perm.length_eq, hview.2]

/-- A turn outside of the test. The table gets a node only from a thread that is then to test. -/
theorem View.load_turn {lag rest : ℕ} (h : View P others lag s l)
    (hlag : (∀ o, others o → ¬ o.Shared) → lag = 0) (hl : ∀ k p, l ≠ .grow k p)
    (ht : Turn P others (s, l) (s', l'))
    (hload : s.stored.length ≤ 4 * s.tableSize + (l.untested + rest) + m) :
    s'.stored.length ≤ 4 * s'.tableSize + (l'.untested + rest) + m := by
  have hcount := h.count
  have hcount' := (h.turn hlag ht).1.count
  cases ht with
  | call k ho =>
    rw [Place.untested_of_outside ho] at hload
    exact hload
  | gc ho =>
    rw [Place.untested_of_outside ho] at hload
    exact hload
  | allocate ha =>
    obtain ⟨⟨p, a, h'⟩, -, he⟩ := Option.map_eq_some_iff.mp ha
    cases he
    exact hload
  | @won _ _ k idx p q hi =>
    rw [State.insertIfAbsent] at hi
    split at hi
    · simp at hi
    · simp only [Prod.mk.injEq, true_and] at hi
      obtain ⟨rfl, rfl⟩ := hi
      simp only [Place.uncounted] at hcount hcount'
      simp only [Place.untested] at hload ⊢
      change s.nodeCount + _ = _ at hcount'
      change _ ≤ 4 * s.tableSize + _ + _
      omega
  | @lost _ _ _ _ p q hi =>
    rw [State.insertIfAbsent] at hi
    split at hi
    · simp only [Prod.mk.injEq, true_and] at hi
      obtain ⟨rfl, rfl⟩ := hi
      exact hload
    · simp at hi
  | busy => exact absurd rfl (hl _ _)
  | grow => exact absurd rfl (hl _ _)
  | mark fuel hm =>
    rw [State.markPhase_eq, Option.map_eq_some_iff] at hm
    obtain ⟨m, -, rfl⟩ := hm
    exact hload
  | sweep hr =>
    obtain ⟨hsize, hstored⟩ := h.sweep_length hr
    rw [hsize]
    exact hstored.trans hload
  | @extend _ k =>
    have hsize := State.extend_tableSize P s
    rw [h.extend_length]
    change _ ≤ 4 * s.tableSize + (0 + rest) + m at hload
    change _ ≤ 4 * (s.extend P).tableSize + (0 + rest) + m
    omega
  | _ => exact hload

/-- **One turn** keeps the load, as the mover sees it. -/
theorem View.load {lag rest : ℕ} (h : View P others lag s l)
    (hlag : (∀ o, others o → ¬ o.Shared) → lag = 0) (hP : P.Searches)
    (hsmall : s.stored.length < 2 ^ 32) (ht : Tries P others failed (s, l) (s', l'))
    (hload : s.stored.length ≤ 4 * s.tableSize + (l.untested + rest) + m) :
    s'.stored.length ≤ 4 * s'.tableSize + (l'.untested + rest) + (m + failed.toNat) := by
  have hcount := h.count
  cases ht with
  | @busy _ k p =>
    change s.stored.length ≤ 4 * s.tableSize + (1 + rest) + m at hload
    change s.stored.length ≤ 4 * s.tableSize + (0 + rest) + (m + 1)
    omega
  | @grow _ k p ho =>
    rw [hlag fun o hoo hs => ho o hoo (Or.inl hs)] at hcount
    have hcount' : s.nodeCount = s.stored.length := hcount
    obtain ⟨hafter, -, -⟩ := State.growOwned_load (m := rest + m) hP h.hashed.size_pos.ne'
      (hcount'.trans_lt hsmall).le (hcount'.trans_le (by
        change s.stored.length ≤ 4 * s.tableSize + (1 + rest) + m at hload
        omega))
    have hr : State.Rebucketed s (s.growOwned P) :=
      (State.Rebucketed.clock s _).trans (h.hashed.setClock (s.clock + 1)).growIfLoaded.2
    rw [hr.perm.length_eq, ← hcount']
    change s.nodeCount ≤ 4 * (s.growOwned P).tableSize + (0 + rest) + (m + 0)
    omega
  | turn hl ht => exact h.load_turn hlag hl ht hload
  | recount hr =>
    obtain ⟨counts, rfl⟩ := hr
    exact hload

section pool

variable [Fintype T] {c c' : Pool T State Place} {log : List T}

/-- What holds in every state of a run. -/
structure Filled (P : Platform) (log : List T) (c : Pool T State Place) : Prop extends
    Sound P c where
  load : c.shared.stored.length ≤ 4 * c.shared.tableSize + c.total Place.untested + log.length

/-- One turn of a run. -/
theorem Filled.move {t : T} (h : Filled P log c) (hP : P.Searches)
    (hsmall : c.shared.stored.length < 2 ^ 32)
    (ht : Tries P (c.others t) failed (c.shared, c.pc t) (s, l)) :
    Filled P (log ++ missed t failed (c.pc t)) (c.move t s l) := by
  have hlag : (∀ o, c.others t o → ¬ o.Shared) → c.rest Place.uncounted t = 0 := fun ho =>
    Pool.rest_eq_zero fun o hoo => by
      by_contra hne
      exact ho o hoo (Place.shared_of_uncounted hne)
  have hload := h.load
  rw [Pool.total_eq _ c t] at hload
  have hafter := (h.toSound.view t).load hlag hP hsmall ht hload
  have hlength : (log ++ missed t failed (c.pc t)).length = log.length + failed.toNat := by
    rw [List.length_append, missed]
    cases failed <;> rfl
  refine ⟨(h.toSound.step ht.tableStep).1, ?_⟩
  rw [Pool.total_move, hlength]
  exact hafter

theorem filled_of_run {n : ℕ} (hs : s.Ready P n n) (hload : State.Loaded s) (hP : P.Searches)
    (hrun : Filling P log (start (T := T) s) c) : Filled P log c := by
  generalize hc₀ : start (T := T) s = c₀ at hrun
  induction hrun with
  | refl =>
    subst hc₀
    refine ⟨sound_start hs, ?_⟩
    have hcount : s.nodeCount = s.stored.length := hs.nodeCount
    change s.stored.length ≤ 4 * s.tableSize + _ + _
    have := hload.load
    omega
  | tail _ ht ih => exact (ih hc₀).move hP ht.2 ht.1

/-- **The load.** Any number of threads are in the table, and counters change at any time. While
fewer than `2 ^ 32` nodes are stored, there are at most four of them for each bucket, and one more
for each thread between its insertion and its test and for each `try_to_lock` that has failed. -/
theorem load_of_run {rand₁ rand₂ : ℕ → ℕ} {tableSize cacheSize : ℕ} (hP : P.Searches)
    (hlocks : ∀ k, P.fails k = false) (hv : varNum < 2 ^ 31 - 1)
    (hi : State.init P fuel rand₁ rand₂ tableSize cacheSize varNum = some s)
    (hrun : Filling P log (start (T := T) s) c) :
    c.shared.stored.length ≤
      4 * c.shared.tableSize + c.total Place.untested + log.length := by
  have hready := State.ready_of_init (hv.trans (show 2 ^ 31 - 1 < uintMax by decide)) hi
  exact (filled_of_run hready (State.Loaded.init hP hlocks (by omega) hi) hP hrun).load

/-- One turn, by the choice of the thread: to call for a key, or to go on. -/
def tried (P : Platform) (fuel : ℕ) (c : Pool T State Place) (t : T) :
    Option Key → Option (Bool × State × Place)
  | some k =>
    if (c.pc t).Outside ∧ c.shared.stored.length < 2 ^ 32 then some (false, c.shared, .enter k)
    else none
  | none =>
    let alone := decide (∀ u, u ≠ t → ¬ (c.pc u).Holds)
    if c.shared.stored.length < 2 ^ 32 then
      (c.shared.go P fuel (decide (∀ u, u ≠ t → ¬ (c.pc u).Exclusive)) alone (c.pc t)).map fun r =>
        ((c.pc t).Tests && !alone, r)
    else none

theorem tries_of_tried {t : T} {x : Option Key} {b : Bool × State × Place}
    (h : tried P fuel c t x = some b) :
    Tries P (c.others t) b.1 (c.shared, c.pc t) (b.2.1, b.2.2) ∧
      c.shared.stored.length < 2 ^ 32 := by
  cases x with
  | some k =>
    rw [tried] at h
    split_ifs at h with hl
    cases h
    refine ⟨.turn (fun k' p he => ?_) (.call k hl.1), hl.2⟩
    rw [he] at hl
    exact hl.1.elim
  | none =>
    rw [tried] at h
    split_ifs at h with hsmall
    obtain ⟨⟨s, l⟩, hgo, rfl⟩ := Option.map_eq_some_iff.mp h
    refine ⟨?_, hsmall⟩
    have hfree : decide (∀ u, u ≠ t → ¬ (c.pc u).Exclusive) = true →
        ∀ o, c.others t o → ¬ o.Exclusive := by
      rintro hf - ⟨u, hu, rfl⟩
      exact of_decide_eq_true hf u hu
    have halone : decide (∀ u, u ≠ t → ¬ (c.pc u).Holds) = true →
        ∀ o, c.others t o → ¬ o.Holds := by
      rintro hf - ⟨u, hu, rfl⟩
      exact of_decide_eq_true hf u hu
    by_cases htest : ∃ k p, c.pc t = .grow k p
    · obtain ⟨k, p, hpc⟩ := htest
      rw [hpc] at hgo ⊢
      cases hgo
      cases ha : decide (∀ u, u ≠ t → ¬ (c.pc u).Holds) with
      | true => exact .grow (halone ha)
      | false => exact .busy
    · have hnot : (c.pc t).Tests = false := by
        cases hpc : c.pc t with
        | grow k p => exact absurd ⟨k, p, hpc⟩ htest
        | _ => rfl
      rw [hnot]
      exact .turn (fun k p he => htest ⟨k, p, he⟩) (.of_go hfree halone hgo)

end pool

/-- Twelve nodes in three buckets. -/
def crowded : State :=
  (State.init searchingPlatform 40 (fun n => n) (fun n => n) 3 3 5).getD (State.empty 3)

theorem init_crowded :
    State.init searchingPlatform 40 (fun n => n) (fun n => n) 3 3 5 = some crowded := by
  have hsome : (State.init searchingPlatform 40 (fun n => n) (fun n => n) 3 3 5).isSome = true := by
    decide +kernel
  obtain ⟨s, hs⟩ := Option.isSome_iff_exists.mp hsome
  rw [crowded, hs]
  rfl

/-- Two threads insert a node. The first one comes to its test while the second one holds the lock,
and the second one comes to its test alone. -/
def crowding : List (Bool × Option Key) :=
  List.flatten [
    [(false, some ⟨0, 1, 5⟩), (true, some ⟨0, 1, 7⟩)], List.replicate 4 (false, none),
    List.replicate 3 (true, none), List.replicate 2 (false, none), List.replicate 3 (true, none)]

/-- One test does not take place, and the other one makes the array grow. -/
theorem load_of_run_small : ∃ (log : List Bool) (c : Pool Bool State Place), log = [false] ∧
    c.shared.tableSize = 7 ∧ c.shared.nodeCount = 14 ∧ c.shared.stored.length ≤
      4 * c.shared.tableSize + c.total Place.untested + log.length := by
  have hsome : (crowding.foldlM (Pool.Run.play (tried searchingPlatform 40) missed)
      ([], start crowded)).any (fun r => decide (r.1 = [false] ∧ r.2.shared.tableSize = 7 ∧
        r.2.shared.nodeCount = 14)) = true := by
    decide +kernel
  obtain ⟨⟨log, c⟩, hplay, hfacts⟩ := (Option.any_eq_true _ _).mp hsome
  obtain ⟨hlog, hsize, hcount⟩ := of_decide_eq_true hfacts
  have hrun : Filling searchingPlatform log (start (T := Bool) crowded) c :=
    Pool.Run.of_play (fun _ _ _ _ => tries_of_tried) hplay (.refl _)
  exact ⟨log, c, hlog, hsize, hcount, load_of_run searches_searchingPlatform (fun _ => rfl)
    (by decide) init_crowded hrun⟩

end Nanobdd
