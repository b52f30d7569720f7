import Nanobdd.SharedOperators
import Nanobdd.Untorn

/-!
# Every access to the cache

The operators of `SharedOperators` take a call of the cache as one step. Here they meet the cache
of `CacheProtocol`: between any two accesses of a lookup or an insertion to its entry the other
threads may do anything, be it in the table, to the objects, or to the same entry. A collection
may run while no thread is inside a call of the cache.

The parts keep each other going. A thread puts true results into the cache because the table
means what it should, and what it finds there is true because a reader never sees the fields of
two insertions mixed.

## Main definitions

* `Shared`, `Situation`, `Turns` — table, objects and entries, and what a thread may do next
* `Engaged` — a thread in a call of the cache asks or answers the question of its operator

## Main results

* `Orderly.step` — **one step** keeps the invariants of all parts
* `linearizable_of_accesses` — **linearizability** at the level of single steps in the table and
  single accesses to the cache
-/

namespace Nanobdd

open State

/-! ### Threads in the table and in the cache -/

/-- Table and objects, and the entries of the cache. The cache of the table itself is not used. -/
structure Shared where
  client : Client
  slots : Slots

/-- A thread in the table, and where it is in the code of the cache. -/
structure Situation where
  task : Task
  spot : Spot

/-- The call of `lookup` for a question. -/
def Slots.asks (k : Slots) (P : Platform) (op : Operator) (x y : Ptr) : Query :=
  ⟨hashVal P k.cache op x (op.right y), x, op.right y, op, k.ended⟩

/-- The call of `insert` for an answer. -/
def Slots.answers (k : Slots) (P : Platform) (op : Operator) (x y res : Ptr) : Insertion :=
  ⟨hashVal P k.cache op x (op.right y), res, x, op.right y, op, k.begun⟩

/-- `invalidateAll` while nobody is inside. The history begins anew. -/
def Slots.emptied (k : Slots) : Slots :=
  ⟨k.cache.invalidateAll, fun _ => none, fun _ => 0, 0, 0⟩

/-- The next thing the thread does is to call the cache. -/
def Activity.Consults (s : State) : Activity → Prop
  | .running _ _ _ (.call op x y) _ => s.terminal op x y = none
  | .running _ _ _ (.insert ..) _ => True
  | _ => False

/-- One turn of a thread, with the move of `Parallel` it is, if it is one. -/
inductive Turns (P : Platform) (others : Situation → Prop) :
    Option Move → Shared × Situation → Shared × Situation → Prop
  /-- A step that is neither a call of the cache nor a collection. -/
  | step {c c' : Client} {k : Slots} {w w' : Task} {om : Option Move} :
      (∀ m, om = some m → ¬ m.Collects w.activity ∧ ¬ w.activity.Consults c.table) →
      Stepwise P (fun o => ∃ v, others v ∧ v.task = o) om (c, w) (c', w') →
      Turns P others om (⟨c, k⟩, ⟨w, .idle⟩) (⟨c', k⟩, ⟨w', .idle⟩)
  | collect {c c' : Client} {k : Slots} {w w' : Task} {m : Move} : m.Collects w.activity →
      (∀ v, others v → v.spot = .idle) →
      Stepwise P (fun o => ∃ v, others v ∧ v.task = o) (some m) (c, w) (c', w') →
      Turns P others (some m) (⟨c, k⟩, ⟨w, .idle⟩) (⟨c', k.emptied⟩, ⟨w', .idle⟩)
  /-- Call `lookup`. -/
  | lookup {c : Client} {k : Slots} {o op : Operator} {i j : ℕ} {x y : Ptr} {st : List Frame}
      {pl : Place} : pl.Outside → c.table.terminal op x y = none →
      Turns P others none (⟨c, k⟩, ⟨⟨.running o i j (.call op x y) st, pl⟩, .idle⟩)
        (⟨c, k⟩, ⟨⟨.running o i j (.call op x y) st, pl⟩, .check (k.asks P op x y)⟩)
  /-- Call `insert`. -/
  | insert {c : Client} {k : Slots} {o op : Operator} {i j : ℕ} {x y res : Ptr} {st : List Frame}
      {pl : Place} : pl.Outside →
      Turns P others none (⟨c, k⟩, ⟨⟨.running o i j (.insert op x y res) st, pl⟩, .idle⟩)
        (⟨c, k⟩, ⟨⟨.running o i j (.insert op x y res) st, pl⟩, .acquire (k.answers P op x y res)⟩)
  /-- An access, after which the call goes on or the lookup has returned. -/
  | access {c : Client} {k k' : Slots} {w : Task} {sp sp' : Spot} : ¬ sp.Outside →
      Access (fun _ => False) (k, sp) (k', sp') → sp' ≠ .idle →
      Turns P others none (⟨c, k⟩, ⟨w, sp⟩) (⟨c, k'⟩, ⟨w, sp'⟩)
  /-- The last access of an insertion. -/
  | inserted {c : Client} {k k' : Slots} {o op : Operator} {i j : ℕ} {x y res : Ptr}
      {st : List Frame} {pl : Place} {sp : Spot} : ¬ sp.Outside →
      Access (fun _ => False) (k, sp) (k', .idle) →
      Turns P others none (⟨c, k⟩, ⟨⟨.running o i j (.insert op x y res) st, pl⟩, sp⟩)
        (⟨c, k'⟩, ⟨⟨.running o i j (.ret res) st, pl⟩, .idle⟩)
  | hit {c : Client} {k : Slots} {o op : Operator} {i j : ℕ} {x y out : Ptr} {st : List Frame}
      {pl : Place} {q : Query} {a : Option Insertion} : out ≠ nullptr →
      Turns P others none
        (⟨c, k⟩, ⟨⟨.running o i j (.call op x y) st, pl⟩, .returned q out a⟩)
        (⟨c, k⟩, ⟨⟨.running o i j (.ret out) st, pl⟩, .idle⟩)
  | miss {c : Client} {k : Slots} {o op : Operator} {i j m : ℕ} {x y : Ptr} {st : List Frame}
      {pl : Place} {q : Query} {a : Option Insertion} : m = c.table.topLevel op x y →
      Turns P others none
        (⟨c, k⟩, ⟨⟨.running o i j (.call op x y) st, pl⟩, .returned q nullptr a⟩)
        (⟨c, k⟩, ⟨⟨.running o i j (.call op.child (c.table.negCof x m)
          (op.right (c.table.negCof y m))) (.low op x y m :: st), pl⟩, .idle⟩)

variable {T : Type*} {P : Platform} {s s' : State} {c c' : Client} {k k' : Slots}
  {d d' : Pool T Shared Situation} {t : T} {l l' : Activity} {pl : Place} {sp sp' : Spot} {m : Move}
  {x y out r : Ptr} {o op : Operator} {i j n fuel : ℕ} {st : List Frame} {q : Query}
  {w : Insertion}

/-! ### True answers -/

namespace State

/-- The insertion tells the truth. -/
def Tells (s : State) (w : Insertion) : Prop :=
  s.EntrySound { node := w.node, left := w.left, right := w.right, op := w.op }

theorem EntrySound.carry {e : LockFreeCacheEntry} (he : s.EntrySound e)
    (hc : Carries s s' {p | p ∈ s.stored}) : s'.EntrySound e where
  left_mem := hc.mem _ he.left_mem
  right_mem hn := hc.mem _ (he.right_mem hn)
  node_mem := hc.mem _ he.node_mem
  denote_eq := by
    rw [hc.denote_eq _ he.node_mem, he.denote_eq]
    exact Operator.result_congr (hc.denote_eq _ he.left_mem).symm fun hn =>
      (hc.denote_eq _ (he.right_mem hn)).symm

/-- The count does not matter for an answer. -/
theorem Tells.settled (h : s.Tells w) : s.settled.Tells w :=
  ⟨h.left_mem, h.right_mem, h.node_mem, h.denote_eq⟩

theorem Tells.of_settled (h : s.settled.Tells w) : s.Tells w :=
  ⟨h.left_mem, h.right_mem, h.node_mem, h.denote_eq⟩

/-- A true answer to the question of an operator is its result. -/
theorem Tells.answer (ht : s.Tells w) (hr : Robdd P s) (ho : Operands {p | p ∈ s.stored} op x y)
    (hw : w.Answers q) (hleft : q.left = x) (hright : q.right = op.right y) (hop : q.op = op) :
    w.node ∈ s.stored ∧ s.denote w.node = s.goal op x y := by
  obtain ⟨-, hwop, hoperands⟩ := hw
  rw [hop] at hwop hoperands
  rw [hleft, hright] at hoperands
  exact ⟨ht.node_mem, EntrySound.answers hr ht ho
    (LockFreeCacheEntry.answers_iff.mpr ⟨hwop, hoperands⟩)⟩

/-- What a running operator is about to insert is true. -/
theorem Tells.of_sound {D : Operator → Prop} {A : Set Ptr} {h : BoolFun}
    (hs : Sound D P A h ⟨s, .insert op x y r, st⟩) (hnode : w.node = r) (hleft : w.left = x)
    (hright : w.right = op.right y) (hop : w.op = op) : s.Tells w := by
  obtain ⟨hw, hA, g, ⟨ho, hg, hmem, hd⟩, -⟩ := hs
  have hright' : op ≠ .not → w.right = y := fun hn => hright.trans (right_eq hn y)
  refine ⟨?_, fun hn => ?_, ?_, ?_⟩
  · exact hleft ▸ hA.mem x ho.left
  · rw [show w.op = op from hop] at hn
    exact hright' hn ▸ hA.mem y (ho.right hn)
  · exact hnode ▸ hmem
  · show s.denote w.node = w.op.result (s.denote w.left) (s.denote w.right)
    rw [hnode, hop, hd, hg]
    exact Operator.result_congr (by rw [hleft]) fun hn => by rw [hright' hn]

/-- The lookup has found an answer. -/
theorem Sound.answered {D : Operator → Prop} {A : Set Ptr} {h : BoolFun}
    (hs : Sound D P A h ⟨s, .call op x y, st⟩) (hterm : s.terminal op x y = none)
    (ht : s.Tells w) (hw : w.Answers q) (hleft : q.left = x) (hright : q.right = op.right y)
    (hop : q.op = op) : Sound D P A h ⟨s, .ret w.node, st⟩ := by
  obtain ⟨hwf, hA, g, ⟨-, ho, hg⟩, hpend⟩ := hs
  obtain ⟨hmem, hd⟩ := ht.answer hwf.toRobdd (ho.stored hA) hw hleft hright hop
  exact ⟨hwf, hA, g, ⟨hmem, hd.trans (hg.trans (answer_of_none hterm)).symm⟩, hpend⟩

/-- The insertion is over, whether or not it has stored anything. -/
theorem Sound.inserted {D : Operator → Prop} {A : Set Ptr} {h : BoolFun}
    (hs : Sound D P A h ⟨s, .insert op x y r, st⟩) : Sound D P A h ⟨s, .ret r, st⟩ := by
  obtain ⟨hwf, hA, g, ⟨-, -, hmem, hd⟩, hpend⟩ := hs
  exact ⟨hwf, hA, g, ⟨hmem, hd⟩, hpend⟩

/-- The cache of the table has no entries. -/
def Blank (s : State) : Prop :=
  ∀ cache, s.cache = some cache → ∀ i, (cache.entry i).node = nullptr

theorem Blank.congr (h : s.Blank) (hc : s'.cache = s.cache) : s'.Blank := fun k hk =>
  h k (hc ▸ hk)

theorem blank_of_invalidates (hc : ∃ c : LockFreeCache, s'.cache = some c.invalidateAll) :
    s'.Blank := by
  obtain ⟨cache, hc⟩ := hc
  intro k hk i
  rw [hc] at hk
  cases hk
  rfl

/-- The lookup has found nothing. -/
theorem Sound.missed {D : Operator → Prop} {A : Set Ptr} {h : BoolFun}
    (hs : Sound D P A h ⟨s, .call op x y, st⟩) (hterm : s.terminal op x y = none)
    (hb : s.Blank) : Sound D P A h
      ⟨s, .call op.child (s.negCof x (s.topLevel op x y))
        (op.right (s.negCof y (s.topLevel op x y))), .low op x y (s.topLevel op x y) :: st⟩ := by
  obtain ⟨cache, hcache, -⟩ := hs.wf.cache
  have hlookup := cacheLookup_eq hcache P op x (op.right y)
  rw [LockFreeCache.lookup, if_pos (hb cache hcache _)] at hlookup
  exact (hs.step (.miss hterm hlookup) id).2

end State

/-! ### Operators and their calls -/

/-- The lookup the thread is in, or has returned from. -/
def Spot.asks : Spot → Option Query
  | check q | enter q _ | readOp q | readLeft q | readRight q | readSwappedLeft q
  | readSwappedRight q | readNode q | leave q _ _ | returned q _ _ => some q
  | _ => none

/-- The insertion the thread is in. -/
def Spot.answers : Spot → Option Insertion
  | acquire w | writeNode w | writeLeft w | writeRight w | writeOp w | release w => some w
  | _ => none

/-- A call of the cache belongs to the question that the operator of the thread is at. -/
structure Engaged (s : State) (l : Activity) (sp : Spot) : Prop where
  asks : ∀ q, sp.asks = some q → ∃ o i j op x y st, l = .running o i j (.call op x y) st ∧
    s.terminal op x y = none ∧ q.left = x ∧ q.right = op.right y ∧ q.op = op
  answers : ∀ w, sp.answers = some w → ∃ o i j op x y r st,
    l = .running o i j (.insert op x y r) st ∧ w.node = r ∧ w.left = x ∧ w.right = op.right y ∧
      w.op = op
  not_clears : ¬ sp.Clears

theorem engaged_idle (s : State) (l : Activity) : Engaged s l .idle :=
  ⟨fun _ h => absurd h nofun, fun _ h => absurd h nofun, id⟩

theorem Engaged.congr (h : Engaged s l sp) (hr : SameRoots s s') : Engaged s' l sp := by
  refine ⟨fun q hq => ?_, h.answers, h.not_clears⟩
  obtain ⟨o, i, j, op, x, y, st, hl, ht, hrest⟩ := h.asks q hq
  exact ⟨o, i, j, op, x, y, st, hl, (terminal_congr hr op x y).trans ht, hrest⟩

theorem Query.asks_otherOrder (q : Query) : q.otherOrder.asks = some q ∧
    q.otherOrder.answers = none := by
  rw [otherOrder]
  split <;> exact ⟨rfl, rfl⟩

/-- An access inside a call is one of the same call. -/
theorem Access.same_call {others : Spot → Prop} (h : Access others (k, sp) (k', sp'))
    (hout : ¬ sp.Outside) (hclears : ¬ sp.Clears) (hidle : sp' ≠ .idle) :
    sp'.asks = sp.asks ∧ sp'.answers = sp.answers ∧ ¬ sp'.Clears := by
  cases h with
  | lookup _ _ _ _ hl => exact absurd hl hout
  | insert _ _ _ _ _ hl => exact absurd hl hout
  | invalidateAll hl => exact absurd hl hout
  | readOp => split <;> exact ⟨rfl, rfl, id⟩
  | @readLeft _ q =>
    split
    · exact ⟨rfl, rfl, id⟩
    · exact ⟨q.asks_otherOrder.1, q.asks_otherOrder.2, by
        rw [Query.otherOrder]
        split <;> exact id⟩
  | @readRight _ q =>
    split
    · exact ⟨rfl, rfl, id⟩
    · exact ⟨q.asks_otherOrder.1, q.asks_otherOrder.2, by
        rw [Query.otherOrder]
        split <;> exact id⟩
  | readSwappedLeft => split <;> exact ⟨rfl, rfl, id⟩
  | readSwappedRight => split <;> exact ⟨rfl, rfl, id⟩
  | giveUp => exact absurd rfl hidle
  | release => exact absurd rfl hidle
  | finish => exact absurd rfl hidle
  | clearNode => exact absurd trivial hclears
  | clearLeft => exact absurd trivial hclears
  | clearRight => exact absurd trivial hclears
  | clearCount => exact absurd trivial hclears
  | _ => exact ⟨rfl, rfl, id⟩

/-- The accesses do not depend on where the others are. -/
theorem Access.anywhere {others others' : Spot → Prop} (h : Access others (k, sp) (k', sp')) :
    Access others' (k, sp) (k', sp') := by
  cases h <;> constructor <;> assumption

/-- An access inside a call of `lookup` or `insert` is an ordinary one. -/
theorem Access.ordinary_of_not_clears {others : Spot → Prop} (h : Access others (k, sp) (k', sp'))
    (hclears : ¬ sp'.Clears) : Ordinary others (k, sp) (k', sp') :=
  ⟨h, fun _ _ (he : sp' = _) => hclears (he ▸ trivial)⟩

/-! ### The cache among the threads -/

/-- What holds of the cache in every state. -/
structure Trusted [Fintype T] (origin : Insertion → Prop) (c : Pool T Slots Spot) : Prop where
  kempt : Kempt c
  calm : Calm c
  untorn : Untorn origin c

namespace Trusted

variable [Fintype T] {origin origin' : Insertion → Prop} {c c' : Pool T Slots Spot}

theorem mono (h : Trusted origin c) (ho : ∀ w, origin w → origin' w) : Trusted origin' c :=
  ⟨h.kempt, h.calm, fun i hi => (h.untorn.written i hi).mono ho,
    fun t => (h.untorn.knows t).congr ho fun _ _ => rfl⟩

/-- An empty cache that nobody is inside. -/
theorem of_empty {k : Slots} (hidle : ∀ t, c.pc t = .idle)
    (hshared : c.shared = k.emptied) : Trusted origin c := by
  have hzero : ∀ {f : ℕ → Spot → ℕ} (i : ℕ), f i .idle = 0 → c.total (f i) = 0 := fun i hf =>
    Pool.total_eq_zero fun t => by rw [hidle, hf]
  refine ⟨⟨fun i => ?_, ⟨fun i hi => ?_, fun i _ => ?_⟩, fun t => ?_⟩, ⟨fun t => ?_, fun i => ?_⟩,
    fun i _ => ?_, fun t => ?_⟩
  · rw [hzero (f := Spot.reads) i rfl, hzero (f := Spot.writes) i rfl, hshared]
    exact Balanced.reset
  · rw [hshared] at hi
    exact absurd rfl hi
  · rw [hshared]
    exact le_rfl
  · rw [hidle]
    trivial
  · rw [hidle]
    exact id
  · rw [hshared]
    rfl
  · rw [hshared]
    rfl
  · rw [hidle]
    trivial

variable [DecidableEq T]

/-- An access of a lookup or an insertion. -/
theorem step {t : T} {s : Slots} {l : Spot} (h : Trusted origin c)
    (hrel : ∀ w, c.pc t = .release w → origin w)
    (ht : Ordinary (c.others t) (c.shared, c.pc t) (s, l)) : Trusted origin (c.move t s l) := by
  obtain ⟨hg, hc⟩ := h.calm.step (.turn ht)
  exact ⟨h.kempt.step hg, hc, h.untorn.step h.kempt h.calm (fun _ => id) hrel ht⟩

/-- A thread has taken note of what a lookup has returned. -/
theorem rest {t : T} (h : Trusted origin c) (ht : (c.pc t).Outside) :
    Trusted origin (c.move t c.shared .idle) := by
  have htotal : ∀ f : ℕ → Spot → ℕ, (∀ i, f i (c.pc t) = 0) → (∀ i, f i .idle = 0) →
      ∀ i, (c.move t c.shared .idle).total (f i) = c.total (f i) := fun f hf hidle i => by
    rw [Pool.total_move, Pool.total_eq (f i) c t, hf, hidle]
  have hreads := htotal Spot.reads ht.reads fun _ => rfl
  have hwrites := htotal Spot.writes ht.writes fun _ => rfl
  refine ⟨⟨fun i => ?_, h.kempt.history, ?_⟩, ⟨?_, h.calm.cleared⟩, fun i hi => ?_, ?_⟩
  · rw [hreads, hwrites]
    exact h.kempt.balanced i
  · refine (Pool.forall_move fun o : Spot => o.Fits c.shared).mpr ⟨trivial, ?_⟩
    rintro - ⟨u, -, rfl⟩
    exact h.kempt.fits u
  · refine (Pool.forall_move fun o : Spot => ¬ o.Clears).mpr ⟨id, ?_⟩
    rintro - ⟨u, -, rfl⟩
    exact h.calm.not_clears u
  · rw [hwrites] at hi
    exact h.untorn.written i hi
  · refine (Pool.forall_move fun o : Spot => o.Knows origin c.shared).mpr ⟨trivial, ?_⟩
    rintro - ⟨u, -, rfl⟩
    exact h.untorn.knows u

end Trusted

/-! ### Moves of the operators -/

/-- A move leaves the cache of the table without entries. -/
theorem TakesSafely.blank {others : Activity → Prop} (ht : TakesSafely P others m (c, l) (c', l'))
    (h : c.table.Blank) (hc : ¬ m.Collects l → ¬ l.Consults c.table) : c'.table.Blank := by
  obtain ⟨ht, -, -, -⟩ := ht
  cases ht with
  | act fuel hb hexec =>
    rcases Client.exec_table hexec with hre | ⟨op, i, j, x, y, r, s, rfl, -⟩ | ⟨rfl, hg⟩
    · exact h.congr hre.toRecounted.cache
    · exact hb.elim
    · exact blank_of_invalidates (gcLocked_invalidates hg)
  | call => exact h
  | step hst =>
    cases hst with
    | terminal | second | equal | differ | exhaust => exact h
    | hit hterm | miss hterm => exact absurd hterm (hc id)
    | create ho => exact h.congr (getOrCreateOnce_cache ho)
    | maintain fuel hm => exact blank_of_invalidates (performMaintenance_invalidates hm)
    | insert => exact absurd trivial (hc id)
  | construct hcon =>
    obtain ⟨-, rfl⟩ := Client.construct_eq_some hcon
    exact h.congr (Client.counted_ref c _).toRecounted.cache

/-- A turn outside of the cache leaves the cache of the table without entries. -/
theorem Steady.blank [DecidableEq T] [Fintype T] {d : Pool T Client Task} {om : Option Move}
    {w : Task} (h : Steady P n d) (ht : Stepwise P (d.others t) om (d.shared, d.pc t) (c', w))
    (hb : d.shared.table.Blank) (hm : ∀ m, om = some m → ¬ m.Collects (d.pc t).activity →
      ¬ (d.pc t).activity.Consults d.shared.table) : c'.table.Blank := by
  obtain ⟨c, pc⟩ := d
  change Stepwise P _ om (c, pc t) (c', w) at ht
  have hplaces := Pool.map_others Client.table Task.place (⟨c, pc⟩ : Pool T Client Task) t
  have hmild := (h.fits t).mild
  change (pc t).place.Mild at hmild
  change ∀ m, om = some m → ¬ m.Collects (pc t).activity →
    ¬ (pc t).activity.Consults c.table at hm
  generalize hpc : pc t = v at ht hm hmild
  cases ht with
  | move _ _ _ hts => exact hts.blank hb (hm _ rfl)
  | collect _ _ _ hts => exact hts.blank hb (hm _ rfl)
  | call => exact hb
  | table _ _ _ hts => exact hb.congr (h.inward hpc (hplaces.symm ▸ hts) hmild).2.1.cache
  | settle _ _ hts => exact hb.congr (h.inward hpc (hplaces.symm ▸ hts) hmild).2.1.cache
  | exhaust => exact hb

/-! ### All invariants -/

/-- The operators of the threads, in the table. -/
def tasksOf (d : Pool T Shared Situation) : Pool T Client Task :=
  d.map Shared.client Situation.task

/-- The cache calls of the threads. -/
def spotsOf (d : Pool T Shared Situation) : Pool T Slots Spot :=
  d.map Shared.slots Situation.spot

/-- The operators, the table and the cache are in order, and they fit together. -/
structure Orderly [DecidableEq T] [Fintype T] (P : Platform) (n : ℕ)
    (d : Pool T Shared Situation) : Prop where
  steady : Steady P n (tasksOf d)
  trusted : Trusted d.shared.client.table.Tells (spotsOf d)
  engaged : ∀ t, Engaged d.shared.client.table (d.pc t).task.activity (d.pc t).spot
  blank : d.shared.client.table.Blank

section pool

variable [DecidableEq T] [Fintype T]

/-- A turn inside the cache. The table stays as it is. -/
theorem Orderly.of_spot (h : Orderly P n d)
    (hsteady : Steady P n ((tasksOf d).move t d.shared.client ⟨l', pl⟩))
    (htrusted : Trusted d.shared.client.table.Tells ((spotsOf d).move t k' sp'))
    (hengaged : Engaged d.shared.client.table l' sp') :
    Orderly P n (d.move t ⟨d.shared.client, k'⟩ ⟨⟨l', pl⟩, sp'⟩) := by
  refine ⟨?_, ?_, ?_, h.blank⟩
  · rw [tasksOf, Pool.map_move]
    exact hsteady
  · rw [spotsOf, Pool.map_move]
    exact htrusted
  · refine (Pool.forall_move fun v : Situation =>
      Engaged d.shared.client.table v.task.activity v.spot).mpr ⟨hengaged, ?_⟩
    rintro - ⟨u, -, rfl⟩
    exact h.engaged u

/-- A step of the operators, with what it leaves of the cache. -/
theorem Orderly.of_step {om : Option Move} {v v' : Task} (h : Orderly P n d)
    (hpc : d.pc t = ⟨v, .idle⟩)
    (ht : Stepwise P ((tasksOf d).others t) om (d.shared.client, v) (c', v'))
    (hconsults : ∀ m, om = some m → ¬ m.Collects v.activity →
      ¬ v.activity.Consults d.shared.client.table)
    (htrusted : Trusted c'.table.Tells ((spotsOf d).move t k' .idle))
    (hengaged : ∀ o, d.others t o → Engaged c'.table o.task.activity o.spot) :
    Orderly P n (d.move t ⟨c', k'⟩ ⟨v', .idle⟩) ∧
      (recordOf t om v.activity).foldlM (fun v ta => Values.exec n v ta.2)
        d.shared.client.values = some c'.values := by
  have hv : (tasksOf d).pc t = v := congrArg Situation.task hpc
  obtain ⟨hsteady, hvalues⟩ := h.steady.step (hv.symm ▸ ht)
  rw [hv] at hvalues
  refine ⟨⟨?_, ?_, ?_, h.steady.blank (hv.symm ▸ ht) h.blank (hv.symm ▸ hconsults)⟩, hvalues⟩
  · rw [tasksOf, Pool.map_move]
    exact hsteady
  · rw [spotsOf, Pool.map_move]
    exact htrusted
  · exact (Pool.forall_move fun o : Situation =>
      Engaged c'.table o.task.activity o.spot).mpr ⟨engaged_idle _ _, hengaged⟩

/-- A step that keeps the nodes keeps the answers. -/
theorem Orderly.move {om : Option Move} {v v' : Task} (h : Orderly P n d)
    (hpc : d.pc t = ⟨v, .idle⟩)
    (ht : Stepwise P ((tasksOf d).others t) om (d.shared.client, v) (c', v'))
    (hm : ∀ m, om = some m →
      ¬ m.Collects v.activity ∧ ¬ v.activity.Consults d.shared.client.table) :
    Orderly P n (d.move t ⟨c', d.shared.slots⟩ ⟨v', .idle⟩) ∧
      (recordOf t om v.activity).foldlM (fun v ta => Values.exec n v ta.2)
        d.shared.client.values = some c'.values := by
  have hv : (tasksOf d).pc t = v := congrArg Situation.task hpc
  have hcarries := h.steady.carries (hv.symm ▸ ht) fun m hom => hv.symm ▸ (hm m hom).1
  refine h.of_step hpc ht (fun m hom _ => (hm m hom).2) ?_ ?_
  · have hsp : (spotsOf d).pc t = .idle := congrArg Situation.spot hpc
    have hsame : (spotsOf d).move t d.shared.slots .idle = spotsOf d := hsp ▸ Pool.move_self _ t
    rw [hsame]
    exact h.trusted.mono fun w hw => EntrySound.carry hw hcarries
  · rintro - ⟨u, -, rfl⟩
    exact (h.engaged u).congr hcarries.roots

/-- A collection, while nobody is in a call of the cache. -/
theorem Orderly.collect {v v' : Task} (h : Orderly P n d) (hpc : d.pc t = ⟨v, .idle⟩)
    (ht : Stepwise P ((tasksOf d).others t) (some m) (d.shared.client, v) (c', v'))
    (hm : m.Collects v.activity) (hidle : ∀ o, d.others t o → o.spot = .idle) :
    Orderly P n (d.move t ⟨c', d.shared.slots.emptied⟩ ⟨v', .idle⟩) ∧
      (recordOf t (some m) v.activity).foldlM (fun v ta => Values.exec n v ta.2)
        d.shared.client.values = some c'.values := by
  refine h.of_step hpc ht (fun m' hom hnot => ?_) (Trusted.of_empty ?_ rfl) fun o ho => ?_
  · obtain rfl := Option.some_inj.mp hom
    exact absurd hm hnot
  · refine (Pool.forall_move fun o : Spot => o = .idle).mpr ⟨rfl, ?_⟩
    rintro - ⟨u, hu, rfl⟩
    exact hidle _ ⟨u, hu, rfl⟩
  · rw [hidle o ho]
    exact engaged_idle _ _

theorem Orderly.works (h : Orderly P n d) (hpc : d.pc t = ⟨⟨l, pl⟩, sp⟩) :
    Works P d.shared.client.settled l :=
  h.steady.works (congrArg Situation.task hpc)

theorem Orderly.engages (h : Orderly P n d) (hpc : d.pc t = ⟨⟨l, pl⟩, sp⟩) :
    Engaged d.shared.client.table l sp := by
  have hengaged := h.engaged t
  rwa [hpc] at hengaged

/-- Nobody is about to leave an entry with something that is not true. -/
theorem Orderly.tells (h : Orderly P n d) (t : T) (w : Insertion)
    (ht : (spotsOf d).pc t = .release w) : d.shared.client.table.Tells w := by
  have hspot : (d.pc t).spot = .release w := ht
  obtain ⟨o, i, j, op, x, y, r, st, hl, hnode, hleft, hright, hop⟩ :=
    (h.engaged t).answers w (hspot ▸ rfl)
  have hworks : Works P d.shared.client.settled (d.pc t).task.activity := h.steady.keeps.2 t
  rw [hl] at hworks
  obtain ⟨-, _, _, -, hs⟩ := hworks
  exact .of_settled (.of_sound hs hnode hleft hright hop)

/-- An access of a thread leaves the cache in order. -/
theorem Orderly.accessed {v : Task} (h : Orderly P n d) (hpc : d.pc t = ⟨v, sp⟩)
    (ha : Access (fun _ => False) (d.shared.slots, sp) (k', sp')) (hclears : ¬ sp'.Clears) :
    Trusted d.shared.client.table.Tells ((spotsOf d).move t k' sp') := by
  have hsp : (spotsOf d).pc t = sp := congrArg Situation.spot hpc
  refine h.trusted.step (h.tells t) ?_
  rw [hsp]
  exact ha.anywhere.ordinary_of_not_clears hclears

/-- The operator stays where it is. -/
theorem Orderly.stay (h : Orderly P n d) (hpc : d.pc t = ⟨⟨l, pl⟩, sp⟩) :
    Steady P n ((tasksOf d).move t d.shared.client ⟨l, pl⟩) := by
  have hv : (tasksOf d).pc t = ⟨l, pl⟩ := congrArg Situation.task hpc
  have hsame : (tasksOf d).move t d.shared.client ⟨l, pl⟩ = tasksOf d := hv ▸ Pool.move_self _ t
  exact hsame.symm ▸ h.steady

theorem Orderly.lookup (h : Orderly P n d)
    (hpc : d.pc t = ⟨⟨.running o i j (.call op x y) st, pl⟩, .idle⟩)
    (hterm : d.shared.client.table.terminal op x y = none) :
    Orderly P n (d.move t d.shared
      ⟨⟨.running o i j (.call op x y) st, pl⟩, .check (d.shared.slots.asks P op x y)⟩) := by
  refine h.of_spot (h.stay hpc) (h.accessed hpc ?_ id) ⟨fun q hq => ?_, nofun, id⟩
  · exact .lookup _ x (op.right y) op trivial (hashVal_lt P d.shared.slots.cache op x (op.right y))
  · cases hq
    exact ⟨o, i, j, op, x, y, st, rfl, hterm, rfl, rfl, rfl⟩

theorem Orderly.insert (h : Orderly P n d)
    (hpc : d.pc t = ⟨⟨.running o i j (.insert op x y r) st, pl⟩, .idle⟩) :
    Orderly P n (d.move t d.shared ⟨⟨.running o i j (.insert op x y r) st, pl⟩,
      .acquire (d.shared.slots.answers P op x y r)⟩) := by
  refine h.of_spot (h.stay hpc) (h.accessed hpc ?_ id) ⟨nofun, fun w hw => ?_, id⟩
  · exact .insert _ r x (op.right y) op trivial
      (hashVal_lt P d.shared.slots.cache op x (op.right y))
  · cases hw
    exact ⟨o, i, j, op, x, y, r, st, rfl, rfl, rfl, rfl, rfl⟩

theorem Orderly.access (h : Orderly P n d) (hpc : d.pc t = ⟨⟨l, pl⟩, sp⟩) (hout : ¬ sp.Outside)
    (ha : Access (fun _ => False) (d.shared.slots, sp) (k', sp')) (hidle : sp' ≠ .idle) :
    Orderly P n (d.move t ⟨d.shared.client, k'⟩ ⟨⟨l, pl⟩, sp'⟩) := by
  have hengaged := h.engages hpc
  obtain ⟨hasks, hanswers, hclears⟩ := ha.same_call hout hengaged.not_clears hidle
  refine h.of_spot (h.stay hpc) (h.accessed hpc ha hclears) ⟨?_, ?_, hclears⟩
  · rw [hasks]
    exact hengaged.asks
  · rw [hanswers]
    exact hengaged.answers

theorem Orderly.inserted (h : Orderly P n d)
    (hpc : d.pc t = ⟨⟨.running o i j (.insert op x y r) st, pl⟩, sp⟩)
    (ha : Access (fun _ => False) (d.shared.slots, sp) (k', .idle)) :
    Orderly P n (d.move t ⟨d.shared.client, k'⟩ ⟨⟨.running o i j (.ret r) st, pl⟩, .idle⟩) := by
  obtain ⟨hop, x', y', ho, hs⟩ := h.works hpc
  exact h.of_spot (h.steady.proceed (congrArg Situation.task hpc)
    ⟨hop, x', y', ho, hs.inserted⟩ id) (h.accessed hpc ha id) (engaged_idle _ _)

/-- The thread takes note of what the lookup has returned. -/
theorem Orderly.returned {a : Option Insertion} (h : Orderly P n d)
    (hpc : d.pc t = ⟨⟨l, pl⟩, .returned q out a⟩) (hworks : Works P d.shared.client.settled l')
    (hcr : ¬ l.Creates) : Orderly P n (d.move t d.shared ⟨⟨l', pl⟩, .idle⟩) := by
  have hsp : (spotsOf d).pc t = .returned q out a := congrArg Situation.spot hpc
  exact h.of_spot (h.steady.proceed (congrArg Situation.task hpc) hworks hcr)
    (h.trusted.rest (hsp ▸ trivial)) (engaged_idle _ _)

/-- What a lookup has returned is true. -/
theorem Orderly.tells_returned {a : Option Insertion} (h : Orderly P n d)
    (hpc : d.pc t = ⟨⟨.running o i j (.call op x y) st, pl⟩, .returned q out a⟩)
    (hne : out ≠ nullptr) :
    d.shared.client.table.terminal op x y = none ∧ q.left = x ∧ q.right = op.right y ∧
      q.op = op ∧ ∃ w, d.shared.client.table.Tells w ∧ w.Answers q ∧ w.node = out := by
  obtain ⟨o', i', j', op', u, v, st', hl, hterm, hleft, hright, hop⟩ := (h.engages hpc).asks q rfl
  cases hl
  have hknows := h.trusted.untorn.knows t
  have hsp : (spotsOf d).pc t = .returned q out a := congrArg Situation.spot hpc
  rw [hsp] at hknows
  obtain ⟨w, -, hw⟩ := hknows hne
  exact ⟨hterm, hleft, hright, hop, w, hw⟩

theorem Orderly.hit {a : Option Insertion} (h : Orderly P n d)
    (hpc : d.pc t = ⟨⟨.running o i j (.call op x y) st, pl⟩, .returned q out a⟩)
    (hne : out ≠ nullptr) :
    Orderly P n (d.move t d.shared ⟨⟨.running o i j (.ret out) st, pl⟩, .idle⟩) := by
  obtain ⟨hop, x', y', ho, hs⟩ := h.works hpc
  obtain ⟨hterm, hleft, hright, hqop, w, htells, hw, rfl⟩ := h.tells_returned hpc hne
  exact h.returned hpc
    ⟨hop, x', y', ho, hs.answered hterm htells.settled hw hleft hright hqop⟩ id

theorem Orderly.miss {a : Option Insertion} (h : Orderly P n d)
    (hpc : d.pc t = ⟨⟨.running o i j (.call op x y) st, pl⟩, .returned q nullptr a⟩) :
    let s := d.shared.client.table
    Orderly P n (d.move t d.shared ⟨⟨.running o i j
      (.call op.child (s.negCof x (s.topLevel op x y)) (op.right (s.negCof y (s.topLevel op x y))))
      (.low op x y (s.topLevel op x y) :: st), pl⟩, .idle⟩) := by
  obtain ⟨hop, x', y', ho, hs⟩ := h.works hpc
  obtain ⟨o', i', j', op', u, v, st', hl, hterm, -⟩ := (h.engages hpc).asks q rfl
  cases hl
  exact h.returned hpc ⟨hop, x', y', ho, hs.missed hterm h.blank⟩ id

/-- **One turn**: all invariants go on, and what ends with the turn is done to the values. -/
theorem Orderly.step (h : Orderly P n d) {om : Option Move} {s : Shared} {v : Situation}
    (ht : Turns P (d.others t) om (d.shared, d.pc t) (s, v)) : Orderly P n (d.move t s v) ∧
      (recordOf t om (d.pc t).task.activity).foldlM (fun v ta => Values.exec n v ta.2)
        d.shared.client.values = some s.client.values := by
  obtain ⟨shared, pc⟩ := d
  change Turns P _ om (shared, pc t) (s, v) at ht
  show Orderly P n (Pool.move ⟨shared, pc⟩ t s v) ∧
    (recordOf t om (pc t).task.activity).foldlM (fun v ta => Values.exec n v ta.2)
      shared.client.values = some s.client.values
  have htasks := Pool.map_others Shared.client Situation.task
    (⟨shared, pc⟩ : Pool T Shared Situation) t
  generalize hpc : pc t = u at ht ⊢
  cases ht with
  | step hm hts => exact h.move hpc (htasks.symm ▸ hts) hm
  | collect hm hidle hts => exact h.collect hpc (htasks.symm ▸ hts) hm hidle
  | lookup hpl hterm => exact ⟨h.lookup hpc hterm, rfl⟩
  | insert => exact ⟨h.insert hpc, rfl⟩
  | access hout ha hidle => exact ⟨h.access hpc hout ha hidle, rfl⟩
  | inserted hout ha => exact ⟨h.inserted hpc ha, rfl⟩
  | hit hne => exact ⟨h.hit hpc hne, rfl⟩
  | miss hm =>
    subst hm
    exact ⟨h.miss hpc, rfl⟩

/-! ### Runs -/

/-- A run of many threads, one access at a time, with the actions in the order in which they
end. -/
abbrev Accesses (P : Platform) :
    List (T × Action) → Pool T Shared Situation → Pool T Shared Situation → Prop :=
  Pool.Run (Turns P) fun t om v => recordOf t om v.task.activity

omit [DecidableEq T] [Fintype T] in
/-- Many threads right after `init`, with an empty cache. -/
def Slots.begin (k : Slots) (T : Type*) (s : State) : Pool T Shared Situation :=
  ⟨⟨Client.start s, k⟩, fun _ => ⟨⟨.idle, .idle⟩, .idle⟩⟩

theorem orderly_begin (h : Ready P s n n) (hb : s.Blank) (k : Slots) :
    Orderly P n (k.emptied.begin T s) :=
  ⟨steady_start h, .of_empty (fun _ => rfl) rfl, fun _ => engaged_idle _ _, hb⟩

/-- **The invariant of a run.** -/
theorem Orderly.run {v : List (T × Action)} (h : Orderly P n d) (hd : Accesses P v d d') :
    Orderly P n d' ∧ v.foldlM (fun v ta => Values.exec n v ta.2) d.shared.client.values =
      some d'.shared.client.values := by
  induction hd with
  | refl => exact ⟨h, rfl⟩
  | tail _ ht ih =>
    obtain ⟨hd, hvalues⟩ := ih h
    obtain ⟨hd', hlast⟩ := hd.step ht
    refine ⟨hd', ?_⟩
    rw [List.foldlM_append, hvalues]
    exact hlast

/-- **Linearizability, access by access.** Threads work on shared objects, and between any two
steps in the table and any two accesses to an entry of the cache the others may go on, but not
collect. In every state the objects hold what one thread would compute with the actions that have
ended, the table is canonical and in order, the counters are exact, and what a lookup has returned
is the result of the operator that asked. -/
theorem linearizable_of_accesses {rand₁ rand₂ : ℕ → ℕ} {tableSize cacheSize varNum size : ℕ}
    {hsize : 0 < size} {v : List (T × Action)} (hv : varNum < uintMax)
    (hi : State.init P fuel rand₁ rand₂ tableSize cacheSize varNum = some s)
    (hd : Accesses P v ((Slots.new size hsize).begin T s) d) :
    v.foldlM (fun v ta => Values.exec varNum v ta.2) [] = some d.shared.client.values ∧
      Client.Canonical varNum d.shared.client ∧
      InOrder P (placesOf (tasksOf d)) ∧
      (∀ p ∈ d.shared.client.table.stored, (d.shared.client.table.heap p).refCount =
        d.shared.client.handles p + d.shared.client.table.permanent p) ∧
      ∀ t o i j op x y st pl q out a,
        d.pc t = ⟨⟨.running o i j (.call op x y) st, pl⟩, .returned q out a⟩ → out ≠ nullptr →
          out ∈ d.shared.client.table.stored ∧
            d.shared.client.table.denote out = d.shared.client.table.goal op x y := by
  obtain ⟨_, _, hcache⟩ := init_cache hi
  have hb : s.Blank := fun k hk _ => by
    rw [hcache] at hk
    cases hk
    rfl
  obtain ⟨h, hvalues⟩ := (orderly_begin (ready_of_init hv hi) hb (Slots.new size hsize)).run hd
  have hfaithful : Client.Faithful P varNum d.shared.client.settled := h.steady.keeps.1
  refine ⟨hvalues, hfaithful.canonical.of_settled, h.steady.table.inOrder, hfaithful.counted, ?_⟩
  intro t o i j op x y st pl q out a hpc hne
  obtain ⟨-, _, _, -, hwf, hA, _, ⟨-, ho, -⟩, -⟩ := h.works hpc
  obtain ⟨-, hleft, hright, hop, w, htells, hw, rfl⟩ := h.tells_returned hpc hne
  exact htells.settled.answer hwf.toRobdd (ho.stored hA) hw hleft hright hop

end pool

/-! ### Schedules -/

/-- The move neither calls the cache nor enters the table. -/
def Activity.Free (s : State) : Activity → Bool
  | .running _ _ _ (.call op x y) _ => (s.terminal op x y).isSome
  | .running _ _ _ (.create ..) _ | .running _ _ _ (.insert ..) _ => false
  | _ => true

theorem Activity.not_creates_of_free (h : l.Free s = true) : ¬ l.Creates ∧ ¬ l.Consults s := by
  cases l with
  | idle => exact ⟨id, id⟩
  | running o i j control st =>
    cases control with
    | call op x y =>
      refine ⟨id, fun hnone => ?_⟩
      have hsome : (s.terminal op x y).isSome = true := h
      rw [show s.terminal op x y = none from hnone] at hsome
      cases hsome
    | create => exact absurd h nofun
    | insert => exact absurd h nofun
    | _ => exact ⟨id, id⟩

/-- The next step of a thread inside an operator. `free` and `alone` are as in `State.go`. -/
def Situation.go (P : Platform) (fuel : ℕ) (free alone : Bool) (a : Shared) (v : Situation) :
    Option (Shared × Situation) :=
  match v.task.activity, v.spot with
  | .running o i j (.call op x y) st, .returned _ out _ =>
    if out = nullptr then
      let m := a.client.table.topLevel op x y
      some (a, ⟨⟨.running o i j (.call op.child (a.client.table.negCof x m)
        (op.right (a.client.table.negCof y m))) (.low op x y m :: st), v.task.place⟩, .idle⟩)
    else some (a, ⟨⟨.running o i j (.ret out) st, v.task.place⟩, .idle⟩)
  | .running o i j (.call op x y) st, .idle =>
    if v.task.place.Outside ∧ a.client.table.terminal op x y = none then
      some (a, ⟨⟨.running o i j (.call op x y) st, v.task.place⟩, .check (a.slots.asks P op x y)⟩)
    else none
  | .running o i j (.insert op x y r) st, .idle =>
    if v.task.place.Outside then
      some (a, ⟨⟨.running o i j (.insert op x y r) st, v.task.place⟩,
        .acquire (a.slots.answers P op x y r)⟩)
    else (v.task.go P fuel free alone a.client).map fun b => (⟨b.1, a.slots⟩, ⟨b.2, .idle⟩)
  | .running o i j (.insert op x y r) st, sp =>
    (a.slots.go sp).map fun b =>
      if b.2 = .idle then
        (⟨a.client, b.1⟩, ⟨⟨.running o i j (.ret r) st, v.task.place⟩, .idle⟩)
      else (⟨a.client, b.1⟩, ⟨⟨.running o i j (.insert op x y r) st, v.task.place⟩, b.2⟩)
  | _, .idle => (v.task.go P fuel free alone a.client).map fun b => (⟨b.1, a.slots⟩, ⟨b.2, .idle⟩)
  | l, sp =>
    (a.slots.go sp).bind fun b =>
      if b.2 = .idle then none else some (⟨a.client, b.1⟩, ⟨⟨l, v.task.place⟩, b.2⟩)

theorem Slots.not_outside_of_go {b : Slots × Spot} (h : k.go sp = some b) : ¬ sp.Outside := by
  cases sp with
  | idle => exact absurd h nofun
  | returned => exact absurd h nofun
  | _ => exact id

/-- What is executed is a turn. -/
theorem Turns.of_go {others : Situation → Prop} {free alone : Bool} {a b : Shared}
    {v v' : Situation} (hfree : free = true → ∀ o, others o → ¬ o.task.place.Exclusive)
    (halone : alone = true → ∀ o, others o → ¬ o.task.place.Holds)
    (h : v.go P fuel free alone a = some (b, v')) : Turns P others none (a, v) (b, v') := by
  obtain ⟨⟨l, pl⟩, sp⟩ := v
  obtain ⟨c, k⟩ := a
  have hstep : ∀ {b}, (⟨l, pl⟩ : Task).go P fuel free alone c = some b →
      Turns P others none (⟨c, k⟩, ⟨⟨l, pl⟩, .idle⟩) (⟨b.1, k⟩, ⟨b.2, .idle⟩) := by
    refine fun hb => .step nofun (.of_go (fun hf => ?_) (fun ha => ?_) hb)
    · rintro - ⟨o, ho, rfl⟩
      exact hfree hf o ho
    · rintro - ⟨o, ho, rfl⟩
      exact halone ha o ho
  rw [Situation.go] at h
  split at h
  · next hl hsp =>
    cases hl
    cases hsp
    split_ifs at h with hout
    · cases h
      subst hout
      exact .miss rfl
    · cases h
      exact .hit hout
  · next hl hsp =>
    cases hl
    cases hsp
    split_ifs at h with hcall
    cases h
    exact .lookup hcall.1 hcall.2
  · next hl hsp =>
    cases hl
    cases hsp
    split_ifs at h with hout
    · cases h
      exact .insert hout
    · obtain ⟨r, hr, he⟩ := Option.map_eq_some_iff.mp h
      cases he
      exact hstep hr
  · next hl _ =>
    cases hl
    obtain ⟨⟨k', sp'⟩, hr, he⟩ := Option.map_eq_some_iff.mp h
    split_ifs at he with hidle
    · cases he
      cases hidle
      exact .inserted (Slots.not_outside_of_go hr) (.of_go hr)
    · cases he
      exact .access (Slots.not_outside_of_go hr) (.of_go hr) hidle
  · next hsp _ _ =>
    cases hsp
    obtain ⟨r, hr, he⟩ := Option.map_eq_some_iff.mp h
    cases he
    exact hstep hr
  · obtain ⟨⟨k', sp'⟩, hr, he⟩ := Option.bind_eq_some_iff.mp h
    split_ifs at he with hidle
    cases he
    exact .access (Slots.not_outside_of_go hr) (.of_go hr) hidle

section schedule

variable [Fintype T] [DecidableEq T] {x : Option Move} {b : Option Move × Shared × Situation}

/-- The operators of the threads alone. -/
def activities (d : Pool T Shared Situation) : Pool T Client Activity :=
  (tasksOf d).map (fun c => c) Task.activity

/-- One turn of a schedule: a move, or the next step of an operator. -/
def turned (P : Platform) (fuel : ℕ) (d : Pool T Shared Situation) (t : T) :
    Option Move → Option (Option Move × Shared × Situation)
  | none =>
    ((d.pc t).go P fuel (decide (∀ u, u ≠ t → ¬ (d.pc u).task.place.Exclusive))
      (decide (∀ u, u ≠ t → ¬ (d.pc u).task.place.Holds)) d.shared).map fun b => (none, b)
  | some m =>
    if (d.pc t).spot = .idle ∧ (d.pc t).task.place.Outside ∧
        (d.pc t).task.activity.Free d.shared.client.table = true then
      if m.Collects (d.pc t).task.activity then
        if ∀ u, u ≠ t → (d.pc u).spot = .idle ∧ ¬ (d.pc u).task.place.Holds then
          (taken P fuel (activities d) t m).map fun b =>
            (some m, ⟨b.2.1, d.shared.slots.emptied⟩, ⟨⟨b.2.2, .idle⟩, .idle⟩)
        else none
      else
        (taken P fuel (activities d) t m).map fun b =>
          (some m, ⟨b.2.1, d.shared.slots⟩, ⟨⟨b.2.2, .idle⟩, .idle⟩)
    else none

theorem turns_of_turned (h : turned P fuel d t x = some b) :
    Turns P (d.others t) b.1 (d.shared, d.pc t) (b.2.1, b.2.2) := by
  cases x with
  | none =>
    obtain ⟨⟨a, v⟩, hgo, rfl⟩ := Option.map_eq_some_iff.mp h
    refine .of_go (fun hf => ?_) (fun ha => ?_) hgo
    · rintro - ⟨u, hu, rfl⟩
      exact of_decide_eq_true hf u hu
    · rintro - ⟨u, hu, rfl⟩
      exact of_decide_eq_true ha u hu
  | some m =>
    have hothers : (activities d).others t =
        fun o => ∃ w, (∃ v, d.others t v ∧ v.task = w) ∧ w.activity = o := by
      rw [activities, Pool.map_others, tasksOf, Pool.map_others]
    have hsafe : ∀ {r}, taken P fuel (activities d) t m = some r → TakesSafely P
        (fun o => ∃ w, (∃ v, d.others t v ∧ v.task = w) ∧ w.activity = o) m
        (d.shared.client, (d.pc t).task.activity) (r.2.1, r.2.2) := by
      intro r hr
      have hts := takesSafely_of_taken hr
      rw [fst_of_taken hr, hothers] at hts
      exact hts
    rw [turned] at h
    split_ifs at h with hat hcollects halone
    · obtain ⟨r, hr, rfl⟩ := Option.map_eq_some_iff.mp h
      obtain ⟨hspot, hout, -⟩ := hat
      generalize hpc : d.pc t = v at *
      obtain ⟨⟨l, pl⟩, sp⟩ := v
      cases hspot
      refine .collect hcollects ?_ (.collect hout hcollects ?_ (hsafe hr))
      · rintro - ⟨u, hu, rfl⟩
        exact (halone u hu).1
      · rintro - ⟨-, ⟨u, hu, rfl⟩, rfl⟩
        exact (halone u hu).2
    · obtain ⟨r, hr, rfl⟩ := Option.map_eq_some_iff.mp h
      obtain ⟨hspot, hout, hfree⟩ := hat
      generalize hpc : d.pc t = v at *
      obtain ⟨⟨l, pl⟩, sp⟩ := v
      cases hspot
      obtain ⟨hcreates, hconsults⟩ := Activity.not_creates_of_free hfree
      refine .step (fun _ hom => ?_) (.move hout hcollects hcreates (hsafe hr))
      exact Option.some_inj.mp hom ▸ ⟨hcollects, hconsults⟩

end schedule

/-- Two threads run `v0 & v1` side by side. Both find nothing in the cache, and both allocate; one
candidate comes too late and is recycled, and one of the two insertions gives up. A third call of
`v0 & v1` finds the answer, while an object is copied. -/
def answering : List (Bool × Option Move) :=
  List.flatten [
    [(false, some (.act (.getVar 0))), (false, some (.act (.getVar 1))),
      (false, some (.call .and 0 1)), (true, some (.call .and 0 1))],
    (List.replicate 3 [(false, none), (true, none)]).flatten,
    List.replicate 4 (false, some .step), List.replicate 4 (true, some .step),
    -- in the table
    (List.replicate 5 [(false, none), (true, none)]).flatten,
    List.replicate 2 (true, none), List.replicate 3 (false, none),
    -- the two insertions
    [(true, none), (true, none), (false, none)], List.replicate 4 (true, none),
    [(true, some .construct), (false, some .construct), (false, some (.call .and 0 1))],
    List.replicate 3 (false, none), [(true, some (.act (.copyConstruct 2)))],
    List.replicate 5 (false, none)]

/-- The operator is at the question for `x` and `y`, and the lookup has returned `out`. -/
def Situation.Returned (op : Operator) (x y out : Ptr) : Situation → Bool
  | ⟨⟨.running _ _ _ (.call op' x' y') _, _⟩, .returned _ out' _⟩ =>
    decide (op' = op ∧ x' = x ∧ y' = y ∧ out' = out)
  | _ => false

theorem exists_of_returned {v : Situation} (h : v.Returned op x y out = true) :
    ∃ o i j st pl q a,
      v = ⟨⟨.running o i j (.call op x y) st, pl⟩, .returned q out a⟩ := by
  obtain ⟨⟨l, pl⟩, sp⟩ := v
  unfold Situation.Returned at h
  split at h
  · next heq =>
    obtain ⟨rfl, rfl, rfl, rfl⟩ := of_decide_eq_true h
    cases heq
    exact ⟨_, _, _, _, _, _, _, rfl⟩
  · exact absurd h nofun

/-- The lookup of the third call has returned. -/
theorem linearizable_of_accesses_small : ∃ d : Pool Bool Shared Situation,
    [(false, Action.getVar 0), (false, .getVar 1), (true, .apply .and 0 1),
      (false, .apply .and 0 1), (true, .copyConstruct 2)].foldlM
        (fun v ta => Values.exec 3 v ta.2) [] = some d.shared.client.values ∧
      d.shared.client.bdds.length = 5 ∧ 9 ∈ d.shared.client.table.stored ∧
      d.shared.client.table.denote 9 = d.shared.client.table.goal .and 3 5 := by
  have hsome : (answering.foldlM (Pool.Run.play (turned smallPlatform 40)
      fun t om v => recordOf t om v.task.activity)
      ([], (Slots.new 1 Nat.one_pos).begin Bool small)).any (fun r =>
        decide (r.1 = [(false, .getVar 0), (false, .getVar 1), (true, .apply .and 0 1),
          (false, .apply .and 0 1), (true, .copyConstruct 2)] ∧
            r.2.shared.client.bdds.length = 5 ∧
            (r.2.pc false).Returned .and 3 5 9 = true)) = true := by
    decide +kernel
  obtain ⟨⟨v, d⟩, hplay, hfacts⟩ := (Option.any_eq_true _ _).mp hsome
  obtain ⟨rfl, hlength, hreturned⟩ := of_decide_eq_true hfacts
  obtain ⟨o, i, j, st, pl, q, a, hpc⟩ := exists_of_returned hreturned
  have hrun : Accesses smallPlatform _ ((Slots.new 1 Nat.one_pos).begin Bool small) d :=
    Pool.Run.of_play (fun _ _ _ _ => turns_of_turned) hplay (.refl _)
  obtain ⟨hvalues, -, -, -, hanswers⟩ := linearizable_of_accesses (by decide) init_small hrun
  exact ⟨d, hvalues, hlength, hanswers _ _ _ _ _ _ _ _ _ _ _ _ hpc (by decide)⟩

end Nanobdd
