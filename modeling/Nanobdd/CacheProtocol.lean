import Nanobdd.Cache
import Nanobdd.Lib.Threads
import Nanobdd.Lib.Transition

/-!
# The operation cache under many threads

`lookup`, `insert` and `invalidateAll` for any number of threads, as the sequence of their
accesses to an entry. A reader is inside an entry from its compare-exchange to its decrement, a
writer from its compare-exchange to its last store. `invalidateAll` does not ask who is inside,
and a call of `insert` may have started long before it reaches the entry.

The collections are numbered in the order in which their `invalidateAll` begins. A call
remembers how many had begun, or which was the last to have ended, when it started, and an entry
remembers who wrote its node. Nothing in the source reads these history variables, and no step
depends on them.

## Main definitions

* `Slots`, `Spot`, `Access` — the cache, where a thread is, and one access of a thread
* `Guarded` — an access at which `invalidateAll` neither resets the counter of an entry somebody
  is inside nor is overtaken by an older `insert`
* `Effective` — what the cache promises in every state
* `Slots.act` — the accesses as a function of what a thread chooses

## Main results

* `effective_of_run` — the promises hold in every run of guarded accesses
* `not_effective_of_run` — the counter falls to `-2`, and stays there, in a run that is not
* `turns_of_lookup`, `turns_of_insert` — a thread that runs alone computes `lookup` and `insert`
-/

namespace Nanobdd

/-- A call of `lookup`. -/
structure Query where
  slot : ℕ
  left : Ptr
  right : Ptr
  op : Operator
  /-- History: the last `invalidateAll` that had ended when the call started. -/
  ended : ℕ
  deriving DecidableEq, Repr

/-- A call of `insert`. -/
structure Insertion where
  slot : ℕ
  node : Ptr
  left : Ptr
  right : Ptr
  op : Operator
  /-- History: how many calls of `invalidateAll` had begun when the call started. -/
  begun : ℕ
  deriving DecidableEq, Repr

/-- The cache, and its history. -/
structure Slots where
  cache : LockFreeCache
  /-- History: the insertion that wrote the node of the entry. -/
  author : ℕ → Option Insertion
  /-- History: the last `invalidateAll` that has cleared the node of the entry. -/
  cleared : ℕ → ℕ
  /-- History: how many calls of `invalidateAll` have begun. -/
  begun : ℕ
  /-- History: the last `invalidateAll` that has ended. -/
  ended : ℕ

/-- Where a thread is in the code of the cache. -/
inductive Spot
  | idle
  /-- `lookup`: the test of `entry.node`. -/
  | check (q : Query)
  /-- The compare-exchange, with its expected value. -/
  | enter (q : Query) (uc : ℤ)
  | readOp (q : Query)
  | readLeft (q : Query)
  | readRight (q : Query)
  /-- The operands in the other order. -/
  | readSwappedLeft (q : Query)
  | readSwappedRight (q : Query)
  | readNode (q : Query)
  /-- The decrement. -/
  | leave (q : Query) (out : Ptr) (author : Option Insertion)
  | returned (q : Query) (out : Ptr) (author : Option Insertion)
  /-- `insert`: the compare-exchange. -/
  | acquire (w : Insertion)
  | writeNode (w : Insertion)
  | writeLeft (w : Insertion)
  | writeRight (w : Insertion)
  | writeOp (w : Insertion)
  | release (w : Insertion)
  /-- `invalidateAll` number `n`, in the loop at entry `i`. -/
  | clearNode (n i : ℕ)
  | clearLeft (n i : ℕ)
  | clearRight (n i : ℕ)
  | clearCount (n i : ℕ)
  deriving DecidableEq, Repr

namespace Slots

/-- The entry with this number. -/
def entry (s : Slots) (i : ℕ) : LockFreeCacheEntry := s.cache.entry i

/-- An access to one entry. -/
def modify (s : Slots) (i : ℕ) (f : LockFreeCacheEntry → LockFreeCacheEntry) : Slots :=
  { s with cache := s.cache.setEntry i (f (s.entry i)) }

/-- Another value of a counter. -/
def setUse (s : Slots) (i : ℕ) (uc : ℤ) : Slots := s.modify i fun e => { e with useCount := uc }

/-- Another value of a field that no protocol depends on. -/
def setLeft (s : Slots) (i : ℕ) (p : Ptr) : Slots := s.modify i fun e => { e with left := p }

@[inherit_doc setLeft]
def setRight (s : Slots) (i : ℕ) (p : Ptr) : Slots := s.modify i fun e => { e with right := p }

@[inherit_doc setLeft]
def setOp (s : Slots) (i : ℕ) (op : Operator) : Slots := s.modify i fun e => { e with op := op }

/-- An insertion writes the node. -/
def writeNode (s : Slots) (w : Insertion) : Slots :=
  { s.modify w.slot fun e => { e with node := w.node } with
    author := fun i => if i = w.slot then some w else s.author i }

/-- `invalidateAll` number `n` clears the node. -/
def clearNode (s : Slots) (n i : ℕ) : Slots :=
  { s.modify i fun e => { e with node := nullptr } with
    author := fun j => if j = i then none else s.author j
    cleared := fun j => if j = i then max n (s.cleared i) else s.cleared j }

/-- An empty cache without history. -/
def new (size : ℕ) (h : 0 < size) : Slots := ⟨.new size h, fun _ => none, fun _ => 0, 0, 0⟩

end Slots

namespace Spot

/-- The thread is in no call. -/
def Outside : Spot → Prop
  | idle | returned .. => True
  | _ => False

/-- The entry the thread is inside as a reader. -/
def reader : Spot → Option ℕ
  | readOp q | readLeft q | readRight q | readSwappedLeft q | readSwappedRight q | readNode q
  | leave q _ _ => some q.slot
  | _ => none

/-- The entry the thread is inside as a writer. -/
def writer : Spot → Option ℕ
  | writeNode w | writeLeft w | writeRight w | writeOp w | release w => some w.slot
  | _ => none

/-- The thread is inside the entry. -/
def Inside (i : ℕ) (l : Spot) : Prop := l.reader = some i ∨ l.writer = some i

end Spot

/-- The first comparison has failed: the operands of a commutative operator are compared in the
other order. -/
def Query.otherOrder (q : Query) : Spot :=
  if isCommutativeOperator q.op then .readSwappedLeft q else .leave q nullptr none

/-- One access of a thread. -/
inductive Access (others : Spot → Prop) : Slots × Spot → Slots × Spot → Prop
  /-- Call `lookup`. -/
  | lookup {s l} (i : ℕ) (left right : Ptr) (op : Operator) : l.Outside → i < s.cache.size →
      Access others (s, l) (s, .check ⟨i, left, right, op, s.ended⟩)
  | absent {s q} : (s.entry q.slot).node = nullptr →
      Access others (s, .check q) (s, .returned q nullptr none)
  | present {s q} : (s.entry q.slot).node ≠ nullptr → Access others (s, .check q) (s, .enter q 0)
  | enter {s q uc} : (s.entry q.slot).useCount = uc →
      Access others (s, .enter q uc) (s.setUse q.slot (uc + 1), .readOp q)
  | locked {s q uc} : (s.entry q.slot).useCount ≠ uc → (s.entry q.slot).useCount = -1 →
      Access others (s, .enter q uc) (s, .returned q nullptr none)
  | retry {s q uc} : (s.entry q.slot).useCount ≠ uc → (s.entry q.slot).useCount ≠ -1 →
      Access others (s, .enter q uc) (s, .enter q (s.entry q.slot).useCount)
  | readOp {s q} : Access others (s, .readOp q)
      (s, if (s.entry q.slot).op = q.op then .readLeft q else .leave q nullptr none)
  | readLeft {s q} : Access others (s, .readLeft q)
      (s, if (s.entry q.slot).left = q.left then .readRight q else q.otherOrder)
  | readRight {s q} : Access others (s, .readRight q)
      (s, if (s.entry q.slot).right = q.right then .readNode q else q.otherOrder)
  | readSwappedLeft {s q} : Access others (s, .readSwappedLeft q)
      (s, if (s.entry q.slot).left = q.right then .readSwappedRight q else .leave q nullptr none)
  | readSwappedRight {s q} : Access others (s, .readSwappedRight q)
      (s, if (s.entry q.slot).right = q.left then .readNode q else .leave q nullptr none)
  | readNode {s q} : Access others (s, .readNode q)
      (s, .leave q (s.entry q.slot).node (s.author q.slot))
  | leave {s q out a} : Access others (s, .leave q out a)
      (s.setUse q.slot ((s.entry q.slot).useCount - 1), .returned q out a)
  /-- Call `insert`. -/
  | insert {s l} (i : ℕ) (node left right : Ptr) (op : Operator) : l.Outside → i < s.cache.size →
      Access others (s, l) (s, .acquire ⟨i, node, left, right, op, s.begun⟩)
  | acquire {s w} : (s.entry w.slot).useCount = 0 →
      Access others (s, .acquire w) (s.setUse w.slot (-1), .writeNode w)
  /-- The weak compare-exchange fails, for a reason or for none. -/
  | giveUp {s w} : Access others (s, .acquire w) (s, .idle)
  | writeNode {s w} : Access others (s, .writeNode w) (s.writeNode w, .writeLeft w)
  | writeLeft {s w} : Access others (s, .writeLeft w)
      (s.setLeft w.slot w.left, .writeRight w)
  | writeRight {s w} : Access others (s, .writeRight w)
      (s.setRight w.slot w.right, .writeOp w)
  | writeOp {s w} : Access others (s, .writeOp w) (s.setOp w.slot w.op, .release w)
  | release {s w} : Access others (s, .release w) (s.setUse w.slot 0, .idle)
  /-- Call `invalidateAll`. -/
  | invalidateAll {s l} : l.Outside →
      Access others (s, l) ({ s with begun := s.begun + 1 }, .clearNode (s.begun + 1) 0)
  | clearNode {s n i} : Access others (s, .clearNode n i) (s.clearNode n i, .clearLeft n i)
  | clearLeft {s n i} : Access others (s, .clearLeft n i) (s.setLeft i nullptr, .clearRight n i)
  | clearRight {s n i} : Access others (s, .clearRight n i) (s.setRight i nullptr, .clearCount n i)
  | clearCount {s n i} : i + 1 < s.cache.size →
      Access others (s, .clearCount n i) (s.setUse i 0, .clearNode n (i + 1))
  | finish {s n i} : ¬ i + 1 < s.cache.size →
      Access others (s, .clearCount n i) ({ s.setUse i 0 with ended := max n s.ended }, .idle)

/-- An access at which `invalidateAll` does no harm: it resets no counter of an entry that another
thread is inside, and no insertion writes a node after an `invalidateAll` that began later has
cleared that node. -/
def Guarded (others : Spot → Prop) (x y : Slots × Spot) : Prop :=
  Access others x y ∧
    (∀ n i, x.2 = .clearCount n i → ∀ o, others o → ¬ o.Inside i) ∧
    ∀ w, x.2 = .writeNode w → x.1.cleared w.slot ≤ w.begun

variable {T : Type*} [DecidableEq T] {s s' : Slots} {l l' o : Spot} {q : Query} {w : Insertion}
  {others : Spot → Prop} {i j n : ℕ}

/-- One step of the program: nothing but the threads changes anything. -/
abbrev AccessStep : Pool T Slots Spot → Pool T Slots Spot → Prop :=
  Pool.Step Access fun _ _ => False

/-- One guarded step of the program. -/
abbrev GuardedStep : Pool T Slots Spot → Pool T Slots Spot → Prop :=
  Pool.Step Guarded fun _ _ => False

/-! ### Accesses -/

namespace Slots

theorem entry_modify (s : Slots) (i j : ℕ) (f : LockFreeCacheEntry → LockFreeCacheEntry) :
    (s.modify i f).entry j = if j = i then f (s.entry i) else s.entry j := rfl

theorem useCount_setUse (s : Slots) (i j : ℕ) (uc : ℤ) :
    ((s.setUse i uc).entry j).useCount = if j = i then uc else (s.entry j).useCount := by
  rw [setUse, entry_modify]
  split <;> rfl

/-- A write to one field leaves the others alone. -/
theorem field_modify {β : Type*} {g : LockFreeCacheEntry → β}
    {f : LockFreeCacheEntry → LockFreeCacheEntry} (hf : ∀ e, g (f e) = g e) (s : Slots) (i j : ℕ) :
    g ((s.modify i f).entry j) = g (s.entry j) := by
  rw [entry_modify]
  split
  · next h => rw [hf, h]
  · rfl

theorem useCount_writeNode (s : Slots) (w : Insertion) (j : ℕ) :
    ((s.writeNode w).entry j).useCount = (s.entry j).useCount :=
  field_modify (g := fun e => e.useCount) (f := fun e => { e with node := w.node }) (fun _ => rfl)
    s w.slot j

theorem useCount_clearNode (s : Slots) (n i j : ℕ) :
    ((s.clearNode n i).entry j).useCount = (s.entry j).useCount :=
  field_modify (g := fun e => e.useCount) (f := fun e => { e with node := nullptr }) (fun _ => rfl)
    s i j

/-- Some writes touch neither the counter nor the node. -/
structure Tame (s s' : Slots) : Prop where
  useCount : ∀ j, (s'.entry j).useCount = (s.entry j).useCount
  node : ∀ j, (s'.entry j).node = (s.entry j).node

theorem tame_modify {f : LockFreeCacheEntry → LockFreeCacheEntry}
    (hf : ∀ e, (f e).useCount = e.useCount ∧ (f e).node = e.node) (s : Slots) (i : ℕ) :
    Tame s (s.modify i f) :=
  ⟨field_modify (fun e => (hf e).1) s i, field_modify (fun e => (hf e).2) s i⟩

theorem tame_setLeft (s : Slots) (i : ℕ) (p : Ptr) : Tame s (s.setLeft i p) :=
  tame_modify (f := fun e => { e with left := p }) (fun _ => ⟨rfl, rfl⟩) s i

theorem tame_setRight (s : Slots) (i : ℕ) (p : Ptr) : Tame s (s.setRight i p) :=
  tame_modify (f := fun e => { e with right := p }) (fun _ => ⟨rfl, rfl⟩) s i

theorem tame_setOp (s : Slots) (i : ℕ) (op : Operator) : Tame s (s.setOp i op) :=
  tame_modify (f := fun e => { e with op := op }) (fun _ => ⟨rfl, rfl⟩) s i

end Slots

/-! ### The counter -/

/-- The counter of an entry with `r` readers and `w` writers inside. -/
def Balanced (uc : ℤ) (r w : ℕ) : Prop := w = 0 ∧ uc = r ∨ w = 1 ∧ r = 0 ∧ uc = -1

namespace Spot

/-- How often the thread is a reader inside the entry. -/
def reads (i : ℕ) (l : Spot) : ℕ := if l.reader = some i then 1 else 0

/-- How often the thread is a writer inside the entry. -/
def writes (i : ℕ) (l : Spot) : ℕ := if l.writer = some i then 1 else 0

theorem Outside.reads (h : l.Outside) (i : ℕ) : l.reads i = 0 := by
  cases l <;> first | rfl | exact h.elim

theorem Outside.writes (h : l.Outside) (i : ℕ) : l.writes i = 0 := by
  cases l <;> first | rfl | exact h.elim

theorem reads_ite {c : Prop} [Decidable c] {a b : Spot} {k : ℕ} (ha : a.reads i = k)
    (hb : b.reads i = k) : (if c then a else b).reads i = k := by
  split
  · exact ha
  · exact hb

theorem writes_ite {c : Prop} [Decidable c] {a b : Spot} {k : ℕ} (ha : a.writes i = k)
    (hb : b.writes i = k) : (if c then a else b).writes i = k := by
  split
  · exact ha
  · exact hb

theorem reads_eq_zero (h : ¬ l.Inside i) : l.reads i = 0 := if_neg fun hr => h (Or.inl hr)

theorem writes_eq_zero (h : ¬ l.Inside i) : l.writes i = 0 := if_neg fun hw => h (Or.inr hw)

end Spot

theorem Query.reads_otherOrder (q : Query) (i : ℕ) :
    q.otherOrder.reads i = (Spot.readNode q).reads i := by
  rw [otherOrder]
  split <;> rfl

theorem Query.writes_otherOrder (q : Query) (i : ℕ) : q.otherOrder.writes i = 0 := by
  rw [otherOrder]
  split <;> rfl

namespace Balanced

variable {uc : ℤ} {r w : ℕ}

theorem enter (h : Balanced uc r w) (hu : 0 ≤ uc) : Balanced (uc + 1) (1 + r) w := by
  rw [Balanced] at h ⊢
  omega

theorem leave (h : Balanced uc (1 + r) w) : Balanced (uc - 1) r w := by
  rw [Balanced] at h ⊢
  omega

theorem acquire (h : Balanced 0 r w) : Balanced (-1) r (1 + w) := by
  rw [Balanced] at h ⊢
  omega

theorem release (h : Balanced uc r (1 + w)) : Balanced 0 r w := by
  rw [Balanced] at h ⊢
  omega

theorem reset : Balanced 0 0 0 := Or.inl ⟨rfl, rfl⟩

theorem neg_one_le (h : Balanced uc r w) : -1 ≤ uc := by
  rw [Balanced] at h
  omega

end Balanced

/-- **Who is inside.** An access keeps the balance of every entry; `r` and `w` count the other
threads inside. -/
theorem Access.balanced {r w : ℕ → ℕ} (h : Access others (s, l) (s', l'))
    (hx : ∀ n i, l = .clearCount n i → r i = 0 ∧ w i = 0) (hu : ∀ q uc, l = .enter q uc → 0 ≤ uc)
    (hb : ∀ i, Balanced (s.entry i).useCount (l.reads i + r i) (l.writes i + w i)) (i : ℕ) :
    Balanced (s'.entry i).useCount (l'.reads i + r i) (l'.writes i + w i) := by
  have hbi := hb i
  -- an access that moves no thread into or out of the entry
  have same : (s'.entry i).useCount = (s.entry i).useCount → l'.reads i = l.reads i →
      l'.writes i = l.writes i →
      Balanced (s'.entry i).useCount (l'.reads i + r i) (l'.writes i + w i) := fun hc hr hw => by
    rw [hc, hr, hw]
    exact hbi
  -- the start of a call
  have start : s'.entry i = s.entry i → l.Outside → l'.reads i = 0 → l'.writes i = 0 →
      Balanced (s'.entry i).useCount (l'.reads i + r i) (l'.writes i + w i) := fun hs hl hr hw =>
    same (by rw [hs]) (by rw [hr, hl.reads]) (by rw [hw, hl.writes])
  -- a write to the counter of entry `k`
  have counter : ∀ {k : ℕ} {uc : ℤ}, (s'.entry i).useCount = ((s.setUse k uc).entry i).useCount →
      (∀ j, j ≠ k → l'.reads j = l.reads j ∧ l'.writes j = l.writes j) →
      (Balanced (s.entry k).useCount (l.reads k + r k) (l.writes k + w k) →
        Balanced uc (l'.reads k + r k) (l'.writes k + w k)) →
      Balanced (s'.entry i).useCount (l'.reads i + r i) (l'.writes i + w i) := by
    intro k uc hs hother hk
    by_cases hi : i = k
    · subst hi
      rw [hs, Slots.useCount_setUse, if_pos rfl]
      exact hk hbi
    · exact same (by rw [hs, Slots.useCount_setUse, if_neg hi]) (hother i hi).1 (hother i hi).2
  cases h with
  | lookup _ _ _ _ hl => exact start rfl hl rfl rfl
  | absent => exact same rfl rfl rfl
  | present => exact same rfl rfl rfl
  | @enter _ q uc huc =>
    refine counter rfl (fun j hj => ⟨by simp [Spot.reads, Spot.reader, Ne.symm hj], rfl⟩)
      fun hk => ?_
    have hk' : Balanced uc (r q.slot) (w q.slot) := by
      simpa [huc, Spot.reads, Spot.writes, Spot.reader, Spot.writer] using hk
    simpa [Spot.reads, Spot.writes, Spot.reader, Spot.writer] using hk'.enter (hu q uc rfl)
  | locked => exact same rfl rfl rfl
  | retry => exact same rfl rfl rfl
  | readOp => exact same rfl (Spot.reads_ite rfl rfl) (Spot.writes_ite rfl rfl)
  | @readLeft _ q =>
    exact same rfl (Spot.reads_ite rfl (q.reads_otherOrder i))
      (Spot.writes_ite rfl (q.writes_otherOrder i))
  | @readRight _ q =>
    exact same rfl (Spot.reads_ite rfl (q.reads_otherOrder i))
      (Spot.writes_ite rfl (q.writes_otherOrder i))
  | readSwappedLeft => exact same rfl (Spot.reads_ite rfl rfl) (Spot.writes_ite rfl rfl)
  | readSwappedRight => exact same rfl (Spot.reads_ite rfl rfl) (Spot.writes_ite rfl rfl)
  | readNode => exact same rfl rfl rfl
  | @leave _ q out a =>
    refine counter rfl (fun j hj => ⟨by simp [Spot.reads, Spot.reader, Ne.symm hj], rfl⟩)
      fun hk => ?_
    have hk' : Balanced (s.entry q.slot).useCount (1 + r q.slot) (w q.slot) := by
      simpa [Spot.reads, Spot.writes, Spot.reader, Spot.writer] using hk
    simpa [Spot.reads, Spot.writes, Spot.reader, Spot.writer] using hk'.leave
  | insert _ _ _ _ _ hl => exact start rfl hl rfl rfl
  | @acquire _ v hv =>
    refine counter rfl (fun j hj => ⟨rfl, by simp [Spot.writes, Spot.writer, Ne.symm hj]⟩)
      fun hk => ?_
    have hk' : Balanced 0 (r v.slot) (w v.slot) := by
      simpa [hv, Spot.reads, Spot.writes, Spot.reader, Spot.writer] using hk
    simpa [Spot.reads, Spot.writes, Spot.reader, Spot.writer] using hk'.acquire
  | giveUp => exact same rfl rfl rfl
  | writeNode => exact same (Slots.useCount_writeNode ..) rfl rfl
  | writeLeft => exact same ((Slots.tame_setLeft ..).useCount i) rfl rfl
  | writeRight => exact same ((Slots.tame_setRight ..).useCount i) rfl rfl
  | writeOp => exact same ((Slots.tame_setOp ..).useCount i) rfl rfl
  | @release _ v =>
    refine counter rfl (fun j hj => ⟨rfl, by simp [Spot.writes, Spot.writer, Ne.symm hj]⟩)
      fun hk => ?_
    have hk' : Balanced (s.entry v.slot).useCount (r v.slot) (1 + w v.slot) := by
      simpa [Spot.reads, Spot.writes, Spot.reader, Spot.writer] using hk
    simpa [Spot.reads, Spot.writes, Spot.reader, Spot.writer] using hk'.release
  | invalidateAll hl => exact start rfl hl rfl rfl
  | clearNode => exact same (Slots.useCount_clearNode ..) rfl rfl
  | clearLeft => exact same ((Slots.tame_setLeft ..).useCount i) rfl rfl
  | clearRight => exact same ((Slots.tame_setRight ..).useCount i) rfl rfl
  | @clearCount _ n k hk =>
    refine counter rfl (fun j hj => ⟨rfl, rfl⟩) fun _ => ?_
    obtain ⟨hr, hw⟩ := hx n k rfl
    rw [hr, hw]
    exact Balanced.reset
  | @finish _ n k hk =>
    have hcount : ((({ s.setUse k 0 with ended := max n s.ended } : Slots)).entry i).useCount =
        ((s.setUse k 0).entry i).useCount := rfl
    refine counter hcount (fun j hj => ⟨rfl, rfl⟩) fun _ => ?_
    obtain ⟨hr, hw⟩ := hx n k rfl
    rw [hr, hw]
    exact Balanced.reset

/-! ### The history -/

/-- Every call of `invalidateAll` up to number `n` has passed the entries below `k`. -/
def Slots.Passed (s : Slots) (n k : ℕ) : Prop := ∀ j < k, n ≤ s.cleared j

/-- A lookup under way. -/
def Query.Fits (s : Slots) (q : Query) : Prop := q.slot < s.cache.size ∧ q.ended ≤ s.ended

/-- A node is no older than the last `invalidateAll` that had ended when the lookup started. -/
def Query.Answered (q : Query) (out : Ptr) (a : Option Insertion) : Prop :=
  out ≠ nullptr → ∃ w, a = some w ∧ q.ended ≤ w.begun

/-- What a thread knows. -/
def Spot.Fits (s : Slots) : Spot → Prop
  | check q | readOp q | readLeft q | readRight q | readSwappedLeft q | readSwappedRight q
  | readNode q => q.Fits s
  | enter q uc => q.Fits s ∧ 0 ≤ uc
  | leave q out a | returned q out a => q.Answered out a
  | clearNode n i => s.Passed n i
  | clearLeft n i | clearRight n i | clearCount n i => s.Passed n (i + 1)
  | _ => True

/-- Every node was written after the last `invalidateAll` that has cleared it began, and one that
has ended has cleared them all. -/
structure History (s : Slots) : Prop where
  authored : ∀ i, (s.entry i).node ≠ nullptr → ∃ w, s.author i = some w ∧ s.cleared i ≤ w.begun
  ended_le : ∀ i < s.cache.size, s.ended ≤ s.cleared i

/-- History goes forward. -/
structure Later (s s' : Slots) : Prop where
  size : s'.cache.size = s.cache.size
  cleared : ∀ i, s.cleared i ≤ s'.cleared i
  ended : s.ended ≤ s'.ended

theorem Later.refl (s : Slots) : Later s s := ⟨rfl, fun _ => le_rfl, le_rfl⟩

theorem Later.fits (h : Later s s') (hl : l.Fits s) : l.Fits s' := by
  have hq : ∀ q : Query, q.Fits s → q.Fits s' := fun q hq =>
    ⟨h.size ▸ hq.1, hq.2.trans h.ended⟩
  have hp : ∀ n k, s.Passed n k → s'.Passed n k := fun n k hp j hj => (hp j hj).trans (h.cleared j)
  cases l with
  | enter q uc => exact ⟨hq q hl.1, hl.2⟩
  | check q => exact hq q hl
  | readOp q => exact hq q hl
  | readLeft q => exact hq q hl
  | readRight q => exact hq q hl
  | readSwappedLeft q => exact hq q hl
  | readSwappedRight q => exact hq q hl
  | readNode q => exact hq q hl
  | clearNode n i => exact hp n i hl
  | clearLeft n i => exact hp n (i + 1) hl
  | clearRight n i => exact hp n (i + 1) hl
  | clearCount n i => exact hp n (i + 1) hl
  | _ => exact hl

theorem History.congr (h : History s) (hnode : ∀ i, (s'.entry i).node = (s.entry i).node)
    (hauthor : s'.author = s.author) (hcleared : s'.cleared = s.cleared)
    (hended : s'.ended = s.ended) (hsize : s'.cache.size = s.cache.size) :
    History s' ∧ Later s s' := by
  refine ⟨⟨fun i hi => ?_, fun i hi => ?_⟩, hsize, fun i => ?_, hended.ge⟩
  · rw [hauthor, hcleared]
    rw [hnode] at hi
    exact h.authored i hi
  · rw [hended, hcleared]
    rw [hsize] at hi
    exact h.ended_le i hi
  · rw [hcleared]

theorem History.setUse (h : History s) (i : ℕ) (uc : ℤ) :
    History (s.setUse i uc) ∧ Later s (s.setUse i uc) :=
  h.congr (Slots.field_modify (g := fun e => e.node) (f := fun e => { e with useCount := uc })
    (fun _ => rfl) s i)
    rfl rfl rfl rfl

/-- A node that is not overtaken. -/
theorem History.writeNode (h : History s) (hw : s.cleared w.slot ≤ w.begun) :
    History (s.writeNode w) ∧ Later s (s.writeNode w) := by
  refine ⟨⟨fun i hi => ?_, h.ended_le⟩, rfl, fun _ => le_rfl, le_rfl⟩
  by_cases his : i = w.slot
  · exact ⟨w, if_pos his, his ▸ hw⟩
  · have hentry : (s.writeNode w).entry i = s.entry i := if_neg his
    rw [hentry] at hi
    obtain ⟨v, hv, hle⟩ := h.authored i hi
    exact ⟨v, (if_neg his).trans hv, hle⟩

theorem History.clearNode (h : History s) (n i : ℕ) :
    History (s.clearNode n i) ∧ Later s (s.clearNode n i) := by
  have hcleared : ∀ j, s.cleared j ≤ (s.clearNode n i).cleared j := fun j => by
    show s.cleared j ≤ if j = i then max n (s.cleared i) else s.cleared j
    split
    · next hj => exact hj ▸ le_max_right _ _
    · exact le_rfl
  refine ⟨⟨fun j hj => ?_, fun j hj => (h.ended_le j hj).trans (hcleared j)⟩, rfl, hcleared, le_rfl⟩
  by_cases hji : j = i
  · have hentry : ((s.clearNode n i).entry j).node = nullptr := by
      show (if j = i then _ else _ : LockFreeCacheEntry).node = nullptr
      rw [if_pos hji]
    exact absurd hentry hj
  · have hentry : (s.clearNode n i).entry j = s.entry j := if_neg hji
    rw [hentry] at hj
    obtain ⟨v, hv, hle⟩ := h.authored j hj
    refine ⟨v, (if_neg hji).trans hv, ?_⟩
    show (if j = i then max n (s.cleared i) else s.cleared j) ≤ v.begun
    rwa [if_neg hji]

theorem Slots.Passed.clearNode (h : s.Passed n i) : (s.clearNode n i).Passed n (i + 1) := by
  intro j hj
  show n ≤ if j = i then max n (s.cleared i) else s.cleared j
  split
  · exact le_max_left _ _
  · exact h j (by omega)

theorem Query.fits_otherOrder (hq : q.Fits s) : q.otherOrder.Fits s := by
  rw [otherOrder]
  split
  · exact hq
  · exact fun h => absurd rfl h

/-- **What is remembered.** An access that no insertion is overtaken at keeps the history. -/
theorem Access.history (h : Access others (s, l) (s', l')) (hs : History s) (hl : l.Fits s)
    (hw : ∀ w, l = .writeNode w → s.cleared w.slot ≤ w.begun)
    (hc : ∀ i, -1 ≤ (s.entry i).useCount) : (History s' ∧ Later s s') ∧ l'.Fits s' := by
  have hsame : History s ∧ Later s s := ⟨hs, Later.refl s⟩
  have hnull : ∀ q : Query, q.Answered nullptr none := fun q hq => absurd rfl hq
  cases h with
  | lookup i left right op _ hi => exact ⟨hsame, hi, le_rfl⟩
  | absent => exact ⟨hsame, hnull _⟩
  | present => exact ⟨hsame, hl, le_rfl⟩
  | enter => exact ⟨hs.setUse _ _, hl.1⟩
  | locked => exact ⟨hsame, hnull _⟩
  | @retry _ q _ _ hne =>
    refine ⟨hsame, hl.1, ?_⟩
    have := hc q.slot
    omega
  | readOp =>
    refine ⟨hsame, ?_⟩
    split
    · exact hl
    · exact hnull _
  | readLeft =>
    refine ⟨hsame, ?_⟩
    split
    · exact hl
    · exact Query.fits_otherOrder hl
  | readRight =>
    refine ⟨hsame, ?_⟩
    split
    · exact hl
    · exact Query.fits_otherOrder hl
  | readSwappedLeft =>
    refine ⟨hsame, ?_⟩
    split
    · exact hl
    · exact hnull _
  | readSwappedRight =>
    refine ⟨hsame, ?_⟩
    split
    · exact hl
    · exact hnull _
  | @readNode _ q =>
    refine ⟨hsame, fun hout => ?_⟩
    obtain ⟨v, hv, hle⟩ := hs.authored q.slot hout
    exact ⟨v, hv, (hl.2.trans (hs.ended_le q.slot hl.1)).trans hle⟩
  | leave => exact ⟨hs.setUse _ _, hl⟩
  | insert => exact ⟨hsame, trivial⟩
  | acquire => exact ⟨hs.setUse _ _, trivial⟩
  | giveUp => exact ⟨hsame, trivial⟩
  | @writeNode _ v => exact ⟨hs.writeNode (hw v rfl), trivial⟩
  | writeLeft => exact ⟨hs.congr (Slots.tame_setLeft ..).node rfl rfl rfl rfl, trivial⟩
  | writeRight => exact ⟨hs.congr (Slots.tame_setRight ..).node rfl rfl rfl rfl, trivial⟩
  | writeOp => exact ⟨hs.congr (Slots.tame_setOp ..).node rfl rfl rfl rfl, trivial⟩
  | release => exact ⟨hs.setUse _ _, trivial⟩
  | invalidateAll =>
    exact ⟨hs.congr (fun _ => rfl) rfl rfl rfl rfl, fun j hj => absurd hj (Nat.not_lt_zero j)⟩
  | clearNode => exact ⟨hs.clearNode _ _, hl.clearNode⟩
  | clearLeft => exact ⟨hs.congr (Slots.tame_setLeft ..).node rfl rfl rfl rfl, hl⟩
  | clearRight => exact ⟨hs.congr (Slots.tame_setRight ..).node rfl rfl rfl rfl, hl⟩
  | clearCount => exact ⟨hs.setUse _ _, hl⟩
  | @finish _ n i hi =>
    obtain ⟨hset, hlater⟩ := hs.setUse i 0
    refine ⟨⟨⟨hset.authored, fun j hj => ?_⟩, hlater.size, hlater.cleared, le_max_right _ _⟩,
      trivial⟩
    have hj' : j < s.cache.size := hj
    exact max_le (hl j (by omega)) (hs.ended_le j hj')

/-! ### All threads -/

section pool

variable {c c' : Pool T Slots Spot} {t : T}

/-- What holds in every state that guarded accesses reach. -/
structure Kempt [Fintype T] (c : Pool T Slots Spot) : Prop where
  balanced : ∀ i, Balanced (c.shared.entry i).useCount (c.total (Spot.reads i))
    (c.total (Spot.writes i))
  history : History c.shared
  fits : ∀ t, (c.pc t).Fits c.shared

theorem Kempt.step [Fintype T] (h : Kempt c) (hs : GuardedStep c c') : Kempt c' := by
  cases hs with
  | @turn t s l ht =>
    obtain ⟨haccess, hinside, hwrite⟩ := ht
    have hbal : ∀ i, Balanced (c.shared.entry i).useCount
        ((c.pc t).reads i + c.rest (Spot.reads i) t)
        ((c.pc t).writes i + c.rest (Spot.writes i) t) := fun i => by
      rw [← Pool.total_eq, ← Pool.total_eq]
      exact h.balanced i
    have hnone : ∀ n i, c.pc t = .clearCount n i →
        c.rest (Spot.reads i) t = 0 ∧ c.rest (Spot.writes i) t = 0 := fun n i hi =>
      ⟨Pool.rest_eq_zero fun o ho => Spot.reads_eq_zero (hinside n i hi o ho),
        Pool.rest_eq_zero fun o ho => Spot.writes_eq_zero (hinside n i hi o ho)⟩
    have hexpected : ∀ q uc, c.pc t = .enter q uc → 0 ≤ uc := fun q uc hq => by
      have hf := h.fits t
      rw [hq] at hf
      exact hf.2
    obtain ⟨⟨hhist, hlater⟩, hfit⟩ := haccess.history h.history (h.fits t) hwrite
      fun i => (h.balanced i).neg_one_le
    refine ⟨fun i => ?_, hhist, (Pool.forall_move fun o : Spot => o.Fits s).mpr ⟨hfit, ?_⟩⟩
    · rw [Pool.total_move, Pool.total_move]
      exact haccess.balanced hnone hexpected hbal i
    · rintro - ⟨u, -, rfl⟩
      exact hlater.fits (h.fits u)
  | env he => exact he.elim

/-- All threads are outside. -/
def Slots.quiet (s : Slots) : Pool T Slots Spot := ⟨s, fun _ => .idle⟩

omit [DecidableEq T] in
theorem kempt_new [Fintype T] (size : ℕ) (h : 0 < size) :
    Kempt ((Slots.new size h).quiet : Pool T Slots Spot) := by
  refine ⟨fun i => ?_, ⟨fun i hi => absurd rfl hi, fun _ _ => le_rfl⟩, fun _ => trivial⟩
  rw [Pool.total_eq_zero fun _ => rfl, Pool.total_eq_zero fun _ => rfl]
  exact Balanced.reset

/-- What the cache promises. -/
structure Effective (c : Pool T Slots Spot) : Prop where
  neg_one_le : ∀ i, -1 ≤ (c.shared.entry i).useCount
  /-- When no call is in progress, every entry can be read and written. -/
  useCount_eq : (∀ t, (c.pc t).Outside) → ∀ i, (c.shared.entry i).useCount = 0
  /-- A lookup that started after an `invalidateAll` had ended returns no node of an insertion
  that started before that `invalidateAll` began. -/
  not_stale : ∀ t q out a, c.pc t = .returned q out a → out ≠ nullptr →
    ∃ w, a = some w ∧ ∀ n ≤ q.ended, n ≤ w.begun

omit [DecidableEq T] in
theorem Kempt.effective [Fintype T] (h : Kempt c) : Effective c := by
  refine ⟨fun i => (h.balanced i).neg_one_le, fun hout i => ?_, fun t q out a ht hne => ?_⟩
  · have hb := h.balanced i
    rw [Pool.total_eq_zero fun t => (hout t).reads i,
      Pool.total_eq_zero fun t => (hout t).writes i] at hb
    rw [Balanced] at hb
    omega
  · have hf := h.fits t
    rw [ht] at hf
    obtain ⟨w, hw, hle⟩ := hf hne
    exact ⟨w, hw, fun n hn => hn.trans hle⟩

/-- **Invalidation under concurrency.** Any number of threads call `lookup`, `insert` and
`invalidateAll`, their accesses in any order. As long as `invalidateAll` resets no counter of an
entry somebody is inside, and no insertion writes a node after an `invalidateAll` that began
later has cleared it, the promises hold in every state. -/
theorem effective_of_run [Fintype T] {size : ℕ} {h : 0 < size}
    (hrun : Relation.ReflTransGen GuardedStep (Slots.new size h).quiet c) : Effective c := by
  have hk : Kempt c := Transition.invariant (fun _ _ hs ha => Kempt.step ha hs) hrun
    (kempt_new size h)
  exact hk.effective

end pool

/-! ### A thread that runs alone -/

theorem Access.guarded (h : Access others (s, l) (s', l')) (hc : ∀ n i, l ≠ .clearCount n i)
    (hw : ∀ w, l ≠ .writeNode w) : Guarded others (s, l) (s', l') :=
  ⟨h, fun n i hl => absurd hl (hc n i), fun w hl => absurd hl (hw w)⟩

/-- The end of a lookup that has or has not found its operands. -/
def Query.verdict (q : Query) (s : Slots) (found : Bool) : Spot :=
  .leave q (if found then (s.entry q.slot).node else nullptr)
    (if found then s.author q.slot else none)

theorem turns_of_otherOrder : Relation.ReflTransGen (Guarded others) (s, q.otherOrder)
    (s, q.verdict s (isCommutativeOperator q.op && ((s.entry q.slot).left == q.right &&
      (s.entry q.slot).right == q.left))) := by
  rw [Query.otherOrder]
  cases hcomm : isCommutativeOperator q.op with
  | false => exact .refl
  | true =>
    have hleft := (Access.readSwappedLeft (s := s) (q := q) : Access others _ _).guarded nofun nofun
    rw [if_pos rfl]
    by_cases hl : (s.entry q.slot).left = q.right
    · have hright :=
        (Access.readSwappedRight (s := s) (q := q) : Access others _ _).guarded nofun nofun
      rw [if_pos hl] at hleft
      by_cases hr : (s.entry q.slot).right = q.left
      · rw [if_pos hr] at hright
        have hnode := (Access.readNode (s := s) (q := q) : Access others _ _).guarded nofun nofun
        simpa [Query.verdict, hl, hr] using
          ((Relation.ReflTransGen.single hleft).tail hright).tail hnode
      · rw [if_neg hr] at hright
        simpa [Query.verdict, hl, hr] using (Relation.ReflTransGen.single hleft).tail hright
    · rw [if_neg hl] at hleft
      simpa [Query.verdict, hl] using Relation.ReflTransGen.single hleft

/-- The reads inside an entry are the comparison of `lookup`. -/
theorem turns_of_readOp : Relation.ReflTransGen (Guarded others) (s, .readOp q)
    (s, q.verdict s ((s.entry q.slot).answers q.left q.right q.op)) := by
  have hop := (Access.readOp (s := s) (q := q) : Access others _ _).guarded nofun nofun
  have hleft := (Access.readLeft (s := s) (q := q) : Access others _ _).guarded nofun nofun
  have hright := (Access.readRight (s := s) (q := q) : Access others _ _).guarded nofun nofun
  by_cases ho : (s.entry q.slot).op = q.op
  · rw [if_pos ho] at hop
    by_cases hl : (s.entry q.slot).left = q.left
    · rw [if_pos hl] at hleft
      have hread := (Relation.ReflTransGen.single hop).tail hleft
      by_cases hr : (s.entry q.slot).right = q.right
      · rw [if_pos hr] at hright
        have hnode := (Access.readNode (s := s) (q := q) : Access others _ _).guarded nofun nofun
        have hyes : (s.entry q.slot).answers q.left q.right q.op = true := by
          cases hcomm : isCommutativeOperator q.op <;>
            simp [LockFreeCacheEntry.answers, ho, hl, hr, hcomm]
        rw [hyes]
        exact (hread.tail hright).tail hnode
      · rw [if_neg hr] at hright
        have hsame : (s.entry q.slot).answers q.left q.right q.op =
            (isCommutativeOperator q.op && ((s.entry q.slot).left == q.right &&
              (s.entry q.slot).right == q.left)) := by
          simp [LockFreeCacheEntry.answers, ho, beq_eq_false_iff_ne.mpr hr]
        rw [hsame]
        exact (hread.tail hright).trans turns_of_otherOrder
    · rw [if_neg hl] at hleft
      have hsame : (s.entry q.slot).answers q.left q.right q.op =
          (isCommutativeOperator q.op && ((s.entry q.slot).left == q.right &&
            (s.entry q.slot).right == q.left)) := by
        simp [LockFreeCacheEntry.answers, ho, beq_eq_false_iff_ne.mpr hl]
      rw [hsame]
      exact ((Relation.ReflTransGen.single hop).tail hleft).trans turns_of_otherOrder
  · rw [if_neg ho] at hop
    have hno : (s.entry q.slot).answers q.left q.right q.op = false := by
      simp [LockFreeCacheEntry.answers, ho]
    rw [hno]
    exact Relation.ReflTransGen.single hop

/-- From the first read to the return. -/
theorem turns_of_inside : Relation.ReflTransGen (Guarded others) (s, .readOp q)
    (s.setUse q.slot ((s.entry q.slot).useCount - 1), .returned q
      (if (s.entry q.slot).answers q.left q.right q.op then (s.entry q.slot).node else nullptr)
      (if (s.entry q.slot).answers q.left q.right q.op then s.author q.slot else none)) :=
  turns_of_readOp.tail (Access.leave.guarded nofun nofun)

/-- Getting inside an entry that no writer is inside. -/
theorem turns_of_check (hn : (s.entry q.slot).node ≠ nullptr)
    (hu : (s.entry q.slot).useCount ≠ -1) :
    Relation.ReflTransGen (Guarded others) (s, .check q)
      (s.setUse q.slot ((s.entry q.slot).useCount + 1), .readOp q) := by
  have hpresent : Relation.ReflTransGen (Guarded others) (s, .check q) (s, .enter q 0) :=
    Relation.ReflTransGen.single ((Access.present hn).guarded nofun nofun)
  have henter : Guarded others (s, .enter q (s.entry q.slot).useCount)
      (s.setUse q.slot ((s.entry q.slot).useCount + 1), .readOp q) :=
    (Access.enter rfl).guarded nofun nofun
  by_cases h0 : (s.entry q.slot).useCount = 0
  · rw [h0] at henter ⊢
    exact hpresent.tail henter
  · exact (hpresent.tail ((Access.retry h0 hu).guarded nofun nofun)).tail henter

/-- Nothing is stored. -/
theorem guarded_absent (hn : (s.entry q.slot).node = nullptr) :
    Guarded others (s, .check q) (s, .returned q nullptr none) :=
  (Access.absent hn).guarded nofun nofun

/-- A writer is inside. -/
theorem turns_of_locked (hn : (s.entry q.slot).node ≠ nullptr)
    (hu : (s.entry q.slot).useCount = -1) :
    Relation.ReflTransGen (Guarded others) (s, .check q) (s, .returned q nullptr none) := by
  have hne : (s.entry q.slot).useCount ≠ 0 := fun h0 => absurd (h0.symm.trans hu) (by decide)
  exact (Relation.ReflTransGen.single ((Access.present hn).guarded nofun nofun)).tail
    ((Access.locked hne hu).guarded nofun nofun)

/-- **A thread that runs alone** computes `lookup`. -/
theorem turns_of_lookup : ∃ a, Relation.ReflTransGen (Guarded others) (s, .check q)
    ({ s with cache := (s.cache.lookup q.slot q.left q.right q.op).2 },
      .returned q (s.cache.lookup q.slot q.left q.right q.op).1 a) ∧
    ((s.cache.lookup q.slot q.left q.right q.op).1 ≠ nullptr → a = s.author q.slot) := by
  rw [LockFreeCache.lookup]
  by_cases hn : (s.cache.entry q.slot).node = nullptr
  · rw [if_pos hn]
    exact ⟨none, .single (guarded_absent hn), fun h => absurd rfl h⟩
  · rw [if_neg hn]
    by_cases hu : (s.cache.entry q.slot).useCount = -1
    · rw [if_pos hu]
      exact ⟨none, turns_of_locked hn hu, fun h => absurd rfl h⟩
    · rw [if_neg hu]
      set t := s.setUse q.slot ((s.entry q.slot).useCount + 1) with ht
      have hentry : t.entry q.slot =
          { s.entry q.slot with useCount := (s.entry q.slot).useCount + 1 } := if_pos rfl
      refine ⟨if (s.entry q.slot).answers q.left q.right q.op then s.author q.slot else none,
        (turns_of_check hn hu).trans ?_, ?_⟩
      · have hanswers : (t.entry q.slot).answers q.left q.right q.op =
            (s.entry q.slot).answers q.left q.right q.op := by
          rw [hentry]
          rfl
        have hnode : (t.entry q.slot).node = (s.entry q.slot).node := by rw [hentry]
        have hinside : Relation.ReflTransGen (Guarded others) (t, .readOp q) _ := turns_of_inside
        rw [hanswers, hnode] at hinside
        exact hinside
      · intro hout
        by_cases ha : (s.entry q.slot).answers q.left q.right q.op = true
        · exact if_pos ha
        · exact absurd (if_neg ha) hout

/-- The cache after an insertion into an entry that nobody is inside. -/
def Slots.inserted (s : Slots) (w : Insertion) : Slots :=
  { s with
    cache := s.cache.insert false w.slot w.node w.left w.right w.op
    author := fun i => if i = w.slot then some w else s.author i }

theorem turns_of_writeLeft : Relation.ReflTransGen (Guarded others) (s, .writeLeft w)
    ((((s.setLeft w.slot w.left).setRight w.slot w.right).setOp w.slot w.op).setUse w.slot 0,
      .idle) :=
  (((Relation.ReflTransGen.single (Access.writeLeft.guarded nofun nofun)).tail
    (Access.writeRight.guarded nofun nofun)).tail (Access.writeOp.guarded nofun nofun)).tail
      (Access.release.guarded nofun nofun)

theorem Slots.inserted_eq (h : (s.entry w.slot).useCount = 0) :
    ((((((s.setUse w.slot (-1)).writeNode w).setLeft w.slot w.left).setRight w.slot w.right).setOp
      w.slot w.op).setUse w.slot 0) = s.inserted w := by
  rw [inserted, LockFreeCache.insert, if_pos ⟨h, rfl⟩]
  simp only [setUse, writeNode, setLeft, setRight, setOp, modify, LockFreeCache.setEntry, entry]
  congr 2
  funext i
  split <;> simp_all

/-- A thread that nobody gets in the way of, for any kind of steps that includes the guarded
ones and the one write of the node. -/
theorem turns_of_acquire {R : Slots × Spot → Slots × Spot → Prop}
    (hR : ∀ x y, Guarded others x y → R x y) (h : (s.entry w.slot).useCount = 0)
    (hwrite : R (s.setUse w.slot (-1), .writeNode w)
      ((s.setUse w.slot (-1)).writeNode w, .writeLeft w)) :
    Relation.ReflTransGen R (s, .acquire w) (s.inserted w, .idle) := by
  have hacquire : R (s, .acquire w) (s.setUse w.slot (-1), .writeNode w) :=
    hR _ _ ((Access.acquire h).guarded nofun nofun)
  rw [← Slots.inserted_eq h]
  exact ((Relation.ReflTransGen.single hacquire).tail hwrite).trans
    (Relation.ReflTransGen.mono hR _ _ turns_of_writeLeft)

/-- **A thread that runs alone** computes `insert`. -/
theorem turns_of_insert (h : (s.entry w.slot).useCount = 0) (hw : s.cleared w.slot ≤ w.begun) :
    Relation.ReflTransGen (Guarded others) (s, .acquire w) (s.inserted w, .idle) := by
  refine turns_of_acquire (fun _ _ hg => hg) h ⟨.writeNode, nofun, fun v hv => ?_⟩
  cases hv
  exact hw

/-- One entry after a pass of the loop of `invalidateAll`. -/
def Slots.wiped (s : Slots) (n i : ℕ) : Slots :=
  (((s.clearNode n i).setLeft i nullptr).setRight i nullptr).setUse i 0

theorem Slots.entry_wiped (s : Slots) (n i j : ℕ) : (s.wiped n i).entry j =
    if j = i then s.cache.invalidateAll.entry i else s.entry j := by
  rw [wiped]
  simp only [setUse, clearNode, setLeft, setRight, modify, LockFreeCache.setEntry, entry]
  split <;> simp [LockFreeCache.invalidateAll]

theorem turns_of_pass : Relation.ReflTransGen (Access others) (s, .clearNode n i)
    (((s.clearNode n i).setLeft i nullptr).setRight i nullptr, .clearCount n i) :=
  ((Relation.ReflTransGen.single .clearNode).tail .clearLeft).tail .clearRight

/-- **A thread that runs alone** computes `invalidateAll`, from entry `i` on. -/
theorem turns_of_clearNode : ∀ {k i : ℕ} {s : Slots}, i + k + 1 = s.cache.size →
    ∃ s' : Slots, Relation.ReflTransGen (Access others) (s, .clearNode n i) (s', .idle) ∧
      (∀ j, s'.entry j =
        if i ≤ j ∧ j < s.cache.size then s.cache.invalidateAll.entry j else s.entry j) ∧
      s'.ended = max n s.ended ∧ s'.begun = s.begun ∧ s'.cache.size = s.cache.size := by
  intro k
  induction k with
  | zero =>
    intro i s hi
    have hend : Access others (((s.clearNode n i).setLeft i nullptr).setRight i nullptr,
        .clearCount n i) ({ s.wiped n i with ended := max n s.ended }, .idle) :=
      .finish (by show ¬ i + 1 < s.cache.size; omega)
    refine ⟨_, turns_of_pass.tail hend, fun j => ?_, rfl, rfl, rfl⟩
    refine (s.entry_wiped n i j).trans ?_
    by_cases hj : j = i
    · rw [if_pos hj, if_pos (by omega), hj]
    · rw [if_neg hj, if_neg (by omega)]
  | succ k ih =>
    intro i s hi
    have hnext : Access others (((s.clearNode n i).setLeft i nullptr).setRight i nullptr,
        .clearCount n i) (s.wiped n i, .clearNode n (i + 1)) :=
      .clearCount (by show i + 1 < s.cache.size; omega)
    have hsize : (s.wiped n i).cache.size = s.cache.size := rfl
    obtain ⟨s', hrun, hentry, hended, hbegun, hsize'⟩ :=
      ih (i := i + 1) (s := s.wiped n i) (by rw [hsize]; omega)
    refine ⟨s', (turns_of_pass.tail hnext).trans hrun, fun j => ?_, hended, hbegun, hsize'⟩
    have hinv : ∀ j, j ≠ i →
        (s.wiped n i).cache.invalidateAll.entry j = s.cache.invalidateAll.entry j := fun j hj => by
      have hj' : (s.wiped n i).cache.entry j = s.cache.entry j :=
        (s.entry_wiped n i j).trans (if_neg hj)
      rw [LockFreeCache.invalidateAll, LockFreeCache.invalidateAll]
      simp only [hj']
    rw [hentry, hsize, s.entry_wiped n i j]
    by_cases hj : j = i
    · rw [if_neg (by omega), if_pos hj, if_pos (by omega), hj]
    · by_cases hle : i + 1 ≤ j ∧ j < s.cache.size
      · rw [if_pos hle, if_pos (by omega), hinv j hj]
      · rw [if_neg hle, if_neg hj, if_neg (by omega)]

/-- **A thread that runs alone** computes `invalidateAll`. -/
theorem turns_of_invalidateAll (hl : l.Outside) : ∃ s' : Slots,
    Relation.ReflTransGen (Access others) (s, l) (s', .idle) ∧
      (∀ j < s.cache.size, s'.entry j = s.cache.invalidateAll.entry j) ∧
      s'.ended = max (s.begun + 1) s.ended ∧ s'.cache.size = s.cache.size := by
  have hpos := s.cache.size_pos
  have hloop : ∃ s' : Slots, Relation.ReflTransGen (Access others)
      ({ s with begun := s.begun + 1 }, .clearNode (s.begun + 1) 0) (s', .idle) ∧ _ :=
    turns_of_clearNode (k := s.cache.size - 1)
      (by show 0 + (s.cache.size - 1) + 1 = s.cache.size; omega)
  obtain ⟨s', hrun, hentry, hended, -, hsize⟩ := hloop
  exact ⟨s', hrun.head (.invalidateAll hl), fun j hj =>
    (hentry j).trans (if_pos ⟨Nat.zero_le j, hj⟩), hended, hsize⟩

/-! ### Schedules -/

/-- What a thread decides for itself: the next call, or whether a weak compare-exchange fails
without a reason. -/
inductive Choice
  | lookup (slot : ℕ) (left right : Ptr) (op : Operator)
  | insert (slot : ℕ) (node left right : Ptr) (op : Operator)
  | invalidateAll
  /-- Go on in the call. -/
  | go
  | fail
  deriving DecidableEq, Repr

instance : DecidablePred Spot.Outside
  | .idle | .returned .. => isTrue trivial
  | .check _ | .enter .. | .readOp _ | .readLeft _ | .readRight _ | .readSwappedLeft _
  | .readSwappedRight _ | .readNode _ | .leave .. | .acquire _ | .writeNode _ | .writeLeft _
  | .writeRight _ | .writeOp _ | .release _ | .clearNode .. | .clearLeft .. | .clearRight ..
  | .clearCount .. => isFalse id

instance (i : ℕ) : DecidablePred (Spot.Inside i) := fun l =>
  inferInstanceAs (Decidable (l.reader = some i ∨ l.writer = some i))

namespace Slots

/-- The next access of a call. -/
def go (s : Slots) : Spot → Option (Slots × Spot)
  | .check q =>
    some (s, if (s.entry q.slot).node = nullptr then .returned q nullptr none else .enter q 0)
  | .enter q uc =>
    if (s.entry q.slot).useCount = uc then some (s.setUse q.slot (uc + 1), .readOp q)
    else if (s.entry q.slot).useCount = -1 then some (s, .returned q nullptr none)
    else some (s, .enter q (s.entry q.slot).useCount)
  | .readOp q =>
    some (s, if (s.entry q.slot).op = q.op then .readLeft q else .leave q nullptr none)
  | .readLeft q => some (s, if (s.entry q.slot).left = q.left then .readRight q else q.otherOrder)
  | .readRight q => some (s, if (s.entry q.slot).right = q.right then .readNode q else q.otherOrder)
  | .readSwappedLeft q =>
    some (s, if (s.entry q.slot).left = q.right then .readSwappedRight q else .leave q nullptr none)
  | .readSwappedRight q =>
    some (s, if (s.entry q.slot).right = q.left then .readNode q else .leave q nullptr none)
  | .readNode q => some (s, .leave q (s.entry q.slot).node (s.author q.slot))
  | .leave q out a => some (s.setUse q.slot ((s.entry q.slot).useCount - 1), .returned q out a)
  | .acquire w =>
    if (s.entry w.slot).useCount = 0 then some (s.setUse w.slot (-1), .writeNode w)
    else some (s, .idle)
  | .writeNode w => some (s.writeNode w, .writeLeft w)
  | .writeLeft w => some (s.setLeft w.slot w.left, .writeRight w)
  | .writeRight w => some (s.setRight w.slot w.right, .writeOp w)
  | .writeOp w => some (s.setOp w.slot w.op, .release w)
  | .release w => some (s.setUse w.slot 0, .idle)
  | .clearNode n i => some (s.clearNode n i, .clearLeft n i)
  | .clearLeft n i => some (s.setLeft i nullptr, .clearRight n i)
  | .clearRight n i => some (s.setRight i nullptr, .clearCount n i)
  | .clearCount n i =>
    if i + 1 < s.cache.size then some (s.setUse i 0, .clearNode n (i + 1))
    else some ({ s.setUse i 0 with ended := max n s.ended }, .idle)
  | .idle | .returned .. => none

/-- One access of a thread, by its choice. -/
def act (s : Slots) (l : Spot) : Choice → Option (Slots × Spot)
  | .lookup slot left right op =>
    if l.Outside ∧ slot < s.cache.size then some (s, .check ⟨slot, left, right, op, s.ended⟩)
    else none
  | .insert slot node left right op =>
    if l.Outside ∧ slot < s.cache.size then
      some (s, .acquire ⟨slot, node, left, right, op, s.begun⟩)
    else none
  | .invalidateAll =>
    if l.Outside then some ({ s with begun := s.begun + 1 }, .clearNode (s.begun + 1) 0) else none
  | .go => s.go l
  | .fail =>
    match l with
    | .acquire _ => some (s, .idle)
    | _ => none

end Slots

theorem Access.of_go (h : s.go l = some (s', l')) : Access others (s, l) (s', l') := by
  cases l with
  | check q =>
    cases h
    split
    · next hn => exact .absent hn
    · next hn => exact .present hn
  | enter q uc =>
    rw [Slots.go] at h
    split_ifs at h with huc hlocked
    · cases h
      exact .enter huc
    · cases h
      exact .locked huc hlocked
    · cases h
      exact .retry huc hlocked
  | acquire w =>
    rw [Slots.go] at h
    split_ifs at h with huc
    · cases h
      exact .acquire huc
    · cases h
      exact .giveUp
  | clearCount n i =>
    rw [Slots.go] at h
    split_ifs at h with hi
    · cases h
      exact .clearCount hi
    · cases h
      exact .finish hi
  | idle => exact absurd h nofun
  | returned => exact absurd h nofun
  | _ =>
    cases h
    constructor

/-- What is executed is an access. -/
theorem Access.of_act {x : Choice} (h : s.act l x = some (s', l')) :
    Access others (s, l) (s', l') := by
  cases x with
  | lookup slot left right op =>
    rw [Slots.act] at h
    split_ifs at h with hl
    cases h
    exact .lookup slot left right op hl.1 hl.2
  | insert slot node left right op =>
    rw [Slots.act] at h
    split_ifs at h with hl
    cases h
    exact .insert slot node left right op hl.1 hl.2
  | invalidateAll =>
    rw [Slots.act] at h
    split_ifs at h with hl
    cases h
    exact .invalidateAll hl
  | go => exact .of_go h
  | fail =>
    cases l with
    | acquire w =>
      cases h
      exact .giveUp
    | _ => exact absurd h nofun

/-- The access of the thread is a guarded one. -/
def guards [Fintype T] (c : Pool T Slots Spot) (t : T) : Bool :=
  match c.pc t with
  | .clearCount _ i => decide (∀ u, u ≠ t → ¬ (c.pc u).Inside i)
  | .writeNode w => decide (c.shared.cleared w.slot ≤ w.begun)
  | _ => true

/-- One guarded access, by the choice of the thread. -/
def guardedStep [Fintype T] (c : Pool T Slots Spot) (x : T × Choice) :
    Option (Pool T Slots Spot) :=
  if guards c x.1 then
    (c.shared.act (c.pc x.1) x.2).map fun r => c.move x.1 r.1 r.2
  else none

theorem GuardedStep.of_guardedStep [Fintype T] {c c' : Pool T Slots Spot} {x : T × Choice}
    (h : guardedStep c x = some c') : GuardedStep c c' := by
  rw [guardedStep] at h
  split_ifs at h with hg
  obtain ⟨⟨s, l⟩, hact, rfl⟩ := Option.map_eq_some_iff.mp h
  refine .turn ⟨.of_act hact, fun n i hpc => ?_, fun w hpc => ?_⟩
  · rintro - ⟨u, hu, rfl⟩
    have hpc' : c.pc x.1 = .clearCount n i := hpc
    rw [guards, hpc'] at hg
    exact of_decide_eq_true hg u hu
  · have hpc' : c.pc x.1 = .writeNode w := hpc
    rw [guards, hpc'] at hg
    exact of_decide_eq_true hg

/-! ### Runs of a small cache -/

theorem GuardedStep.access {c c' : Pool T Slots Spot} (h : Relation.ReflTransGen GuardedStep c c') :
    Relation.ReflTransGen AccessStep c c' := by
  refine Relation.ReflTransGen.mono (fun a b hs => ?_) _ _ h
  cases hs with
  | turn ht => exact .turn ht.1
  | env he => exact he.elim

/-- A run of one thread, as a run of the program. -/
theorem run_of_access {c : Pool T Slots Spot} {t : T} {s' : Slots} {l' : Spot}
    (h : Relation.ReflTransGen (Access (c.others t)) (c.shared, c.pc t) (s', l')) :
    Relation.ReflTransGen AccessStep c (c.move t s' l') := Pool.run_of_turns h

/-- A run of one thread, as a guarded run of the program. -/
theorem run_of_guarded {c : Pool T Slots Spot} {t : T} {s' : Slots} {l' : Spot}
    (h : Relation.ReflTransGen (Guarded (c.others t)) (c.shared, c.pc t) (s', l')) :
    Relation.ReflTransGen GuardedStep c (c.move t s' l') := Pool.run_of_turns h

/-- One entry, three threads. -/
def oneEntry : Pool (Fin 3) Slots Spot := (Slots.new 1 Nat.one_pos).quiet

/-- The conjunction of the nodes `1` and `2` is `7`. -/
def insertion : Insertion := ⟨0, 7, 1, 2, .and, 0⟩

/-- A thread has inserted it. -/
def filled : Pool (Fin 3) Slots Spot := oneEntry.move 0 (oneEntry.shared.inserted insertion) .idle

/-- The call of `insert` has started. -/
theorem insert_oneEntry {others : Spot → Prop} : Guarded others (oneEntry.shared, .idle)
    (oneEntry.shared, .acquire insertion) := by
  have h : Access others (oneEntry.shared, .idle) (oneEntry.shared, .acquire insertion) :=
    .insert 0 7 1 2 .and trivial Nat.one_pos
  exact h.guarded nofun nofun

theorem run_filled : Relation.ReflTransGen GuardedStep oneEntry filled :=
  run_of_guarded ((turns_of_insert (w := insertion) rfl le_rfl).head insert_oneEntry)

/-- A lookup of the conjunction. -/
def query (ended : ℕ) : Query := ⟨0, 1, 2, .and, ended⟩

/-- The call of `lookup` has started. -/
theorem lookup_of_outside (hl : l.Outside) (hs : 0 < s.cache.size) :
    Guarded others (s, l) (s, .check (query s.ended)) := by
  refine (Access.lookup 0 1 2 .and hl hs).guarded ?_ ?_
  · rintro n i rfl
    exact hl
  · rintro w rfl
    exact hl

/-- A lookup that gets inside. -/
theorem run_to_readOp {c : Pool T Slots Spot} {t : T} (ht : (c.pc t).Outside)
    (hs : 0 < c.shared.cache.size) (hn : (c.shared.entry 0).node ≠ nullptr)
    (hu : (c.shared.entry 0).useCount ≠ -1) :
    Relation.ReflTransGen GuardedStep c
      (c.move t (c.shared.setUse 0 ((c.shared.entry 0).useCount + 1))
        (.readOp (query c.shared.ended))) :=
  run_of_guarded ((turns_of_check (q := query c.shared.ended) hn hu).head (lookup_of_outside ht hs))

/-- A lookup that leaves the entry. -/
theorem run_to_outside {c : Pool T Slots Spot} {t : T} {k : ℕ} (ht : c.pc t = .readOp (query k)) :
    ∃ l : Spot, l.Outside ∧ Relation.ReflTransGen GuardedStep c
      (c.move t (c.shared.setUse 0 ((c.shared.entry 0).useCount - 1)) l) := by
  refine ⟨_, ?_, run_of_guarded (by rw [ht]; exact turns_of_inside)⟩
  trivial

/-- A lookup that finds the conjunction. -/
theorem run_to_returned {c : Pool T Slots Spot} {t : T} (ht : (c.pc t).Outside)
    (hs : 0 < c.shared.cache.size) (he : c.shared.entry 0 = ⟨7, 1, 2, .and, 0⟩)
    (ha : c.shared.author 0 = some insertion) :
    ∃ s' : Slots, Relation.ReflTransGen GuardedStep c
      (c.move t s' (.returned (query c.shared.ended) 7 (some insertion))) ∧
      s'.begun = c.shared.begun := by
  set q := query c.shared.ended with hq
  have hlookup : ∃ a, Relation.ReflTransGen (Guarded (c.others t)) (c.shared, .check q)
      ({ c.shared with cache := (c.shared.cache.lookup q.slot q.left q.right q.op).2 },
        .returned q (c.shared.cache.lookup q.slot q.left q.right q.op).1 a) ∧ _ := turns_of_lookup
  obtain ⟨a, hrun, hauthor⟩ := hlookup
  have hout : (c.shared.cache.lookup q.slot q.left q.right q.op).1 = 7 := by
    show (c.shared.cache.lookup 0 1 2 .and).1 = 7
    rw [LockFreeCache.lookup, show c.shared.cache.entry 0 = _ from he]
    rfl
  have ha' : a = some insertion := (hauthor (by rw [hout]; decide)).trans ha
  rw [ha', hout] at hrun
  exact ⟨_, run_of_guarded (hrun.head (lookup_of_outside ht hs)), rfl⟩

/-- An insertion; a lookup is inside the entry while `invalidateAll` clears it, and leaves before
its counter is reset; the same thread looks the conjunction up again, and finds nothing; it is
inserted again, as `8`, and looked up. -/
def guardedSchedule : List (Fin 3 × Choice) :=
  List.flatten [
    (0, .insert 0 7 1 2 .and) :: List.replicate 6 (0, .go),
    [(1, .lookup 0 1 2 .and), (1, .go), (1, .go), (2, .invalidateAll), (2, .go), (1, .go), (2, .go),
      (2, .go), (1, .go), (1, .go), (1, .go), (2, .go)],
    [(1, .lookup 0 1 2 .and), (1, .go)],
    (0, .insert 0 8 1 2 .and) :: List.replicate 6 (0, .go),
    (1, .lookup 0 1 2 .and) :: List.replicate 7 (1, .go)]

/-- **A run of guarded accesses**, with an `invalidateAll` between two insertions. -/
theorem effective_of_run_small : ∃ c : Pool (Fin 3) Slots Spot,
    c.shared.ended = 1 ∧ c.pc 1 = .returned (query 1) 8 (some ⟨0, 8, 1, 2, .and, 1⟩) ∧
      Effective c := by
  have hsome : (guardedSchedule.foldlM guardedStep oneEntry).any (fun c =>
      decide (c.shared.ended = 1 ∧
        c.pc 1 = .returned (query 1) 8 (some ⟨0, 8, 1, 2, .and, 1⟩))) = true := by
    decide +kernel
  obtain ⟨c, hc, hfacts⟩ := (Option.any_eq_true _ _).mp hsome
  obtain ⟨hended, hpc⟩ := of_decide_eq_true hfacts
  have hrun : Relation.ReflTransGen GuardedStep (Slots.new 1 Nat.one_pos).quiet c :=
    Transition.run_of_foldlM (fun _ _ _ => GuardedStep.of_guardedStep) hc
  exact ⟨c, hended, hpc, effective_of_run hrun⟩

/-- Two lookups are inside the entry when `invalidateAll` resets its counter. -/
theorem run_to_neg_two : ∃ c : Pool (Fin 3) Slots Spot,
    Relation.ReflTransGen AccessStep oneEntry c ∧ (∀ t, (c.pc t).Outside) ∧
      (c.shared.entry 0).useCount = -2 := by
  set c₁ := filled
  set c₂ := c₁.move 1 (c₁.shared.setUse 0 1) (.readOp (query 0))
  set c₃ := c₂.move 2 (c₂.shared.setUse 0 2) (.readOp (query 0))
  have h₂ : Relation.ReflTransGen GuardedStep c₁ c₂ :=
    run_to_readOp (c := c₁) (t := 1) trivial Nat.one_pos (by decide) (by decide)
  have h₃ : Relation.ReflTransGen GuardedStep c₂ c₃ :=
    run_to_readOp (c := c₂) (t := 2) trivial Nat.one_pos (by decide) (by decide)
  obtain ⟨s₄, hrun, hentry, -⟩ : ∃ s' : Slots, Relation.ReflTransGen (Access (c₃.others 0))
      (c₃.shared, c₃.pc 0) (s', .idle) ∧ _ := turns_of_invalidateAll trivial
  set c₄ := c₃.move 0 s₄ .idle
  have hzero : (c₄.shared.entry 0).useCount = 0 := by
    rw [show c₄.shared.entry 0 = _ from hentry 0 Nat.one_pos]
    rfl
  obtain ⟨l₅, hl₅, h₅⟩ := run_to_outside (show c₄.pc 1 = .readOp (query 0) from rfl)
  set c₅ := c₄.move 1 (c₄.shared.setUse 0 ((c₄.shared.entry 0).useCount - 1)) l₅
  obtain ⟨l₆, hl₆, h₆⟩ := run_to_outside (show c₅.pc 2 = .readOp (query 0) from rfl)
  have hone : (c₅.shared.entry 0).useCount = -1 := by
    show ((c₄.shared.setUse 0 ((c₄.shared.entry 0).useCount - 1)).entry 0).useCount = -1
    rw [Slots.useCount_setUse, if_pos rfl, hzero]
    rfl
  refine ⟨_, ((GuardedStep.access ((run_filled.trans h₂).trans h₃)).trans
    (run_of_access hrun)).trans (GuardedStep.access (h₅.trans h₆)), ?_, ?_⟩
  · intro t
    match t with
    | 0 => trivial
    | 1 => exact hl₅
    | 2 => exact hl₆
  · rw [Pool.move_shared, Slots.useCount_setUse, if_pos rfl]
    show (c₅.shared.entry 0).useCount - 1 = -2
    rw [hone]
    rfl

/-- An insertion starts, `invalidateAll` runs from its beginning to its end, and the insertion
goes on: a lookup that starts after that finds the node. -/
theorem run_to_stale : ∃ c : Pool (Fin 3) Slots Spot, Relation.ReflTransGen AccessStep oneEntry c ∧
    ∃ q : Query, c.pc 1 = .returned q 7 (some insertion) ∧ insertion.begun < q.ended := by
  set c₁ := oneEntry.move 0 oneEntry.shared (.acquire insertion)
  have h₁ : Relation.ReflTransGen GuardedStep oneEntry c₁ :=
    run_of_guarded (Relation.ReflTransGen.single insert_oneEntry)
  obtain ⟨s₂, hrun₂, hentry, hended, hsize⟩ : ∃ s' : Slots,
      Relation.ReflTransGen (Access (c₁.others 1)) (c₁.shared, c₁.pc 1) (s', .idle) ∧ _ :=
    turns_of_invalidateAll trivial
  set c₂ := c₁.move 1 s₂ .idle
  have hzero : (s₂.entry 0).useCount = 0 := by
    rw [hentry 0 Nat.one_pos]
    rfl
  have hrun₃ : Relation.ReflTransGen (Access (c₂.others 0)) (c₂.shared, c₂.pc 0)
      (s₂.inserted insertion, .idle) := turns_of_acquire (fun _ _ h => h.1) hzero .writeNode
  set c₃ := c₂.move 0 (s₂.inserted insertion) .idle
  have hfound : c₃.shared.entry 0 = ⟨7, 1, 2, .and, 0⟩ := by
    show (s₂.cache.insert false 0 7 1 2 .and).entry 0 = _
    rw [LockFreeCache.insert, if_pos ⟨hzero, rfl⟩]
    rfl
  have hpos : 0 < c₃.shared.cache.size := c₃.shared.cache.size_pos
  obtain ⟨s₄, hrun₄, -⟩ := run_to_returned (c := c₃) (t := 1) trivial hpos hfound rfl
  have hquery : c₃.shared.ended = 1 := hended
  rw [hquery] at hrun₄
  exact ⟨_, (((GuardedStep.access h₁).trans (run_of_access hrun₂)).trans
    (run_of_access hrun₃)).trans (GuardedStep.access hrun₄), query 1, Pool.move_pc_self ..,
    Nat.one_pos⟩

/-- **The promises are not kept** by all runs: a counter falls below `-1` and stays there when
all calls have returned, and an insertion that began before an `invalidateAll` is found by a
lookup that starts after it has ended. -/
theorem not_effective_of_run :
    (∃ c : Pool (Fin 3) Slots Spot, Relation.ReflTransGen AccessStep oneEntry c ∧
      (∀ t, (c.pc t).Outside) ∧ (c.shared.entry 0).useCount = -2 ∧ ¬ Effective c) ∧
    ∃ c : Pool (Fin 3) Slots Spot, Relation.ReflTransGen AccessStep oneEntry c ∧
      ∃ q : Query, c.pc 1 = .returned q 7 (some insertion) ∧ insertion.begun < q.ended := by
  refine ⟨?_, run_to_stale⟩
  obtain ⟨c, hrun, hout, hcount⟩ := run_to_neg_two
  refine ⟨c, hrun, hout, hcount, fun he => ?_⟩
  have hzero := he.useCount_eq hout 0
  rw [hcount] at hzero
  exact absurd hzero (by decide)

end Nanobdd
