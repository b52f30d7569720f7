import Nanobdd.AllocatorSpec
import Nanobdd.Lib.Threads
import Nanobdd.Lib.Transition

/-!
# The free list under many threads

`allocate` and `free(Node *)` for any number of threads, as the sequence of their atomic steps.
Between the moment `popFree` reads the link of the head and its compare-exchange, the head may
leave the list and come back in front of other cells. The compare-exchange cannot tell, and
installs a link that is out of date.

## Main definitions

* `Atomic` — one atomic step of a thread
* `Careful` — the same, if no compare-exchange of `popFree` installs a link that is out of date
* `OneOwner` — every node has one owner, and none of them is free

## Main results

* `oneOwner_of_run` — one owner in every run of careful steps
* `not_oneOwner_of_run` — three overlapping calls are enough to hand out a node twice
* `turns_of_allocate`, `turns_of_free` — a thread that runs alone computes `allocate` and `free`
-/

namespace Nanobdd

open NodeAllocator LinkedList

/-- The allocator, its memory, and the nodes that the table has. -/
structure Arena where
  heap : Heap
  allocator : NodeAllocator
  table : List Ptr

/-- Where a thread is in `allocate` or `free`, with the local variables that are still needed. -/
inductive Code
  | idle
  /-- `popFree`: load `freeList_`. -/
  | loadHead (k : Key)
  /-- Read `head->nextFree`. -/
  | readNext (k : Key) (head : Ptr)
  /-- The compare-exchange. -/
  | casHead (k : Key) (head next : Ptr)
  /-- Clear `head->nextFree`. -/
  | clearNext (k : Key) (head : Ptr)
  | resetNode (k : Key) (node : Ptr)
  /-- `allocateFromSlab`: load `next`. -/
  | loadNext (k : Key)
  | casNext (k : Key) (idx : ℕ)
  /-- `free`: the writes before the push. -/
  | clearNode (node : Ptr)
  /-- `pushFree`: load `freeList_`. -/
  | loadFree (node : Ptr)
  /-- Write `node->nextFree`. -/
  | writeNext (node head : Ptr)
  | casFree (node head : Ptr)
  deriving DecidableEq, Repr

/-- A thread: where it is, and the nodes it has from `allocate` and has not given away. -/
structure Worker where
  code : Code
  held : List Ptr
  deriving DecidableEq, Repr

/-- The head of the loop of `popFree`. -/
def popLoop (k : Key) (head : Ptr) : Code :=
  if head ≠ nullptr then .readNext k head else .loadNext k

namespace Arena

/-- The head of the loop of `allocateFromSlab`; `allocate` returns null when it ends. -/
def slabLoop (a : Arena) (k : Key) (idx : ℕ) : Code :=
  if idx < a.allocator.currentSlab.capacity then .casNext k idx else .idle

/-- The arena with another memory. -/
def setHeap (a : Arena) (h : Heap) : Arena := { a with heap := h }

/-- The arena with another head of the free list. -/
def setFreeList (a : Arena) (p : Ptr) : Arena :=
  { a with allocator := { a.allocator with freeList := p } }

/-- The arena with another count of issued slots. -/
def setNext (a : Arena) (n : ℕ) : Arena :=
  { a with allocator :=
      { a.allocator with currentSlab := { a.allocator.currentSlab with next := n } } }

/-- `free(const std::vector<Node *> &)` on nodes of the table. -/
def collect (a : Arena) (dead : List Ptr) : Arena :=
  let r := a.allocator.freeAll a.heap dead
  { heap := r.2, allocator := r.1, table := a.table.filter fun p => p ∉ dead }

/-- `allocate`, run without interference. -/
def allocate (a : Arena) (k : Key) : Option (Ptr × Arena) :=
  (a.allocator.allocate a.heap k.level k.low k.high).map fun r =>
    (r.1, { a with allocator := r.2.1, heap := r.2.2 })

/-- `free(Node *)`, run without interference. -/
def free (a : Arena) (p : Ptr) : Arena :=
  let r := a.allocator.free a.heap p
  { a with allocator := r.1, heap := r.2 }

/-- `grow` -/
def grow (a : Arena) : Arena := { a with allocator := a.allocator.grow }

/-- No node was issued yet. -/
def start (initialCapacity : ℕ) : Arena := ⟨fun _ => {}, .new initialCapacity, []⟩

end Arena

/-- One atomic step of a thread. A compare-exchange may fail for no reason. The last two belong to
a collection: the table's lock keeps the other threads out of `allocate` and `free`. -/
inductive Atomic (others : Worker → Prop) : Arena × Worker → Arena × Worker → Prop
  | allocate {a hs} (k : Key) : Atomic others (a, ⟨.idle, hs⟩) (a, ⟨.loadHead k, hs⟩)
  | loadHead {a hs k} :
      Atomic others (a, ⟨.loadHead k, hs⟩) (a, ⟨popLoop k a.allocator.freeList, hs⟩)
  | readNext {a hs k head} :
      Atomic others (a, ⟨.readNext k head, hs⟩) (a, ⟨.casHead k head (a.heap head).nextFree, hs⟩)
  | casHead {a hs k head next} : a.allocator.freeList = head →
      Atomic others (a, ⟨.casHead k head next, hs⟩) (a.setFreeList next, ⟨.clearNext k head, hs⟩)
  | casHeadFails {a hs k head next} :
      Atomic others (a, ⟨.casHead k head next, hs⟩) (a, ⟨popLoop k a.allocator.freeList, hs⟩)
  | clearNext {a hs k head} :
      Atomic others (a, ⟨.clearNext k head, hs⟩)
        (a.setHeap (a.heap.setNextFree head nullptr), ⟨.resetNode k head, hs⟩)
  | resetNode {a hs k node} :
      Atomic others (a, ⟨.resetNode k node, hs⟩)
        (a.setHeap (a.heap.resetNode node k.level k.low k.high), ⟨.idle, node :: hs⟩)
  | loadNext {a hs k} :
      Atomic others (a, ⟨.loadNext k, hs⟩) (a, ⟨a.slabLoop k a.allocator.currentSlab.next, hs⟩)
  | casNext {a hs k idx} : a.allocator.currentSlab.next = idx →
      Atomic others (a, ⟨.casNext k idx, hs⟩)
        (a.setNext (idx + 1), ⟨.resetNode k (a.allocator.currentSlab.base + idx), hs⟩)
  | casNextFails {a hs k idx} :
      Atomic others (a, ⟨.casNext k idx, hs⟩)
        (a, ⟨a.slabLoop k a.allocator.currentSlab.next, hs⟩)
  | free {a hs node} : node ∈ hs →
      Atomic others (a, ⟨.idle, hs⟩) (a, ⟨.clearNode node, hs.erase node⟩)
  | clearNode {a hs node} :
      Atomic others (a, ⟨.clearNode node, hs⟩)
        (a.setHeap (a.heap.clearNode node), ⟨.loadFree node, hs⟩)
  | loadFree {a hs node} :
      Atomic others (a, ⟨.loadFree node, hs⟩) (a, ⟨.writeNext node a.allocator.freeList, hs⟩)
  | writeNext {a hs node head} :
      Atomic others (a, ⟨.writeNext node head, hs⟩)
        (a.setHeap (a.heap.setNextFree node head), ⟨.casFree node head, hs⟩)
  | casFree {a hs node head} : a.allocator.freeList = head →
      Atomic others (a, ⟨.casFree node head, hs⟩) (a.setFreeList node, ⟨.idle, hs⟩)
  | casFreeFails {a hs node head} :
      Atomic others (a, ⟨.casFree node head, hs⟩) (a, ⟨.writeNext node a.allocator.freeList, hs⟩)
  /-- The table takes a node. -/
  | insert {a hs node} : node ∈ hs →
      Atomic others (a, ⟨.idle, hs⟩) ({ a with table := node :: a.table }, ⟨.idle, hs.erase node⟩)
  | collect {a hs} (dead : List Ptr) : (∀ o, others o → o.code = .idle) →
      (∀ p ∈ dead, p ∈ a.table) → dead.Nodup →
      Atomic others (a, ⟨.idle, hs⟩) (a.collect dead, ⟨.idle, hs⟩)
  | grow {a hs} : (∀ o, others o → o.code = .idle) →
      Atomic others (a, ⟨.idle, hs⟩) (a.grow, ⟨.idle, hs⟩)

/-- `next` is null or a cell of the free list behind `head`. -/
def Arena.Behind (a : Arena) (head next : Ptr) : Prop :=
  next = nullptr ∨ ∃ fl, Chain (fun p => (a.heap p).nextFree) nullptr (a.heap head).nextFree fl ∧
    next ∈ fl

/-- An atomic step, which is no compare-exchange of `popFree` with a link that is out of date. -/
def Careful (others : Worker → Prop) (x y : Arena × Worker) : Prop :=
  Atomic others x y ∧ ∀ k head next, x.2.code = .casHead k head next →
    y.2.code = .clearNext k head → x.1.Behind head next

variable {T : Type*} [DecidableEq T] {a b : Arena} {w w' o : Worker} {k : Key} {p q : Ptr}
  {hs : List Ptr} {others : Worker → Prop}

/-- One step of the program: nothing but the threads changes anything. -/
abbrev AtomicStep : Pool T Arena Worker → Pool T Arena Worker → Prop :=
  Pool.Step Atomic fun _ _ => False

/-- One careful step of the program. -/
abbrev CarefulStep : Pool T Arena Worker → Pool T Arena Worker → Prop :=
  Pool.Step Careful fun _ _ => False

/-! ### The invariant -/

namespace Code

/-- The node that is on its way out of or into the free list. -/
def owns : Code → List Ptr
  | clearNext _ p | resetNode _ p | clearNode p | loadFree p | writeNext p _ | casFree p _ => [p]
  | _ => []

/-- What a thread knows. -/
def Fits (a : Arena) : Code → Prop
  | readNext _ head | casHead _ head _ => head ≠ nullptr
  | casNext _ idx => idx < a.allocator.currentSlab.capacity
  | casFree p head => (a.heap p).nextFree = head
  | _ => True

/-- **Frame.** What a thread knows depends on the slab and on the nodes it owns. -/
theorem Fits.congr {c : Code} (h : c.Fits a)
    (hcap : b.allocator.currentSlab.capacity = a.allocator.currentSlab.capacity)
    (hheap : ∀ p ∈ c.owns, (b.heap p).nextFree = (a.heap p).nextFree) : c.Fits b := by
  cases c with
  | casNext k idx =>
    show idx < b.allocator.currentSlab.capacity
    rw [hcap]
    exact h
  | casFree p head => exact (hheap p List.mem_cons_self).trans h
  | _ => exact h

theorem fits_popLoop (a : Arena) (k : Key) (head : Ptr) : (popLoop k head).Fits a := by
  rw [popLoop]
  split
  · assumption
  · trivial

theorem fits_slabLoop (a : Arena) (k : Key) (idx : ℕ) : (a.slabLoop k idx).Fits a := by
  rw [Arena.slabLoop]
  split
  · assumption
  · trivial

end Code

/-- The nodes that only this thread may touch. -/
def Worker.owns (w : Worker) : List Ptr := w.code.owns ++ w.held

theorem Worker.owns_popLoop (k : Key) (head : Ptr) (hs : List Ptr) :
    Worker.owns ⟨popLoop k head, hs⟩ = hs := by
  rw [Worker.owns, popLoop]
  split <;> rfl

theorem Worker.owns_slabLoop (a : Arena) (k : Key) (idx : ℕ) (hs : List Ptr) :
    Worker.owns ⟨a.slabLoop k idx, hs⟩ = hs := by
  rw [Worker.owns, Arena.slabLoop]
  split <;> rfl

/-- The arena as one thread sees it. -/
structure Owns (others : Worker → Prop) (a : Arena) (w : Worker) : Prop where
  alloc : ∃ fl, a.allocator.AllocInv a.heap
    (fun p => p ∈ a.table ∨ p ∈ w.owns ∨ ∃ o, others o ∧ p ∈ o.owns) fl
  nodup : w.owns.Nodup
  not_table : ∀ p ∈ w.owns, p ∉ a.table
  fits : w.code.Fits a
  apart : ∀ o, others o → o.code.Fits a ∧ (∀ p ∈ o.owns, p ∉ a.table) ∧
    List.Disjoint w.owns o.owns

namespace Owns

/-- A step that changes nothing but the place. -/
theorem walk (h : Owns others a w) (hperm : w'.owns.Perm w.owns) (hf : w'.code.Fits a) :
    Owns others a w' := by
  obtain ⟨fl, hfl⟩ := h.alloc
  refine ⟨⟨fl, hfl.mono ?_⟩, hperm.nodup_iff.mpr h.nodup,
    fun p hp => h.not_table p (hperm.mem_iff.mp hp), hf, fun o ho => ?_⟩
  · rintro p (hp | hp | hp)
    · exact Or.inl hp
    · exact Or.inr (Or.inl (hperm.mem_iff.mp hp))
    · exact Or.inr (Or.inr hp)
  · obtain ⟨hof, hot, hd⟩ := h.apart o ho
    exact ⟨hof, hot, fun p hp => hd (hperm.mem_iff.mp hp)⟩

/-- A write to a node of this thread. -/
theorem write {g : Heap} (h : Owns others a w) (hp : p ∈ w.owns)
    (hg : ∀ q, q ≠ p → g q = a.heap q) (hperm : w'.owns.Perm w.owns)
    (hf : w'.code.Fits (a.setHeap g)) : Owns others (a.setHeap g) w' := by
  have hset : Owns others (a.setHeap g) ⟨.idle, w.owns⟩ := by
    obtain ⟨fl, hfl⟩ := h.alloc
    refine ⟨⟨fl, hfl.congr fun q hq => ?_⟩, h.nodup, h.not_table, trivial, fun o ho => ?_⟩
    · have hqp : q ≠ p := fun he => hfl.not_used q hq (Or.inr (Or.inl (he ▸ hp)))
      show (g q).nextFree = _
      rw [hg q hqp]
    · obtain ⟨hof, hot, hd⟩ := h.apart o ho
      refine ⟨hof.congr rfl fun q hq => ?_, hot, hd⟩
      have hqp : q ≠ p := fun he => hd hp (he ▸ List.mem_append_left _ hq)
      show (g q).nextFree = _
      rw [hg q hqp]
  exact hset.walk hperm hf

/-- A node that nobody used goes to this thread. -/
theorem gain (h : Owns others a w) (hheap : b.heap = a.heap) (htable : b.table = a.table)
    (hcap : b.allocator.currentSlab.capacity = a.allocator.currentSlab.capacity)
    (hfresh : ¬ (p ∈ a.table ∨ p ∈ w.owns ∨ ∃ o, others o ∧ p ∈ o.owns))
    (halloc : ∃ fl, b.allocator.AllocInv a.heap
      (fun q => q = p ∨ q ∈ a.table ∨ q ∈ w.owns ∨ ∃ o, others o ∧ q ∈ o.owns) fl)
    (howns : w'.owns = p :: w.owns) (hf : w'.code.Fits b) : Owns others b w' := by
  obtain ⟨fl, hfl⟩ := halloc
  refine ⟨⟨fl, ?_⟩, ?_, ?_, hf, fun o ho => ?_⟩
  · rw [hheap]
    refine hfl.mono ?_
    rw [howns, htable]
    rintro q (hq | hq | hq)
    · exact Or.inr (Or.inl hq)
    · rcases List.mem_cons.mp hq with rfl | hq
      · exact Or.inl rfl
      · exact Or.inr (Or.inr (Or.inl hq))
    · exact Or.inr (Or.inr (Or.inr hq))
  · rw [howns]
    exact List.nodup_cons.mpr ⟨fun hp => hfresh (Or.inr (Or.inl hp)), h.nodup⟩
  · rw [howns, htable]
    intro q hq
    rcases List.mem_cons.mp hq with rfl | hq
    · exact fun ht => hfresh (Or.inl ht)
    · exact h.not_table q hq
  · obtain ⟨hof, hot, hd⟩ := h.apart o ho
    refine ⟨hof.congr hcap fun q _ => by rw [hheap], by rwa [htable], ?_⟩
    rw [howns]
    refine List.disjoint_cons_left.mpr ⟨fun hp => hfresh (Or.inr (Or.inr ⟨o, ho, hp⟩)), hd⟩

/-- **A careful pop.** -/
theorem casHead {next : Ptr} (h : Owns others a ⟨.casHead k p next, hs⟩)
    (hp : a.allocator.freeList = p) (hb : a.Behind p next) :
    Owns others (a.setFreeList next) ⟨.clearNext k p, hs⟩ := by
  obtain ⟨fl, hfl⟩ := h.alloc
  subst hp
  obtain ⟨hfresh, hpop⟩ := hfl.pop h.fits hb
  exact h.gain rfl rfl rfl hfresh hpop rfl trivial

/-- The next slot of the slab. -/
theorem casNext {idx : ℕ} (h : Owns others a ⟨.casNext k idx, hs⟩)
    (hidx : a.allocator.currentSlab.next = idx) :
    Owns others (a.setNext (idx + 1))
      ⟨.resetNode k (a.allocator.currentSlab.base + idx), hs⟩ := by
  obtain ⟨fl, hfl⟩ := h.alloc
  subst hidx
  obtain ⟨hfresh, hinv⟩ := hfl.fresh h.fits
  exact h.gain rfl rfl rfl hfresh ⟨fl, hinv⟩ rfl trivial

/-- **A push.** -/
theorem casFree {head : Ptr} (h : Owns others a ⟨.casFree p head, hs⟩)
    (hhead : a.allocator.freeList = head) : Owns others (a.setFreeList p) ⟨.idle, hs⟩ := by
  obtain ⟨fl, hfl⟩ := h.alloc
  subst hhead
  have hnodup := List.nodup_cons.mp h.nodup
  have hmem : p ∈ (Worker.mk (.casFree p a.allocator.freeList) hs).owns := List.mem_cons_self
  refine ⟨⟨p :: fl, hfl.push (Or.inr (Or.inl hmem)) h.fits ?_⟩, hnodup.2,
    fun q hq => h.not_table q (List.mem_cons_of_mem _ hq), trivial, fun o ho => ?_⟩
  · rintro q (hq | hq | ⟨o, ho, hq⟩)
    · exact ⟨Or.inl hq, fun he => h.not_table p hmem (he ▸ hq)⟩
    · exact ⟨Or.inr (Or.inl (List.mem_cons_of_mem _ hq)), fun he => hnodup.1 (he ▸ hq)⟩
    · exact ⟨Or.inr (Or.inr ⟨o, ho, hq⟩), fun he => (h.apart o ho).2.2 hmem (he ▸ hq)⟩
  · obtain ⟨hof, hot, hd⟩ := h.apart o ho
    exact ⟨hof.congr rfl fun q _ => rfl, hot, fun q hq => hd (List.mem_cons_of_mem _ hq)⟩

/-- The table takes a node. -/
theorem insert (h : Owns others a ⟨.idle, hs⟩) (hp : p ∈ hs) :
    Owns others { a with table := p :: a.table } ⟨.idle, hs.erase p⟩ := by
  obtain ⟨fl, hfl⟩ := h.alloc
  have hnodup : hs.Nodup := h.nodup
  refine ⟨⟨fl, hfl.mono ?_⟩, hnodup.erase p, fun q hq => ?_, trivial, fun o ho => ?_⟩
  · rintro q (hq | hq | hq)
    · rcases List.mem_cons.mp hq with rfl | hq
      · exact Or.inr (Or.inl hp)
      · exact Or.inl hq
    · exact Or.inr (Or.inl (List.mem_of_mem_erase hq))
    · exact Or.inr (Or.inr hq)
  · obtain ⟨hqp, hq⟩ := hnodup.mem_erase_iff.mp hq
    exact List.not_mem_cons_of_ne_of_not_mem hqp (h.not_table q hq)
  · obtain ⟨hof, hot, hd⟩ := h.apart o ho
    refine ⟨hof.congr rfl fun q _ => rfl, fun q hq => ?_, fun q hq => hd (List.mem_of_mem_erase hq)⟩
    exact List.not_mem_cons_of_ne_of_not_mem (fun he => hd hp (he ▸ hq)) (hot q hq)

/-- A collection frees nodes of the table. -/
theorem collect {dead : List Ptr} (h : Owns others a ⟨.idle, hs⟩)
    (ho : ∀ o, others o → o.code = .idle) (hd : ∀ p ∈ dead, p ∈ a.table) (hnd : dead.Nodup) :
    Owns others (a.collect dead) ⟨.idle, hs⟩ := by
  obtain ⟨fl, hfl⟩ := h.alloc
  have hinv := hfl.freeAll (fun p hp => Or.inl (hd p hp)) hnd
  have htable : ∀ {p}, p ∈ (a.collect dead).table ↔ p ∈ a.table ∧ p ∉ dead := by
    simp [Arena.collect]
  refine ⟨⟨_, hinv.mono ?_⟩, h.nodup, fun p hp ht => h.not_table p hp (htable.mp ht).1, trivial,
    fun o hoo => ⟨by rw [ho o hoo]; trivial,
      fun p hp ht => (h.apart o hoo).2.1 p hp (htable.mp ht).1, (h.apart o hoo).2.2⟩⟩
  rintro p (hp | hp | ⟨o, hoo, hp⟩)
  · exact ⟨Or.inl (htable.mp hp).1, (htable.mp hp).2⟩
  · exact ⟨Or.inr (Or.inl hp), fun hdead => h.not_table p hp (hd p hdead)⟩
  · exact ⟨Or.inr (Or.inr ⟨o, hoo, hp⟩), fun hdead => (h.apart o hoo).2.1 p hp (hd p hdead)⟩

theorem grow (h : Owns others a ⟨.idle, hs⟩) (ho : ∀ o, others o → o.code = .idle) :
    Owns others a.grow ⟨.idle, hs⟩ := by
  obtain ⟨fl, hfl⟩ := h.alloc
  exact ⟨⟨fl, hfl.grow.1⟩, h.nodup, h.not_table, trivial,
    fun o hoo => ⟨by rw [ho o hoo]; trivial, (h.apart o hoo).2⟩⟩

/-- **One careful step of a thread**, as it sees the arena. -/
theorem careful (h : Owns others a w) (hs : Careful others (a, w) (b, w')) : Owns others b w' := by
  obtain ⟨hs, hb⟩ := hs
  cases hs with
  | allocate k => exact h.walk (List.Perm.refl _) trivial
  | loadHead => exact h.walk (.of_eq (Worker.owns_popLoop ..)) (Code.fits_popLoop ..)
  | readNext => exact h.walk (List.Perm.refl _) h.fits
  | casHead hp => exact h.casHead hp (hb _ _ _ rfl rfl)
  | casHeadFails => exact h.walk (.of_eq (Worker.owns_popLoop ..)) (Code.fits_popLoop ..)
  | clearNext =>
    exact h.write List.mem_cons_self (fun q hq => Heap.modify_of_ne hq) (List.Perm.refl _) trivial
  | resetNode =>
    exact h.write List.mem_cons_self (fun q hq => Heap.modify_of_ne hq) (List.Perm.refl _) trivial
  | loadNext => exact h.walk (.of_eq (Worker.owns_slabLoop ..)) (Code.fits_slabLoop ..)
  | casNext hidx => exact h.casNext hidx
  | casNextFails => exact h.walk (.of_eq (Worker.owns_slabLoop ..)) (Code.fits_slabLoop ..)
  | free hp => exact h.walk (List.perm_cons_erase hp).symm trivial
  | clearNode =>
    exact h.write List.mem_cons_self (fun q hq => Heap.modify_of_ne hq) (List.Perm.refl _) trivial
  | loadFree => exact h.walk (List.Perm.refl _) trivial
  | writeNext =>
    refine h.write List.mem_cons_self (fun q hq => Heap.modify_of_ne hq) (List.Perm.refl _) ?_
    simp [Code.Fits, Arena.setHeap, Heap.setNextFree]
  | casFree hhead => exact h.casFree hhead
  | casFreeFails => exact h.walk (List.Perm.refl _) trivial
  | insert hp => exact h.insert hp
  | collect dead ho hd hnd => exact h.collect ho hd hnd
  | grow ho => exact h.grow ho

end Owns

/-! ### All threads -/

section pool

variable {c c' : Pool T Arena Worker} {t : T}

/-- What holds in every state that careful steps reach. -/
structure Owned (c : Pool T Arena Worker) : Prop where
  alloc : ∃ fl, c.shared.allocator.AllocInv c.shared.heap
    (fun p => p ∈ c.shared.table ∨ ∃ t, p ∈ (c.pc t).owns) fl
  nodup : ∀ t, (c.pc t).owns.Nodup
  not_table : ∀ t, ∀ p ∈ (c.pc t).owns, p ∉ c.shared.table
  fits : ∀ t, (c.pc t).code.Fits c.shared
  apart : ∀ t u, t ≠ u → List.Disjoint (c.pc t).owns (c.pc u).owns

omit [DecidableEq T] in
/-- What thread `t` sees. -/
theorem Owned.view (h : Owned c) (t : T) : Owns (c.others t) c.shared (c.pc t) := by
  obtain ⟨fl, hfl⟩ := h.alloc
  refine ⟨⟨fl, hfl.mono ?_⟩, h.nodup t, h.not_table t, h.fits t, ?_⟩
  · rintro p (hp | hp | ⟨-, ⟨u, -, rfl⟩, hp⟩)
    · exact Or.inl hp
    · exact Or.inr ⟨t, hp⟩
    · exact Or.inr ⟨u, hp⟩
  · rintro - ⟨u, hu, rfl⟩
    exact ⟨h.fits u, h.not_table u, h.apart t u hu.symm⟩

/-- What the mover sees is enough. -/
theorem Owned.move (h : Owned c) (hv : Owns (c.others t) a w) : Owned (c.move t a w) := by
  obtain ⟨fl, hfl⟩ := hv.alloc
  refine ⟨⟨fl, hfl.mono ?_⟩, ?_, ?_, ?_, ?_⟩
  · rintro p (hp | hp)
    · exact Or.inl hp
    · exact Or.inr ((Pool.exists_move fun o : Worker => p ∈ o.owns).mp hp)
  · refine (Pool.forall_move fun o : Worker => o.owns.Nodup).mpr ⟨hv.nodup, ?_⟩
    rintro - ⟨u, -, rfl⟩
    exact h.nodup u
  · exact (Pool.forall_move fun o : Worker => ∀ p ∈ o.owns, p ∉ a.table).mpr
      ⟨hv.not_table, fun o ho => (hv.apart o ho).2.1⟩
  · exact (Pool.forall_move fun o : Worker => o.code.Fits a).mpr
      ⟨hv.fits, fun o ho => (hv.apart o ho).1⟩
  · exact Pool.pairwise_move (fun w o : Worker => List.Disjoint w.owns o.owns) h.apart
      fun o ho => ⟨(hv.apart o ho).2.2, (hv.apart o ho).2.2.symm⟩

theorem Owned.step (h : Owned c) (hs : CarefulStep c c') : Owned c' := by
  cases hs with
  | turn ht => exact h.move ((h.view _).careful ht)
  | env he => exact he.elim

/-- All threads are idle, and none has a node. -/
def Arena.quiet (a : Arena) : Pool T Arena Worker := ⟨a, fun _ => ⟨.idle, []⟩⟩

omit [DecidableEq T] in
theorem owned_start (initialCapacity : ℕ) :
    Owned ((Arena.start initialCapacity).quiet : Pool T Arena Worker) := by
  refine ⟨⟨[], (AllocInv.new initialCapacity _).1.mono ?_⟩, fun _ => List.nodup_nil,
    fun _ p hp => absurd hp List.not_mem_nil, fun _ => trivial,
    fun _ _ _ => List.disjoint_nil_left _⟩
  rintro p (hp | ⟨t, hp⟩)
  · exact absurd hp List.not_mem_nil
  · exact absurd hp List.not_mem_nil

/-- The table or a thread has the node. -/
def Held (c : Pool T Arena Worker) (p : Ptr) : Prop :=
  p ∈ c.shared.table ∨ ∃ t, p ∈ (c.pc t).held

/-- Every node has one owner, and none of them is free. -/
structure OneOwner (c : Pool T Arena Worker) : Prop where
  /-- No node that someone has is on the free list. -/
  not_free : ∃ fl, Chain (fun p => (c.shared.heap p).nextFree) nullptr
    c.shared.allocator.freeList fl ∧ ∀ p, Held c p → p ∉ fl
  /-- No node that `allocate` is about to return is held. -/
  returned : ∀ t k p, (c.pc t).code = .resetNode k p → ¬ Held c p
  nodup : ∀ t, (c.pc t).held.Nodup
  not_table : ∀ t, ∀ p ∈ (c.pc t).held, p ∉ c.shared.table
  apart : ∀ t u, t ≠ u → List.Disjoint (c.pc t).held (c.pc u).held

omit [DecidableEq T] in
theorem Owned.oneOwner (h : Owned c) : OneOwner c := by
  have hsub : ∀ t, ∀ p ∈ (c.pc t).held, p ∈ (c.pc t).owns := fun t p hp =>
    List.mem_append_right _ hp
  obtain ⟨fl, hfl⟩ := h.alloc
  refine ⟨⟨fl, hfl.chain, ?_⟩, ?_, fun t => (List.nodup_append.mp (h.nodup t)).2.1,
    fun t p hp => h.not_table t p (hsub t p hp),
    fun t u htu p hp hp' => h.apart t u htu (hsub t p hp) (hsub u p hp')⟩
  · rintro p (hp | ⟨t, hp⟩) hpf
    · exact hfl.not_used p hpf (Or.inl hp)
    · exact hfl.not_used p hpf (Or.inr ⟨t, hsub t p hp⟩)
  · intro t k p ht
    have howns : (c.pc t).owns = p :: (c.pc t).held := by
      rw [Worker.owns, ht]
      rfl
    have hp : p ∈ (c.pc t).owns := by
      rw [howns]
      exact List.mem_cons_self
    rintro (hp' | ⟨u, hp'⟩)
    · exact h.not_table t p hp hp'
    · by_cases hut : u = t
      · subst hut
        have hnodup := h.nodup u
        rw [howns] at hnodup
        exact (List.nodup_cons.mp hnodup).1 hp'
      · exact h.apart t u (Ne.symm hut) hp (hsub u p hp')

/-- **One owner.** Any number of threads call `allocate` and `free`, their atomic steps in any
order. As long as no compare-exchange of `popFree` installs a link that is out of date, a node
that a thread or the table has is neither free nor handed out again. -/
theorem oneOwner_of_run {initialCapacity : ℕ}
    (hrun : Relation.ReflTransGen CarefulStep (Arena.start initialCapacity).quiet c) :
    OneOwner c := by
  have h : Owned c := Transition.invariant (fun _ _ hs ha => Owned.step ha hs) hrun
    (owned_start initialCapacity)
  exact h.oneOwner

end pool

/-! ### A thread that runs alone -/

theorem Atomic.careful (h : Atomic others (a, w) (b, w'))
    (hw : ∀ k head next, w.code ≠ .casHead k head next) : Careful others (a, w) (b, w') :=
  ⟨h, fun k head next hc => absurd hc (hw k head next)⟩

/-- The call has loaded the head. -/
theorem turns_to_popLoop : Relation.ReflTransGen (Careful others) (a, ⟨.idle, hs⟩)
    (a, ⟨popLoop k a.allocator.freeList, hs⟩) :=
  (Relation.ReflTransGen.single ((Atomic.allocate k).careful nofun)).tail
    (Atomic.loadHead.careful nofun)

/-- Without interference the link is up to date. -/
theorem turns_of_pop (hf : a.allocator.freeList ≠ nullptr)
    (hb : a.Behind a.allocator.freeList (a.heap a.allocator.freeList).nextFree) :
    Relation.ReflTransGen (Careful others)
      (a, ⟨popLoop k a.allocator.freeList, hs⟩)
      ((a.setFreeList (a.heap a.allocator.freeList).nextFree).setHeap
        (a.heap.setNextFree a.allocator.freeList nullptr),
        ⟨.resetNode k a.allocator.freeList, hs⟩) := by
  have hloop : popLoop k a.allocator.freeList = .readNext k a.allocator.freeList := if_pos hf
  have hcas : Careful others
      (a, ⟨.casHead k a.allocator.freeList (a.heap a.allocator.freeList).nextFree, hs⟩)
      (a.setFreeList (a.heap a.allocator.freeList).nextFree,
        ⟨.clearNext k a.allocator.freeList, hs⟩) := by
    refine ⟨Atomic.casHead rfl, fun k' head next hc _ => ?_⟩
    injection hc with _ hhead hnext
    subst hhead hnext
    exact hb
  rw [hloop]
  exact ((Relation.ReflTransGen.single (Atomic.readNext.careful nofun)).tail hcas).tail
    (Atomic.clearNext.careful nofun)

/-- The free list is empty, and the slab is not full. -/
theorem turns_of_slab (hf : a.allocator.freeList = nullptr)
    (hlt : a.allocator.currentSlab.next < a.allocator.currentSlab.capacity) :
    Relation.ReflTransGen (Careful others)
      (a, ⟨popLoop k a.allocator.freeList, hs⟩)
      (a.setNext (a.allocator.currentSlab.next + 1), ⟨.resetNode k a.allocator.bound, hs⟩) := by
  have hloop : popLoop k a.allocator.freeList = .loadNext k := if_neg (not_not.mpr hf)
  have hslab : a.slabLoop k a.allocator.currentSlab.next =
      .casNext k a.allocator.currentSlab.next := if_pos hlt
  have hload : Careful others (a, ⟨.loadNext k, hs⟩)
      (a, ⟨a.slabLoop k a.allocator.currentSlab.next, hs⟩) := Atomic.loadNext.careful nofun
  rw [hslab] at hload
  rw [hloop]
  exact (Relation.ReflTransGen.single hload).tail ((Atomic.casNext rfl).careful nofun)

theorem careful_resetNode : Careful others (a, ⟨.resetNode k p, hs⟩)
    (a.setHeap (a.heap.resetNode p k.level k.low k.high), ⟨.idle, p :: hs⟩) :=
  Atomic.resetNode.careful nofun

theorem turns_of_allocate (hb : a.allocator.freeList = nullptr ∨
      a.Behind a.allocator.freeList (a.heap a.allocator.freeList).nextFree)
    (h : a.allocate k = some (p, b)) :
    Relation.ReflTransGen (Careful others) (a, ⟨.idle, hs⟩) (b, ⟨.idle, p :: hs⟩) := by
  rw [Arena.allocate, NodeAllocator.allocate] at h
  by_cases hf : a.allocator.freeList = nullptr
  · rw [popFree, if_pos hf, allocateFromSlab] at h
    split_ifs at h with hlt
    · simp only [Option.map_some, Option.some_inj, Prod.mk.injEq] at h
      obtain ⟨rfl, rfl⟩ := h
      exact (turns_to_popLoop.trans (turns_of_slab hf hlt)).tail careful_resetNode
    · simp at h
  · rw [popFree, if_neg hf] at h
    simp only [Option.map_some, Option.some_inj, Prod.mk.injEq] at h
    obtain ⟨rfl, rfl⟩ := h
    exact (turns_to_popLoop.trans (turns_of_pop hf (hb.resolve_left hf))).tail careful_resetNode

theorem Arena.free_eq (hp0 : p ≠ nullptr) :
    a.free p = ((a.setHeap (a.heap.clearNode p)).setHeap
      ((a.heap.clearNode p).setNextFree p a.allocator.freeList)).setFreeList p := by
  rw [Arena.free, NodeAllocator.free, if_neg hp0]
  rfl

theorem turns_of_free (hp : p ∈ hs) (hp0 : p ≠ nullptr) :
    Relation.ReflTransGen (Careful others) (a, ⟨.idle, hs⟩) (a.free p, ⟨.idle, hs.erase p⟩) := by
  rw [Arena.free_eq hp0]
  exact ((((Relation.ReflTransGen.single ((Atomic.free hp).careful nofun)).tail
    (Atomic.clearNode.careful nofun)).tail (Atomic.loadFree.careful nofun)).tail
      (Atomic.writeNext.careful nofun)).tail ((Atomic.casFree rfl).careful nofun)

/-! ### A node handed out twice -/

/-- The arena after a call of `allocate` that runs alone. -/
def Arena.allocated (a : Arena) (k : Key) : Arena := ((a.allocate k).map Prod.snd).getD a

theorem Arena.allocate_eq (h : (a.allocate k).map Prod.fst = some p) :
    a.allocate k = some (p, a.allocated k) := by
  obtain ⟨⟨q, b⟩, hqb, rfl⟩ := Option.map_eq_some_iff.mp h
  rw [allocated, hqb]
  rfl

/-- A call of `allocate` that runs alone, as a run of the program. -/
theorem run_of_allocate {c : Pool T Arena Worker} {t : T} (ht : c.pc t = ⟨.idle, hs⟩)
    (hb : c.shared.allocator.freeList = nullptr ∨ c.shared.Behind c.shared.allocator.freeList
      (c.shared.heap c.shared.allocator.freeList).nextFree)
    (h : (c.shared.allocate k).map Prod.fst = some p) :
    Relation.ReflTransGen CarefulStep c (c.move t (c.shared.allocated k) ⟨.idle, p :: hs⟩) := by
  refine Pool.run_of_turns (b := (c.shared.allocated k, Worker.mk .idle (p :: hs))) ?_
  rw [ht]
  exact turns_of_allocate hb (Arena.allocate_eq h)

/-- A call of `free` that runs alone, as a run of the program. -/
theorem run_of_free {c : Pool T Arena Worker} {t : T} (ht : c.pc t = ⟨.idle, hs⟩) (hp : p ∈ hs)
    (hp0 : p ≠ nullptr) :
    Relation.ReflTransGen CarefulStep c (c.move t (c.shared.free p) ⟨.idle, hs.erase p⟩) := by
  refine Pool.run_of_turns (b := (c.shared.free p, Worker.mk .idle (hs.erase p))) ?_
  rw [ht]
  exact turns_of_free hp hp0

theorem CarefulStep.atomic {c c' : Pool T Arena Worker}
    (h : Relation.ReflTransGen CarefulStep c c') :
    Relation.ReflTransGen AtomicStep c c' := by
  refine Relation.ReflTransGen.mono (fun a b hs => ?_) _ _ h
  cases hs with
  | turn ht => exact .turn ht.1
  | env he => exact he.elim

/-- Two threads have filled the free list: `1`, then `2`. -/
def refilled : Pool (Fin 3) Arena Worker :=
  let a := (((Arena.start 2).allocated ⟨0, 0, 0⟩).allocated ⟨0, 0, 0⟩).free 2
  ⟨a.free 1, fun _ => ⟨.idle, []⟩⟩

theorem run_refilled : Relation.ReflTransGen CarefulStep
    ((Arena.start 2).quiet : Pool (Fin 3) Arena Worker) refilled := by
  set c₀ : Pool (Fin 3) Arena Worker := (Arena.start 2).quiet
  set c₁ := c₀.move 0 (c₀.shared.allocated ⟨0, 0, 0⟩) ⟨.idle, [1]⟩
  set c₂ := c₁.move 1 (c₁.shared.allocated ⟨0, 0, 0⟩) ⟨.idle, [2]⟩
  set c₃ := c₂.move 1 (c₂.shared.free 2) ⟨.idle, []⟩
  have h₁ : Relation.ReflTransGen CarefulStep c₀ c₁ :=
    run_of_allocate rfl (Or.inl rfl) (by decide)
  have h₂ : Relation.ReflTransGen CarefulStep c₁ c₂ :=
    run_of_allocate rfl (Or.inl (by decide)) (by decide)
  have h₃ : Relation.ReflTransGen CarefulStep c₂ c₃ :=
    run_of_free (show c₂.pc 1 = ⟨.idle, [2]⟩ from rfl) List.mem_cons_self (by decide)
  have h₄ : Relation.ReflTransGen CarefulStep c₃ (c₃.move 0 (c₃.shared.free 1) ⟨.idle, []⟩) :=
    run_of_free (show c₃.pc 0 = ⟨.idle, [1]⟩ from rfl) List.mem_cons_self (by decide)
  have hend : c₃.move 0 (c₃.shared.free 1) ⟨.idle, []⟩ = refilled := by
    have hpc : (c₃.move 0 (c₃.shared.free 1) ⟨.idle, []⟩).pc = fun _ => ⟨.idle, []⟩ :=
      funext (by decide)
    rw [refilled, ← hpc]
    rfl
  rw [← hend]
  exact ((h₁.trans h₂).trans h₃).trans h₄

/-- A thread that has run into the compare-exchange of `popFree`. -/
theorem run_to_casHead {c : Pool T Arena Worker} {t : T} (ht : c.pc t = ⟨.idle, hs⟩) (k : Key)
    (hf : c.shared.allocator.freeList ≠ nullptr) :
    Relation.ReflTransGen AtomicStep c (c.move t c.shared
      ⟨.casHead k c.shared.allocator.freeList (c.shared.heap c.shared.allocator.freeList).nextFree,
        hs⟩) := by
  refine Pool.run_of_turns (b := (c.shared, Worker.mk (.casHead k c.shared.allocator.freeList
    (c.shared.heap c.shared.allocator.freeList).nextFree) hs)) ?_
  have hload : Atomic (c.others t) (c.shared, ⟨.loadHead k, hs⟩)
      (c.shared, ⟨.readNext k c.shared.allocator.freeList, hs⟩) := by
    have h : Atomic (c.others t) (c.shared, ⟨.loadHead k, hs⟩)
        (c.shared, ⟨popLoop k c.shared.allocator.freeList, hs⟩) := .loadHead
    rwa [popLoop, if_pos hf] at h
  rw [ht]
  exact ((Relation.ReflTransGen.single (Atomic.allocate k)).tail hload).tail .readNext

/-- **Three overlapping calls.** A thread has read that `2` follows `1`. Two others take both, and
the first of them gives `1` back. The compare-exchange of the first thread now makes `2` the
head of the free list, and the next call hands it out again. -/
theorem not_oneOwner_of_run : ∃ c : Pool (Fin 3) Arena Worker,
    Relation.ReflTransGen AtomicStep (Arena.start 2).quiet c ∧
      2 ∈ (c.pc 0).held ∧ 2 ∈ (c.pc 1).held ∧ ¬ OneOwner c := by
  set c₀ : Pool (Fin 3) Arena Worker := refilled
  set c₁ := c₀.move 2 c₀.shared ⟨.casHead ⟨0, 0, 0⟩ 1 2, []⟩
  set c₂ := c₁.move 0 (c₁.shared.allocated ⟨0, 0, 0⟩) ⟨.idle, [1]⟩
  set c₃ := c₂.move 1 (c₂.shared.allocated ⟨0, 0, 0⟩) ⟨.idle, [2]⟩
  set c₄ := c₃.move 0 (c₃.shared.free 1) ⟨.idle, []⟩
  set c₅ := c₄.move 2 (c₄.shared.setFreeList 2) ⟨.clearNext ⟨0, 0, 0⟩ 1, []⟩
  set c₆ := c₅.move 0 (c₅.shared.allocated ⟨0, 0, 0⟩) ⟨.idle, [2]⟩
  have h₁ : Relation.ReflTransGen AtomicStep c₀ c₁ :=
    run_to_casHead (show c₀.pc 2 = ⟨.idle, []⟩ from rfl) ⟨0, 0, 0⟩ (by decide)
  have h₂ : Relation.ReflTransGen CarefulStep c₁ c₂ :=
    run_of_allocate rfl (Or.inr (Or.inr ⟨[2], ⟨rfl, by decide, rfl⟩, List.mem_cons_self⟩))
      (by decide)
  have h₃ : Relation.ReflTransGen CarefulStep c₂ c₃ :=
    run_of_allocate rfl (Or.inr (Or.inl (by decide))) (by decide)
  have h₄ : Relation.ReflTransGen CarefulStep c₃ c₄ :=
    run_of_free (show c₃.pc 0 = ⟨.idle, [1]⟩ from rfl) List.mem_cons_self (by decide)
  have h₅ : AtomicStep c₄ c₅ := .turn (.casHead (by decide))
  have h₆ : Relation.ReflTransGen CarefulStep c₅ c₆ :=
    run_of_allocate rfl (Or.inr (Or.inl (by decide))) (by decide)
  refine ⟨c₆, ?_, by decide, by decide, fun h => ?_⟩
  · exact ((CarefulStep.atomic run_refilled).trans h₁).trans <|
      ((CarefulStep.atomic ((h₂.trans h₃).trans h₄)).tail h₅).trans (CarefulStep.atomic h₆)
  · exact h.apart 0 1 (by decide) (show 2 ∈ (c₆.pc 0).held by decide)
      (show 2 ∈ (c₆.pc 1).held by decide)

/-- A careful run: two threads fill the free list, and a third takes a node from it. -/
theorem oneOwner_of_run_small : ∃ c : Pool (Fin 3) Arena Worker,
    (c.pc 2).held = [1] ∧ OneOwner c := by
  have h : Relation.ReflTransGen CarefulStep refilled
      (refilled.move 2 (refilled.shared.allocated ⟨0, 0, 0⟩) ⟨.idle, [1]⟩) :=
    run_of_allocate rfl (Or.inr (Or.inr ⟨[2], ⟨rfl, by decide, rfl⟩, List.mem_cons_self⟩))
      (by decide)
  exact ⟨_, rfl, oneOwner_of_run (run_refilled.trans h)⟩

end Nanobdd
