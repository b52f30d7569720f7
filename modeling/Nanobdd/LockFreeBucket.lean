import Mathlib.Data.Fintype.EquivFin
import Nanobdd.Memory
import Nanobdd.Lib.Chain
import Nanobdd.Lib.Interning
import Nanobdd.Lib.Threads
import Nanobdd.Lib.Transition

/-!
# The lock-free bucket

`LockFreeBucket::operator()` for any number of threads, as the sequence of their atomic steps. A
call scans the list from the head it has loaded, makes a node of its own, and tries to put that
node in front. Each time this fails it scans again, but only from the new head down to the old one.

The old head stays where it is: nodes are put in front of it, and none leaves. So what a call has
scanned is all that was in the list when the head was the one it expects, and a successful
compare-exchange adds the first node with its key. As a map from keys to nodes, the list is an
interner.

## Main definitions

* `LockFreeBucket`, `Probe` — the bucket with its memory, and where a thread is in a call
* `Proceed` — one atomic step of a thread
* `OneNode` — one node for each key, in a state and in a later one

## Main results

* `Viewed.proceed` — what one step leaves
* `oneNode_of_run` — **one node for each key** in every run
* `allocated_of_run` — no thread uses memory that another one has freed
* `returns_of_run` — no thread waits for another
* `turns_of_call` — a call that runs alone returns the node of its key, old or new
-/

namespace Nanobdd

open LinkedList Interning

/-! ### Calls -/

/-- `struct ListNode`. The node is its first member, so a `ListNode *` is the `Node *` as well. -/
structure ListNode where
  bddNode : Node := {}
  next : Ptr := nullptr
  deriving DecidableEq, Repr

/-- `LockFreeBucket`, with the memory its nodes are in. -/
structure LockFreeBucket where
  cells : Ptr → ListNode
  /-- What `new` has given out and `free` has not taken back. -/
  allocated : List Ptr
  listHead : Ptr

/-- The arguments of a call. The level is an `int`. -/
structure Request where
  level : Int32
  low : Ptr
  high : Ptr
  deriving DecidableEq, Repr

/-- The key of the node a call is for. An `int` becomes the `uint32_t` that a node has, where it
is compared and where it is stored. -/
def Request.key (q : Request) : Key := ⟨q.level.toUInt32.toNat, q.low, q.high⟩

/-- Where a thread is in a call, with the local variables that are still needed. -/
inductive Probe
  | idle
  /-- Load `listHead_`. -/
  | load (q : Request)
  /-- The first loop. -/
  | scan (q : Request) (oldHead p : Ptr)
  /-- `new ListNode()` -/
  | construct (q : Request) (oldHead : Ptr)
  | writeLevel (q : Request) (oldHead newListNode : Ptr)
  | writeLow (q : Request) (oldHead newListNode : Ptr)
  | writeHigh (q : Request) (oldHead newListNode : Ptr)
  | writeNext (q : Request) (oldHead newListNode : Ptr)
  /-- The compare-exchange. -/
  | exchange (q : Request) (oldHead newListNode : Ptr)
  /-- The loop over the nodes that others have put in front. -/
  | rescan (q : Request) (oldHead newListNode p : Ptr)
  /-- `free(newListNode)` -/
  | discard (q : Request) (newListNode p : Ptr)
  | returned (q : Request) (out : Ptr)
  deriving DecidableEq, Repr

/-- Outside a call. -/
def Probe.Outside : Probe → Prop
  | .idle | .returned .. => True
  | _ => False

/-- The call the thread is in. -/
def Probe.request : Probe → Option Request
  | .idle | .returned .. => none
  | .load q | .scan q .. | .construct q _ | .writeLevel q .. | .writeLow q .. | .writeHigh q ..
  | .writeNext q .. | .exchange q .. | .rescan q .. | .discard q .. => some q

namespace LockFreeBucket

/-- The key of the node in a cell. -/
def key (s : LockFreeBucket) (p : Ptr) : Key := (s.cells p).bddNode.key

/-- `p->next` -/
def next (s : LockFreeBucket) (p : Ptr) : Ptr := (s.cells p).next

/-- Overwrite a cell. -/
def modify (s : LockFreeBucket) (p : Ptr) (f : ListNode → ListNode) : LockFreeBucket :=
  { s with cells := fun q => if q = p then f (s.cells q) else s.cells q }

/-- Write fields of the node in a cell. -/
def modifyNode (s : LockFreeBucket) (p : Ptr) (f : Node → Node) : LockFreeBucket :=
  s.modify p fun c => { c with bddNode := f c.bddNode }

/-- `newListNode->next = q` -/
def setNext (s : LockFreeBucket) (p q : Ptr) : LockFreeBucket :=
  s.modify p fun c => { c with next := q }

/-- `new ListNode()` in the cell `p`. -/
def construct (s : LockFreeBucket) (p : Ptr) : LockFreeBucket :=
  { s.modify p fun _ => {} with allocated := p :: s.allocated }

/-- `free(newListNode)` -/
def release (s : LockFreeBucket) (p : Ptr) : LockFreeBucket :=
  { s with allocated := s.allocated.filter (· ≠ p) }

/-- `LockFreeBucket()`, in a memory with any contents. -/
def new (cells : Ptr → ListNode) : LockFreeBucket := ⟨cells, [], nullptr⟩

/-- The list from `listHead_`. -/
def Lists (s : LockFreeBucket) (l : List Ptr) : Prop := Chain s.next nullptr s.listHead l

theorem modify_of_ne {f : ListNode → ListNode} {s : LockFreeBucket} {p x : Ptr} (h : x ≠ p) :
    (s.modify p f).cells x = s.cells x := if_neg h

@[simp] theorem key_modifyNode (s : LockFreeBucket) (p : Ptr) (f : Node → Node) :
    (s.modifyNode p f).key p = (f (s.cells p).bddNode).key := by
  simp [key, modifyNode, LockFreeBucket.modify]

@[simp] theorem key_setNext (s : LockFreeBucket) (p q : Ptr) : (s.setNext p q).key p = s.key p := by
  simp [key, setNext, LockFreeBucket.modify]

@[simp] theorem next_setNext (s : LockFreeBucket) (p q : Ptr) : (s.setNext p q).next p = q := by
  simp [next, setNext, LockFreeBucket.modify]

/-- The cell `p` has the same key and the same link. The counter and the mark of a node do not
matter, and neither does its free-list link. -/
def SameCell (s s' : LockFreeBucket) (p : Ptr) : Prop := s'.key p = s.key p ∧ s'.next p = s.next p

end LockFreeBucket

open LockFreeBucket

/-- One atomic step of a thread. `new` may return any cell that is not in use, one that was freed
before too. A compare-exchange may fail for no reason; a failed one writes the head it has found
to its first argument, `newListNode->next`. -/
inductive Proceed (others : Probe → Prop) : LockFreeBucket × Probe → LockFreeBucket × Probe → Prop
  | call {s l} (q : Request) : l.Outside → Proceed others (s, l) (s, .load q)
  | load {s q} : Proceed others (s, .load q) (s, .scan q s.listHead s.listHead)
  | found {s q oldHead p} : p ≠ nullptr → s.key p = q.key →
      Proceed others (s, .scan q oldHead p) (s, .returned q p)
  | pass {s q oldHead p} : p ≠ nullptr → s.key p ≠ q.key →
      Proceed others (s, .scan q oldHead p) (s, .scan q oldHead (s.next p))
  | absent {s q oldHead} :
      Proceed others (s, .scan q oldHead nullptr) (s, .construct q oldHead)
  | construct {s q oldHead} (p : Ptr) : p ≠ nullptr → p ∉ s.allocated →
      Proceed others (s, .construct q oldHead) (s.construct p, .writeLevel q oldHead p)
  | writeLevel {s q oldHead p} :
      Proceed others (s, .writeLevel q oldHead p)
        (s.modifyNode p fun n => { n with level := q.key.level }, .writeLow q oldHead p)
  | writeLow {s q oldHead p} :
      Proceed others (s, .writeLow q oldHead p)
        (s.modifyNode p fun n => { n with low := q.low }, .writeHigh q oldHead p)
  | writeHigh {s q oldHead p} :
      Proceed others (s, .writeHigh q oldHead p)
        (s.modifyNode p fun n => { n with high := q.high }, .writeNext q oldHead p)
  | writeNext {s q oldHead p} :
      Proceed others (s, .writeNext q oldHead p) (s.setNext p oldHead, .exchange q oldHead p)
  | exchange {s q oldHead p} : s.listHead = s.next p →
      Proceed others (s, .exchange q oldHead p) ({ s with listHead := p }, .returned q p)
  | exchangeFails {s q oldHead p} :
      Proceed others (s, .exchange q oldHead p)
        (s.setNext p s.listHead, .rescan q oldHead p s.listHead)
  | rescanFound {s q oldHead n p} : p ≠ oldHead → s.key p = q.key →
      Proceed others (s, .rescan q oldHead n p) (s, .discard q n p)
  | rescanPass {s q oldHead n p} : p ≠ oldHead → s.key p ≠ q.key →
      Proceed others (s, .rescan q oldHead n p) (s, .rescan q oldHead n (s.next p))
  /-- `oldHead = newListNode->next` -/
  | retry {s q oldHead n} :
      Proceed others (s, .rescan q oldHead n oldHead) (s, .exchange q (s.next n) n)
  | discard {s q n p} :
      Proceed others (s, .discard q n p) (s.release n, .returned q p)

/-- What the rest of the program does: `ref`, `deref`, `markNodes`, `unmarkNodes`, and anything in
memory that is not the bucket's. There is no `freeNodes`. -/
def Elsewhere (s s' : LockFreeBucket) : Prop :=
  s'.listHead = s.listHead ∧ s'.allocated = s.allocated ∧ ∀ p ∈ s.allocated, SameCell s s' p

variable {T : Type*} [DecidableEq T] {s s' : LockFreeBucket} {v v' o : Probe} {q : Request}
  {k : Key} {p n oldHead : Ptr} {l l' m : List Ptr} {others : Probe → Prop}

/-- One step of the program. -/
abbrev BucketStep : Pool T LockFreeBucket Probe → Pool T LockFreeBucket Probe → Prop :=
  Pool.Step Proceed Elsewhere

/-! ### What a thread knows -/

namespace LockFreeBucket

/-- Walking from `h` meets the cells `m`, and they are the end of the list. -/
structure Tail (s : LockFreeBucket) (l : List Ptr) (h : Ptr) (m : List Ptr) : Prop where
  suffix : m <:+ l
  chain : Chain s.next nullptr h m

/-- No cell has the key. -/
def Absent (s : LockFreeBucket) (k : Key) (m : List Ptr) : Prop := ∀ p ∈ m, s.key p ≠ k

/-- The nodes from `oldHead` on do not have the key. -/
def Checked (s : LockFreeBucket) (l : List Ptr) (k : Key) (oldHead : Ptr) : Prop :=
  ∃ m, Tail s l oldHead m ∧ Absent s k m

/-- The list has grown in front, and its cells are the same. -/
structure Grown (s : LockFreeBucket) (l : List Ptr) (s' : LockFreeBucket) (l' : List Ptr) :
    Prop where
  suffix : l <:+ l'
  same : ∀ p ∈ l, SameCell s s' p

theorem SameCell.refl (s : LockFreeBucket) (p : Ptr) : SameCell s s p := ⟨rfl, rfl⟩

theorem Grown.refl (s : LockFreeBucket) (l : List Ptr) : Grown s l s l :=
  ⟨List.suffix_rfl, fun p _ => SameCell.refl s p⟩

theorem Grown.trans {s'' : LockFreeBucket} {l'' : List Ptr} (h : Grown s l s' l')
    (h' : Grown s' l' s'' l'') : Grown s l s'' l'' := by
  refine ⟨h.suffix.trans h'.suffix, fun p hp => ?_⟩
  obtain ⟨hkey, hnext⟩ := h.same p hp
  obtain ⟨hkey', hnext'⟩ := h'.same p (h.suffix.subset hp)
  exact ⟨hkey'.trans hkey, hnext'.trans hnext⟩

theorem Tail.grown (h : Tail s l p m) (hl : Grown s l s' l') : Tail s' l' p m :=
  ⟨h.suffix.trans hl.suffix, h.chain.congr fun x hx => (hl.same x (h.suffix.subset hx)).2⟩

theorem Absent.grown (h : Absent s k m) (hm : m ⊆ l) (hl : Grown s l s' l') : Absent s' k m :=
  fun p hp => by
    rw [(hl.same p (hm hp)).1]
    exact h p hp

theorem Absent.append (h : Absent s k l) (h' : Absent s k l') : Absent s k (l ++ l') :=
  fun p hp => (List.mem_append.mp hp).elim (h p) (h' p)

theorem Checked.grown (h : Checked s l k oldHead) (hl : Grown s l s' l') :
    Checked s' l' k oldHead := by
  obtain ⟨m, htail, habsent⟩ := h
  exact ⟨m, htail.grown hl, habsent.grown htail.suffix.subset hl⟩

end LockFreeBucket

namespace Probe

/-- The node that only this thread knows. -/
def candidate : Probe → Option Ptr
  | writeLevel _ _ n | writeLow _ _ n | writeHigh _ _ n | writeNext _ _ n | exchange _ _ n
  | rescan _ _ n _ | discard _ n _ => some n
  | _ => none

/-- The cell a thread is about to use. -/
def uses : Probe → Option Ptr
  | scan _ _ p => if p = nullptr then none else some p
  | rescan _ oldHead n p => if p = oldHead then some n else some p
  | v => v.candidate

/-- What a thread knows of the list `l`. In the second loop, `m` is what was there before, `seen`
is what it has compared since, and `rest` is what it has still to compare. -/
def Knows (s : LockFreeBucket) (l : List Ptr) : Probe → Prop
  | idle | load _ => True
  | scan q oldHead p => ∃ seen rest, Tail s l oldHead (seen ++ rest) ∧ Tail s l p rest ∧
      Absent s q.key seen
  | construct q oldHead | writeLevel q oldHead _ => Checked s l q.key oldHead
  | writeLow q oldHead n => Checked s l q.key oldHead ∧ (s.key n).level = q.key.level
  | writeHigh q oldHead n => Checked s l q.key oldHead ∧ (s.key n).level = q.key.level ∧
      (s.key n).low = q.low
  | writeNext q oldHead n => Checked s l q.key oldHead ∧ s.key n = q.key
  | exchange q oldHead n => Checked s l q.key oldHead ∧ s.key n = q.key ∧ s.next n = oldHead
  | rescan q oldHead n p => s.key n = q.key ∧ ∃ seen rest m,
      Tail s l (s.next n) (seen ++ (rest ++ m)) ∧ Tail s l p (rest ++ m) ∧ Tail s l oldHead m ∧
      Absent s q.key seen ∧ Absent s q.key m
  | discard q _ p | returned q p => p ∈ l ∧ s.key p = q.key

/-- **Frame.** What a thread knows stays true while others put nodes in front. -/
theorem Knows.grown (h : v.Knows s l) (hl : Grown s l s' l')
    (hn : ∀ n, v.candidate = some n → SameCell s s' n) : v.Knows s' l' := by
  cases v with
  | idle => trivial
  | load q => trivial
  | scan q oldHead p =>
    obtain ⟨seen, rest, hold, hp, hseen⟩ := h
    have hsub : seen ⊆ l := fun x hx => hold.suffix.subset (List.mem_append_left _ hx)
    exact ⟨seen, rest, hold.grown hl, hp.grown hl, hseen.grown hsub hl⟩
  | construct q oldHead => exact Checked.grown h hl
  | writeLevel q oldHead n => exact Checked.grown h hl
  | writeLow q oldHead n =>
    obtain ⟨hkey, -⟩ := hn n rfl
    rw [Knows, hkey]
    exact ⟨h.1.grown hl, h.2⟩
  | writeHigh q oldHead n =>
    obtain ⟨hkey, -⟩ := hn n rfl
    rw [Knows, hkey]
    exact ⟨h.1.grown hl, h.2⟩
  | writeNext q oldHead n =>
    obtain ⟨hkey, -⟩ := hn n rfl
    rw [Knows, hkey]
    exact ⟨h.1.grown hl, h.2⟩
  | exchange q oldHead n =>
    obtain ⟨hkey, hnext⟩ := hn n rfl
    rw [Knows, hkey, hnext]
    exact ⟨h.1.grown hl, h.2⟩
  | rescan q oldHead n p =>
    obtain ⟨hkey, hnext⟩ := hn n rfl
    obtain ⟨hk, seen, rest, m, hhead, hp, hold, hseen, hm⟩ := h
    have hsub : seen ⊆ l := fun x hx => hhead.suffix.subset (List.mem_append_left _ hx)
    rw [Knows, hkey, hnext]
    exact ⟨hk, seen, rest, m, hhead.grown hl, hp.grown hl, hold.grown hl, hseen.grown hsub hl,
      hm.grown hold.suffix.subset hl⟩
  | discard q n p =>
    rw [Knows, (hl.same p h.1).1]
    exact ⟨hl.suffix.subset h.1, h.2⟩
  | returned q p =>
    rw [Knows, (hl.same p h.1).1]
    exact ⟨hl.suffix.subset h.1, h.2⟩

end Probe

/-! ### One thread -/

namespace LockFreeBucket

/-- The list from the head, with one node for each key. -/
structure Listed (s : LockFreeBucket) (l : List Ptr) : Prop where
  lists : s.Lists l
  keyed : (l.map s.key).Nodup
  allocated : ∀ p ∈ l, p ∈ s.allocated
  ne_null : nullptr ∉ s.allocated

theorem Listed.congr (h : Listed s l) (hhead : s'.listHead = s.listHead)
    (hsame : ∀ p ∈ l, SameCell s s' p) (halloc : ∀ p ∈ l, p ∈ s'.allocated)
    (hnull : nullptr ∉ s'.allocated) : Listed s' l := by
  refine ⟨?_, ?_, halloc, hnull⟩
  · rw [Lists, hhead]
    exact h.lists.congr fun p hp => (hsame p hp).2
  · have hkeys : l.map s'.key = l.map s.key := List.map_congr_left fun p hp => (hsame p hp).1
    rw [hkeys]
    exact h.keyed

/-- What the whole list does not have, a new node in front may have. -/
theorem Listed.push (h : Listed s l) (hp : p ∈ s.allocated) (hnext : s.next p = s.listHead)
    (habsent : Absent s (s.key p) l) : Listed { s with listHead := p } (p :: l) := by
  have hne : p ≠ nullptr := fun he => h.ne_null (he ▸ hp)
  have hlists : Chain s.next nullptr (s.next p) l := hnext ▸ h.lists
  refine ⟨⟨rfl, hne, hlists⟩, ?_, fun x hx => ?_, h.ne_null⟩
  · refine List.nodup_cons.mpr ⟨fun hmem => ?_, h.keyed⟩
    obtain ⟨x, hx, hkey⟩ := List.mem_map.mp hmem
    exact habsent x hx hkey
  · rcases List.mem_cons.mp hx with rfl | hx
    · exact hp
    · exact h.allocated x hx

/-- If nothing has been put in front of `oldHead`, the whole list has been checked. -/
theorem Listed.absent (h : Listed s l) (hc : Checked s l k s.listHead) : Absent s k l := by
  obtain ⟨m, htail, habsent⟩ := hc
  rw [h.lists.unique htail.chain]
  exact habsent

theorem Listed.tail (h : Listed s l) : Tail s l s.listHead l := ⟨List.suffix_rfl, h.lists⟩

/-- The walk goes on to the next cell. -/
theorem Tail.cons {x : Ptr} (h : Tail s l p (x :: m)) : x = p ∧ x ∈ l ∧ Tail s l (s.next p) m := by
  obtain ⟨rfl, -, hchain⟩ := h.chain
  exact ⟨rfl, h.suffix.subset List.mem_cons_self, (List.suffix_cons p m).trans h.suffix, hchain⟩

/-- A walk that has not come to `oldHead` has a new cell before it. -/
theorem Tail.exists_cons {rest : List Ptr} (h : Tail s l p (rest ++ m)) (hold : Tail s l oldHead m)
    (hne : p ≠ oldHead) :
    ∃ rest', rest = p :: rest' ∧ p ∈ l ∧ Tail s l (s.next p) (rest' ++ m) := by
  cases rest with
  | nil => exact absurd (h.chain.head_eq hold.chain) hne
  | cons x rest =>
    obtain ⟨rfl, hx, htail⟩ := h.cons
    exact ⟨rest, rfl, hx, htail⟩

end LockFreeBucket

/-- The bucket as one thread sees it. -/
structure Viewed (others : Probe → Prop) (s : LockFreeBucket) (v : Probe) (l : List Ptr) : Prop
    extends Listed s l where
  knows : v.Knows s l
  owned : ∀ n, v.candidate = some n → n ∈ s.allocated ∧ n ∉ l
  apart : ∀ o, others o → o.Knows s l ∧ ∀ n, o.candidate = some n →
    n ∈ s.allocated ∧ n ∉ l ∧ v.candidate ≠ some n

/-- What a step leaves: the list has grown in front, by a node with a new key or not at all. -/
def Leaves (others : Probe → Prop) (s : LockFreeBucket) (l : List Ptr) (s' : LockFreeBucket)
    (v' : Probe) : Prop :=
  ∃ l', Viewed others s' v' l' ∧ Grown s l s' l' ∧ Adds (index s.key l) (index s'.key l')

namespace Viewed

/-- A step that leaves the list alone, and the cells of the others. -/
theorem keep (h : Viewed others s v l) (hhead : s'.listHead = s.listHead)
    (hsame : ∀ p ∈ s.allocated, v.candidate ≠ some p → p ∈ s'.allocated ∧ SameCell s s' p)
    (hnull : nullptr ∉ s'.allocated) (hk : Grown s l s' l → v'.Knows s' l)
    (hc : ∀ n, v'.candidate = some n →
      n ∈ s'.allocated ∧ n ∉ l ∧ (v.candidate = some n ∨ n ∉ s.allocated)) :
    Leaves others s l s' v' := by
  have hlist : ∀ p ∈ l, p ∈ s'.allocated ∧ SameCell s s' p := fun p hp =>
    hsame p (h.allocated p hp) fun he => (h.owned p he).2 hp
  have hgrown : Grown s l s' l := ⟨List.suffix_rfl, fun p hp => (hlist p hp).2⟩
  have hlisted := h.toListed.congr hhead hgrown.same (fun p hp => (hlist p hp).1) hnull
  refine ⟨l, ⟨hlisted, hk hgrown, fun n hn => ⟨(hc n hn).1, (hc n hn).2.1⟩, fun o ho => ?_⟩,
    hgrown, ?_⟩
  · obtain ⟨hknows, hcand⟩ := h.apart o ho
    refine ⟨hknows.grown hgrown fun n hn => ?_, fun n hn => ?_⟩
    · obtain ⟨hmem, -, hne⟩ := hcand n hn
      exact (hsame n hmem hne).2
    · obtain ⟨hmem, hnot, hne⟩ := hcand n hn
      refine ⟨(hsame n hmem hne).1, hnot, fun he => ?_⟩
      rcases (hc n he).2.2 with hv | hfresh
      · exact hne hv
      · exact hfresh hmem
  · rw [index_congr fun p hp => (hgrown.same p hp).1]
    exact .same

/-- A step that changes nothing but the place. -/
theorem walk (h : Viewed others s v l) (hk : v'.Knows s l)
    (hc : ∀ n, v'.candidate = some n → v.candidate = some n) : Leaves others s l s v' := by
  refine h.keep rfl (fun p hp _ => ⟨hp, SameCell.refl s p⟩) h.ne_null (fun _ => hk) fun n hn => ?_
  obtain ⟨hmem, hnot⟩ := h.owned n (hc n hn)
  exact ⟨hmem, hnot, Or.inl (hc n hn)⟩

/-- A write to the node of this thread. -/
theorem write {f : ListNode → ListNode} (h : Viewed others s v l) (hs : s' = s.modify n f)
    (hn : v.candidate = some n) (hn' : v'.candidate = some n)
    (hk : Grown s l s' l → v'.Knows s' l) : Leaves others s l s' v' := by
  subst hs
  refine h.keep rfl (fun p hp hne => ⟨hp, ?_⟩) h.ne_null hk fun x hx => ?_
  · have hpn : p ≠ n := fun he => hne (he ▸ hn)
    rw [SameCell, key, key, next, next, modify_of_ne hpn]
    exact ⟨rfl, rfl⟩
  · have hxn : x = n := Option.some_inj.mp (hx.symm.trans hn')
    subst hxn
    obtain ⟨hmem, hnot⟩ := h.owned x hn
    exact ⟨hmem, hnot, Or.inl hn⟩

/-- The head has been loaded. -/
theorem load (h : Viewed others s (.load q) l) :
    Leaves others s l s (.scan q s.listHead s.listHead) := by
  refine h.walk ⟨[], l, h.tail, h.tail, ?_⟩ nofun
  exact fun p hp => absurd hp List.not_mem_nil

/-- The node at the place of the first loop. -/
theorem scanned (h : Viewed others s (.scan q oldHead p) l) (hp : p ≠ nullptr) :
    ∃ seen rest, Tail s l oldHead (seen ++ p :: rest) ∧ p ∈ l ∧ Tail s l (s.next p) rest ∧
      Absent s q.key seen := by
  obtain ⟨seen, rest, hold, htail, hseen⟩ := h.knows
  obtain ⟨rest, rfl, -⟩ := htail.chain.exists_cons hp
  obtain ⟨-, hmem, hnext⟩ := htail.cons
  exact ⟨seen, rest, hold, hmem, hnext, hseen⟩

theorem found (h : Viewed others s (.scan q oldHead p) l) (hp : p ≠ nullptr)
    (hkey : s.key p = q.key) : Leaves others s l s (.returned q p) := by
  obtain ⟨-, -, -, hmem, -⟩ := h.scanned hp
  exact h.walk ⟨hmem, hkey⟩ nofun

theorem pass (h : Viewed others s (.scan q oldHead p) l) (hp : p ≠ nullptr)
    (hkey : s.key p ≠ q.key) : Leaves others s l s (.scan q oldHead (s.next p)) := by
  obtain ⟨seen, rest, hold, -, hnext, hseen⟩ := h.scanned hp
  refine h.walk ⟨seen ++ [p], rest, ?_, hnext, hseen.append ?_⟩ nofun
  · rwa [List.append_assoc]
  · exact fun x hx => List.eq_of_mem_singleton hx ▸ hkey

/-- The first loop has come to the end. -/
theorem absent (h : Viewed others s (.scan q oldHead nullptr) l) :
    Leaves others s l s (.construct q oldHead) := by
  obtain ⟨seen, rest, hold, htail, hseen⟩ := h.knows
  have hrest : rest = [] := chain_nil_iff.mp htail.chain
  rw [hrest, List.append_nil] at hold
  exact h.walk ⟨seen, hold, hseen⟩ nofun

/-- The node is not in the list, as the list is in memory that is in use. -/
theorem construct (h : Viewed others s (.construct q oldHead) l) (hp : p ≠ nullptr)
    (hfresh : p ∉ s.allocated) : Leaves others s l (s.construct p) (.writeLevel q oldHead p) := by
  refine h.keep rfl (fun x hx _ => ⟨List.mem_cons_of_mem _ hx, ?_⟩) ?_ (Checked.grown h.knows)
    fun n hn => ?_
  · have hxp : x ≠ p := fun he => hfresh (he ▸ hx)
    have hcell : (s.construct p).cells x = s.cells x := if_neg hxp
    rw [SameCell, key, key, next, next, hcell]
    exact ⟨rfl, rfl⟩
  · exact List.not_mem_cons_of_ne_of_not_mem hp.symm h.ne_null
  · obtain rfl : p = n := Option.some_inj.mp hn
    exact ⟨List.mem_cons_self, fun hl => hfresh (h.allocated p hl), Or.inr hfresh⟩

theorem writeLevel (h : Viewed others s (.writeLevel q oldHead p) l) :
    Leaves others s l (s.modifyNode p fun n => { n with level := q.key.level })
      (.writeLow q oldHead p) := by
  refine h.write rfl rfl rfl fun hl => ⟨Checked.grown h.knows hl, ?_⟩
  rw [key_modifyNode]
  rfl

theorem writeLow (h : Viewed others s (.writeLow q oldHead p) l) :
    Leaves others s l (s.modifyNode p fun n => { n with low := q.low })
      (.writeHigh q oldHead p) := by
  obtain ⟨hchecked, hlevel⟩ := h.knows
  refine h.write rfl rfl rfl fun hl => ⟨hchecked.grown hl, ?_⟩
  rw [key_modifyNode]
  exact ⟨hlevel, rfl⟩

theorem writeHigh (h : Viewed others s (.writeHigh q oldHead p) l) :
    Leaves others s l (s.modifyNode p fun n => { n with high := q.high })
      (.writeNext q oldHead p) := by
  obtain ⟨hchecked, hlevel, hlow⟩ := h.knows
  refine h.write rfl rfl rfl fun hl => ⟨hchecked.grown hl, ?_⟩
  have hkey : (⟨(s.key p).level, (s.key p).low, q.high⟩ : Key) = q.key := by
    rw [hlevel, hlow]
    rfl
  rw [key_modifyNode, ← hkey]
  rfl

theorem writeNext (h : Viewed others s (.writeNext q oldHead p) l) :
    Leaves others s l (s.setNext p oldHead) (.exchange q oldHead p) := by
  obtain ⟨hchecked, hkey⟩ := h.knows
  refine h.write rfl rfl rfl fun hl => ⟨hchecked.grown hl, ?_, next_setNext ..⟩
  rw [key_setNext, hkey]

/-- **The compare-exchange.** The head is the old head, so the node is the first with its key. -/
theorem exchange (h : Viewed others s (.exchange q oldHead p) l) (hhead : s.listHead = s.next p) :
    Leaves others s l { s with listHead := p } (.returned q p) := by
  obtain ⟨hchecked, hkey, hnext⟩ := h.knows
  obtain ⟨halloc, -⟩ := h.owned p rfl
  have habsent : Absent s (s.key p) l := by
    rw [hkey]
    refine h.toListed.absent ?_
    rw [hhead, hnext]
    exact hchecked
  have hgrown : Grown s l { s with listHead := p } (p :: l) :=
    ⟨List.suffix_cons p l, fun x _ => SameCell.refl s x⟩
  refine ⟨p :: l, ⟨h.push halloc hhead.symm habsent, ⟨List.mem_cons_self, hkey⟩, nofun,
    fun o ho => ?_⟩, hgrown, adds_cons habsent⟩
  obtain ⟨hknows, hcand⟩ := h.apart o ho
  refine ⟨hknows.grown hgrown fun n _ => SameCell.refl s n, fun n hn => ?_⟩
  obtain ⟨hmem, hnot, hne⟩ := hcand n hn
  exact ⟨hmem, List.not_mem_cons_of_ne_of_not_mem (fun he => hne (he ▸ rfl)) hnot, nofun⟩

/-- Of the list there is now, the old head starts the part that has been checked. -/
theorem exchangeFails (h : Viewed others s (.exchange q oldHead p) l) :
    Leaves others s l (s.setNext p s.listHead) (.rescan q oldHead p s.listHead) := by
  obtain ⟨⟨m, hold, hm⟩, hkey, -⟩ := h.knows
  refine h.write rfl rfl rfl fun hl => ?_
  obtain ⟨rest, rfl⟩ := hold.suffix
  have hhead : Tail (s.setNext p s.listHead) (rest ++ m) s.listHead (rest ++ m) := h.tail.grown hl
  refine ⟨?_, [], rest, m, ?_, hhead, hold.grown hl, ?_, hm.grown hold.suffix.subset hl⟩
  · rw [key_setNext, hkey]
  · rw [next_setNext]
    exact hhead
  · exact fun x hx => absurd hx List.not_mem_nil

theorem rescanFound (h : Viewed others s (.rescan q oldHead n p) l) (hp : p ≠ oldHead)
    (hkey : s.key p = q.key) : Leaves others s l s (.discard q n p) := by
  obtain ⟨-, seen, rest, m, -, htail, hold, -⟩ := h.knows
  obtain ⟨-, -, hmem, -⟩ := htail.exists_cons hold hp
  exact h.walk ⟨hmem, hkey⟩ fun _ hn => hn

theorem rescanPass (h : Viewed others s (.rescan q oldHead n p) l) (hp : p ≠ oldHead)
    (hkey : s.key p ≠ q.key) : Leaves others s l s (.rescan q oldHead n (s.next p)) := by
  obtain ⟨hn, seen, rest, m, hhead, htail, hold, hseen, hm⟩ := h.knows
  obtain ⟨rest, rfl, -, hnext⟩ := htail.exists_cons hold hp
  refine h.walk ⟨hn, seen ++ [p], rest, m, ?_, hnext, hold, hseen.append ?_, hm⟩ fun _ hn => hn
  · simpa using hhead
  · exact fun x hx => List.eq_of_mem_singleton hx ▸ hkey

/-- The second loop has come to the old head. What it has compared and what was checked before is
all from the new head on. -/
theorem retry (h : Viewed others s (.rescan q oldHead n oldHead) l) :
    Leaves others s l s (.exchange q (s.next n) n) := by
  obtain ⟨hn, seen, rest, m, hhead, htail, hold, hseen, hm⟩ := h.knows
  rw [htail.chain.unique hold.chain] at hhead
  exact h.walk ⟨⟨seen ++ m, hhead, hseen.append hm⟩, hn, rfl⟩ fun _ hn => hn

theorem discard (h : Viewed others s (.discard q n p) l) :
    Leaves others s l (s.release n) (.returned q p) := by
  refine h.keep rfl (fun x hx hne => ⟨?_, SameCell.refl s x⟩) ?_ (fun hl => ?_) nofun
  · have hxn : x ≠ n := fun he => hne (he ▸ rfl)
    simpa [release] using ⟨hx, hxn⟩
  · exact fun hnull => h.ne_null (List.mem_filter.mp hnull).1
  · exact h.knows

/-- **One step.** -/
theorem proceed (h : Viewed others s v l) (hs : Proceed others (s, v) (s', v')) :
    Leaves others s l s' v' := by
  cases hs with
  | call q _ => exact h.walk trivial nofun
  | load => exact h.load
  | found hp hkey => exact h.found hp hkey
  | pass hp hkey => exact h.pass hp hkey
  | absent => exact h.absent
  | construct p hp hfresh => exact h.construct hp hfresh
  | writeLevel => exact h.writeLevel
  | writeLow => exact h.writeLow
  | writeHigh => exact h.writeHigh
  | writeNext => exact h.writeNext
  | exchange hhead => exact h.exchange hhead
  | exchangeFails => exact h.exchangeFails
  | rescanFound hp hkey => exact h.rescanFound hp hkey
  | rescanPass hp hkey => exact h.rescanPass hp hkey
  | retry => exact h.retry
  | discard => exact h.discard

end Viewed

/-! ### All threads -/

section pool

variable {c c' d : Pool T LockFreeBucket Probe} {t u : T}

/-- What holds in every state. -/
structure Linked (c : Pool T LockFreeBucket Probe) (l : List Ptr) : Prop
    extends Listed c.shared l where
  knows : ∀ t, (c.pc t).Knows c.shared l
  owned : ∀ t, ∀ n, (c.pc t).candidate = some n → n ∈ c.shared.allocated ∧ n ∉ l
  apart : ∀ t u, t ≠ u → ∀ n, (c.pc t).candidate = some n → (c.pc u).candidate ≠ some n

omit [DecidableEq T] in
/-- What thread `t` sees. -/
theorem Linked.view (h : Linked c l) (t : T) : Viewed (c.others t) c.shared (c.pc t) l := by
  refine ⟨h.toListed, h.knows t, h.owned t, ?_⟩
  rintro - ⟨u, hu, rfl⟩
  refine ⟨h.knows u, fun n hn => ?_⟩
  obtain ⟨hmem, hnot⟩ := h.owned u n hn
  exact ⟨hmem, hnot, h.apart u t hu n hn⟩

/-- What the mover sees is enough. -/
theorem Linked.move (h : Linked c l) (hv : Viewed (c.others t) s v l') :
    Linked (c.move t s v) l' := by
  refine ⟨hv.toListed, ?_, ?_, ?_⟩
  · exact (Pool.forall_move fun o : Probe => o.Knows s l').mpr
      ⟨hv.knows, fun o ho => (hv.apart o ho).1⟩
  · refine (Pool.forall_move fun o : Probe =>
      ∀ n, o.candidate = some n → n ∈ s.allocated ∧ n ∉ l').mpr ⟨hv.owned, fun o ho n hn => ?_⟩
    obtain ⟨hmem, hnot, -⟩ := (hv.apart o ho).2 n hn
    exact ⟨hmem, hnot⟩
  · refine Pool.pairwise_move (fun v o : Probe =>
      ∀ n, v.candidate = some n → o.candidate ≠ some n) h.apart fun o ho => ⟨?_, ?_⟩
    · exact fun n hn hn' => ((hv.apart o ho).2 n hn').2.2 hn
    · exact fun n hn => ((hv.apart o ho).2 n hn).2.2

omit [DecidableEq T] in
/-- The rest of the program does not touch what the bucket needs. -/
theorem Linked.elsewhere (h : Linked c l) (he : Elsewhere c.shared s) :
    Linked ⟨s, c.pc⟩ l ∧ Grown c.shared l s l := by
  obtain ⟨hhead, halloc, hsame⟩ := he
  have hgrown : Grown c.shared l s l :=
    ⟨List.suffix_rfl, fun p hp => hsame p (h.allocated p hp)⟩
  refine ⟨⟨h.toListed.congr hhead hgrown.same ?_ ?_, fun t => ?_, fun t n hn => ?_, h.apart⟩,
    hgrown⟩
  · rw [halloc]
    exact h.allocated
  · rw [halloc]
    exact h.ne_null
  · exact (h.knows t).grown hgrown fun n hn => hsame n (h.owned t n hn).1
  · show n ∈ s.allocated ∧ n ∉ l
    rw [halloc]
    exact h.owned t n hn

/-- One step of the program. -/
theorem Linked.step (h : Linked c l) (hs : BucketStep c c') : ∃ l', Linked c' l' ∧
    Grown c.shared l c'.shared l' ∧ Adds (index c.shared.key l) (index c'.shared.key l') := by
  cases hs with
  | turn ht =>
    obtain ⟨l', hv, hgrown, hadds⟩ := (h.view _).proceed ht
    exact ⟨l', h.move hv, hgrown, hadds⟩
  | env he =>
    obtain ⟨hlinked, hgrown⟩ := h.elsewhere he
    refine ⟨l, hlinked, hgrown, ?_⟩
    rw [index_congr fun p hp => (hgrown.same p hp).1]
    exact .same

theorem Linked.run (h : Linked c l) (hrun : Relation.ReflTransGen BucketStep c d) :
    ∃ l', Linked d l' ∧ Grown c.shared l d.shared l' ∧
      Relation.ReflTransGen Adds (index c.shared.key l) (index d.shared.key l') := by
  induction hrun with
  | refl => exact ⟨l, h, Grown.refl c.shared l, .refl⟩
  | tail _ hs ih =>
    obtain ⟨l', hlinked, hgrown, hadds⟩ := ih
    obtain ⟨l'', hlinked', hgrown', hadds'⟩ := hlinked.step hs
    exact ⟨l'', hlinked', hgrown.trans hgrown', hadds.tail hadds'⟩

/-- No thread has called. -/
def LockFreeBucket.quiet (s : LockFreeBucket) : Pool T LockFreeBucket Probe := ⟨s, fun _ => .idle⟩

omit [DecidableEq T] in
theorem linked_new (cells : Ptr → ListNode) :
    Linked ((LockFreeBucket.new cells).quiet : Pool T LockFreeBucket Probe) [] :=
  ⟨⟨rfl, List.nodup_nil, fun _ hp => absurd hp List.not_mem_nil, List.not_mem_nil⟩,
    fun _ => trivial, nofun, nofun⟩

/-- One node for each key, in a state and in a later one. -/
structure OneNode (c d : Pool T LockFreeBucket Probe) : Prop where
  /-- No two nodes of the list have the same key. -/
  unique : ∃ l, d.shared.Lists l ∧ (l.map d.shared.key).Nodup
  /-- No node leaves the list or changes its key. -/
  kept : ∀ l, c.shared.Lists l → ∃ l', d.shared.Lists l' ∧ l <:+ l' ∧
    ∀ p ∈ l, d.shared.key p = c.shared.key p
  /-- A call returns a node of the list with its key. -/
  returned : ∀ t q p, d.pc t = .returned q p → ∃ l, d.shared.Lists l ∧ p ∈ l ∧
    d.shared.key p = q.key
  /-- Two calls for one key return one node. -/
  agree : ∀ t u q q' p p', c.pc t = .returned q p → d.pc u = .returned q' p' → q.key = q'.key →
    p = p'

omit [DecidableEq T] in
/-- What a call returns is what the list has for its key. -/
theorem Linked.index_eq (h : Linked c l) (ht : c.pc t = .returned q p) :
    index c.shared.key l q.key = some p := by
  have hknows := h.knows t
  rw [ht] at hknows
  exact (index_eq_some_iff h.keyed).mpr hknows

/-- **One node for each key.** Any number of threads call `LockFreeBucket::operator()`, their atomic
steps in any order. In a state `d` of a run and a state `c` before it, a key has at most one node,
which stays, and all calls for the key return it. -/
theorem oneNode_of_run {cells : Ptr → ListNode}
    (hc : Relation.ReflTransGen BucketStep (LockFreeBucket.new cells).quiet c)
    (hd : Relation.ReflTransGen BucketStep c d) : OneNode c d := by
  obtain ⟨l, hl, -, -⟩ := (linked_new cells).run hc
  obtain ⟨l', hl', hgrown, hadds⟩ := hl.run hd
  refine ⟨⟨l', hl'.lists, hl'.keyed⟩, fun m hm => ?_, fun t q p ht => ?_, ?_⟩
  · rw [hm.unique hl.lists]
    exact ⟨l', hl'.lists, hgrown.suffix, fun p hp => (hgrown.same p hp).1⟩
  · exact ⟨l', hl'.lists, (index_eq_some_iff hl'.keyed).mp (hl'.index_eq ht)⟩
  · intro t u q q' p p' ht hu hkey
    have hp : index c.shared.key l q'.key = some p := hkey ▸ hl.index_eq ht
    exact agree_of_run hadds hp (hl'.index_eq hu)

omit [DecidableEq T] in
/-- A thread uses a node of the list, or its own. -/
theorem Linked.mem_of_uses (h : Linked c l) (hp : (c.pc t).uses = some p) :
    p ∈ l ∨ (c.pc t).candidate = some p := by
  have hv := h.view t
  generalize c.pc t = v at hp hv
  cases v with
  | scan q oldHead x =>
    rw [Probe.uses] at hp
    split_ifs at hp with hx
    obtain rfl := Option.some_inj.mp hp
    obtain ⟨-, -, -, hmem, -⟩ := hv.scanned hx
    exact Or.inl hmem
  | rescan q oldHead n x =>
    rw [Probe.uses] at hp
    split_ifs at hp with hx
    · exact Or.inr hp
    · obtain rfl := Option.some_inj.mp hp
      obtain ⟨-, seen, rest, m, -, htail, hold, -⟩ := hv.knows
      obtain ⟨-, -, hmem, -⟩ := htail.exists_cons hold hx
      exact Or.inl hmem
  | _ => exact Or.inr hp

/-- **No use after `free`.** What a thread is about to use is allocated, and no other thread has it
to write to or to free. -/
theorem allocated_of_run {cells : Ptr → ListNode}
    (hc : Relation.ReflTransGen BucketStep (LockFreeBucket.new cells).quiet c)
    (hp : (c.pc t).uses = some p) :
    p ∈ c.shared.allocated ∧ ∀ u, u ≠ t → (c.pc u).candidate ≠ some p := by
  obtain ⟨l, hl, -, -⟩ := (linked_new cells).run hc
  rcases hl.mem_of_uses hp with hmem | hcand
  · exact ⟨hl.allocated p hmem, fun u _ hu => (hl.owned u p hu).2 hmem⟩
  · exact ⟨(hl.owned t p hcand).1, fun u hu => hl.apart t u hu.symm p hcand⟩

end pool

/-! ### A thread that runs alone -/

/-- `new ListNode()` and the writes to it. -/
def LockFreeBucket.prepare (s : LockFreeBucket) (q : Request) (oldHead p : Ptr) : LockFreeBucket :=
  let s := (s.construct p).modifyNode p fun n => { n with level := q.key.level }
  let s := s.modifyNode p fun n => { n with low := q.low }
  let s := s.modifyNode p fun n => { n with high := q.high }
  s.setNext p oldHead

theorem turns_of_construct (hp : p ≠ nullptr) (hfresh : p ∉ s.allocated) :
    Relation.ReflTransGen (Proceed others) (s, .construct q oldHead)
      (s.prepare q oldHead p, .exchange q oldHead p) :=
  ((((Relation.ReflTransGen.single (.construct p hp hfresh)).tail .writeLevel).tail
    .writeLow).tail .writeHigh).tail .writeNext

/-- The first loop finds the node with the key, if there is one. -/
theorem turns_of_scan (hm : Chain s.next nullptr p m) :
    Relation.ReflTransGen (Proceed others) (s, .scan q oldHead p)
      (s, (index s.key m q.key).elim (.construct q oldHead) (.returned q)) := by
  induction m generalizing p with
  | nil =>
    rw [show p = nullptr from hm]
    exact .single .absent
  | cons x m ih =>
    obtain ⟨rfl, hp, htail⟩ := hm
    by_cases hkey : s.key p = q.key
    · rw [index_cons_of_eq hkey]
      exact .single (.found hp hkey)
    · rw [index_cons_of_ne hkey]
      exact (ih htail).head (.pass hp hkey)

/-- A call through the first loop. -/
theorem turns_of_load (hv : v.Outside) (hl : s.Lists l) (q : Request) :
    Relation.ReflTransGen (Proceed others) (s, v)
      (s, (index s.key l q.key).elim (.construct q s.listHead) (.returned q)) :=
  ((turns_of_scan hl).head .load).head (.call q hv)

/-- A new key brings the thread to the compare-exchange. -/
theorem turns_to_exchange (hv : v.Outside) (hl : s.Lists l) (hq : index s.key l q.key = none)
    (hp : p ≠ nullptr) (hfresh : p ∉ s.allocated) :
    Relation.ReflTransGen (Proceed others) (s, v)
      (s.prepare q s.listHead p, .exchange q s.listHead p) := by
  have hload : Relation.ReflTransGen (Proceed others) (s, v) _ := turns_of_load hv hl q
  rw [hq] at hload
  exact hload.trans (turns_of_construct hp hfresh)

/-- **A call** returns the node of its key, old or new. -/
theorem turns_of_call (hv : v.Outside) (hl : s.Lists l) (hp : p ≠ nullptr)
    (hfresh : p ∉ s.allocated) (q : Request) : ∃ s',
      Relation.ReflTransGen (Proceed others) (s, v)
        (s', .returned q ((index s.key l q.key).getD p)) := by
  cases hq : index s.key l q.key with
  | some x =>
    have hload : Relation.ReflTransGen (Proceed others) (s, v) _ := turns_of_load hv hl q
    rw [hq] at hload
    exact ⟨s, hload⟩
  | none =>
    exact ⟨_, (turns_to_exchange hv hl hq hp hfresh).tail (.exchange (next_setNext ..).symm)⟩

/-- The second loop finds the node with the key, or comes to the old head. -/
theorem turns_of_rescan {rest : List Ptr} (hp : Tail s l p (rest ++ m))
    (hold : Tail s l oldHead m) :
    Relation.ReflTransGen (Proceed others) (s, .rescan q oldHead n p)
      (s, (index s.key rest q.key).elim (.exchange q (s.next n) n) (.discard q n)) := by
  induction rest generalizing p with
  | nil =>
    rw [hp.chain.head_eq hold.chain]
    exact .single .retry
  | cons x rest ih =>
    have hne : p ≠ oldHead := by
      rintro rfl
      have hlength := congrArg List.length (hp.chain.unique hold.chain)
      simp only [List.length_append, List.length_cons] at hlength
      omega
    obtain ⟨rfl, -, hnext⟩ := hp.cons
    by_cases hkey : s.key x = q.key
    · rw [index_cons_of_eq hkey]
      exact .single (.rescanFound hne hkey)
    · rw [index_cons_of_ne hkey]
      exact (ih hnext).head (.rescanPass hne hkey)

/-- A thread can return from its call without the others. -/
def Returns (others : Probe → Prop) (s : LockFreeBucket) (v : Probe) (q : Request) : Prop :=
  ∃ s' p, Relation.ReflTransGen (Proceed others) (s, v) (s', .returned q p)

theorem Returns.of_turns (h : Returns others s' v' q)
    (hrun : Relation.ReflTransGen (Proceed others) (s, v) (s', v')) : Returns others s v q := by
  obtain ⟨s'', p, hreturned⟩ := h
  exact ⟨s'', p, hrun.trans hreturned⟩

namespace Viewed

theorem run (h : Viewed others s v l)
    (hrun : Relation.ReflTransGen (Proceed others) (s, v) (s', v')) :
    ∃ l', Viewed others s' v' l' := by
  refine Transition.invariant (I := fun x => ∃ l, Viewed others x.1 x.2 l) ?_ hrun ⟨l, h⟩
  rintro x y hstep ⟨l, hl⟩
  obtain ⟨l', hl', -⟩ := hl.proceed hstep
  exact ⟨l', hl'⟩

/-- The second loop leads to the return, or to the compare-exchange. -/
theorem returns_or_turns (h : Viewed others s (.rescan q oldHead n p) l) :
    Returns others s (.rescan q oldHead n p) q ∨
      Relation.ReflTransGen (Proceed others) (s, .rescan q oldHead n p)
        (s, .exchange q (s.next n) n) := by
  obtain ⟨-, seen, rest, m, -, htail, hold, -⟩ := h.knows
  have hturns : Relation.ReflTransGen (Proceed others) (s, .rescan q oldHead n p) _ :=
    turns_of_rescan htail hold
  cases hx : index s.key rest q.key with
  | some x =>
    rw [hx] at hturns
    exact Or.inl ⟨_, x, hturns.tail .discard⟩
  | none =>
    rw [hx] at hturns
    exact Or.inr hturns

/-- A compare-exchange that fails has found the head for the next one. -/
theorem returns_of_exchange (h : Viewed others s (.exchange q oldHead n) l) :
    Returns others s (.exchange q oldHead n) q := by
  obtain ⟨l', hl', -⟩ := h.exchangeFails
  have hreturns : Returns others (s.setNext n s.listHead) (.rescan q oldHead n s.listHead) q := by
    rcases hl'.returns_or_turns with hreturns | hturns
    · exact hreturns
    · exact ⟨_, n, hturns.tail (.exchange (next_setNext ..).symm)⟩
  exact hreturns.of_turns (.single .exchangeFails)

theorem returns_of_turns (h : Viewed others s v l)
    (hrun : Relation.ReflTransGen (Proceed others) (s, v) (s', .exchange q oldHead n)) :
    Returns others s v q := by
  obtain ⟨l', hl'⟩ := h.run hrun
  exact hl'.returns_of_exchange.of_turns hrun

theorem returns_of_construct (h : Viewed others s (.construct q oldHead) l) :
    Returns others s (.construct q oldHead) q := by
  obtain ⟨p, hp⟩ := Infinite.exists_notMem_finset (insert nullptr s.allocated.toFinset)
  rw [Finset.mem_insert, List.mem_toFinset, not_or] at hp
  exact h.returns_of_turns (turns_of_construct hp.1 hp.2)

theorem returns_of_scan (h : Viewed others s (.scan q oldHead p) l) :
    Returns others s (.scan q oldHead p) q := by
  obtain ⟨seen, rest, -, htail, -⟩ := h.knows
  have hturns : Relation.ReflTransGen (Proceed others) (s, .scan q oldHead p) _ :=
    turns_of_scan htail.chain
  cases hx : index s.key rest q.key with
  | some x =>
    rw [hx] at hturns
    exact ⟨s, x, hturns⟩
  | none =>
    rw [hx] at hturns
    obtain ⟨l', hl'⟩ := h.run hturns
    exact hl'.returns_of_construct.of_turns hturns

/-- Wherever a thread is in a call, it can return from it. -/
theorem returns (h : Viewed others s v l) (hv : v.request = some q) : Returns others s v q := by
  cases v with
  | idle => cases hv
  | load =>
    cases hv
    obtain ⟨l', hl', -⟩ := h.load
    exact hl'.returns_of_scan.of_turns (.single .load)
  | scan =>
    cases hv
    exact h.returns_of_scan
  | construct =>
    cases hv
    exact h.returns_of_construct
  | writeLevel =>
    cases hv
    exact h.returns_of_turns ((((Relation.ReflTransGen.single .writeLevel).tail .writeLow).tail
      .writeHigh).tail .writeNext)
  | writeLow =>
    cases hv
    exact h.returns_of_turns (((Relation.ReflTransGen.single .writeLow).tail .writeHigh).tail
      .writeNext)
  | writeHigh =>
    cases hv
    exact h.returns_of_turns ((Relation.ReflTransGen.single .writeHigh).tail .writeNext)
  | writeNext =>
    cases hv
    exact h.returns_of_turns (.single .writeNext)
  | exchange =>
    cases hv
    exact h.returns_of_exchange
  | rescan =>
    cases hv
    rcases h.returns_or_turns with hreturns | hturns
    · exact hreturns
    · exact h.returns_of_turns hturns
  | discard q n p =>
    cases hv
    exact ⟨_, p, .single .discard⟩
  | returned => cases hv

end Viewed

/-- **No thread waits for another.** In every state of a run, a thread that is in a call can go on
with turns of its own, while all others stay where they are, until this call returns the node of
its key. -/
theorem returns_of_run {c : Pool T LockFreeBucket Probe} {t : T} {cells : Ptr → ListNode}
    (hc : Relation.ReflTransGen BucketStep (LockFreeBucket.new cells).quiet c)
    (ht : (c.pc t).request = some q) :
    ∃ s p, Relation.ReflTransGen (Proceed (c.others t)) (c.shared, c.pc t) (s, .returned q p) ∧
      s.key p = q.key := by
  obtain ⟨l, hl, -, -⟩ := (linked_new cells).run hc
  obtain ⟨s, p, hrun⟩ := (hl.view t).returns ht
  obtain ⟨l', hl'⟩ := (hl.view t).run hrun
  exact ⟨s, p, hrun, hl'.knows.2⟩

/-- A thread that has run into the compare-exchange, with a new key. -/
theorem run_to_exchange {c : Pool T LockFreeBucket Probe} {t : T} (ht : (c.pc t).Outside)
    (hl : c.shared.Lists l) (hq : index c.shared.key l q.key = none) (hp : p ≠ nullptr)
    (hfresh : p ∉ c.shared.allocated) : Relation.ReflTransGen BucketStep c
      (c.move t (c.shared.prepare q c.shared.listHead p) (.exchange q c.shared.listHead p)) :=
  Pool.run_of_turns (turns_to_exchange ht hl hq hp hfresh)

/-- Another thread has put the node of the key in front, and the compare-exchange has failed. -/
theorem returns_of_run_small : ∃ c : Pool (Fin 2) LockFreeBucket Probe,
    c.pc 0 = .rescan ⟨3, 1, 2⟩ nullptr 1 2 ∧ c.pc 1 = .returned ⟨3, 1, 2⟩ 2 ∧
      ∃ s p, Relation.ReflTransGen (Proceed (c.others 0)) (c.shared, c.pc 0)
        (s, .returned ⟨3, 1, 2⟩ p) ∧ s.key p = ⟨3, 1, 2⟩ := by
  set q : Request := ⟨3, 1, 2⟩
  set c₀ : Pool (Fin 2) LockFreeBucket Probe := (LockFreeBucket.new fun _ => {}).quiet
  set c₁ := c₀.move 0 (c₀.shared.prepare q nullptr 1) (.exchange q nullptr 1)
  set c₂ := c₁.move 1 (c₁.shared.prepare q nullptr 2) (.exchange q nullptr 2)
  set c₃ := c₂.move 1 { c₂.shared with listHead := 2 } (.returned q 2)
  set c₄ := c₃.move 0 (c₃.shared.setNext 1 2) (.rescan q nullptr 1 2)
  have h₁ : Relation.ReflTransGen BucketStep c₀ c₁ :=
    run_to_exchange (l := []) trivial rfl rfl (by decide) (by decide)
  have h₂ : Relation.ReflTransGen BucketStep c₁ c₂ :=
    run_to_exchange (l := []) (show (c₁.pc 1).Outside from trivial) rfl rfl (by decide) (by decide)
  have h₃ : BucketStep c₂ c₃ := .turn (.exchange (by decide))
  have h₄ : BucketStep c₃ c₄ := .turn .exchangeFails
  exact ⟨c₄, rfl, rfl, returns_of_run (((h₁.trans h₂).tail h₃).tail h₄) rfl⟩

/-- **Two threads** look for one key in an empty bucket. Both come to the compare-exchange, and the
one that fails finds the node of the other. -/
theorem oneNode_of_run_small : ∃ c d : Pool (Fin 2) LockFreeBucket Probe,
    c.pc 0 = .returned ⟨3, 1, 2⟩ 1 ∧ d.pc 1 = .returned ⟨3, 1, 2⟩ 1 ∧ d.shared.allocated = [1] ∧
      OneNode c d := by
  set q : Request := ⟨3, 1, 2⟩ with hq
  set c₀ : Pool (Fin 2) LockFreeBucket Probe := (LockFreeBucket.new fun _ => {}).quiet
  set c₁ := c₀.move 0 (c₀.shared.prepare q nullptr 1) (.exchange q nullptr 1)
  set c₂ := c₁.move 1 (c₁.shared.prepare q nullptr 2) (.exchange q nullptr 2)
  set c₃ := c₂.move 0 { c₂.shared with listHead := 1 } (.returned q 1)
  set c₄ := c₃.move 1 (c₃.shared.setNext 2 1) (.rescan q nullptr 2 1)
  set c₅ := c₄.move 1 c₄.shared (.discard q 2 1)
  set c₆ := c₅.move 1 (c₅.shared.release 2) (.returned q 1)
  have h₁ : Relation.ReflTransGen BucketStep c₀ c₁ :=
    run_to_exchange (l := []) trivial rfl rfl (by decide) (by decide)
  have h₂ : Relation.ReflTransGen BucketStep c₁ c₂ :=
    run_to_exchange (l := []) (show (c₁.pc 1).Outside from trivial) rfl rfl (by decide) (by decide)
  have h₃ : BucketStep c₂ c₃ := .turn (.exchange (by decide))
  have h₄ : BucketStep c₃ c₄ := .turn .exchangeFails
  have h₅ : BucketStep c₄ c₅ := .turn (.rescanFound (by decide) (by decide))
  have h₆ : BucketStep c₅ c₆ := .turn .discard
  exact ⟨c₃, c₆, rfl, rfl, by decide,
    oneNode_of_run ((h₁.trans h₂).tail h₃) (((Relation.ReflTransGen.single h₄).tail h₅).tail h₆)⟩

end Nanobdd
