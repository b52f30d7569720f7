import Nanobdd.Collect
import Nanobdd.LockFreeBucket

/-!
# Collections in a lock-free bucket

`markNodes`, `freeNodes` and `unmarkNodes` of `LockFreeBucket`, which run while no thread is in a
call. They walk along the pointers of the list, and `freeNodes` deletes nodes on its way: first
those before the first node that is in use, then those behind each node that stays.

A read of memory that has been deleted has no value here, so that a collection that ends has not
done one. The recursion of `markNodes` may leave the bucket, for children that other buckets hold.

## Main definitions

* `LockFreeBucket.markNodes`, `freeNodes`, `unmarkNodes`, `numNodes`
* `SweepStep` — calls of any number of threads, with collections between them

## Main results

* `Listed.freeNodes` — what stays in the list, and what is deleted
* `sweep_of_run` — **one node for each key**, and no use after `delete`, in every run
* `collect_of_run` — **a collection** keeps what the counted nodes reach, and nothing else
-/

namespace Nanobdd

open LinkedList Interning

variable {T : Type*} [DecidableEq T] {s s' s'' : LockFreeBucket} {p q x : Ptr} {n fuel : ℕ}
  {l l' l₁ l₂ rest : List Ptr} {N : Finset Ptr} {outer : Ptr → Bool}

namespace LockFreeBucket

/-! ### The loops -/

/-- Read `*p`, which must not have been deleted. -/
def read (s : LockFreeBucket) (p : Ptr) : Option ListNode :=
  if p ∈ s.allocated then some (s.cells p) else none

/-- `p->bddNode.inUse` -/
def inUse (s : LockFreeBucket) (p : Ptr) : Bool := (s.cells p).bddNode.inUse

/-- The nodes in the cells. -/
def heap (s : LockFreeBucket) : Heap := fun p => (s.cells p).bddNode

/-- The cells with other nodes. -/
def withHeap (s : LockFreeBucket) (h : Heap) : LockFreeBucket :=
  { s with cells := fun p => { s.cells p with bddNode := h p } }

/-- The loop of `numNodes`. -/
def countNodes (s : LockFreeBucket) : ℕ → Ptr → ℕ → Option ℕ
  | 0, _, _ => none
  | n + 1, p, cnt =>
    if p = nullptr then some cnt
    else do
      let c ← s.read p
      s.countNodes n c.next (cnt + 1)

/-- `numNodes` -/
def numNodes (n : ℕ) (s : LockFreeBucket) : Option ℕ := s.countNodes n s.listHead 0

/-- Read the node at `p`, which is in a cell of the bucket or, as `outer` says, alive elsewhere. -/
def readNode (outer : Ptr → Bool) (s : LockFreeBucket) (p : Ptr) : Option Node :=
  if p ∈ s.allocated ∨ outer p = true then some (s.heap p) else none

/-- `Node::markRec`, which looks at no node that has been deleted. -/
def markRec (outer : Ptr → Bool) : ℕ → LockFreeBucket → Ptr → Option LockFreeBucket
  | 0, _, _ => none
  | fuel + 1, s, p => do
    let node ← s.readNode outer p
    if node.inUse then some s
    else
      let s := s.withHeap (s.heap.setInUse p true)
      let s ← if node.low ≠ nullptr then markRec outer fuel s node.low else some s
      let node ← s.readNode outer p
      if node.high ≠ nullptr then markRec outer fuel s node.high else some s

/-- The loop of `markNodes`. -/
def markLoop (outer : Ptr → Bool) (fuel : ℕ) : ℕ → LockFreeBucket → Ptr → Option LockFreeBucket
  | 0, _, _ => none
  | n + 1, s, p =>
    if p = nullptr then some s
    else do
      let c ← s.read p
      let s ← if c.bddNode.refCount ≠ 0 then markRec outer fuel s p else some s
      markLoop outer fuel n s (s.next p)

/-- `markNodes` -/
def markNodes (outer : Ptr → Bool) (fuel n : ℕ) (s : LockFreeBucket) : Option LockFreeBucket :=
  markLoop outer fuel n s s.listHead

/-- The loop of `unmarkNodes`. -/
def unmarkLoop : ℕ → LockFreeBucket → Ptr → Option LockFreeBucket
  | 0, _, _ => none
  | n + 1, s, p =>
    if p = nullptr then some s
    else do
      let c ← s.read p
      unmarkLoop n (s.withHeap (s.heap.setInUse p false)) c.next

/-- `unmarkNodes` -/
def unmarkNodes (n : ℕ) (s : LockFreeBucket) : Option LockFreeBucket :=
  unmarkLoop n s s.listHead

/-- The first loop of `freeNodes`, up to the first node that is in use. -/
def dropNodes : ℕ → LockFreeBucket → Ptr → Option (LockFreeBucket × Ptr)
  | 0, _, _ => none
  | n + 1, s, p =>
    if p = nullptr then some (s, p)
    else do
      let c ← s.read p
      if c.bddNode.inUse then some (s, p) else dropNodes n (s.release p) c.next

/-- The second loop of `freeNodes`, from a node that stays. -/
def unlinkNodes : ℕ → LockFreeBucket → Ptr → Option LockFreeBucket
  | 0, _, _ => none
  | n + 1, s, p => do
    let c ← s.read p
    if c.next = nullptr then some s
    else do
      let d ← s.read c.next
      if d.bddNode.inUse then unlinkNodes n s c.next
      else unlinkNodes n ((s.release c.next).setNext p d.next) p

/-- `freeNodes` -/
def freeNodes (n : ℕ) (s : LockFreeBucket) : Option LockFreeBucket := do
  let (s, p) ← dropNodes n s s.listHead
  let s := { s with listHead := p }
  if p = nullptr then some s else unlinkNodes n s p

theorem read_of_mem (h : p ∈ s.allocated) : s.read p = some (s.cells p) := if_pos h

theorem mem_release : x ∈ (s.release p).allocated ↔ x ∈ s.allocated ∧ x ≠ p := by
  simp [release]

theorem node_setNext (s : LockFreeBucket) (p q x : Ptr) :
    ((s.setNext p q).cells x).bddNode = (s.cells x).bddNode := by
  rw [setNext, LockFreeBucket.modify]
  dsimp only
  split <;> rfl

theorem next_setNext_of_ne (h : x ≠ p) (q : Ptr) : (s.setNext p q).next x = s.next x := by
  rw [next, setNext, modify_of_ne h, next]

/-! ### Deleting -/

/-- What `freeNodes` has done on the cells `l`: the links of other cells are the same, and what is
not in use is deleted. -/
structure Deleted (s s' : LockFreeBucket) (l : List Ptr) : Prop where
  node : ∀ x, (s'.cells x).bddNode = (s.cells x).bddNode
  next : ∀ x ∉ l, s'.next x = s.next x
  mem_allocated : ∀ x, x ∈ s'.allocated ↔ x ∈ s.allocated ∧ ¬ (x ∈ l ∧ s.inUse x = false)

namespace Deleted

theorem refl (s : LockFreeBucket) : Deleted s s [] :=
  ⟨fun _ => rfl, fun _ _ => rfl, fun _ => by simp⟩

theorem inUse_eq (h : Deleted s s' l) (x : Ptr) : s'.inUse x = s.inUse x := by
  rw [inUse, inUse, h.node]

theorem key_eq (h : Deleted s s' l) (x : Ptr) : s'.key x = s.key x := by
  rw [key, key, h.node]

/-- One walk after the other. -/
theorem append (h : Deleted s s' l₁) (h' : Deleted s' s'' l₂) : Deleted s s'' (l₁ ++ l₂) := by
  constructor
  · exact fun x => (h'.node x).trans (h.node x)
  · intro x hx
    rw [List.mem_append, not_or] at hx
    exact (h'.next x hx.2).trans (h.next x hx.1)
  · intro x
    rw [h'.mem_allocated, h.mem_allocated, h.inUse_eq, List.mem_append]
    tauto

/-- The head is no part of it. -/
theorem withHead (h : Deleted s s' l) (p : Ptr) : Deleted s { s' with listHead := p } l :=
  ⟨h.node, h.next, h.mem_allocated⟩

/-- One cell, which is not in use. -/
theorem release (hp : s.inUse p = false) : Deleted s (s.release p) [p] := by
  refine ⟨fun _ => rfl, fun _ _ => rfl, fun x => ?_⟩
  rw [mem_release, List.mem_singleton]
  constructor
  · exact fun ⟨hx, hne⟩ => ⟨hx, fun h => hne h.1⟩
  · exact fun ⟨hx, h⟩ => ⟨hx, fun he => h ⟨he, he ▸ hp⟩⟩

/-- A cell that stays. -/
theorem keep (hp : s.inUse p = true) : Deleted s s [p] := by
  refine ⟨fun _ => rfl, fun _ _ => rfl, fun x => ?_⟩
  rw [List.mem_singleton]
  constructor
  · exact fun hx => ⟨hx, fun h => by rw [h.1, hp] at h; exact Bool.noConfusion h.2⟩
  · exact And.left

/-- A cell behind one that stays. -/
theorem unlink (hp : s.inUse p = true) (hq : s.inUse q = false) (r : Ptr) :
    Deleted s ((s.release q).setNext p r) [p, q] := by
  refine ⟨fun x => node_setNext .., fun x hx => ?_, fun x => ?_⟩
  · rw [next_setNext_of_ne (List.ne_of_not_mem_cons hx)]
    rfl
  · show x ∈ (s.release q).allocated ↔ _
    rw [mem_release, List.mem_pair]
    constructor
    · rintro ⟨hx, hne⟩
      refine ⟨hx, fun ⟨hxl, hx'⟩ => ?_⟩
      rcases hxl with rfl | rfl
      · rw [hp] at hx'
        cases hx'
      · exact hne rfl
    · exact fun ⟨hx, h⟩ => ⟨hx, fun he => h ⟨.inr he, he ▸ hq⟩⟩

end Deleted

/-- **The first loop** deletes a beginning of the list. -/
theorem dropNodes_eq : ∀ {l : List Ptr} {s : LockFreeBucket} {p : Ptr},
    Chain s.next nullptr p l → l.Nodup → (∀ x ∈ l, x ∈ s.allocated) →
    ∃ s' p' l₁ l₂, (∀ n > l.length, s.dropNodes n p = some (s', p')) ∧ l = l₁ ++ l₂ ∧
      Deleted s s' l₁ ∧ (∀ x ∈ l₁, s.inUse x = false) ∧ Chain s'.next nullptr p' l₂ ∧
      (∀ x ∈ l₂, x = p' → s.inUse x = true) := by
  intro l
  induction l with
  | nil =>
    intro s p hc _ _
    have hp : p = nullptr := hc
    refine ⟨s, p, [], [], fun n hn => ?_, rfl, .refl s, by simp, hc, by simp⟩
    obtain ⟨n, rfl⟩ := Nat.exists_eq_succ_of_ne_zero (Nat.ne_zero_of_lt hn)
    rw [dropNodes, if_pos hp]
  | cons x l ih =>
    intro s p hc hnodup hmem
    obtain ⟨rfl, hp, htail⟩ := hc
    have hstep : ∀ n, s.dropNodes (n + 1) p =
        if s.inUse p then some (s, p) else (s.release p).dropNodes n (s.next p) := by
      intro n
      rw [dropNodes, if_neg hp, read_of_mem (hmem p List.mem_cons_self), Option.bind_eq_bind,
        Option.bind_some]
      rfl
    by_cases huse : s.inUse p = true
    · refine ⟨s, p, [], p :: l, fun n hn => ?_, rfl, .refl s, by simp, ⟨rfl, hp, htail⟩, ?_⟩
      · obtain ⟨n, rfl⟩ := Nat.exists_eq_succ_of_ne_zero (Nat.ne_zero_of_lt hn)
        rw [hstep, if_pos huse]
      · exact fun y _ hy => hy ▸ huse
    · have hfree : s.inUse p = false := by simpa using huse
      obtain ⟨hnot, hnodup⟩ := List.nodup_cons.mp hnodup
      obtain ⟨s', p', l₁, l₂, hdrop, rfl, hdel, hall, hchain, hfirst⟩ := @ih (s.release p)
        (s.next p) htail hnodup fun y hy =>
          mem_release.mpr ⟨hmem y (List.mem_cons_of_mem _ hy), fun he => hnot (he ▸ hy)⟩
      refine ⟨s', p', p :: l₁, l₂, fun n hn => ?_, rfl, (Deleted.release hfree).append hdel, ?_,
        hchain, hfirst⟩
      · obtain ⟨n, rfl⟩ := Nat.exists_eq_succ_of_ne_zero (Nat.ne_zero_of_lt hn)
        rw [hstep, if_neg huse, hdrop n (Nat.lt_of_succ_lt_succ hn)]
      · intro y hy
        rcases List.mem_cons.mp hy with rfl | hy
        · exact hfree
        · exact hall y hy

/-- **The second loop** keeps the nodes in use, in their order. It stays where it is when it
deletes, and the induction is on what is left of the list. -/
theorem unlinkNodes_eq : ∀ {rest : List Ptr} {s : LockFreeBucket} {p : Ptr},
    Chain s.next nullptr p (p :: rest) → (p :: rest).Nodup → (∀ x ∈ p :: rest, x ∈ s.allocated) →
    s.inUse p = true →
    ∃ s', (∀ n > rest.length, s.unlinkNodes n p = some s') ∧ s'.listHead = s.listHead ∧
      Deleted s s' (p :: rest) ∧ Chain s'.next nullptr p (p :: rest.filter s.inUse) := by
  intro rest
  induction rest with
  | nil =>
    intro s p hc _ hmem huse
    refine ⟨s, fun n hn => ?_, rfl, .keep huse, hc⟩
    obtain ⟨n, rfl⟩ := Nat.exists_eq_succ_of_ne_zero (Nat.ne_zero_of_lt hn)
    rw [unlinkNodes, read_of_mem (hmem p List.mem_cons_self), Option.bind_eq_bind, Option.bind_some]
    exact if_pos hc.2.2
  | cons q rest ih =>
    intro s p hc hnodup hmem huse
    obtain ⟨-, hp, hpq, hq, htail⟩ := hc
    obtain ⟨hnot, hnodup'⟩ := List.nodup_cons.mp hnodup
    obtain ⟨hnotq, hnodup''⟩ := List.nodup_cons.mp hnodup'
    have hstep : ∀ n, s.unlinkNodes (n + 1) p = if s.inUse q then s.unlinkNodes n q
        else ((s.release q).setNext p (s.next q)).unlinkNodes n p := by
      intro n
      rw [unlinkNodes, read_of_mem (hmem p List.mem_cons_self), Option.bind_eq_bind,
        Option.bind_some, if_neg (by rw [← LockFreeBucket.next, hpq]; exact hq),
        ← LockFreeBucket.next, hpq, read_of_mem (hmem q (by simp)), Option.bind_some]
      rfl
    by_cases huseq : s.inUse q = true
    · obtain ⟨s', hrun, hhead, hdel, hchain⟩ := ih ⟨rfl, hq, htail⟩ hnodup'
        (fun x hx => hmem x (List.mem_cons_of_mem _ hx)) huseq
      refine ⟨s', fun n hn => ?_, hhead, (Deleted.keep huse).append hdel, ?_⟩
      · obtain ⟨n, rfl⟩ := Nat.exists_eq_succ_of_ne_zero (Nat.ne_zero_of_lt hn)
        rw [hstep, if_pos huseq, hrun n (Nat.lt_of_succ_lt_succ hn)]
      · rw [List.filter_cons_of_pos huseq]
        refine ⟨rfl, hp, ?_⟩
        rw [hdel.next p hnot, hpq]
        exact hchain
    · have hfree : s.inUse q = false := by simpa using huseq
      have hunlink := Deleted.unlink huse hfree (s.next q)
      have hnotp : p ∉ rest := fun h => hnot (List.mem_cons_of_mem _ h)
      have hchain₁ : Chain ((s.release q).setNext p (s.next q)).next nullptr p (p :: rest) := by
        refine ⟨rfl, hp, ?_⟩
        rw [next_setNext]
        refine htail.congr fun x hx => hunlink.next x ?_
        rw [List.mem_pair, not_or]
        exact ⟨fun he => hnotp (he ▸ hx), fun he => hnotq (he ▸ hx)⟩
      have hmem₁ : ∀ x ∈ p :: rest, x ∈ (s.release q).allocated := by
        intro x hx
        refine mem_release.mpr ⟨hmem x ?_, fun he => ?_⟩
        · rcases List.mem_cons.mp hx with rfl | hx
          · exact List.mem_cons_self
          · exact List.mem_cons_of_mem _ (List.mem_cons_of_mem _ hx)
        · rcases List.mem_cons.mp hx with rfl | hx
          · exact hnot (he ▸ List.mem_cons_self)
          · exact hnotq (he ▸ hx)
      obtain ⟨s', hrun, hhead, hdel, hchain⟩ := ih hchain₁ (List.nodup_cons.mpr ⟨hnotp, hnodup''⟩)
        hmem₁ ((hunlink.inUse_eq p).trans huse)
      have hfilter : rest.filter ((s.release q).setNext p (s.next q)).inUse =
          rest.filter s.inUse := List.filter_congr fun x _ => hunlink.inUse_eq x
      refine ⟨s', fun n hn => ?_, hhead, ?_, ?_⟩
      · obtain ⟨n, rfl⟩ := Nat.exists_eq_succ_of_ne_zero (Nat.ne_zero_of_lt hn)
        rw [hstep, if_neg huseq, hrun n (Nat.lt_of_succ_lt_succ hn)]
      · have hboth := hunlink.append hdel
        refine ⟨hboth.node, fun x hx => hboth.next x ?_, fun x => ?_⟩
        · simp only [List.cons_append, List.nil_append, List.mem_cons, not_or] at hx ⊢
          exact ⟨hx.1, hx.2.1, hx.1, hx.2.2⟩
        · rw [hboth.mem_allocated]
          simp only [List.cons_append, List.nil_append, List.mem_cons]
          tauto
      · rw [List.filter_cons_of_neg huseq, ← hfilter]
        exact hchain

theorem Listed.nodup (h : Listed s l) : l.Nodup := h.keyed.of_map s.key

/-- **What stays in the list, and what is deleted.** The nodes in use stay, in their order, and all
the others are deleted. -/
theorem Listed.freeNodes (h : Listed s l) : ∃ s', (∀ n > l.length, s.freeNodes n = some s') ∧
    Deleted s s' l ∧ Listed s' (l.filter s.inUse) := by
  obtain ⟨s₁, p, l₁, l₂, hdrop, rfl, hdel, hfree, hchain, hfirst⟩ :=
    dropNodes_eq h.lists h.nodup h.allocated
  have hnodup := List.nodup_append.mp h.nodup
  have hstays : ∀ x ∈ l₂, x ∈ s₁.allocated := fun x hx =>
    (hdel.mem_allocated x).mpr ⟨h.allocated x (List.mem_append_right _ hx),
      fun hx₁ => hnodup.2.2 x hx₁.1 x hx rfl⟩
  have hfilter : (l₁ ++ l₂).filter s.inUse = l₂.filter s.inUse := by
    rw [List.filter_append, List.filter_eq_nil_iff.mpr fun x hx => by simp [hfree x hx],
      List.nil_append]
  obtain ⟨s', hrun, hdel', hlists⟩ : ∃ s', (∀ n > (l₁ ++ l₂).length, s.freeNodes n = some s') ∧
      Deleted s s' (l₁ ++ l₂) ∧ s'.Lists (l₂.filter s.inUse) := by
    cases l₂ with
    | nil =>
      have hp : p = nullptr := hchain
      refine ⟨{ s₁ with listHead := p }, fun n hn => ?_, ?_, hp⟩
      · rw [LockFreeBucket.freeNodes, hdrop n hn, Option.bind_eq_bind, Option.bind_some]
        exact if_pos hp
      · rw [List.append_nil]
        exact hdel.withHead p
    | cons x l₂ =>
      obtain ⟨rfl, hp, htail⟩ := hchain
      have huse : s₁.inUse p = true :=
        (hdel.inUse_eq p).trans (hfirst p List.mem_cons_self rfl)
      obtain ⟨s', hrun, hhead, hdel', hchain'⟩ := unlinkNodes_eq
        (s := { s₁ with listHead := p }) ⟨rfl, hp, htail⟩ hnodup.2.1 hstays huse
      refine ⟨s', fun n hn => ?_, (hdel.withHead p).append hdel', ?_⟩
      · have hlen : l₂.length < n := by
          rw [List.length_append, List.length_cons] at hn
          omega
        rw [LockFreeBucket.freeNodes, hdrop n hn, Option.bind_eq_bind, Option.bind_some,
          ← hrun n hlen]
        exact if_neg hp
      · rw [Lists, hhead, List.filter_cons_of_pos (hfirst p List.mem_cons_self rfl)]
        have hcongr : l₂.filter s.inUse = l₂.filter s₁.inUse :=
          List.filter_congr fun x _ => (hdel.inUse_eq x).symm
        rw [hcongr]
        exact hchain'
  refine ⟨s', hrun, hdel', ?_⟩
  rw [hfilter]
  have hsub : ∀ x ∈ l₂.filter s.inUse, x ∈ l₁ ++ l₂ ∧ s.inUse x = true := fun x hx =>
    ⟨List.mem_append_right _ (List.mem_filter.mp hx).1, (List.mem_filter.mp hx).2⟩
  refine ⟨hlists, ?_, fun x hx => ?_, fun hnull => h.ne_null ((hdel'.mem_allocated _).mp hnull).1⟩
  · rw [List.map_congr_left fun x _ => hdel'.key_eq x, ← hfilter]
    exact h.keyed.sublist (List.filter_sublist.map _)
  · obtain ⟨hmem, huse⟩ := hsub x hx
    refine (hdel'.mem_allocated x).mpr ⟨h.allocated x hmem, fun hx' => ?_⟩
    rw [huse] at hx'
    exact Bool.noConfusion hx'.2

/-! ### Walks that delete nothing -/

@[simp] theorem heap_withHeap (s : LockFreeBucket) (h : Heap) : (s.withHeap h).heap = h := rfl

@[simp] theorem withHeap_withHeap (s : LockFreeBucket) (h h' : Heap) :
    (s.withHeap h).withHeap h' = s.withHeap h' := rfl

@[simp] theorem withHeap_heap (s : LockFreeBucket) : s.withHeap s.heap = s := rfl

/-- `numNodes` counts the list. -/
theorem countNodes_eq : ∀ {l : List Ptr} {n : ℕ} {p : Ptr} {cnt : ℕ}, l.length < n →
    Chain s.next nullptr p l → (∀ x ∈ l, x ∈ s.allocated) →
    s.countNodes n p cnt = some (cnt + l.length) := by
  intro l
  induction l with
  | nil =>
    intro n p cnt hn hc _
    obtain ⟨n, rfl⟩ := Nat.exists_eq_succ_of_ne_zero (Nat.ne_zero_of_lt hn)
    rw [countNodes, if_pos (show p = nullptr from hc)]
    rfl
  | cons x l ih =>
    intro n p cnt hn hc hmem
    obtain ⟨n, rfl⟩ := Nat.exists_eq_succ_of_ne_zero (Nat.ne_zero_of_lt hn)
    obtain ⟨rfl, hp, htail⟩ := hc
    have hrest := @ih n (s.next p) (cnt + 1) (by simpa using hn) htail fun y hy =>
      hmem y (List.mem_cons_of_mem _ hy)
    rw [countNodes, if_neg hp, read_of_mem (hmem p List.mem_cons_self), Option.bind_eq_bind,
      Option.bind_some]
    refine hrest.trans ?_
    rw [List.length_cons, Nat.add_assoc, Nat.add_comm 1]

/-- The bucket with other marks. -/
def withMarks (s : LockFreeBucket) (m : Ptr → Bool) : LockFreeBucket :=
  s.withHeap (s.heap.withMarks m)

/-- The nodes of a set that no child leaves, all of them alive. -/
structure Alive (outer : Ptr → Bool) (s : LockFreeBucket) (N : Finset Ptr) : Prop where
  closed : ∀ p ∈ N, ∀ q ∈ s.heap.children p, q ∈ N
  mem : ∀ p ∈ N, p ∈ s.allocated ∨ outer p = true

/-- Marks do not matter for what may be read. -/
theorem Alive.readNode (h : Alive outer s N) (hp : p ∈ N) (m : Ptr → Bool) :
    (s.withMarks m).readNode outer p = some { s.heap p with inUse := m p } := if_pos (h.mem p hp)

theorem markRec_succ (fuel : ℕ) (s : LockFreeBucket) (p : Ptr) :
    markRec outer (fuel + 1) s p = (s.readNode outer p).bind fun node =>
      if node.inUse then some s
      else (if node.low ≠ nullptr then
          markRec outer fuel (s.withHeap (s.heap.setInUse p true)) node.low
        else some (s.withHeap (s.heap.setInUse p true))).bind fun s =>
          (s.readNode outer p).bind fun node =>
            if node.high ≠ nullptr then markRec outer fuel s node.high else some s := by
  rw [markRec]
  refine congrArg _ (funext fun node => ?_)
  by_cases hl : node.low = nullptr
  · simp only [hl, ne_eq, not_true_eq_false, if_false]
    rfl
  · simp only [hl, ne_eq, not_false_eq_true, if_true]
    rfl

/-- **`markRec` is a depth-first marking** where all nodes are alive. -/
theorem Alive.markRec (h : Alive outer s N) : ∀ (fuel : ℕ) (m : Ptr → Bool) {p : Ptr}, p ∈ N →
    markRec outer fuel (s.withMarks m) p =
      (Marking.visit s.heap.children fuel m p).map s.withMarks := by
  intro fuel
  induction fuel with
  | zero =>
    intro m p _
    rfl
  | succ fuel ih =>
    -- the guarded call on one child, as a visit of the list that holds it unless it is null
    have hchild : ∀ (m : Ptr → Bool) (c : Ptr), (c ≠ nullptr → c ∈ N) →
        (if c ≠ nullptr then LockFreeBucket.markRec outer fuel (s.withMarks m) c
          else some (s.withMarks m)) =
          (Marking.visitAll s.heap.children fuel m
            ([c].filter fun q => decide (q ≠ nullptr))).map s.withMarks := by
      intro m c hc
      by_cases hnull : c = nullptr
      · rw [if_neg (not_not.mpr hnull)]
        simp [hnull, Marking.visitAll_nil]
      · rw [if_pos hnull, ih m (hc hnull)]
        simp [hnull, Marking.visitAll_cons, Marking.visitAll_nil]
    intro m p hp
    have hlow : (s.heap p).low ≠ nullptr → (s.heap p).low ∈ N := fun hne =>
      h.closed p hp _ (Heap.mem_children.mpr ⟨Or.inl rfl, hne⟩)
    have hhigh : (s.heap p).high ≠ nullptr → (s.heap p).high ∈ N := fun hne =>
      h.closed p hp _ (Heap.mem_children.mpr ⟨Or.inr rfl, hne⟩)
    have hmark : (s.withMarks m).withHeap ((s.withMarks m).heap.setInUse p true) =
        s.withMarks (Function.update m p true) := by
      rw [LockFreeBucket.withMarks, heap_withHeap, withHeap_withHeap, Heap.setInUse_withMarks]
      rfl
    have hsplit : s.heap.children p = ([(s.heap p).low].filter fun q => decide (q ≠ nullptr)) ++
        [(s.heap p).high].filter fun q => decide (q ≠ nullptr) := by
      rw [← List.filter_append]
      rfl
    rw [markRec_succ, h.readNode hp, Option.bind_some, Marking.visit_succ]
    by_cases hm : m p = true
    · rw [if_pos hm, if_pos hm]
      rfl
    · rw [if_neg hm, if_neg hm, hmark, hchild _ (s.heap p).low hlow, hsplit,
        Marking.visitAll_append]
      cases Marking.visitAll s.heap.children fuel (Function.update m p true)
          ([(s.heap p).low].filter fun q => decide (q ≠ nullptr)) with
      | none => rfl
      | some m₁ =>
        refine Eq.trans ?_ (hchild m₁ (s.heap p).high hhigh)
        rw [Option.map_some, Option.bind_some, h.readNode hp, Option.bind_some]

/-- The loop of `markNodes` visits the nodes with a counter. -/
theorem Alive.markLoop (h : Alive outer s N) : ∀ {l : List Ptr} {n : ℕ} {p : Ptr}
    (m : Ptr → Bool), l.length < n → Chain s.next nullptr p l → (∀ x ∈ l, x ∈ s.allocated) →
    (∀ x ∈ s.heap.referenced l, x ∈ N) →
    markLoop outer fuel n (s.withMarks m) p =
      (Marking.visitAll s.heap.children fuel m (s.heap.referenced l)).map s.withMarks := by
  intro l
  induction l with
  | nil =>
    intro n p m hn hc _ _
    obtain ⟨n, rfl⟩ := Nat.exists_eq_succ_of_ne_zero (Nat.ne_zero_of_lt hn)
    rw [LockFreeBucket.markLoop, if_pos (show p = nullptr from hc)]
    rfl
  | cons x l ih =>
    intro n p m hn hc hmem hroots
    obtain ⟨n, rfl⟩ := Nat.exists_eq_succ_of_ne_zero (Nat.ne_zero_of_lt hn)
    obtain ⟨rfl, hp, htail⟩ := hc
    have hread : (s.withMarks m).read p =
        some { s.cells p with bddNode := { s.heap p with inUse := m p } } :=
      if_pos (hmem p List.mem_cons_self)
    have hrest : ∀ m', (∀ y ∈ s.heap.referenced l, y ∈ N) →
        LockFreeBucket.markLoop outer fuel n (s.withMarks m') (s.next p) =
          (Marking.visitAll s.heap.children fuel m' (s.heap.referenced l)).map s.withMarks :=
      fun m' => ih m' (by simpa using hn) htail fun y hy => hmem y (List.mem_cons_of_mem _ hy)
    rw [LockFreeBucket.markLoop, if_neg hp, hread, Option.bind_eq_bind, Option.bind_some]
    by_cases hcount : (s.heap p).refCount = 0
    · have href : s.heap.referenced (p :: l) = s.heap.referenced l := by
        simp [Heap.referenced, hcount]
      simp only [hcount, ne_eq, not_true_eq_false, if_false, href]
      exact hrest m (href ▸ hroots)
    · have href : s.heap.referenced (p :: l) = p :: s.heap.referenced l := by
        simp [Heap.referenced, hcount]
      rw [href] at hroots ⊢
      simp only [hcount, ne_eq, not_false_eq_true, if_true,
        h.markRec fuel m (hroots p List.mem_cons_self), Marking.visitAll_cons]
      cases Marking.visit s.heap.children fuel m p with
      | none => rfl
      | some m₁ => exact hrest m₁ fun y hy => hroots y (List.mem_cons_of_mem _ hy)

/-- The loop of `unmarkNodes` is that of `Bucket`. -/
theorem unmarkLoop_eq (s : LockFreeBucket) : ∀ {l : List Ptr} {n : ℕ} {p : Ptr} (h : Heap),
    l.length < n → Chain s.next nullptr p l → (∀ x ∈ l, x ∈ s.allocated) →
    unmarkLoop n (s.withHeap h) p = some (s.withHeap (unmarkNodesUnsafe h l)) := by
  intro l
  induction l with
  | nil =>
    intro n p h hn hc _
    obtain ⟨n, rfl⟩ := Nat.exists_eq_succ_of_ne_zero (Nat.ne_zero_of_lt hn)
    rw [unmarkLoop, if_pos (show p = nullptr from hc)]
    rfl
  | cons x l ih =>
    intro n p h hn hc hmem
    obtain ⟨n, rfl⟩ := Nat.exists_eq_succ_of_ne_zero (Nat.ne_zero_of_lt hn)
    obtain ⟨rfl, hp, htail⟩ := hc
    have hread : (s.withHeap h).read p = some { s.cells p with bddNode := h p } :=
      if_pos (hmem p List.mem_cons_self)
    rw [unmarkLoop, if_neg hp, hread, Option.bind_eq_bind, Option.bind_some]
    exact ih _ (by simpa using hn) htail fun y hy => hmem y (List.mem_cons_of_mem _ hy)

/-- Marks are not the bucket's. -/
theorem Listed.withMarks (h : Listed s l) (m : Ptr → Bool) : Listed (s.withMarks m) l :=
  h.congr rfl (fun _ _ => ⟨rfl, rfl⟩) h.allocated h.ne_null

end LockFreeBucket

/-! ### Runs -/

open LockFreeBucket

/-- One step of the program, or a call of `freeNodes` while no thread is in a call. What the threads
have returned is not theirs any more after it. Marking is part of `BucketStep`. -/
inductive SweepStep : Pool T LockFreeBucket Probe → Pool T LockFreeBucket Probe → Prop
  | step {c c' : Pool T LockFreeBucket Probe} : BucketStep c c' → SweepStep c c'
  | sweep {c : Pool T LockFreeBucket Probe} {s : LockFreeBucket} (m : ℕ) :
      (∀ t, (c.pc t).Outside) → (∀ n ≥ m, c.shared.freeNodes n = some s) → SweepStep c s.quiet

section pool

variable {c c' : Pool T LockFreeBucket Probe} {t : T} {cells : Ptr → ListNode}

omit [DecidableEq T] in
/-- Threads that are in no call know nothing. -/
theorem LockFreeBucket.Listed.quiet (h : Listed s l) :
    Linked (s.quiet : Pool T LockFreeBucket Probe) l :=
  ⟨h, fun _ => trivial, nofun, nofun⟩

/-- One step of a run with collections. -/
theorem Linked.sweepStep (h : Linked c l) (hs : SweepStep c c') : ∃ l', Linked c' l' := by
  cases hs with
  | step hs =>
    obtain ⟨l', hlinked, -, -⟩ := h.step hs
    exact ⟨l', hlinked⟩
  | sweep m _ hfree =>
    obtain ⟨s, hs, -, hlisted⟩ := h.toListed.freeNodes
    have hboth := (hfree _ (le_max_left m _)).symm.trans (hs (max m (l.length + 1)) (by omega))
    cases hboth
    exact ⟨_, hlisted.quiet⟩

theorem linked_of_sweeps
    (hc : Relation.ReflTransGen SweepStep (LockFreeBucket.new cells).quiet c) :
    ∃ l, Linked c l :=
  Transition.invariant (I := fun c => ∃ l, Linked c l) (fun _ _ hs ⟨_, hl⟩ => hl.sweepStep hs) hc
    ⟨[], linked_new cells⟩

/-- **Runs with collections.** Threads call the bucket in any order, and between calls nodes are
marked, unmarked and deleted. In every state of such a run the list has one node for each key, a
returned node is the one of its key, no thread is about to use memory that was deleted, and
`numNodes` counts the list. When no thread is in a call, `freeNodes` ends and reads no deleted
memory: it keeps the nodes in use, in their order, and deletes all the others. -/
theorem sweep_of_run (hc : Relation.ReflTransGen SweepStep (LockFreeBucket.new cells).quiet c) :
    ∃ l, c.shared.Lists l ∧ (l.map c.shared.key).Nodup ∧
      (∀ t q p, c.pc t = .returned q p → p ∈ l ∧ c.shared.key p = q.key) ∧
      (∀ t p, (c.pc t).uses = some p → p ∈ c.shared.allocated) ∧
      (∀ n > l.length, c.shared.numNodes n = some l.length) ∧
      ((∀ t, (c.pc t).Outside) → ∃ s, (∀ n > l.length, c.shared.freeNodes n = some s) ∧
        s.Lists (l.filter c.shared.inUse) ∧ Deleted c.shared s l) := by
  obtain ⟨l, hl⟩ := linked_of_sweeps hc
  refine ⟨l, hl.lists, hl.keyed, fun t q p ht => ?_, fun t p hp => ?_, fun n hn => ?_, fun _ => ?_⟩
  · have hknows := hl.knows t
    rw [ht] at hknows
    exact hknows
  · rcases hl.mem_of_uses hp with hmem | hcand
    · exact hl.allocated p hmem
    · exact (hl.owned t p hcand).1
  · rw [numNodes, countNodes_eq hn hl.lists hl.allocated, Nat.zero_add]
  · obtain ⟨s, hs, hdel, hlisted⟩ := hl.toListed.freeNodes
    exact ⟨s, hs, hlisted.lists, hdel⟩

/-- **A collection.** If the nodes that the counted ones reach are alive and no node is marked,
`markNodes`, `freeNodes` and `unmarkNodes` end, read no deleted memory, and keep exactly the nodes
of the bucket that its nodes with a nonzero counter reach, in their order and as they were. -/
theorem collect_of_run (hc : Relation.ReflTransGen SweepStep (LockFreeBucket.new cells).quiet c)
    (hlists : c.shared.Lists l) (halive : Alive outer c.shared N)
    (hroots : ∀ r ∈ l, (c.shared.cells r).bddNode.refCount ≠ 0 → r ∈ N)
    (hclear : ∀ p, p ∈ l ∨ p ∈ N → c.shared.inUse p = false) :
    ∃ s l', (∀ fuel > N.card, ∀ n > l.length,
        ((c.shared.markNodes outer fuel n).bind fun s => s.freeNodes n).bind
          (fun s => s.unmarkNodes n) = some s) ∧
      s.Lists l' ∧ l'.Sublist l ∧
      (∀ p ∈ l, p ∈ l' ↔ ∃ r ∈ l, (c.shared.cells r).bddNode.refCount ≠ 0 ∧
        Marking.Reach c.shared.heap.children r p) ∧
      (∀ p ∈ l', (s.cells p).bddNode = (c.shared.cells p).bddNode) ∧
      ∀ p, p ∈ s.allocated ↔ p ∈ c.shared.allocated ∧ (p ∈ l → p ∈ l') := by
  obtain ⟨m, hm⟩ := linked_of_sweeps hc
  obtain rfl := hm.lists.unique hlists
  have hl := hm.toListed
  have hcounted : ∀ r ∈ c.shared.heap.referenced m, r ∈ N := fun r hr =>
    hroots r (List.mem_filter.mp hr).1 (of_decide_eq_true (List.mem_filter.mp hr).2)
  -- the marks that `markNodes` leaves
  obtain ⟨marks, hmarks⟩ := Marking.visitAll_isSome (m := c.shared.heap.marks) halive.closed
    hcounted (Nat.lt_succ_of_le (Finset.card_filter_le _ _))
  have hmark : ∀ fuel > N.card, ∀ n > m.length, c.shared.markNodes outer fuel n =
      some (c.shared.withMarks marks) := by
    intro fuel hfuel n hn
    have hloop : markLoop outer fuel n (c.shared.withMarks c.shared.heap.marks) _ = _ :=
      halive.markLoop _ hn hl.lists hl.allocated hcounted
    rw [Marking.visitAll_mono hfuel hmarks] at hloop
    exact hloop
  have hreach : ∀ p ∈ m, marks p = true ↔ ∃ r ∈ m, (c.shared.cells r).bddNode.refCount ≠ 0 ∧
      Marking.Reach c.shared.heap.children r p := by
    intro p hp
    rw [Marking.visitAll_iff_reach (T := N) halive.closed hcounted
      (fun q hq => hclear q (Or.inr hq)) hmarks (hclear p (Or.inl hp))]
    simp only [Heap.referenced, List.mem_filter, decide_eq_true_eq, and_assoc]
    rfl
  -- what they leave in the list
  obtain ⟨s, hfree, hdel, hlisted⟩ := (hl.withMarks marks).freeNodes
  have hunmark : ∀ n > m.length, s.unmarkNodes n =
      some (s.withHeap (unmarkNodesUnsafe s.heap (m.filter marks))) := fun n hn =>
    unmarkLoop_eq s s.heap (lt_of_le_of_lt (List.length_filter_le _ _) hn) hlisted.lists
      hlisted.allocated
  refine ⟨s.withHeap (unmarkNodesUnsafe s.heap (m.filter marks)), m.filter marks,
    fun fuel hfuel n hn => ?_, hlisted.lists, List.filter_sublist, fun p hp => ?_, fun p hp => ?_,
    fun p => ?_⟩
  · rw [hmark fuel hfuel n hn, Option.bind_some, hfree n hn, Option.bind_some, hunmark n hn]
  · rw [List.mem_filter, ← hreach p hp]
    exact and_iff_right hp
  · have hnode : s.heap p = { c.shared.heap p with inUse := marks p } := hdel.node p
    have hwas : c.shared.heap p = { c.shared.heap p with inUse := false } := by
      rw [← hclear p (Or.inl (List.mem_filter.mp hp).1)]
      rfl
    show unmarkNodesUnsafe s.heap (m.filter marks) p = c.shared.heap p
    rw [State.unmarkNodesUnsafe_apply, if_pos hp, hnode]
    exact hwas.symm
  · show p ∈ s.allocated ↔ _
    rw [hdel.mem_allocated, List.mem_filter]
    refine and_congr_right fun _ => ?_
    show ¬ (p ∈ m ∧ marks p = false) ↔ (p ∈ m → p ∈ m ∧ marks p = true)
    rw [← Bool.not_eq_true]
    tauto

end pool

/-- A thread that has put a node with a new key in front. -/
theorem run_to_one {c : Pool T LockFreeBucket Probe} {t : T} {r : Request}
    (ht : (c.pc t).Outside) (hl : c.shared.Lists l) (hr : index c.shared.key l r.key = none)
    (hp : p ≠ nullptr) (hfresh : p ∉ c.shared.allocated) : Relation.ReflTransGen SweepStep c
      (c.move t { c.shared.prepare r c.shared.listHead p with listHead := p } (.returned r p)) := by
  have hrun : Relation.ReflTransGen BucketStep c
      (c.move t { c.shared.prepare r c.shared.listHead p with listHead := p } (.returned r p)) := by
    rw [← Pool.move_move c t (c.shared.prepare r c.shared.listHead p) _
      (.exchange r c.shared.listHead p)]
    refine (run_to_exchange ht hl hr hp hfresh).tail (.turn ?_)
    rw [Pool.move_pc_self, Pool.move_shared]
    exact .exchange (next_setNext ..).symm
  exact hrun.lift id fun _ _ h => .step h

/-- A thread stores a node, which is deleted as nothing has marked it, and another thread stores one
in its place. -/
theorem run_swept : ∃ c : Pool Bool LockFreeBucket Probe, c.shared.allocated = [1] ∧
    (∀ t, (c.pc t).Outside) ∧
    Relation.ReflTransGen SweepStep (LockFreeBucket.new fun _ => {}).quiet c := by
  set c₀ : Pool Bool LockFreeBucket Probe := (LockFreeBucket.new fun _ => {}).quiet
  set q : Request := ⟨3, 1, 1⟩
  set c₁ := c₀.move false { c₀.shared.prepare q nullptr 1 with listHead := 1 } (.returned q 1)
  set c₂ : Pool Bool LockFreeBucket Probe :=
    ({ c₁.shared.release 1 with listHead := nullptr } : LockFreeBucket).quiet
  set c₃ := c₂.move true { c₂.shared.prepare q nullptr 1 with listHead := 1 } (.returned q 1)
  have h₁ : Relation.ReflTransGen SweepStep c₀ c₁ :=
    run_to_one (l := []) trivial rfl rfl (by decide) (by decide)
  have h₂ : SweepStep c₁ c₂ := by
    refine .sweep 2 (fun t => ?_) fun n hn => ?_
    · cases t <;> trivial
    · obtain ⟨k, rfl⟩ := Nat.exists_eq_add_of_le' hn
      rfl
  have h₃ : Relation.ReflTransGen SweepStep c₂ c₃ :=
    run_to_one (l := []) trivial rfl rfl (by decide) (by decide)
  refine ⟨c₃, by decide, fun t => ?_, (h₁.tail h₂).trans h₃⟩
  cases t <;> trivial

theorem sweep_of_run_small : ∃ c : Pool Bool LockFreeBucket Probe, c.shared.allocated = [1] ∧
    ∃ l, c.shared.Lists l ∧ ∃ s, (∀ n > l.length, c.shared.freeNodes n = some s) ∧
      Deleted c.shared s l := by
  obtain ⟨c, halloc, hout, hc⟩ := run_swept
  obtain ⟨l, hl, -, -, -, -, hfree⟩ := sweep_of_run hc
  obtain ⟨s, hs, -, hdel⟩ := hfree hout
  exact ⟨c, halloc, l, hl, s, hs, hdel⟩

/-- The nodes `1` without children, `2` with the child `1` and one in another bucket, which a handle
holds, and `3`, which nothing holds. -/
structure Three (c : Pool Bool LockFreeBucket Probe) : Prop where
  allocated : c.shared.allocated = [3, 2, 1]
  lists : c.shared.Lists [3, 2, 1]
  first : c.shared.heap 1 = { level := 3 }
  second : c.shared.heap 2 = { level := 2, low := 1, high := 4, refCount := 1 }
  third : c.shared.heap 3 = { level := 1, low := 1, high := 2 }
  outer : c.shared.heap 4 = {}

theorem run_three : ∃ c, Three c ∧
    Relation.ReflTransGen SweepStep (LockFreeBucket.new fun _ => {}).quiet c := by
  set c₀ : Pool Bool LockFreeBucket Probe := (LockFreeBucket.new fun _ => {}).quiet
  set c₁ := c₀.move false { c₀.shared.prepare ⟨3, nullptr, nullptr⟩ nullptr 1 with listHead := 1 }
    (.returned ⟨3, nullptr, nullptr⟩ 1)
  set c₂ := c₁.move true { c₁.shared.prepare ⟨2, 1, 4⟩ 1 2 with listHead := 2 }
    (.returned ⟨2, 1, 4⟩ 2)
  set c₃ := c₂.move false { c₂.shared.prepare ⟨1, 1, 2⟩ 2 3 with listHead := 3 }
    (.returned ⟨1, 1, 2⟩ 3)
  set c₄ : Pool Bool LockFreeBucket Probe := ⟨c₃.shared.withHeap (c₃.shared.heap.ref 2), c₃.pc⟩
  have h₁ : Relation.ReflTransGen SweepStep c₀ c₁ :=
    run_to_one (l := []) trivial rfl rfl (by decide) (by decide)
  have h₂ : Relation.ReflTransGen SweepStep c₁ c₂ :=
    run_to_one (l := [1]) (show (c₁.pc true).Outside from trivial) ⟨rfl, by decide, rfl⟩
      (by decide) (by decide) (by decide)
  have h₃ : Relation.ReflTransGen SweepStep c₂ c₃ :=
    run_to_one (l := [2, 1]) (show (c₂.pc false).Outside from trivial)
      ⟨rfl, by decide, rfl, by decide, rfl⟩ (by decide) (by decide) (by decide)
  have h₄ : SweepStep c₃ c₄ := by
    refine .step (.env ⟨rfl, rfl, fun p hp => ⟨?_, rfl⟩⟩)
    show (c₃.shared.heap.ref 2 p).key = (c₃.shared.heap p).key
    obtain ⟨n, hn⟩ := Heap.exists_ref c₃.shared.heap 2 p
    rw [hn]
    rfl
  have hlists : c₄.shared.Lists [3, 2, 1] := ⟨rfl, by decide, rfl, by decide, rfl, by decide, rfl⟩
  exact ⟨c₄, ⟨by decide, hlists, rfl, rfl, rfl, rfl⟩, ((h₁.trans h₂).trans h₃).tail h₄⟩

namespace Three

variable {c : Pool Bool LockFreeBucket Probe}

theorem closed (h : Three c) : ∀ p ∈ ({2, 1, 4} : Finset Ptr), ∀ q ∈ c.shared.heap.children p,
    q ∈ ({2, 1, 4} : Finset Ptr) := by
  intro p hp q hq
  rw [Heap.mem_children] at hq
  obtain rfl | rfl | rfl : p = 2 ∨ p = 1 ∨ p = 4 := by simpa using hp
  · rw [h.second] at hq
    rcases hq.1 with rfl | rfl <;> decide
  · rw [h.first] at hq
    exact absurd (hq.1.elim id id) hq.2
  · rw [h.outer] at hq
    exact absurd (hq.1.elim id id) hq.2

theorem alive (h : Three c) : Alive (· == 4) c.shared {2, 1, 4} := by
  refine ⟨h.closed, fun p hp => ?_⟩
  rw [h.allocated]
  revert p
  decide

/-- Only the second node has a counter that is not zero. -/
theorem counted_iff (h : Three c) : ∀ r ∈ [3, 2, 1], (c.shared.cells r).bddNode.refCount ≠ 0 ↔
    r = 2 := by
  intro r hr
  show (c.shared.heap r).refCount ≠ 0 ↔ r = 2
  obtain rfl | rfl | rfl : r = 3 ∨ r = 2 ∨ r = 1 := by simpa using hr
  · simp [h.third]
  · simp [h.second]
  · simp [h.first]

theorem unmarked (h : Three c) : ∀ p, p ∈ [3, 2, 1] ∨ p ∈ ({2, 1, 4} : Finset Ptr) →
    c.shared.inUse p = false := by
  intro p hp
  show (c.shared.heap p).inUse = false
  obtain rfl | rfl | rfl | rfl : p = 3 ∨ p = 2 ∨ p = 1 ∨ p = 4 := by
    revert hp
    simp only [List.mem_cons, List.not_mem_nil, Finset.mem_insert, Finset.mem_singleton]
    tauto
  · rw [h.third]
  · rw [h.second]
  · rw [h.first]
  · rw [h.outer]

/-- The second node reaches itself and the first one. -/
theorem reach_iff (h : Three c) : ∀ p ∈ [3, 2, 1],
    Marking.Reach c.shared.heap.children 2 p ↔ p = 2 ∨ p = 1 := by
  intro p hp
  constructor
  · intro hreach
    have hmem : p ∈ ({2, 1, 4} : Finset Ptr) :=
      Transition.invariant (I := (· ∈ ({2, 1, 4} : Finset Ptr)))
        (fun a b hab ha => h.closed a ha b hab) hreach (by decide)
    have hthree : ∀ p ∈ ([3, 2, 1] : List ℕ), p ∈ ({2, 1, 4} : Finset ℕ) → p = 2 ∨ p = 1 := by
      decide
    exact hthree p hp hmem
  · rintro (rfl | rfl)
    · exact .refl
    · refine .single (Heap.mem_children.mpr ⟨Or.inl ?_, by decide⟩)
      rw [h.second]

end Three

/-- The node that is held stays, with its child, and the third one is deleted. -/
theorem collect_of_run_small : ∃ (c : Pool Bool LockFreeBucket Probe) (s : LockFreeBucket),
    c.shared.Lists [3, 2, 1] ∧ s.Lists [2, 1] ∧ (∀ p, p ∈ s.allocated ↔ p = 2 ∨ p = 1) ∧
      ∀ fuel > 3, ∀ n > 3, ((c.shared.markNodes (· == 4) fuel n).bind fun s =>
        s.freeNodes n).bind (fun s => s.unmarkNodes n) = some s := by
  obtain ⟨c, h, hc⟩ := run_three
  obtain ⟨s, l', hrun, hl', hsub, hmem, -, hallocated⟩ := collect_of_run hc h.lists h.alive
    (fun r hr hcount => by rw [(h.counted_iff r hr).mp hcount]; decide) h.unmarked
  have hkept : ∀ p ∈ [3, 2, 1], p ∈ l' ↔ p = 2 ∨ p = 1 := by
    intro p hp
    rw [hmem p hp, ← h.reach_iff p hp]
    constructor
    · rintro ⟨r, hr, hcount, hreach⟩
      exact (h.counted_iff r hr).mp hcount ▸ hreach
    · exact fun hreach => ⟨2, by decide, (h.counted_iff 2 (by decide)).mpr rfl, hreach⟩
  have hlists : ∀ l ∈ ([3, 2, 1] : List ℕ).sublists,
      (∀ p ∈ ([3, 2, 1] : List ℕ), p ∈ l ↔ p = 2 ∨ p = 1) → l = [2, 1] := by decide
  have hlist : l' = [2, 1] := hlists l' (List.mem_sublists.mpr hsub) hkept
  subst hlist
  refine ⟨c, s, h.lists, hl', fun p => ?_, hrun⟩
  rw [hallocated, h.allocated]
  simp only [List.mem_cons, List.not_mem_nil, or_false]
  constructor
  · exact fun h => h.2 h.1
  · exact fun h => ⟨Or.inr h, fun _ => h⟩

end Nanobdd
