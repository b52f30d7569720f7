import Nanobdd.Allocator
import Nanobdd.Lib.Chain

/-!
# What the allocator guarantees

`AllocInv a h used fl` says that the free list of `a` meets exactly the slots of `fl`, that
no slot is both free and `used`, and that everything free or used was issued before. `used` is a
predicate and not the table, because a node exists for a while before it is stored.

Every operation of `NodeAllocator` keeps the invariant for the set of used slots that it ought
to leave, and `slots` counts what is left.
-/

namespace Nanobdd

open LinkedList

namespace Heap

theorem modify_apply (h : Heap) (p q : Ptr) (f : Node → Node) :
    h.modify p f q = if q = p then f (h q) else h q := rfl

theorem modify_modify_const (h : Heap) (p : Ptr) (f : Node → Node) (n : Node) :
    (h.modify p f).modify p (fun _ => n) = h.modify p fun _ => n := by
  funext q
  by_cases hq : q = p <;> simp [modify, hq]

theorem exists_ref (h : Heap) (p q : Ptr) :
    ∃ n, h.ref p q = { h q with refCount := n } := by
  rw [ref, modify_apply]
  split
  · exact ⟨_, rfl⟩
  · exact ⟨(h q).refCount, rfl⟩

theorem exists_deref (h : Heap) (p q : Ptr) :
    ∃ n, h.deref p q = { h q with refCount := n } := by
  rw [deref, modify_apply]
  split
  · exact ⟨_, rfl⟩
  · exact ⟨(h q).refCount, rfl⟩

@[simp] theorem resetNode_self (h : Heap) (p : Ptr) (level : ℕ) (low high : Ptr) :
    h.resetNode p level low high p = { level := level, low := low, high := high } := by
  simp [resetNode]

theorem resetNode_of_ne {h : Heap} {p q : Ptr} {level : ℕ} {low high : Ptr} (hq : q ≠ p) :
    h.resetNode p level low high q = h q := modify_of_ne hq

/-- Popping a slot writes its link first; the reset overwrites that. -/
theorem resetNode_setNextFree (h : Heap) (p q : Ptr) (level : ℕ) (low high : Ptr) :
    (h.setNextFree p q).resetNode p level low high = h.resetNode p level low high :=
  modify_modify_const h p _ _

end Heap

namespace NodeAllocator

variable {a : NodeAllocator} {h h' : Heap} {used used' : Ptr → Prop} {fl : List Ptr} {p : Ptr}
  {level : ℕ} {low high : Ptr}

/-- The first slot of the current slab that was never issued. -/
def bound (a : NodeAllocator) : ℕ := a.currentSlab.base + a.currentSlab.next

/-- How many times `allocate` can succeed when the free list holds `fl`. -/
def slots (a : NodeAllocator) (fl : List Ptr) : ℕ :=
  fl.length + (a.currentSlab.capacity - a.currentSlab.next)

/-- The free list holds exactly `fl`, and the slots in `used` are in use. -/
structure AllocInv (a : NodeAllocator) (h : Heap) (used : Ptr → Prop) (fl : List Ptr) :
    Prop where
  chain : Chain (fun p => (h p).nextFree) nullptr a.freeList fl
  nodup : fl.Nodup
  not_used : ∀ p ∈ fl, ¬ used p
  free_lt : ∀ p ∈ fl, p < a.bound
  used_pos : ∀ p, used p → p ≠ nullptr
  used_lt : ∀ p, used p → p < a.bound
  base_pos : 0 < a.currentSlab.base
  next_le : a.currentSlab.next ≤ a.currentSlab.capacity
  grow_pos : 0 < a.nextSlabCapacity

namespace AllocInv

/-- Writes that keep the links of the free slots keep the invariant. -/
theorem congr (hi : AllocInv a h used fl) (hh : ∀ p ∈ fl, (h' p).nextFree = (h p).nextFree) :
    AllocInv a h' used fl :=
  { hi with chain := hi.chain.congr hh }

theorem mono (hi : AllocInv a h used fl) (hu : ∀ p, used' p → used p) :
    AllocInv a h used' fl :=
  { hi with
    not_used := fun p hp hu' => hi.not_used p hp (hu p hu')
    used_pos := fun p hp => hi.used_pos p (hu p hp)
    used_lt := fun p hp => hi.used_lt p (hu p hp) }

theorem free_ne_null (hi : AllocInv a h used fl) (hp : p ∈ fl) : p ≠ nullptr :=
  hi.chain.ne_nil hp

theorem hasFreeSlot_iff (hi : AllocInv a h used fl) :
    a.hasFreeSlot = true ↔ 0 < a.slots fl := by
  have hnext := hi.next_le
  rw [hasFreeSlot, slots]
  by_cases hf : a.freeList = nullptr
  · have hnil : fl = [] := by
      have hc := hi.chain
      rw [hf] at hc
      exact chain_nil_iff.mp hc
    rw [if_neg (not_not.mpr hf), hnil, decide_eq_true_iff]
    simp only [List.length_nil]
    omega
  · obtain ⟨l, rfl, -⟩ := hi.chain.exists_cons hf
    simp only [hf, ne_eq, not_false_iff, if_true, List.length_cons, true_iff]
    omega

theorem slots_eq_zero (hi : AllocInv a h used fl) (hfull : a.hasFreeSlot = false) :
    a.slots fl = 0 := by
  by_contra hne
  have hfree := hi.hasFreeSlot_iff.mpr (Nat.pos_of_ne_zero hne)
  rw [hfull] at hfree
  cases hfree

/-- Taking the head off the free list, and perhaps more: any part of the tail may be left. -/
theorem detach {next : Ptr} {l l' : List Ptr} (hi : AllocInv a h used (a.freeList :: l))
    (hl : l'.Sublist l) (hc : Chain (fun p => (h p).nextFree) nullptr next l') :
    AllocInv { a with freeList := next } h (fun q => q = a.freeList ∨ used q) l' := by
  have hnodup := List.nodup_cons.mp hi.nodup
  refine ⟨hc, hnodup.2.sublist hl, ?_, ?_, ?_, ?_, hi.base_pos, hi.next_le, hi.grow_pos⟩
  · rintro q hq (rfl | hu)
    · exact hnodup.1 (hl.subset hq)
    · exact hi.not_used q (List.mem_cons_of_mem _ (hl.subset hq)) hu
  · exact fun q hq => hi.free_lt q (List.mem_cons_of_mem _ (hl.subset hq))
  · rintro q (rfl | hu)
    · exact hi.free_ne_null List.mem_cons_self
    · exact hi.used_pos q hu
  · rintro q (rfl | hu)
    · exact hi.free_lt _ List.mem_cons_self
    · exact hi.used_lt q hu

/-- Whatever cell behind the head becomes the head, a chain is left. -/
theorem pop {next : Ptr} (hi : AllocInv a h used fl) (hf : a.freeList ≠ nullptr)
    (hb : next = nullptr ∨ ∃ l, Chain (fun p => (h p).nextFree) nullptr (h a.freeList).nextFree l ∧
      next ∈ l) :
    ¬ used a.freeList ∧ ∃ fl', AllocInv { a with freeList := next } h
      (fun q => q = a.freeList ∨ used q) fl' := by
  obtain ⟨l, rfl, htail⟩ := hi.chain.exists_cons hf
  refine ⟨hi.not_used _ List.mem_cons_self, ?_⟩
  rcases hb with rfl | ⟨l', hl', hnext⟩
  · exact ⟨[], hi.detach (List.nil_sublist _) rfl⟩
  · obtain rfl := htail.unique hl'
    obtain ⟨l₁, l₂, rfl, hsuffix⟩ := htail.suffix hnext
    exact ⟨next :: l₂, hi.detach (List.sublist_append_right _ _) hsuffix⟩

/-- Taking the next slot of the current slab. -/
theorem fresh (hi : AllocInv a h used fl) (hlt : a.currentSlab.next < a.currentSlab.capacity) :
    ¬ used a.bound ∧
      AllocInv { a with currentSlab := { a.currentSlab with next := a.currentSlab.next + 1 } } h
        (fun q => q = a.bound ∨ used q) fl := by
  refine ⟨fun hu => absurd (hi.used_lt _ hu) (lt_irrefl _), hi.chain, hi.nodup, ?_, ?_, ?_, ?_,
    hi.base_pos, hlt, hi.grow_pos⟩
  · rintro q hq (rfl | hu)
    · exact absurd (hi.free_lt _ hq) (lt_irrefl _)
    · exact hi.not_used q hq hu
  · exact fun q hq => Nat.lt_succ_of_lt (hi.free_lt q hq)
  · rintro q (rfl | hu)
    · exact Nat.ne_of_gt (Nat.add_pos_left hi.base_pos _)
    · exact hi.used_pos q hu
  · rintro q (rfl | hu)
    · exact Nat.lt_succ_self _
    · exact Nat.lt_succ_of_lt (hi.used_lt q hu)

/-- Putting a linked node in front of the free list. -/
theorem push (hi : AllocInv a h used fl) (hp : used p) (hlink : (h p).nextFree = a.freeList)
    (hu : ∀ q, used' q → used q ∧ q ≠ p) :
    AllocInv { a with freeList := p } h used' (p :: fl) := by
  have hpf : p ∉ fl := fun hmem => hi.not_used p hmem hp
  refine ⟨⟨rfl, hi.used_pos p hp, ?_⟩, List.nodup_cons.mpr ⟨hpf, hi.nodup⟩, ?_, ?_,
    fun q hq => hi.used_pos q (hu q hq).1, fun q hq => hi.used_lt q (hu q hq).1, hi.base_pos,
    hi.next_le, hi.grow_pos⟩
  · show Chain _ nullptr (h p).nextFree fl
    rw [hlink]
    exact hi.chain
  · intro q hq hq'
    rcases List.mem_cons.mp hq with rfl | hq
    · exact (hu q hq').2 rfl
    · exact hi.not_used q hq (hu q hq').1
  · intro q hq
    rcases List.mem_cons.mp hq with rfl | hq
    · exact hi.used_lt q hp
    · exact hi.free_lt q hq

/-- **`allocate`.** It fails exactly when no slot is left; otherwise it resets a slot that was
not in use. -/
theorem allocate (hi : AllocInv a h used fl) (level : ℕ) (low high : Ptr) :
    (a.allocate h level low high = none ∧ a.slots fl = 0) ∨
      ∃ p a' fl', a.allocate h level low high = some (p, a', h.resetNode p level low high) ∧
        ¬ used p ∧ AllocInv a' (h.resetNode p level low high) (fun q => q = p ∨ used q) fl' ∧
        a'.slots fl' + 1 = a.slots fl ∧ (∀ q ∈ fl', q ∈ fl) ∧ p ∉ fl' ∧
        (p ∈ fl ∨ a.bound ≤ p) ∧ a'.nextSlabCapacity = a.nextSlabCapacity := by
  have hnext := hi.next_le
  have hbase := hi.base_pos
  by_cases hf : a.freeList = nullptr
  · have hnil : fl = [] := by
      have hc := hi.chain
      rw [hf] at hc
      exact chain_nil_iff.mp hc
    subst hnil
    rw [NodeAllocator.allocate, popFree, if_pos hf, slots]
    by_cases hlt : a.currentSlab.next < a.currentSlab.capacity
    · obtain ⟨hbound, hinv⟩ := hi.fresh hlt
      refine Or.inr ⟨a.bound,
        { a with currentSlab := { a.currentSlab with next := a.currentSlab.next + 1 } }, [], ?_,
        hbound, hinv.congr fun q hq => absurd hq (by simp), ?_, by simp, by simp, Or.inr le_rfl,
        rfl⟩
      · simp only [allocateFromSlab, if_pos hlt, bound]
      · simp only [slots, List.length_nil]
        omega
    · refine Or.inl ⟨by simp [allocateFromSlab, hlt], ?_⟩
      simp only [List.length_nil]
      omega
  · obtain ⟨l, rfl, htail⟩ := hi.chain.exists_cons hf
    have hhead := (List.nodup_cons.mp hi.nodup).1
    refine Or.inr ⟨a.freeList, { a with freeList := (h a.freeList).nextFree }, l, ?_,
      hi.not_used _ List.mem_cons_self, (hi.detach (List.Sublist.refl l) htail).congr ?_, ?_,
      fun q hq => List.mem_cons_of_mem _ hq, hhead, Or.inl List.mem_cons_self, rfl⟩
    · simp only [NodeAllocator.allocate, popFree, if_neg hf, Heap.resetNode_setNextFree]
    · intro q hq
      have hne : q ≠ a.freeList := fun he => hhead (he ▸ hq)
      rw [Heap.resetNode_of_ne hne]
    · simp only [slots, List.length_cons]
      omega

/-- The memory after `free(p)`: the node is cleared and linked to the old head. -/
theorem free_heap (hp : p ≠ nullptr) (q : Ptr) : (a.free h p).2 q =
    if q = p then { level := (h p).level, nextFree := a.freeList } else h q := by
  rw [NodeAllocator.free, if_neg hp]
  by_cases hq : q = p
  · simp [pushFree, Heap.setNextFree, Heap.clearNode, hq]
  · simp [pushFree, Heap.setNextFree, Heap.clearNode, Heap.modify_apply, hq]

/-- **`free(Node *)`.** The slot is no longer used and heads the free list. -/
theorem free (hi : AllocInv a h used fl) (hp : used p)
    (hu : ∀ q, used' q → used q ∧ q ≠ p) :
    AllocInv (a.free h p).1 (a.free h p).2 used' (p :: fl) := by
  have hp0 := hi.used_pos p hp
  have hfst : (a.free h p).1 = { a with freeList := p } := by
    rw [NodeAllocator.free, if_neg hp0, pushFree]
  have hheap : AllocInv a (a.free h p).2 used fl := hi.congr fun q hq => by
    have hne : q ≠ p := fun he => hi.not_used q hq (he ▸ hp)
    rw [free_heap hp0, if_neg hne]
  rw [hfst]
  refine hheap.push hp ?_ hu
  rw [free_heap hp0, if_pos rfl]

theorem freeAll_cons (a : NodeAllocator) (h : Heap) (p : Ptr) (l : List Ptr) :
    a.freeAll h (p :: l) = (a.free h p).1.freeAll (a.free h p).2 l := rfl

theorem free_fst (a : NodeAllocator) (h : Heap) (hp : p ≠ nullptr) :
    (a.free h p).1 = { a with freeList := p } := by
  rw [NodeAllocator.free, if_neg hp, pushFree]

/-- Freeing nodes changes these nodes and the head of the free list. -/
theorem freeAll_frame {l : List Ptr} (hnull : ∀ p ∈ l, p ≠ nullptr) :
    (∀ q, q ∉ l → (a.freeAll h l).2 q = h q) ∧
      (a.freeAll h l).1 = { a with freeList := (a.freeAll h l).1.freeList } := by
  induction l generalizing a h with
  | nil => exact ⟨fun _ _ => rfl, rfl⟩
  | cons p l ih =>
    have hp0 := hnull p List.mem_cons_self
    obtain ⟨hheap, hfst⟩ := ih (a := (a.free h p).1) (h := (a.free h p).2)
      fun q hq => hnull q (List.mem_cons_of_mem _ hq)
    rw [freeAll_cons]
    refine ⟨fun q hq => ?_, ?_⟩
    · rw [List.mem_cons, not_or] at hq
      rw [hheap q hq.2, free_heap hp0, if_neg hq.1]
    · rw [free_fst a h hp0] at hfst ⊢
      exact hfst

/-- Freeing nodes puts them on the free list, the last one in front. -/
theorem freeAll_chain {l : List Ptr}
    (hc : Chain (fun p => (h p).nextFree) nullptr a.freeList fl) (hnull : ∀ p ∈ l, p ≠ nullptr)
    (hdisj : ∀ p ∈ l, p ∉ fl) (hnodup : l.Nodup) :
    Chain (fun p => ((a.freeAll h l).2 p).nextFree) nullptr (a.freeAll h l).1.freeList
      (l.reverse ++ fl) := by
  induction l generalizing a h fl with
  | nil => exact hc
  | cons p l ih =>
    have hnd := List.nodup_cons.mp hnodup
    have hp0 := hnull p List.mem_cons_self
    have hpfl := hdisj p List.mem_cons_self
    have hlink : ∀ q ∈ fl, ((a.free h p).2 q).nextFree = (h q).nextFree := fun q hq => by
      have hne : q ≠ p := fun he => hpfl (he ▸ hq)
      rw [free_heap hp0, if_neg hne]
    have hhead : Chain (fun q => ((a.free h p).2 q).nextFree) nullptr (a.free h p).1.freeList
        (p :: fl) := by
      rw [free_fst a h hp0]
      refine ⟨rfl, hp0, ?_⟩
      have hnext : ((a.free h p).2 p).nextFree = a.freeList := by rw [free_heap hp0, if_pos rfl]
      show Chain (fun q => ((a.free h p).2 q).nextFree) nullptr ((a.free h p).2 p).nextFree fl
      rw [hnext]
      exact hc.congr hlink
    have happ : l.reverse ++ p :: fl = (p :: l).reverse ++ fl := by simp
    rw [freeAll_cons, ← happ]
    refine ih hhead (fun q hq => hnull q (List.mem_cons_of_mem _ hq)) (fun q hq hmem => ?_) hnd.2
    rcases List.mem_cons.mp hmem with rfl | hmem
    · exact hnd.1 hq
    · exact hdisj q (List.mem_cons_of_mem _ hq) hmem

/-- **`free(const std::vector<Node *> &)`.** The last node of the vector ends up in front. -/
theorem freeAll {l : List Ptr} (hi : AllocInv a h used fl) (hl : ∀ p ∈ l, used p)
    (hnodup : l.Nodup) :
    AllocInv (a.freeAll h l).1 (a.freeAll h l).2 (fun q => used q ∧ q ∉ l) (l.reverse ++ fl) := by
  have hnull : ∀ p ∈ l, p ≠ nullptr := fun p hp => hi.used_pos p (hl p hp)
  have hdisj : ∀ p ∈ l, p ∉ fl := fun p hp hmem => hi.not_used p hmem (hl p hp)
  have hchain := freeAll_chain hi.chain hnull hdisj hnodup
  rw [(freeAll_frame (a := a) (h := h) hnull).2] at hchain ⊢
  refine ⟨hchain, ?_, fun q hq hu => ?_, fun q hq => ?_, fun q hq => hi.used_pos q hq.1,
    fun q hq => hi.used_lt q hq.1, hi.base_pos, hi.next_le, hi.grow_pos⟩
  · exact (List.nodup_reverse.mpr hnodup).append hi.nodup fun p hp hmem =>
      hdisj p (List.mem_reverse.mp hp) hmem
  · rcases List.mem_append.mp hq with hq | hq
    · exact hu.2 (List.mem_reverse.mp hq)
    · exact hi.not_used q hq hu.1
  · rcases List.mem_append.mp hq with hq | hq
    · exact hi.used_lt q (hl q (List.mem_reverse.mp hq))
    · exact hi.free_lt q hq

/-- **`grow`.** A fresh slab; what the old one had left is given up. -/
theorem grow (hi : AllocInv a h used fl) :
    AllocInv a.grow h used fl ∧ a.grow.slots fl = fl.length + a.nextSlabCapacity := by
  have hnext := hi.next_le
  have hbase := hi.base_pos
  have hbound : a.bound ≤ a.grow.bound := by
    simp only [bound, NodeAllocator.grow]
    omega
  refine ⟨⟨hi.chain, hi.nodup, hi.not_used, fun p hp => ?_, hi.used_pos, fun p hp => ?_, ?_, ?_,
    ?_⟩, ?_⟩
  · exact lt_of_lt_of_le (hi.free_lt p hp) hbound
  · exact lt_of_lt_of_le (hi.used_lt p hp) hbound
  · simp only [NodeAllocator.grow]
    omega
  · exact Nat.zero_le _
  · exact lt_of_lt_of_le Nat.one_pos (le_max_right _ _)
  · simp [slots, NodeAllocator.grow]

/-- The constructor's allocator uses nothing and has every slot of its slab left. -/
theorem new (initialCapacity : ℕ) (h : Heap) :
    AllocInv (.new initialCapacity) h (fun _ => False) [] ∧
      (NodeAllocator.new initialCapacity).slots [] = max 1 initialCapacity := by
  refine ⟨⟨rfl, List.nodup_nil, by simp, by simp, by simp, by simp, ?_, ?_, ?_⟩, ?_⟩
  · exact Nat.one_pos
  · exact Nat.zero_le _
  · exact lt_of_lt_of_le Nat.one_pos (le_max_right _ _)
  · simp [slots, NodeAllocator.new]

end AllocInv

end NodeAllocator

end Nanobdd
