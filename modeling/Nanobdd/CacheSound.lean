import Nanobdd.Machine

/-!
# Cache entries that tell the truth

`WellFormed D P s` is the state the operators start from: a reduced ordered table, and a cache
in which every entry for an operator in `D` names stored nodes and the right result. Entries for
the other operators may be anything. A lookup for an operator in `D` then never misleads, for
every size of the cache and every pattern of collisions: an entry is compared with the operator
and both operands before it is believed.

## Main results

* `WellFormed.cacheLookup`, `WellFormed.cacheInsert` — the two calls of the cache
* `terminal_sound` — the terminal tests answer correctly
* `expandsAt_topLevel` — where they do not answer, the operands can be expanded
-/

namespace Nanobdd

open BoolFun

variable {D : Operator → Prop} {P : Platform} {s s' : State} {op : Operator} {x y r p : Ptr}
  {f f' g g' : BoolFun}

namespace Operator

/-- What the recursion of an operator computes away from its terminal tests: `bddImp` recurses
into `bddDiff`. -/
def computes : Operator → Bool → Bool → Bool
  | imp => diff.connective
  | op => op.connective

/-- The same for Boolean functions. -/
def result (op : Operator) (f g : BoolFun) : BoolFun := map₂ op.computes f g

theorem computes_of_ne_imp (h : op ≠ imp) : op.computes = op.connective := by
  cases op <;> first | rfl | exact absurd rfl h

theorem result_child (op : Operator) (f g : BoolFun) : op.child.result f g = op.result f g := by
  cases op <;> rfl

/-- Negation does not look at its second operand. -/
theorem result_congr (hf : f = f') (hg : op ≠ not → g = g') : op.result f g = op.result f' g' := by
  subst hf
  by_cases hop : op = not
  · subst hop
    rfl
  · rw [hg hop]

theorem result_comm (hc : isCommutativeOperator op = true) (hn : op ≠ not) :
    op.result f g = op.result g f := by
  funext a
  cases op with
  | and => exact Bool.and_comm _ _
  | or => exact Bool.or_comm _ _
  | not => exact absurd rfl hn
  | xor => exact Bool.xor_comm _ _
  | diff => simp [isCommutativeOperator, toNat] at hc
  | imp => simp [isCommutativeOperator, toNat] at hc

theorem cofactor_result (v : ℕ) (b : Bool) :
    cofactor v b (op.result f g) = op.result (cofactor v b f) (cofactor v b g) := rfl

end Operator

/-! ### Single entries -/

theorem LockFreeCacheEntry.answers_iff {e : LockFreeCacheEntry} {left right : Ptr} :
    e.answers left right op = true ↔ e.op = op ∧ ((e.left = left ∧ e.right = right) ∨
      (isCommutativeOperator op = true ∧ e.left = right ∧ e.right = left)) := by
  simp only [answers, Bool.and_eq_true, Bool.or_eq_true, beq_iff_eq, Bool.not_eq_true']
  cases isCommutativeOperator op <;> simp

namespace LockFreeCache

variable {c : LockFreeCache} {hash : ℕ} {left right : Ptr}

/-- A lookup returns the node of an entry that answers it, or misses. -/
theorem lookup_fst (h : (c.lookup hash left right op).1 ≠ nullptr) :
    (c.lookup hash left right op).1 = (c.entry hash).node ∧
      (c.entry hash).answers left right op = true := by
  rw [lookup] at h ⊢
  split at h
  · exact absurd rfl h
  · split at h
    · exact absurd rfl h
    · next hnode huse =>
      rw [if_neg hnode, if_neg huse]
      simp only at h ⊢
      split at h
      · next hans => exact ⟨if_pos hans, hans⟩
      · exact absurd rfl h

end LockFreeCache

namespace State

/-- The entry names stored nodes and the right result. -/
structure EntrySound (s : State) (e : LockFreeCacheEntry) : Prop where
  left_mem : e.left ∈ s.stored
  right_mem : e.op ≠ .not → e.right ∈ s.stored
  node_mem : e.node ∈ s.stored
  denote_eq : s.denote e.node = e.op.result (s.denote e.left) (s.denote e.right)

/-- A reduced ordered table, and a cache that is sound for the operators in `D`. -/
structure WellFormed (D : Operator → Prop) (P : Platform) (s : State) : Prop
    extends Robdd P s where
  cache : ∃ c, s.cache = some c ∧
    ∀ i < c.size, (c.entry i).node ≠ nullptr → D (c.entry i).op → s.EntrySound (c.entry i)

theorem WellFormed.mono {D' : Operator → Prop} (h : WellFormed D P s) (hD : ∀ op, D' op → D op) :
    WellFormed D' P s := by
  obtain ⟨c, hc, hsound⟩ := h.cache
  exact ⟨h.toRobdd, c, hc, fun i hi hn hop => hsound i hi hn (hD _ hop)⟩

/-- The operands of a call are stored nodes; negation has only one. -/
structure Operands (A : Set Ptr) (op : Operator) (x y : Ptr) : Prop where
  left : x ∈ A
  right : op ≠ .not → y ∈ A

/-- An entry that answers a query about stored nodes answers it truly. -/
theorem EntrySound.answers {e : LockFreeCacheEntry} (h : Robdd P s) (he : s.EntrySound e)
    (ho : Operands {p | p ∈ s.stored} op x y) (ha : e.answers x (op.right y) op = true) :
    s.denote e.node = op.result (s.denote x) (s.denote y) := by
  obtain ⟨hop, hmatch⟩ := LockFreeCacheEntry.answers_iff.mp ha
  rw [he.denote_eq, hop]
  rcases hmatch with ⟨hl, hr⟩ | ⟨hc, hl, hr⟩
  · refine Operator.result_congr (by rw [hl]) fun hn => ?_
    rw [hr]
    cases op <;> first | rfl | exact absurd rfl hn
  · by_cases hn : op = .not
    · -- the left operand of an entry is stored, and negation asks with a null pointer
      subst hn
      exact absurd hl (h.ne_null he.left_mem)
    · have hy : op.right y = y := by cases op <;> first | rfl | exact absurd rfl hn
      rw [hl, hr, hy]
      exact Operator.result_comm hc hn

/-! ### Changes to the cache only -/

/-- The two states differ at most in the cache and the clock. -/
def SameTable (s s' : State) : Prop := ∃ c t, s' = { s with cache := c, clock := t }

theorem SameTable.extends (h : SameTable s s') : Extends s s' := by
  obtain ⟨c, t, rfl⟩ := h
  exact ⟨⟨rfl, rfl, rfl, rfl⟩, fun _ hp => hp, fun _ _ => rfl⟩

theorem SameTable.stored_eq (h : SameTable s s') : s'.stored = s.stored := by
  obtain ⟨c, t, rfl⟩ := h
  rfl

theorem SameTable.heap_eq (h : SameTable s s') : s'.heap = s.heap := by
  obtain ⟨c, t, rfl⟩ := h
  rfl

theorem SameTable.denote_eq (h : SameTable s s') : s'.denote = s.denote := by
  obtain ⟨c, t, rfl⟩ := h
  rfl

theorem SameTable.freeSlots_eq (h : SameTable s s') : s'.freeSlots = s.freeSlots := by
  obtain ⟨c, t, rfl⟩ := h
  rfl

theorem SameTable.robdd (h : SameTable s s') (hr : Robdd P s) : Robdd P s' := by
  obtain ⟨c, t, rfl⟩ := h
  have hh := hr.hashed
  exact ⟨⟨⟨hh.size_pos, hh.placed, hh.nodup, hh.unique⟩, hr.alloc⟩, hr.false_mem, hr.true_mem,
    hr.false_node, hr.true_node, hr.low_mem, hr.high_mem, hr.low_ne_high, hr.lt_low, hr.lt_high,
    hr.level_lt⟩

theorem hashVal_lt (P : Platform) (c : LockFreeCache) (op : Operator) (x y : Ptr) :
    hashVal P c op x y < c.size := by
  cases op <;> exact Nat.mod_lt _ c.size_pos

/-- A lookup leaves no trace. -/
theorem cacheLookup_eq {c : LockFreeCache} (hc : s.cache = some c) (P : Platform) (op : Operator)
    (x y : Ptr) : s.cacheLookup P op x y = some ((c.lookup (hashVal P c op x y) x y op).1, s) := by
  have hs : ({ s with cache := some c } : State) = s := by rw [← hc]
  rw [State.cacheLookup, hc]
  simp only [Option.map_some, LockFreeCache.lookup_snd, hs]

/-- **A lookup never misleads.** -/
theorem WellFormed.cacheLookup (h : WellFormed D P s) (hop : D op)
    (ho : Operands {p | p ∈ s.stored} op x y) :
    ∃ r, s.cacheLookup P op x (op.right y) = some (r, s) ∧
      (r ≠ nullptr → r ∈ s.stored ∧ s.denote r = op.result (s.denote x) (s.denote y)) := by
  obtain ⟨c, hc, hsound⟩ := h.cache
  refine ⟨_, cacheLookup_eq hc P op x (op.right y), fun hr => ?_⟩
  obtain ⟨hnode, hans⟩ := LockFreeCache.lookup_fst hr
  have hop' := (LockFreeCacheEntry.answers_iff.mp hans).1
  have hentry := hsound _ (hashVal_lt P c op x (op.right y)) (hnode ▸ hr) (by rw [hop']; exact hop)
  rw [hnode]
  exact ⟨hentry.node_mem, hentry.answers h.toRobdd ho hans⟩

/-- **An insertion of a true result keeps the cache sound**, whatever it overwrites. -/
theorem WellFormed.cacheInsert (h : WellFormed D P s) (ho : Operands {p | p ∈ s.stored} op x y)
    (hr : r ∈ s.stored) (hd : s.denote r = op.result (s.denote x) (s.denote y)) :
    ∃ s', s.cacheInsert P op r x (op.right y) = some s' ∧ SameTable s s' ∧ WellFormed D P s' := by
  obtain ⟨c, hc, hsound⟩ := h.cache
  set c' := c.insert (P.fails s.clock) (hashVal P c op x (op.right y)) r x (op.right y) op with hc'
  have hsame : SameTable s { s with cache := some c', clock := s.clock + 1 } := ⟨_, _, rfl⟩
  refine ⟨_, by rw [State.cacheInsert, hc]; rfl, hsame, hsame.robdd h.toRobdd, c', rfl,
    fun i hi hnode hD => ?_⟩
  have hold : ∀ j, c'.entry j = c.entry j →
      j < c.size → (c'.entry j).node ≠ nullptr → D (c'.entry j).op →
      State.EntrySound { s with cache := some c', clock := s.clock + 1 } (c'.entry j) := by
    intro j hj hlt hnode hD
    rw [hj] at hnode hD ⊢
    have he := hsound j hlt hnode hD
    exact ⟨he.left_mem, he.right_mem, he.node_mem, he.denote_eq⟩
  have hsize : c'.size = c.size := by
    rw [hc', LockFreeCache.insert]
    split <;> rfl
  by_cases hwrite : (c.entry (hashVal P c op x (op.right y))).useCount = 0 ∧ P.fails s.clock = false
  · by_cases hj : i = hashVal P c op x (op.right y)
    · have hentry : c'.entry i = { node := r, left := x, right := op.right y, op := op } := by
        rw [hc', LockFreeCache.insert, if_pos hwrite, LockFreeCache.setEntry_entry, if_pos hj]
      rw [hentry]
      refine ⟨ho.left, fun hn => ?_, hr, ?_⟩
      · have hy : op.right y = y := by cases op <;> first | rfl | exact absurd rfl hn
        rw [hy]
        exact ho.right hn
      · refine hd.trans (Operator.result_congr rfl fun hn => ?_)
        have hy : op.right y = y := by cases op <;> first | rfl | exact absurd rfl hn
        rw [hy]
        rfl
    · refine hold i ?_ (hsize ▸ hi) hnode hD
      rw [hc', LockFreeCache.insert, if_pos hwrite, LockFreeCache.setEntry_entry, if_neg hj]
  · refine hold i ?_ (hsize ▸ hi) hnode hD
    rw [hc', LockFreeCache.insert, if_neg hwrite]

/-- Entries stay sound in a state that has all nodes of the old one. -/
theorem EntrySound.extends {e : LockFreeCacheEntry} (h : Robdd P s) (he : s.EntrySound e)
    (hx : Extends s s') : s'.EntrySound e where
  left_mem := hx.mem _ he.left_mem
  right_mem hn := hx.mem _ (he.right_mem hn)
  node_mem := hx.mem _ he.node_mem
  denote_eq := by
    rw [h.denote_eq hx.agrees he.node_mem, he.denote_eq]
    exact Operator.result_congr (h.denote_eq hx.agrees he.left_mem).symm fun hn =>
      (h.denote_eq hx.agrees (he.right_mem hn)).symm

theorem Recounted.wellFormed (h : Recounted s s') (hw : WellFormed D P s) :
    WellFormed D P s' := by
  have hd : ∀ p ∈ s.stored, s'.denote p = s.denote p := fun p hp =>
    hw.toRobdd.denote_eq h.agrees hp
  obtain ⟨c, hc, hsound⟩ := hw.cache
  refine ⟨h.robdd hw.toRobdd, c, h.cache.trans hc, fun i hi hn hop => ?_⟩
  obtain ⟨hl, hr, hnode, he⟩ := hsound i hi hn hop
  rw [← h.stored_eq] at hl hr hnode
  refine ⟨hl, hr, hnode, ?_⟩
  rw [h.stored_eq] at hl hr hnode
  rw [hd _ hnode, he]
  exact Operator.result_congr (hd _ hl).symm fun hne => (hd _ (hr hne)).symm

/-! ### The terminal tests -/

theorem isFalse_iff : s.isFalse p = true ↔ p = s.falseNode := beq_iff_eq

theorem isTrue_iff : s.isTrue p = true ↔ p = s.trueNode := beq_iff_eq

/-- What the terminal tests answer with is an operand or a terminal. -/
theorem terminal_mem (ho : Operands {p | p ∈ s.stored} op x y) (hf : s.falseNode ∈ s.stored)
    (htr : s.trueNode ∈ s.stored) (ht : s.terminal op x y = some r) : r ∈ s.stored := by
  have hx : x ∈ s.stored := ho.left
  have hy : op ≠ .not → y ∈ s.stored := ho.right
  cases op <;>
    simp only [terminal, andTerminal, orTerminal, notTerminal, xorTerminal, diffTerminal,
      impTerminal] at ht <;> grind

theorem andTerminal_sound (h : Robdd P s) (hx : x ∈ s.stored) (hy : y ∈ s.stored)
    (ht : s.andTerminal x y = some r) :
    r ∈ s.stored ∧ s.denote r = map₂ Operator.and.connective (s.denote x) (s.denote y) := by
  have hf := h.denote_false
  have htr := h.denote_true
  simp only [andTerminal, Bool.or_eq_true, isFalse_iff, isTrue_iff] at ht
  split at ht
  · next he =>
    cases ht
    exact ⟨hx, funext fun a => by rw [← he]; exact (Bool.and_self _).symm⟩
  split at ht
  · next hxy =>
    cases ht
    refine ⟨h.false_mem, funext fun a => ?_⟩
    rcases hxy with rfl | rfl <;> simp [map₂, Operator.connective, hf]
  split at ht
  · next hxt =>
    cases ht
    exact ⟨hy, funext fun a => by simp [map₂, Operator.connective, hxt, htr]⟩
  split at ht
  · next hyt =>
    cases ht
    exact ⟨hx, funext fun a => by simp [map₂, Operator.connective, hyt, htr]⟩
  · simp at ht

theorem orTerminal_sound (h : Robdd P s) (hx : x ∈ s.stored) (hy : y ∈ s.stored)
    (ht : s.orTerminal x y = some r) :
    r ∈ s.stored ∧ s.denote r = map₂ Operator.or.connective (s.denote x) (s.denote y) := by
  have hf := h.denote_false
  have htr := h.denote_true
  simp only [orTerminal, Bool.or_eq_true, isFalse_iff, isTrue_iff] at ht
  split at ht
  · next he =>
    cases ht
    exact ⟨hx, funext fun a => by rw [← he]; exact (Bool.or_self _).symm⟩
  split at ht
  · next hxy =>
    cases ht
    refine ⟨h.true_mem, funext fun a => ?_⟩
    rcases hxy with rfl | rfl <;> simp [map₂, Operator.connective, htr]
  split at ht
  · next hxf =>
    cases ht
    exact ⟨hy, funext fun a => by simp [map₂, Operator.connective, hxf, hf]⟩
  split at ht
  · next hyf =>
    cases ht
    exact ⟨hx, funext fun a => by simp [map₂, Operator.connective, hyf, hf]⟩
  · simp at ht

theorem xorTerminal_sound (h : Robdd P s) (hx : x ∈ s.stored) (hy : y ∈ s.stored)
    (ht : s.xorTerminal x y = some r) :
    r ∈ s.stored ∧ s.denote r = map₂ Operator.xor.connective (s.denote x) (s.denote y) := by
  have hf := h.denote_false
  simp only [xorTerminal, isFalse_iff] at ht
  split at ht
  · next he =>
    cases ht
    exact ⟨h.false_mem, funext fun a => by simp [map₂, Operator.connective, hf, he]⟩
  split at ht
  · next hxf =>
    cases ht
    exact ⟨hy, funext fun a => by simp [map₂, Operator.connective, hxf, hf]⟩
  split at ht
  · next hyf =>
    cases ht
    exact ⟨hx, funext fun a => by simp [map₂, Operator.connective, hyf, hf]⟩
  · simp at ht

theorem diffTerminal_sound (h : Robdd P s) (hx : x ∈ s.stored) (ht : s.diffTerminal x y = some r) :
    r ∈ s.stored ∧ s.denote r = map₂ Operator.diff.connective (s.denote x) (s.denote y) := by
  have hf := h.denote_false
  have htr := h.denote_true
  simp only [diffTerminal, Bool.or_eq_true, isFalse_iff, isTrue_iff, decide_eq_true_eq] at ht
  split at ht
  · next hcase =>
    cases ht
    refine ⟨h.false_mem, funext fun a => ?_⟩
    rcases hcase with (he | hxf) | hyt
    · simp [map₂, Operator.connective, hf, he]
    · simp [map₂, Operator.connective, hf, hxf]
    · simp [map₂, Operator.connective, hf, hyt, htr]
  split at ht
  · next hyf =>
    cases ht
    exact ⟨hx, funext fun a => by simp [map₂, Operator.connective, hyf, hf]⟩
  · simp at ht

theorem notTerminal_sound (h : Robdd P s) (ht : s.notTerminal x = some r) :
    r ∈ s.stored ∧ s.denote r = map₂ Operator.not.connective (s.denote x) (s.denote y) := by
  have hf := h.denote_false
  have htr := h.denote_true
  simp only [notTerminal, isFalse_iff, isTrue_iff] at ht
  split at ht
  · next hxt =>
    cases ht
    exact ⟨h.false_mem, funext fun a => by simp [map₂, Operator.connective, hf, hxt, htr]⟩
  split at ht
  · next hxf =>
    cases ht
    exact ⟨h.true_mem, funext fun a => by simp [map₂, Operator.connective, hf, hxf, htr]⟩
  · simp at ht

theorem impTerminal_sound (h : Robdd P s) (hy : y ∈ s.stored) (ht : s.impTerminal x y = some r) :
    r ∈ s.stored ∧ s.denote r = map₂ Operator.imp.connective (s.denote x) (s.denote y) := by
  have hf := h.denote_false
  have htr := h.denote_true
  simp only [impTerminal, Bool.or_eq_true, isFalse_iff, isTrue_iff] at ht
  split at ht
  · next hcase =>
    cases ht
    refine ⟨h.true_mem, funext fun a => ?_⟩
    rcases hcase with hxf | hyt
    · simp [map₂, Operator.connective, hf, hxf, htr]
    · simp [map₂, Operator.connective, hyt, htr]
  split at ht
  · next hxt =>
    cases ht
    exact ⟨hy, funext fun a => by simp [map₂, Operator.connective, hxt, htr]⟩
  · simp at ht

/-- **The terminal tests answer correctly.** -/
theorem terminal_sound (h : Robdd P s) (ho : Operands {p | p ∈ s.stored} op x y)
    (ht : s.terminal op x y = some r) :
    r ∈ s.stored ∧ s.denote r = map₂ op.connective (s.denote x) (s.denote y) := by
  have hx : x ∈ s.stored := ho.left
  cases op with
  | and => exact andTerminal_sound h hx (ho.right (by simp)) ht
  | or => exact orTerminal_sound h hx (ho.right (by simp)) ht
  | xor => exact xorTerminal_sound h hx (ho.right (by simp)) ht
  | diff => exact diffTerminal_sound h hx ht
  | not => exact notTerminal_sound h ht
  | imp => exact impTerminal_sound h (ho.right (by simp)) ht

/-- A terminal lies above every inner node, so two operands that are not both terminals can be
expanded at the smaller of their levels. -/
theorem expandsAt_minLevel (h : Capped s) (hx : x ∈ s.stored) (hy : y ∈ s.stored)
    (hin : s.Inner x ∨ s.Inner y) :
    Robdd.ExpandsAt s (s.minLevel x y) x ∧ Robdd.ExpandsAt s (s.minLevel x y) y ∧
      s.minLevel x y < uintMax - 1 := by
  have hterm : ∀ q ∈ s.stored, ¬ s.Inner q → uintMax - 1 ≤ (s.heap q).level := by
    intro q _ hq
    rw [Inner, not_and_or, not_not, not_not] at hq
    rcases hq with rfl | rfl
    · rw [h.false_level]
      exact Nat.sub_le _ _
    · exact h.true_level.ge
  have hmin : s.minLevel x y < uintMax - 1 := by
    rcases hin with hi | hi
    · exact lt_of_le_of_lt (min_le_left _ _) (h.inner_lt x hx hi)
    · exact lt_of_le_of_lt (min_le_right _ _) (h.inner_lt y hy hi)
  have hone : ∀ q ∈ s.stored, s.minLevel x y ≤ (s.heap q).level →
      Robdd.ExpandsAt s (s.minLevel x y) q := by
    intro q hq hle
    by_cases hi : s.Inner q
    · rcases Nat.lt_or_eq_of_le hle with hlt | he
      · exact Or.inl hlt
      · exact Or.inr ⟨he, hi⟩
    · exact Or.inl (lt_of_lt_of_le hmin (hterm q hq hi))
  exact ⟨hone x hx (min_le_left _ _), hone y hy (min_le_right _ _), hmin⟩

/-- **Where the terminal tests give no answer the operands can be expanded.** -/
theorem expandsAt_topLevel (h : Capped s) (ho : Operands {p | p ∈ s.stored} op x y)
    (ht : s.terminal op x y = none) :
    Robdd.ExpandsAt s (s.topLevel op x y) x ∧
      (op ≠ .not → Robdd.ExpandsAt s (s.topLevel op x y) y) ∧ s.topLevel op x y < uintMax - 1 := by
  have hx : x ∈ s.stored := ho.left
  have hbin : op ≠ .not → (s.Inner x ∨ s.Inner y) → s.topLevel op x y = s.minLevel x y →
      Robdd.ExpandsAt s (s.topLevel op x y) x ∧
        (op ≠ .not → Robdd.ExpandsAt s (s.topLevel op x y) y) ∧
          s.topLevel op x y < uintMax - 1 := by
    intro hn hin htop
    obtain ⟨h₁, h₂, h₃⟩ := expandsAt_minLevel h hx (ho.right hn) hin
    rw [htop]
    exact ⟨h₁, fun _ => h₂, h₃⟩
  cases op with
  | and =>
    simp only [terminal, andTerminal, Bool.or_eq_true, isFalse_iff, isTrue_iff] at ht
    exact hbin (by simp) (Or.inl (by rw [Inner]; grind)) rfl
  | or =>
    simp only [terminal, orTerminal, Bool.or_eq_true, isFalse_iff, isTrue_iff] at ht
    exact hbin (by simp) (Or.inl (by rw [Inner]; grind)) rfl
  | xor =>
    simp only [terminal, xorTerminal, isFalse_iff] at ht
    exact hbin (by simp) (by rw [Inner, Inner]; grind) rfl
  | diff =>
    simp only [terminal, diffTerminal, Bool.or_eq_true, isFalse_iff, isTrue_iff,
      decide_eq_true_eq] at ht
    exact hbin (by simp) (Or.inr (by rw [Inner]; grind)) rfl
  | not =>
    simp only [terminal, notTerminal, isFalse_iff, isTrue_iff] at ht
    have hin : s.Inner x := by rw [Inner]; grind
    exact ⟨Or.inr ⟨rfl, hin⟩, fun hn => absurd rfl hn, h.inner_lt x hx hin⟩
  | imp =>
    simp only [terminal, impTerminal, Bool.or_eq_true, isFalse_iff, isTrue_iff] at ht
    exact hbin (by simp) (Or.inl (by rw [Inner]; grind)) rfl

end State

end Nanobdd
