import Nanobdd.Init
import Nanobdd.Apply

/-!
# What `init` builds

The constructor stores the two terminals, and each `createVar` two more nodes. A small table runs
out of slots on the way, so collections and new slabs happen while the variables are created;
they do no harm, because every node is referenced before the next slot is asked for.

## Main definitions

* `permanent` — how often the table itself references a node
* `Ready` — the state after `init`

## Main results

* `Obtained` and `WellFormed.getOrCreateNode` — `getOrCreateNode` while all nodes are live
* `ready_of_init` — **`init` builds a well-formed state**
-/

namespace Nanobdd

variable {D : Operator → Prop} {P : Platform} {s s' : State} {p q r low high : Ptr}
  {fuel level n : ℕ}

namespace State

/-! ### Live nodes -/

theorem Swept.extends_of_live (hs : Swept P s s') (hlive : ∀ p ∈ s.stored, s.Live p) :
    Extends s s' := by
  have hmem : ∀ p ∈ s.stored, p ∈ s'.stored := fun p hp => (hs.mem_iff p).mpr ⟨hp, hlive p hp⟩
  exact ⟨hs.roots, hmem, fun p hp => hs.heap_eq p (hmem p hp)⟩

theorem Swept.unmarked (hs : Swept P s s') (hu : s.Unmarked) : s'.Unmarked := fun p hp => by
  rw [hs.heap_eq p hp]
  exact hu p ((hs.mem_iff p).mp hp).1

theorem WellFormed.swept (hw : WellFormed D P s) (hs : Swept P s s') (hf : s.Live s.falseNode)
    (ht : s.Live s.trueNode) : WellFormed D P s' := by
  obtain ⟨c, -, hcache⟩ := hs.cache
  exact ⟨hw.toRobdd.swept hs hf ht, c.invalidateAll, hcache, fun i _ hn => absurd rfl hn⟩

/-- What `getOrCreateNode` has done when it returns `r`. -/
structure Obtained (D : Operator → Prop) (P : Platform) (s s' : State) (r : Ptr) (level : ℕ)
    (low high : Ptr) : Prop where
  wf : WellFormed D P s'
  «extends» : Extends s s'
  unmarked : s'.Unmarked
  nodeCount : s'.nodeCount = s'.stored.length
  mem : r ∈ s'.stored
  key : (s'.heap r).level = level ∧ (s'.heap r).low = low ∧ (s'.heap r).high = high
  fresh : ∀ p ∈ s'.stored, p ∈ s.stored ∨ (p = r ∧ (s'.heap p).refCount = 0)

/-- **`getOrCreateNode` while all nodes are live**, with maintenance if it takes place. -/
theorem WellFormed.getOrCreateNode : ∀ {fuel : ℕ} {s : State}, WellFormed D P s → s.Unmarked →
    s.nodeCount = s.stored.length → (∀ p ∈ s.stored, s.Live p) → low ∈ s.stored →
    high ∈ s.stored → low ≠ high → level < (s.heap low).level → level < (s.heap high).level →
    s.getOrCreateNode P fuel level low high = some (r, s') →
    Obtained D P s s' r level low high := by
  intro fuel
  induction fuel with
  | zero => intro s _ _ _ _ _ _ _ _ _ h; simp [State.getOrCreateNode] at h
  | succ fuel ih =>
    intro s hw hu hn hlive hlow hhigh hne hll hlh h
    rcases hw.toStore.getOrCreateOnce level low high with
      ⟨p, hp, hkey, hsome⟩ | ⟨-, ⟨hfails, -⟩ | ⟨p, t, hcr, hsome⟩⟩
    · rw [getOrCreateNode_of_once hsome] at h
      cases h
      exact ⟨hw, Extends.refl _, hu, hn, hp, hkey, fun q hq => Or.inl hq⟩
    · rw [getOrCreateNode_of_allocFails hfails, Option.bind_eq_some_iff] at h
      obtain ⟨t, ht, h⟩ := h
      obtain ⟨c, hc, -⟩ := hw.cache
      obtain ⟨hswept, -, -⟩ := hw.toStore.performMaintenance hw.closed hu hc ht
      have hx := hswept.extends_of_live hlive
      have hlive' : ∀ p ∈ t.stored, t.Live p := fun p hp =>
        hx.live hw.closed ((hswept.mem_iff p).mp hp).2
      have hw' := hw.swept hswept (hlive _ hw.false_mem) (hlive _ hw.true_mem)
      have hob := ih hw' (hswept.unmarked hu) (hswept.nodeCount hn) hlive' (hx.mem _ hlow)
        (hx.mem _ hhigh) hne (by rw [hx.heap_eq _ hlow]; exact hll)
        (by rw [hx.heap_eq _ hhigh]; exact hlh) h
      exact { hob with
        «extends» := hx.trans hob.extends
        fresh := fun p hp => (hob.fresh p hp).imp_left fun hpt => ((hswept.mem_iff p).mp hpt).1 }
    · rw [getOrCreateNode_of_once hsome] at h
      cases h
      have hr' := hw.toRobdd.created hcr hlow hhigh hne hll hlh
      have hcase : ∀ q ∈ s'.stored, q = r ∨ q ∈ s.stored := fun q hq =>
        List.mem_cons.mp (hcr.perm.mem_iff.mp hq)
      refine ⟨hw.extends_cache hcr.extends hr' hcr.cache, hcr.extends, fun q hq => ?_, ?_, hcr.mem,
        by rw [hcr.node]; exact ⟨rfl, rfl, rfl⟩, fun q hq => ?_⟩
      · rcases hcase q hq with rfl | hqs
        · rw [hcr.node]
        · rw [hcr.heap_eq hqs]
          exact hu q hqs
      · rw [hcr.nodeCount, hcr.perm.length_eq, hn, List.length_cons]
      · rcases hcase q hq with rfl | hqs
        · exact Or.inr ⟨rfl, by rw [hcr.node]⟩
        · exact Or.inl hqs

/-! ### Permanent references -/

/-- How often the table itself references a node. -/
def permanent (s : State) (p : Ptr) : ℕ :=
  [s.falseNode, s.trueNode].count p + s.vars.count p + s.nvars.count p

theorem permanent_pos_iff : 0 < s.permanent p ↔
    p = s.falseNode ∨ p = s.trueNode ∨ p ∈ s.vars ∨ p ∈ s.nvars := by
  simp only [permanent, Nat.add_pos_iff_pos_or_pos, List.count_pos_iff, List.mem_cons,
    List.not_mem_nil, or_false]
  tauto

theorem SameRoots.permanent_eq (h : SameRoots s s') : s'.permanent p = s.permanent p := by
  rw [permanent, permanent, h.falseNode, h.trueNode, h.vars, h.nvars]

/-- Every stored node is permanent, and its counter counts that only. -/
structure Base (P : Platform) (s : State) : Prop where
  wf : WellFormed (fun _ => True) P s
  unmarked : s.Unmarked
  nodeCount : s.nodeCount = s.stored.length
  counted : ∀ p ∈ s.stored, (s.heap p).refCount = s.permanent p
  mem_iff : ∀ p, p ∈ s.stored ↔ 0 < s.permanent p

theorem Base.live (h : Base P s) (hp : p ∈ s.stored) : s.Live p := by
  refine Live.of_refCount hp ?_
  rw [h.counted p hp]
  exact Nat.ne_of_gt ((h.mem_iff p).mp hp)

/-- One more permanent node. -/
theorem Base.obtained (h : Base P s) {t : State}
    (hob : Obtained (fun _ => True) P s t r level low high) (hfresh : r ∉ s.stored)
    (hre : Recounted t s') (hheap : s'.heap = t.heap.ref r)
    (hperm : ∀ p, s'.permanent p = s.permanent p + if p = r then 1 else 0) : Base P s' := by
  have hzero : s.permanent r = 0 := by
    by_contra hne
    exact hfresh ((h.mem_iff r).mpr (Nat.pos_of_ne_zero hne))
  have hcase : ∀ p, p ∈ t.stored ↔ p ∈ s.stored ∨ p = r := fun p => by
    constructor
    · exact fun hp => (hob.fresh p hp).imp_right And.left
    · rintro (hp | rfl)
      · exact hob.extends.mem p hp
      · exact hob.mem
  refine ⟨hre.wellFormed hob.wf, hre.unmarked hob.unmarked, ?_, fun p hp => ?_, fun p => ?_⟩
  · rw [hre.nodeCount, hre.stored_eq]
    exact hob.nodeCount
  · rw [hre.stored_eq] at hp
    rw [hheap, hperm p, Heap.ref]
    by_cases hpr : p = r
    · have hcount : (t.heap r).refCount = 0 := by
        rcases hob.fresh r hob.mem with hr | ⟨-, hr⟩
        · exact absurd hr hfresh
        · exact hr
      rw [hpr, Heap.modify_self, if_pos rfl, hzero]
      show ((t.heap r).refCount + 1) % 2 ^ 32 = 0 + 1
      omega
    · have hps : p ∈ s.stored := ((hcase p).mp hp).resolve_right hpr
      rw [Heap.modify_of_ne hpr, if_neg hpr, hob.extends.heap_eq p hps]
      exact h.counted p hps
  · rw [hre.stored_eq, hcase, h.mem_iff, hperm p]
    by_cases hpr : p = r
    · simp [hpr]
    · simp [hpr]

/-! ### Variables -/

/-- The node `p` has this level and these children. -/
def HasKey (s : State) (p : Ptr) (level : ℕ) (low high : Ptr) : Prop :=
  (s.heap p).level = level ∧ (s.heap p).low = low ∧ (s.heap p).high = high

/-- The table with `n` variables and `m` negated variables. -/
structure Ready (P : Platform) (s : State) (n m : ℕ) : Prop extends Base P s where
  vars_length : s.vars.length = n
  nvars_length : s.nvars.length = m
  var : ∀ i p, s.vars[i]? = some p → s.HasKey p i s.falseNode s.trueNode
  nvar : ∀ i p, s.nvars[i]? = some p → s.HasKey p i s.trueNode s.falseNode

namespace Ready

variable {m : ℕ}

/-- A node with a child is one of the variables. -/
theorem mem_vars (h : Ready P s n m) (hr : r ∈ s.stored) (hlow : (s.heap r).low ≠ nullptr) :
    s.vars[(s.heap r).level]? = some r ∨ s.nvars[(s.heap r).level]? = some r := by
  rcases permanent_pos_iff.mp ((h.mem_iff r).mp hr) with rfl | rfl | hv | hv
  · exact absurd h.wf.false_node.2.1 hlow
  · exact absurd h.wf.true_node.2.1 hlow
  · obtain ⟨i, hi⟩ := List.mem_iff_getElem?.mp hv
    rw [(h.var i r hi).1]
    exact Or.inl hi
  · obtain ⟨i, hi⟩ := List.mem_iff_getElem?.mp hv
    rw [(h.nvar i r hi).1]
    exact Or.inr hi

theorem getOrCreateNode (h : Ready P s n m) (hid : level < uintMax - 1)
    (hlow : low ∈ s.stored) (hhigh : high ∈ s.stored) (hne : low ≠ high)
    (hll : uintMax - 1 ≤ (s.heap low).level) (hlh : uintMax - 1 ≤ (s.heap high).level) {t : State}
    (hg : s.getOrCreateNode P fuel level low high = some (r, t)) :
    Obtained (fun _ => True) P s t r level low high :=
  h.wf.getOrCreateNode h.unmarked h.nodeCount (fun _ hp => h.live hp) hlow hhigh hne
    (lt_of_lt_of_le hid hll) (lt_of_lt_of_le hid hlh) hg

/-- The keys of the variables survive. -/
theorem key_of_obtained (h : Ready P s n m) {t : State}
    (hob : Obtained (fun _ => True) P s t r level low high) (hre : Recounted t s') :
    (∀ i p, s.vars[i]? = some p → s'.HasKey p i s'.falseNode s'.trueNode) ∧
      ∀ i p, s.nvars[i]? = some p → s'.HasKey p i s'.trueNode s'.falseNode := by
  have hkeep : ∀ p ∈ s.stored, ∀ i low high, s.HasKey p i low high → s'.HasKey p i low high := by
    rintro p hp i low high ⟨h₁, h₂, h₃⟩
    obtain ⟨k₁, k₂, k₃⟩ := hre.key p
    rw [hob.extends.heap_eq p hp] at k₁ k₂ k₃
    exact ⟨k₁.trans h₁, k₂.trans h₂, k₃.trans h₃⟩
  have hf : s'.falseNode = s.falseNode := hre.falseNode.trans hob.extends.roots.falseNode
  have ht : s'.trueNode = s.trueNode := hre.trueNode.trans hob.extends.roots.trueNode
  rw [hf, ht]
  refine ⟨fun i p hi => hkeep p ?_ i _ _ (h.var i p hi),
    fun i p hi => hkeep p ?_ i _ _ (h.nvar i p hi)⟩
  · exact (h.mem_iff p).mpr
      (permanent_pos_iff.mpr (Or.inr (Or.inr (Or.inl (List.mem_of_getElem? hi)))))
  · exact (h.mem_iff p).mpr
      (permanent_pos_iff.mpr (Or.inr (Or.inr (Or.inr (List.mem_of_getElem? hi)))))

theorem getElem?_append_singleton {l : List Ptr} {i : ℕ} {a p : Ptr}
    (h : (l ++ [a])[i]? = some p) : l[i]? = some p ∨ (i = l.length ∧ p = a) := by
  rcases Nat.lt_or_ge i l.length with hi | hi
  · rw [List.getElem?_append_left hi] at h
    exact Or.inl h
  · rw [List.getElem?_append_right hi] at h
    have hzero : i - l.length = 0 := by
      by_contra hne
      rw [List.getElem?_eq_none (by simp only [List.length_singleton]; omega)] at h
      simp at h
    rw [hzero] at h
    simp only [List.getElem?_cons_zero, Option.some_inj] at h
    exact Or.inr ⟨by omega, h.symm⟩

theorem insertIdx_eq_append {l : List Ptr} (hl : l.length = n) (a : Ptr) :
    l.insertIdx n a = l ++ [a] := by
  rw [← hl, List.insertIdx_length_self]

/-- The node for a new variable is new. -/
theorem fresh (h : Ready P s n m) {t : State} (hlow : low ∈ s.stored)
    (hob : Obtained (fun _ => True) P s t r level low high)
    (hv : s.vars[level]? ≠ some r) (hnv : s.nvars[level]? ≠ some r) : r ∉ s.stored := fun hr => by
  have hkey := hob.key
  rw [hob.extends.heap_eq r hr] at hkey
  have hlow' : (s.heap r).low ≠ nullptr := hkey.2.1 ▸ h.wf.ne_null hlow
  rcases h.mem_vars hr hlow' with hi | hi <;> rw [hkey.1] at hi
  · exact hv hi
  · exact hnv hi

/-- The first half of `createVar`. -/
theorem createVar_pos (h : Ready P s n n) (hn : n < uintMax - 1) {t : State}
    (hg : s.getOrCreateNode P fuel n s.falseNode s.trueNode = some (r, t)) :
    Ready P { t with heap := t.heap.ref r, vars := t.vars.insertIdx n r } (n + 1) n := by
  have hob := h.getOrCreateNode hn h.wf.false_mem h.wf.true_mem h.wf.false_ne_true
    (by rw [h.wf.false_node.1]; omega) h.wf.true_node.1.ge hg
  have hroots := hob.extends.roots
  have hvars : t.vars.insertIdx n r = s.vars ++ [r] := by
    rw [hroots.vars]
    exact insertIdx_eq_append h.vars_length r
  have hfresh : r ∉ s.stored := by
    refine h.fresh h.wf.false_mem hob ?_ ?_
    · rw [List.getElem?_eq_none h.vars_length.le]
      simp
    · rw [List.getElem?_eq_none h.nvars_length.le]
      simp
  have hre : Recounted t { t with heap := t.heap.ref r, vars := t.vars.insertIdx n r } :=
    ⟨rfl, rfl, rfl, rfl, rfl, rfl, rfl, fun p => Heap.exists_ref _ r p⟩
  have hbase := h.obtained hob hfresh hre rfl fun p => by
    rw [← hroots.permanent_eq]
    simp only [permanent, hroots.vars, insertIdx_eq_append h.vars_length, List.count_append,
      List.count_singleton]
    by_cases hpr : p = r
    · simp [hpr]
      omega
    · simp [hpr, Ne.symm hpr]
  obtain ⟨hv, hnv⟩ := h.key_of_obtained hob hre
  refine ⟨hbase, ?_, ?_, fun i p hi => ?_, fun i p hi => hnv i p (hroots.nvars ▸ hi)⟩
  · show (t.vars.insertIdx n r).length = n + 1
    rw [hvars, List.length_append, h.vars_length, List.length_singleton]
  · exact (congrArg List.length hroots.nvars).trans h.nvars_length
  · have hi' : (s.vars ++ [r])[i]? = some p := hvars ▸ hi
    rcases getElem?_append_singleton hi' with hold | ⟨hlast, rfl⟩
    · exact hv i p hold
    · obtain ⟨k₁, k₂, k₃⟩ := hre.key p
      obtain ⟨h₁, h₂, h₃⟩ := hob.key
      rw [hlast, h.vars_length]
      exact ⟨k₁.trans h₁, (k₂.trans h₂).trans hroots.falseNode.symm,
        (k₃.trans h₃).trans hroots.trueNode.symm⟩

/-- The second half of `createVar`. -/
theorem createVar_neg (h : Ready P s (n + 1) n) (hn : n < uintMax - 1) {t : State}
    (hg : s.getOrCreateNode P fuel n s.trueNode s.falseNode = some (r, t)) :
    Ready P { t with heap := t.heap.ref r, nvars := t.nvars.insertIdx n r } (n + 1) (n + 1) := by
  have hob := h.getOrCreateNode hn h.wf.true_mem h.wf.false_mem h.wf.false_ne_true.symm
    h.wf.true_node.1.ge (by rw [h.wf.false_node.1]; omega) hg
  have hroots := hob.extends.roots
  have hnvars : t.nvars.insertIdx n r = s.nvars ++ [r] := by
    rw [hroots.nvars]
    exact insertIdx_eq_append h.nvars_length r
  have hfresh : r ∉ s.stored := by
    refine h.fresh h.wf.true_mem hob (fun hi => ?_) ?_
    · -- the positive variable has its children the other way round
      have hrs : r ∈ s.stored := (h.mem_iff r).mpr
        (permanent_pos_iff.mpr (Or.inr (Or.inr (Or.inl (List.mem_of_getElem? hi)))))
      have hlow := hob.key.2.1
      rw [hob.extends.heap_eq r hrs, (h.var n r hi).2.1] at hlow
      exact h.wf.false_ne_true hlow
    · rw [List.getElem?_eq_none h.nvars_length.le]
      simp
  have hre : Recounted t { t with heap := t.heap.ref r, nvars := t.nvars.insertIdx n r } :=
    ⟨rfl, rfl, rfl, rfl, rfl, rfl, rfl, fun p => Heap.exists_ref _ r p⟩
  have hbase := h.obtained hob hfresh hre rfl fun p => by
    rw [← hroots.permanent_eq]
    simp only [permanent, hroots.nvars, insertIdx_eq_append h.nvars_length, List.count_append,
      List.count_singleton]
    by_cases hpr : p = r
    · simp [hpr]
      omega
    · simp [hpr, Ne.symm hpr]
  obtain ⟨hv, hnv⟩ := h.key_of_obtained hob hre
  refine ⟨hbase, ?_, ?_, fun i p hi => hv i p (hroots.vars ▸ hi), fun i p hi => ?_⟩
  · exact (congrArg List.length hroots.vars).trans h.vars_length
  · show (t.nvars.insertIdx n r).length = n + 1
    rw [hnvars, List.length_append, h.nvars_length, List.length_singleton]
  · have hi' : (s.nvars ++ [r])[i]? = some p := hnvars ▸ hi
    rcases getElem?_append_singleton hi' with hold | ⟨hlast, rfl⟩
    · exact hnv i p hold
    · obtain ⟨k₁, k₂, k₃⟩ := hre.key p
      obtain ⟨h₁, h₂, h₃⟩ := hob.key
      rw [hlast, h.nvars_length]
      exact ⟨k₁.trans h₁, (k₂.trans h₂).trans hroots.trueNode.symm,
        (k₃.trans h₃).trans hroots.falseNode.symm⟩

/-- **`createVar`** adds a variable. -/
theorem createVar (h : Ready P s n n) (hn : n < uintMax - 1)
    (hc : s.createVar P fuel n = some s') : Ready P s' (n + 1) (n + 1) := by
  obtain ⟨⟨node, t⟩, ht, hc⟩ := Option.bind_eq_some_iff.mp hc
  obtain ⟨⟨nvar, u⟩, hu, hc⟩ := Option.bind_eq_some_iff.mp hc
  cases hc
  exact (h.createVar_pos hn ht).createVar_neg hn hu

/-- **The loop of `init`.** -/
theorem createVars (h : Ready P s 0 0) : ∀ {varNum : ℕ} {s' : State}, varNum < uintMax →
    s.createVars P fuel varNum = some s' → Ready P s' varNum varNum := by
  intro varNum
  induction varNum with
  | zero =>
    rintro s' - hc
    cases hc
    exact h
  | succ n ih =>
    intro s' hn hc
    rw [State.createVars, List.range_succ, List.foldlM_append] at hc
    obtain ⟨t, ht, hc⟩ := Option.bind_eq_some_iff.mp hc
    have hn' : n < uintMax - 1 := by omega
    have hu : u32 n = n := Nat.mod_eq_of_lt (lt_trans hn' (by decide))
    rw [List.foldlM_cons, hu] at hc
    obtain ⟨u, hu, hc⟩ := Option.bind_eq_some_iff.mp hc
    cases hc
    exact (ih (by omega) ht).createVar hn' hu

/-- The table references each node at most once. -/
theorem permanent_le_one (h : Ready P s n m) (p : Ptr) : s.permanent p ≤ 1 := by
  have hterm : [s.falseNode, s.trueNode].count p ≤ 1 :=
    List.nodup_iff_count_le_one.mp (by simp [h.wf.false_ne_true]) p
  have hvars : s.vars.count p ≤ 1 := by
    refine List.nodup_iff_count_le_one.mp (List.nodup_iff_getElem?_ne_getElem?.mpr ?_) p
    intro i j hij hj he
    have hi := h.var i _ (List.getElem?_eq_getElem (hij.trans hj))
    have hj' := h.var j _ (he ▸ List.getElem?_eq_getElem (hij.trans hj))
    exact hij.ne (hi.1.symm.trans hj'.1)
  have hnvars : s.nvars.count p ≤ 1 := by
    refine List.nodup_iff_count_le_one.mp (List.nodup_iff_getElem?_ne_getElem?.mpr ?_) p
    intro i j hij hj he
    have hi := h.nvar i _ (List.getElem?_eq_getElem (hij.trans hj))
    have hj' := h.nvar j _ (he ▸ List.getElem?_eq_getElem (hij.trans hj))
    exact hij.ne (hi.1.symm.trans hj'.1)
  have hlow : p ∈ s.vars → (s.heap p).low = s.falseNode := fun hp => by
    obtain ⟨i, hi⟩ := List.mem_iff_getElem?.mp hp
    exact (h.var i p hi).2.1
  have hnlow : p ∈ s.nvars → (s.heap p).low = s.trueNode := fun hp => by
    obtain ⟨i, hi⟩ := List.mem_iff_getElem?.mp hp
    exact (h.nvar i p hi).2.1
  have hnull : p ∈ [s.falseNode, s.trueNode] → (s.heap p).low = nullptr := fun hp => by
    rcases List.mem_pair.mp hp with rfl | rfl
    · exact h.wf.false_node.2.1
    · exact h.wf.true_node.2.1
  rw [permanent]
  by_cases hv : p ∈ s.vars
  · rw [List.count_eq_zero.mpr
        fun hp => h.wf.ne_null h.wf.false_mem ((hlow hv).symm.trans (hnull hp)),
      List.count_eq_zero.mpr fun hp => h.wf.false_ne_true ((hlow hv).symm.trans (hnlow hp))]
    omega
  · rw [List.count_eq_zero.mpr hv]
    by_cases hnv : p ∈ s.nvars
    · rw [List.count_eq_zero.mpr fun hp =>
        h.wf.ne_null h.wf.true_mem ((hnlow hnv).symm.trans (hnull hp))]
      omega
    · rw [List.count_eq_zero.mpr hnv]
      omega

end Ready

/-! ### The constructor -/

/-- The table before the body of the constructor, with some set of terminals. -/
theorem store_empty (P : Platform) {size : ℕ} (hsize : 3 ≤ size) :
    Store P (empty size) ∧ (empty size).freeSlots = size ∧ (empty size).stored = [] := by
  have hstored : (empty size).stored = [] := stored_of_no_nodes fun _ => rfl
  obtain ⟨hinv, hslots⟩ := NodeAllocator.AllocInv.new size (empty size).heap
  refine ⟨⟨⟨lt_of_lt_of_le (by decide) hsize, by simp [empty], ?_, ?_⟩, [], ?_⟩, ?_, hstored⟩
  · rw [hstored]
    exact List.nodup_nil
  · rw [hstored]
    simp
  · rw [hstored]
    exact hinv.mono fun p hp => absurd hp List.not_mem_nil
  · rw [freeSlots_eq (s := empty size) hinv]
    exact hslots.trans (max_eq_right (le_trans (by decide) hsize))

theorem Store.setRoots (h : Store P s) (f t : Ptr) (c : Option LockFreeCache) :
    Store P { s with falseNode := f, trueNode := t, cache := c } := by
  have hh := h.hashed
  exact ⟨⟨hh.size_pos, hh.placed, hh.nodup, hh.unique⟩, h.alloc⟩

/-- While a slot is free, a node for a new key is created. -/
theorem Store.created_of_fresh (h : Store P s) (hfree : 0 < s.freeSlots)
    (hfresh : ∀ p ∈ s.stored, ¬ s.HasKey p level low high)
    (hg : s.getOrCreateNode P fuel level low high = some (r, s')) :
    Created P s s' r level low high := by
  cases fuel with
  | zero => simp [State.getOrCreateNode] at hg
  | succ fuel =>
    rcases h.getOrCreateOnce level low high with
      ⟨p, hp, hkey, -⟩ | ⟨-, ⟨-, hzero⟩ | ⟨p, t, hcr, hsome⟩⟩
    · exact absurd hkey (hfresh p hp)
    · omega
    · rw [getOrCreateNode_of_once hsome] at hg
      cases hg
      exact hcr

/-- A table that holds the two terminals and nothing else. -/
theorem Robdd.of_terminals (h : Store P s)
    (hmem : ∀ p, p ∈ s.stored ↔ p = s.trueNode ∨ p = s.falseNode)
    (hf : s.heap s.falseNode = { level := uintMax })
    (ht : s.heap s.trueNode = { level := uintMax - 1 }) : Robdd P s := by
  have hterm : ∀ p ∈ s.stored, ¬ s.Inner p := by
    rintro p hp ⟨hne, hne'⟩
    rcases (hmem p).mp hp with rfl | rfl
    · exact hne' rfl
    · exact hne rfl
  refine ⟨h, (hmem _).mpr (Or.inr rfl), (hmem _).mpr (Or.inl rfl), ?_, ?_,
    fun p hp hi => absurd hi (hterm p hp), fun p hp hi => absurd hi (hterm p hp),
    fun p hp hi => absurd hi (hterm p hp), fun p hp hi => absurd hi (hterm p hp),
    fun p hp hi => absurd hi (hterm p hp), fun p hp => ?_⟩
  · rw [hf]
    exact ⟨rfl, rfl, rfl⟩
  · rw [ht]
    exact ⟨rfl, rfl, rfl⟩
  · rcases (hmem p).mp hp with rfl | rfl
    · rw [ht]
      decide
    · rw [hf]
      decide

/-- **The constructor of `NodeTable`**, followed by the creation of the cache. -/
theorem ready_of_newTable {size : ℕ} (hsize : 3 ≤ size) (hn : newTable P fuel size = some s)
    {c : LockFreeCache} (hc : ∀ i, (c.entry i).node = nullptr) :
    Ready P { s with cache := some c } 0 0 := by
  obtain ⟨hempty, hslots, hnone⟩ := store_empty P hsize
  obtain ⟨⟨f, s₁⟩, h₁, hn⟩ := Option.bind_eq_some_iff.mp hn
  obtain ⟨⟨t, s₂⟩, h₂, hn⟩ := Option.bind_eq_some_iff.mp hn
  cases hn
  have hc₁ := hempty.created_of_fresh (by omega) (by simp [hnone]) h₁
  -- the table with the false node
  set u : State := { s₁ with falseNode := f } with hu
  have hu₁ : u.stored.Perm [f] := hnone ▸ hc₁.perm
  have hfu : u.heap f = { level := uintMax } := hc₁.node
  have hfree : u.freeSlots + 1 = size := hc₁.slots.trans hslots
  have hpos : 0 < u.freeSlots := by omega
  have hstore : Store P u := hc₁.store.setRoots f s₁.trueNode s₁.cache
  have hc₂ := hstore.created_of_fresh hpos (fun p hp hkey => by
    rw [List.mem_singleton.mp (hu₁.mem_iff.mp hp)] at hkey
    have hlevel := hkey.1
    rw [hfu] at hlevel
    exact absurd hlevel (by decide)) h₂
  have hperm : s₂.stored.Perm [t, f] := hc₂.perm.trans (hu₁.cons t)
  have hne : f ≠ t := fun he => hc₂.fresh (hu₁.mem_iff.mpr (List.mem_singleton.mpr he.symm))
  have hff : s₂.falseNode = f := hc₂.roots.falseNode
  have hft : s₂.heap f = { level := uintMax } := (hc₂.frame f hne).trans hfu
  have htt : s₂.heap t = { level := uintMax - 1 } := hc₂.node
  have hmem : ∀ p, p ∈ s₂.stored ↔ p = t ∨ p = f := fun p => by
    rw [hperm.mem_iff, List.mem_cons, List.mem_singleton]
  -- the table before the two references are taken
  set v : State := { s₂ with trueNode := t, cache := some c } with hv
  have hrobdd : Robdd P v := by
    refine Robdd.of_terminals (hc₂.store.setRoots s₂.falseNode t (some c)) ?_ ?_ htt
    · rw [show v.falseNode = f from hff]
      exact hmem
    · show s₂.heap s₂.falseNode = _
      rw [hff]
      exact hft
  have hwf : WellFormed (fun _ => True) P v := ⟨hrobdd, c, rfl, fun i _ hn => absurd (hc i) hn⟩
  set w : State := { v with heap := (v.heap.ref v.falseNode).ref t } with hw
  have hre : Recounted v w := ⟨rfl, rfl, rfl, rfl, rfl, rfl, rfl, fun p => by
    obtain ⟨n, hn⟩ := Heap.exists_ref v.heap v.falseNode p
    obtain ⟨m, hm⟩ := Heap.exists_ref (v.heap.ref v.falseNode) t p
    exact ⟨m, hm.trans (by rw [hn])⟩⟩
  have hvars : v.vars = [] := hc₂.roots.vars.trans (hc₁.roots.vars.trans rfl)
  have hnvars : v.nvars = [] := hc₂.roots.nvars.trans (hc₁.roots.nvars.trans rfl)
  have hunmarked : v.Unmarked := fun p hp => by
    show (s₂.heap p).inUse = false
    rcases (hmem p).mp hp with rfl | rfl
    · rw [htt]
    · rw [hft]
  have hperm' : ∀ p, w.permanent p = [f, t].count p := fun p => by
    show [s₂.falseNode, t].count p + v.vars.count p + v.nvars.count p = _
    rw [hff, hvars, hnvars]
    rfl
  refine ⟨⟨hre.wellFormed hwf, hre.unmarked hunmarked, ?_, fun p hp => ?_, fun p => ?_⟩,
    congrArg List.length hvars, congrArg List.length hnvars, fun i p hi => ?_, fun i p hi => ?_⟩
  · show s₂.nodeCount = s₂.stored.length
    rw [hc₂.nodeCount, hperm.length_eq]
    show s₁.nodeCount + 1 = 2
    rw [hc₁.nodeCount]
    rfl
  · have hp' : p = t ∨ p = f := (hmem p).mp hp
    rw [hperm' p]
    show (((s₂.heap.ref s₂.falseNode).ref t) p).refCount = _
    rw [hff]
    rcases hp' with rfl | rfl
    · simp [Heap.ref, Heap.modify_apply, hne, hne.symm, htt]
    · simp [Heap.ref, Heap.modify_apply, hne, hft]
  · rw [hperm' p, List.count_pos_iff, List.mem_cons, List.mem_singleton, or_comm]
    exact hmem p
  · have hnil : ([] : List Ptr)[i]? = some p := hvars ▸ hi
    simp at hnil
  · have hnil : ([] : List Ptr)[i]? = some p := hnvars ▸ hi
    simp at hnil

/-- **`init` builds a well-formed state.** -/
theorem ready_of_init {rand₁ rand₂ : ℕ → ℕ} {tableSize cacheSize varNum : ℕ}
    (hv : varNum < uintMax) (hi : init P fuel rand₁ rand₂ tableSize cacheSize varNum = some s) :
    Ready P s varNum varNum := by
  obtain ⟨size, hsize, hi⟩ := Option.bind_eq_some_iff.mp hi
  obtain ⟨t, ht, hi⟩ := Option.bind_eq_some_iff.mp hi
  obtain ⟨csize, -, hi⟩ := Option.bind_eq_some_iff.mp hi
  split at hi
  · next h =>
    exact (ready_of_newTable (bddPrimeGte_ge hsize) ht (c := .new csize h) fun _ => rfl).createVars
      hv hi
  · simp at hi

theorem init_small : init smallPlatform 40 id id 11 11 3 = some small := by
  have hsome : (init smallPlatform 40 id id 11 11 3).isSome = true := by decide +kernel
  obtain ⟨s, hs⟩ := Option.isSome_iff_exists.mp hsome
  rw [small, hs]
  rfl

theorem ready_small : Ready smallPlatform small 3 3 := ready_of_init (by decide) init_small

theorem init_tight : init smallPlatform 40 id id 3 3 3 = some tight := by
  have hsome : (init smallPlatform 40 id id 3 3 3).isSome = true := by decide +kernel
  obtain ⟨s, hs⟩ := Option.isSome_iff_exists.mp hsome
  rw [tight, hs]
  rfl

theorem vars_small : small.vars = [3, 5, 7] := by decide +kernel

theorem nvars_small : small.nvars = [4, 6, 8] := by decide +kernel

theorem stored_small : small.stored = [1, 2, 6, 4, 7, 3, 5, 8] := by decide +kernel

end State

end Nanobdd
