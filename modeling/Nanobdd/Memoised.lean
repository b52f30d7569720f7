import Nanobdd.BoundedWork
import Nanobdd.DefaultBuild

/-!
# What the cache is for

Without the cache an operator asks the same question again and again: its recursion has a call
for every path through the two diagrams. With it each question is worked out once, and there are
only as many questions as pairs of nodes below the two operands. This is so as long as no two of
them share a slot, for an answer that is overwritten is forgotten, and all compare-exchanges
succeed.

## Main definitions

* `questions` — what an operator may ask the cache on the way
* `SlotsApart` — no question overwrites the answer to another one
* `Memo` — the questions asked so far are being worked out, or in the cache

## Main results

* `WellFormed.endsWithin` — **memoisation**: the number of steps
* `Client.memoised_of_run` — the same in every state a program can reach
-/

namespace Nanobdd

open BoolFun

variable {P : Platform} {A : Set Ptr} {s s' : State} {op : Operator} {x y u v r p : Ptr}
  {m n N fuel : ℕ} {h : BoolFun} {E : List (Ptr × Ptr)} {q : Ptr × Ptr} {a b c : Config}
  {cache : LockFreeCache}

namespace State

/-! ### Questions -/

/-- The operands of the recursive calls, as the cache sees them. -/
def questions (s : State) (op : Operator) (x y : Ptr) : Set (Ptr × Ptr) :=
  s.cone x ×ˢ if op = .not then {nullptr} else s.cone y

/-- There are as many as pairs of nodes. -/
theorem encard_questions (s : State) (op : Operator) (x y : Ptr) :
    (s.questions op x y).encard = s.product op x y := by
  rw [questions, product, Set.encard_prod]
  split
  · rw [Set.encard_singleton, mul_one]
  · rfl

/-- The same operands, in either order for a commutative operator. -/
def SameQuestion (op : Operator) (p q : Ptr × Ptr) : Prop :=
  p = q ∨ isCommutativeOperator op = true ∧ p = q.swap

/-- Two questions about the operands that use the same slot of the cache are the same. -/
def SlotsApart (P : Platform) (s : State) (op : Operator) (x y : Ptr) : Prop :=
  ∀ cache, s.cache = some cache → ∀ p ∈ s.questions op x y, ∀ q ∈ s.questions op x y,
    s.terminal op p.1 p.2 = none → s.terminal op q.1 q.2 = none →
    hashVal P cache op p.1 p.2 = hashVal P cache op q.1 q.2 → SameQuestion op p q

theorem terminal_right (s : State) (op : Operator) (x y : Ptr) :
    s.terminal op x (op.right y) = s.terminal op x y := by cases op <;> rfl

theorem topLevel_right (s : State) (op : Operator) (x y : Ptr) :
    s.topLevel op x (op.right y) = s.topLevel op x y := by cases op <;> rfl

theorem mem_questions : (u, op.right v) ∈ s.questions op x y ↔
    u ∈ s.cone x ∧ (op ≠ .not → v ∈ s.cone y) := by
  rw [questions, Set.mem_prod]
  by_cases hop : op = .not
  · rw [if_pos hop, hop]
    exact and_congr_right fun _ => ⟨fun _ hn => absurd rfl hn, fun _ => rfl⟩
  · rw [if_neg hop, right_eq hop]
    exact and_congr_right fun _ => ⟨fun hv _ => hv, fun hv => hv hop⟩

theorem hashVal_congr {cache' : LockFreeCache} (hsize : cache'.size = cache.size) (P : Platform)
    (op : Operator) (x y : Ptr) : hashVal P cache' op x y = hashVal P cache op x y := by
  cases op <;> simp only [hashVal, hsize]

theorem hashVal_setEntry (P : Platform) (cache : LockFreeCache) (i : ℕ) (e : LockFreeCacheEntry)
    (op : Operator) (x y : Ptr) : hashVal P (cache.setEntry i e) op x y = hashVal P cache op x y :=
  hashVal_congr rfl P op x y

/-- A later state expands a call at the same level. -/
theorem Extends.topLevel_eq (hx : Extends s s') (ho : Operands {p | p ∈ s.stored} op u v) :
    s'.topLevel op u v = s.topLevel op u v := by
  by_cases hop : op = .not
  · subst hop
    exact congrArg Node.level (hx.heap_eq u ho.left)
  · rw [topLevel_of_ne_not hop, topLevel_of_ne_not hop, minLevel, minLevel,
      hx.heap_eq u ho.left, hx.heap_eq v (ho.right hop)]

theorem Robdd.anchored_cone (hr : Robdd P s) (hp : p ∈ s.stored) : Anchored (s.cone p) s :=
  ⟨hr.cone_stored hp, fun _ hq _ hc => Relation.ReflTransGen.tail hq hc⟩

/-- What a question is about is stored. -/
theorem Robdd.operands_of_mem (hr : Robdd P s) (ho : Operands {p | p ∈ s.stored} op x y)
    (hq : (u, op.right v) ∈ s.questions op x y) : Operands {p | p ∈ s.stored} op u v := by
  obtain ⟨hu, hv⟩ := mem_questions.mp hq
  exact ⟨hr.cone_stored ho.left u hu, fun hn => hr.cone_stored (ho.right hn) v (hv hn)⟩

/-- The recursive calls ask questions about the same operands. -/
theorem Expands.questions (he : Expands A s' op u v m) (hr : Robdd P s) (hr' : Robdd P s')
    (hx : Extends s s') (ho : Operands {p | p ∈ s.stored} op x y)
    (hq : (u, op.right v) ∈ s.questions op x y) :
    (s'.negCof u m, op.right (s'.negCof v m)) ∈ s.questions op x y ∧
      (s'.posCof u m, op.right (s'.posCof v m)) ∈ s.questions op x y := by
  obtain ⟨hu, hv⟩ := mem_questions.mp hq
  have hcone : ∀ {p}, p ∈ s.stored → Anchored (s.cone p) s' := fun hp =>
    (hr.anchored_cone hp).carry ((hx.carries hr).mono (hr.cone_stored hp))
  have hleft := (hcone ho.left).cof_mem hr'.capped hu he.left_at
  have hright : op ≠ .not → _ := fun hn =>
    (hcone (ho.right hn)).cof_mem hr'.capped (hv hn) (he.right_at hn)
  exact ⟨mem_questions.mpr ⟨hleft.1, fun hn => (hright hn).1⟩,
    mem_questions.mpr ⟨hleft.2, fun hn => (hright hn).2⟩⟩

end State

/-! ### Open questions -/

namespace Frame

def operator : Frame → Operator
  | low op .. | high op .. => op

/-- The question of the call that waits. -/
def question : Frame → Ptr × Ptr
  | low op x y _ | high op x y _ _ => (x, op.right y)

def level : Frame → ℕ
  | low _ _ _ m | high _ _ _ m _ => m

/-- The steps of the call after the recursive call it waits for. -/
def cost : Frame → ℕ
  | low .. => 5
  | high .. => 3

end Frame

namespace Control

/-- The question that the running call works out. -/
def questions : Control → List (Ptr × Ptr)
  | create op x y .. | maintain op x y .. | insert op x y _ => [(x, op.right y)]
  | call .. | ret _ => []

/-- The steps of the running call, if it is answered at once. -/
def cost : Control → ℕ
  | call .. => 1
  | create .. => 2
  | maintain .. => 0
  | insert .. => 1
  | ret _ => 0

/-- The running call belongs to the operation on `x` and `y` that began in `s`. -/
def Belongs (s : State) (op : Operator) (x y : Ptr) (E : List (Ptr × Ptr)) (k : List Frame) :
    Control → Prop
  | call op' u v => op' = op ∧ (u, op.right v) ∈ s.questions op x y ∧
      ∀ frame ∈ k, frame.level < s.topLevel op u v
  | create op' u v .. | maintain op' u v .. | insert op' u v _ => op' = op ∧ (u, op.right v) ∈ E
  | ret _ => True

end Control

namespace Config

/-- The questions that are being worked out. -/
def questions (c : Config) : List (Ptr × Ptr) := c.control.questions ++ c.stack.map Frame.question

/-- The steps still to be taken, if no call asks a new question. -/
def cost (c : Config) : ℕ := c.control.cost + (c.stack.map Frame.cost).sum

end Config

/-- One step more. -/
theorem endsWithin_of_step (hst : Step P a b) (hm : ¬ a.Maintains) (hf : ¬ a.AllocFails P)
    (hb : b.endsWithin P n = true) : a.endsWithin P (n + 1) = true := by
  have hnext := hst.next hm
  obtain ⟨s, control, k⟩ := a
  rw [Config.endsWithin, hnext, Bool.or_eq_true]
  right
  cases control with
  | create op x y m fLow fHigh =>
    exact (Bool.and_eq_true _ _).mpr ⟨Option.isSome_iff_ne_none.mpr hf, hb⟩
  | _ => exact hb

namespace State

/-! ### The invariant -/

/-- The cache has the answer. -/
def Remembered (P : Platform) (cache : LockFreeCache) (op : Operator) (q : Ptr × Ptr) : Prop :=
  (cache.entry (hashVal P cache op q.1 q.2)).node ≠ nullptr ∧
    (cache.entry (hashVal P cache op q.1 q.2)).answers q.1 q.2 op = true

/-- Nobody is inside the cache. -/
def Settled (s : State) : Prop := ∀ cache, s.cache = some cache → ∀ i, (cache.entry i).useCount = 0

/-- The operation on `x` and `y` that began in `s` has asked the questions `E`. -/
structure Memo (P : Platform) (s : State) (op : Operator) (x y : Ptr) (E : List (Ptr × Ptr))
    (c : Config) : Prop where
  sound : Sound (· ≠ .imp) P {p | p ∈ s.stored} (s.answer op x y) c
  «extends» : Extends s c.state
  settled : c.state.Settled
  nodup : E.Nodup
  asked : ∀ q ∈ E, q ∈ s.questions op x y ∧ s.terminal op q.1 q.2 = none
  control : c.control.Belongs s op x y E c.stack
  frames : ∀ frame ∈ c.stack, frame.operator = op ∧ frame.question ∈ E ∧
    frame.level = s.topLevel op frame.question.1 frame.question.2
  falling : c.stack.Pairwise fun frame frame' => frame'.level < frame.level
  remembered : ∀ k k', s.cache = some k → c.state.cache = some k' → k'.size = k.size ∧
    ∀ q ∈ E, q ∈ c.questions ∨ Remembered P k' op q

/-! ### Steps -/

/-- A step that does not ask a new question and does not touch the cache. -/
theorem Memo.keep (hm : Memo P s op x y E a) (hs : Sound (· ≠ .imp) P {p | p ∈ s.stored}
      (s.answer op x y) b) (hx : Extends a.state b.state) (hc : b.state.cache = a.state.cache)
    (hcontrol : b.control.Belongs s op x y E b.stack)
    (hframes : ∀ frame ∈ b.stack, frame.operator = op ∧ frame.question ∈ E ∧
      frame.level = s.topLevel op frame.question.1 frame.question.2)
    (hfalling : b.stack.Pairwise fun frame frame' => frame'.level < frame.level)
    (hquestions : ∀ q ∈ a.questions, q ∈ b.questions) : Memo P s op x y E b where
  sound := hs
  «extends» := hm.extends.trans hx
  settled k hk := hm.settled k (hc ▸ hk)
  nodup := hm.nodup
  asked := hm.asked
  control := hcontrol
  frames := hframes
  falling := hfalling
  remembered k k' hk hk' := by
    obtain ⟨hsize, hrem⟩ := hm.remembered k k' hk (hc ▸ hk')
    exact ⟨hsize, fun q hq => (hrem q hq).imp_left (hquestions q)⟩

/-- An entry that nobody is writing gives its answer. -/
theorem Remembered.lookup (h : Remembered P cache op q)
    (hcount : ∀ i, (cache.entry i).useCount = 0) :
    (cache.lookup (hashVal P cache op q.1 q.2) q.1 q.2 op).1 ≠ nullptr := by
  obtain ⟨hnode, hans⟩ := h
  rw [LockFreeCache.lookup, if_neg hnode, hcount, if_neg (by decide)]
  simpa only [hans, if_true] using hnode

/-- **A question that the cache cannot answer is new.** -/
theorem Memo.not_mem_of_miss {k : List Frame}
    (hm : Memo P s op x y E ⟨s', .call op u v, k⟩)
    (hlookup : s'.cacheLookup P op u (op.right v) = some (nullptr, s'))
    (hinit : ∃ cache, s.cache = some cache) : (u, op.right v) ∉ E := by
  intro hmem
  obtain ⟨cache₀, hcache₀⟩ := hinit
  obtain ⟨cache, hcache, -⟩ := hm.sound.wf.cache
  have hlevel := hm.control.2.2
  rcases (hm.remembered cache₀ cache hcache₀ hcache).2 _ hmem with hopen | hrem
  · -- the frames wait at smaller levels
    obtain ⟨frame, hframe, hq⟩ := List.mem_map.mp hopen
    have hlt := hlevel frame hframe
    rw [(hm.frames frame hframe).2.2, hq, topLevel_right] at hlt
    exact lt_irrefl _ hlt
  · rw [cacheLookup_eq hcache, Option.some_inj, Prod.mk.injEq] at hlookup
    exact hrem.lookup (hm.settled cache hcache) hlookup.1

/-- A recursive call works below the frames. -/
theorem Extends.belongs_call {k : List Frame} {frame : Frame} (hx : Extends s s')
    (hr : Robdd P s) (ho : Operands {p | p ∈ s.stored} op x y)
    (hop : op ≠ .imp) (hq : (u, op.right v) ∈ s.questions op x y)
    (hlt : frame.level + 1 ≤ s'.topLevel op.child u (op.right v))
    (hfalling : ∀ frame' ∈ k, frame'.level < frame.level) :
    (Control.call op.child u (op.right v)).Belongs s op x y E (frame :: k) := by
  have hchild : op.child = op := by cases op <;> first | rfl | exact absurd rfl hop
  rw [hchild] at hlt ⊢
  have hq' : (u, op.right (op.right v)) ∈ s.questions op x y := by rwa [Operator.right_right]
  rw [hx.topLevel_eq (hr.operands_of_mem ho hq')] at hlt
  refine ⟨rfl, hq', fun frame' hframe => ?_⟩
  rcases List.mem_cons.mp hframe with rfl | hframe
  · exact hlt
  · exact (hfalling frame' hframe).trans hlt

theorem Memo.miss {k : List Frame} (hm : Memo P s op x y E ⟨s', .call op u v, k⟩)
    (hw : WellFormed (· ≠ .imp) P s) (ho : Operands {p | p ∈ s.stored} op x y) (hop : op ≠ .imp)
    (ht : s'.terminal op u v = none)
    (hlookup : s'.cacheLookup P op u (op.right v) = some (nullptr, s')) :
    Memo P s op x y ((u, op.right v) :: E)
      ⟨s', .call op.child (s'.negCof u (s'.topLevel op u v))
          (op.right (s'.negCof v (s'.topLevel op u v))),
        .low op u v (s'.topLevel op u v) :: k⟩ := by
  have hr := hw.toRobdd
  obtain ⟨cache, hcache, -⟩ := hw.cache
  obtain ⟨-, hq, hlevel⟩ := hm.control
  have hr' := hm.sound.wf.toRobdd
  have hou := hr.operands_of_mem ho hq
  have htop := hm.extends.topLevel_eq hou
  have he : Expands {p | p ∈ s'.stored} s' op u v (s'.topLevel op u v) :=
    .of_terminal ⟨hm.extends.mem u hou.left, fun hn => hm.extends.mem v (hou.right hn)⟩
      ⟨fun p hp => hp, hr'.closed⟩ hr'.capped ht
  refine ⟨(hm.sound.step (Step.miss ht hlookup) id).2, hm.extends, hm.settled, ?_, ?_, ?_, ?_, ?_,
    fun k₀ k' hk₀ hk' => ?_⟩
  · exact List.nodup_cons.mpr ⟨hm.not_mem_of_miss hlookup ⟨cache, hcache⟩, hm.nodup⟩
  · refine List.forall_mem_cons.mpr ⟨⟨hq, ?_⟩, hm.asked⟩
    rw [terminal_right, ← terminal_congr hm.extends.roots]
    exact ht
  · exact hm.extends.belongs_call hr ho hop
      (he.questions hr hr' hm.extends ho hq).1 (he.lt_topLevel ⟨fun p hp => hp, hr'.closed⟩ hr').1
      fun frame hframe => (hlevel frame hframe).trans_eq htop.symm
  · refine List.forall_mem_cons.mpr ⟨⟨rfl, List.mem_cons_self, ?_⟩, fun frame hframe => ?_⟩
    · rw [Frame.question, topLevel_right]
      exact htop
    · obtain ⟨hop', hmem, heq⟩ := hm.frames frame hframe
      exact ⟨hop', List.mem_cons_of_mem _ hmem, heq⟩
  · exact List.pairwise_cons.mpr
      ⟨fun frame hframe => (hlevel frame hframe).trans_eq htop.symm, hm.falling⟩
  · obtain ⟨hsize, hrem⟩ := hm.remembered k₀ k' hk₀ hk'
    refine ⟨hsize, List.forall_mem_cons.mpr ⟨Or.inl List.mem_cons_self, fun q hq => ?_⟩⟩
    exact (hrem q hq).imp_left fun hopen => List.mem_cons_of_mem _ hopen

theorem Memo.second {k : List Frame} {op' : Operator} {fLow : Ptr}
    (hm : Memo P s op x y E ⟨s', .ret fLow, .low op' u v m :: k⟩) (hr : Robdd P s)
    (ho : Operands {p | p ∈ s.stored} op x y) (hop : op ≠ .imp) :
    Memo P s op x y E ⟨s', .call op'.child (s'.posCof u m) (op'.right (s'.posCof v m)),
      .high op' u v m fLow :: k⟩ := by
  obtain ⟨⟨hop', hmem, hlevel⟩, hframes⟩ := List.forall_mem_cons.mp hm.frames
  obtain rfl : op = op' := hop'.symm
  obtain ⟨hbelow, hfalling⟩ := List.pairwise_cons.mp hm.falling
  have hr' := hm.sound.wf.toRobdd
  have hA := hm.sound.anchored
  have he : Expands {p | p ∈ s.stored} s' op u v m := by
    obtain ⟨-, -, g, -, hpend⟩ := hm.sound
    cases hpend with
    | low _ he _ => exact he
  refine hm.keep (hm.sound.step Step.second id).2 (Extends.refl s') rfl ?_ ?_ ?_ fun q hq => hq
  · exact hm.extends.belongs_call hr ho hop
      (he.questions hr hr' hm.extends ho (hm.asked _ hmem).1).2 (he.lt_topLevel hA hr').2 hbelow
  · exact List.forall_mem_cons.mpr ⟨⟨rfl, hmem, hlevel⟩, hframes⟩
  · exact List.pairwise_cons.mpr ⟨hbelow, hfalling⟩

/-- The answer to a question goes into its slot, and forgets nothing that was asked. -/
theorem Remembered.insert (hapart : ∀ p ∈ E, hashVal P cache op p.1 p.2 =
      hashVal P cache op q.1 q.2 → SameQuestion op p q) (hr : r ≠ nullptr)
    (hcount : ∀ i, (cache.entry i).useCount = 0) :
    ∀ p ∈ E, p = q ∨ Remembered P cache op p →
      Remembered P (cache.insert false (hashVal P cache op q.1 q.2) r q.1 q.2 op) op p := by
  intro p hp hknown
  have hinsert : cache.insert false (hashVal P cache op q.1 q.2) r q.1 q.2 op =
      cache.setEntry (hashVal P cache op q.1 q.2) ⟨r, q.1, q.2, op, 0⟩ :=
    if_pos ⟨hcount _, rfl⟩
  rw [Remembered, hinsert, hashVal_setEntry, LockFreeCache.setEntry_entry]
  by_cases hslot : hashVal P cache op p.1 p.2 = hashVal P cache op q.1 q.2
  · rw [if_pos hslot]
    refine ⟨hr, LockFreeCacheEntry.answers_iff.mpr ⟨rfl, ?_⟩⟩
    rcases hapart p hp hslot with rfl | ⟨hcomm, rfl⟩
    · exact Or.inl ⟨rfl, rfl⟩
    · exact Or.inr ⟨hcomm, rfl, rfl⟩
  · rw [if_neg hslot]
    refine hknown.resolve_left ?_
    rintro rfl
    exact hslot rfl

theorem Memo.insert {k : List Frame} {op' : Operator} {t : State}
    (hm : Memo P s op x y E ⟨s', .insert op' u v r, k⟩) (hw : WellFormed (· ≠ .imp) P s)
    (hapart : SlotsApart P s op x y) (hP : P.fails s'.clock = false)
    (hi : s'.cacheInsert P op' r u (op'.right v) = some t) :
    Memo P s op x y E ⟨t, .ret r, k⟩ := by
  obtain ⟨hop', hmem⟩ := hm.control
  obtain rfl : op = op' := hop'.symm
  obtain ⟨hadv, hs⟩ := hm.sound.step (Step.insert hi) id
  obtain ⟨cache₀, hcache₀, -⟩ := hw.cache
  obtain ⟨cache, hcache, -⟩ := hm.sound.wf.cache
  obtain ⟨hsize, hrem⟩ := hm.remembered cache₀ cache hcache₀ hcache
  have hcount := hm.settled cache hcache
  have hr : r ≠ nullptr := by
    obtain ⟨hw', -, g, ⟨-, -, hr, -⟩, -⟩ := hm.sound
    exact hw'.ne_null hr
  have hcache' : t.cache = some (cache.insert false (hashVal P cache op u (op.right v)) r u
      (op.right v) op) := by
    rw [cacheInsert, show s'.cache = some cache from hcache, Option.map_some, hP] at hi
    cases hi
    rfl
  have hinsert : cache.insert false (hashVal P cache op u (op.right v)) r u (op.right v) op =
      cache.setEntry (hashVal P cache op u (op.right v)) ⟨r, u, op.right v, op, 0⟩ :=
    if_pos ⟨hcount _, rfl⟩
  refine ⟨hs, hm.extends.trans hadv.extends, fun k' hk' i => ?_, hm.nodup, hm.asked, trivial,
    hm.frames, hm.falling, fun k₀ k' hk₀ hk' => ?_⟩
  · rw [show t.cache = some k' from hk', hinsert, Option.some_inj] at hcache'
    rw [hcache', LockFreeCache.setEntry_entry]
    split
    · rfl
    · exact hcount i
  · rw [hcache₀, Option.some_inj] at hk₀
    rw [show t.cache = some k' from hk', Option.some_inj] at hcache'
    subst hk₀
    subst hcache'
    refine ⟨by rw [hinsert]; exact hsize, fun q hq => ?_⟩
    have hslots : ∀ p ∈ E, hashVal P cache op p.1 p.2 =
        hashVal P cache op (u, op.right v).1 (u, op.right v).2 →
        SameQuestion op p (u, op.right v) := fun p hp hslot => by
      rw [hashVal_congr hsize, hashVal_congr hsize] at hslot
      exact hapart _ hcache₀ p (hm.asked p hp).1 _ (hm.asked _ hmem).1 (hm.asked p hp).2
        (hm.asked _ hmem).2 hslot
    have hinto := Remembered.insert hslots hr hcount q hq
    rcases hrem q hq with hopen | hknown
    · rcases List.mem_cons.mp hopen with rfl | hopen
      · exact Or.inr (hinto (Or.inl rfl))
      · exact Or.inl hopen
    · exact Or.inr (hinto (Or.inr hknown))

/-- The compare-exchange of an insertion that is about to happen succeeds. -/
def Exchanges (P : Platform) (a : Config) : Prop :=
  match a.control with
  | .insert .. => P.fails a.state.clock = false
  | _ => True

/-- **Every step is paid for.** A call that misses asks a new question, which pays for six. -/
theorem Memo.step (hm : Memo P s op x y E a) (hw : WellFormed (· ≠ .imp) P s)
    (ho : Operands {p | p ∈ s.stored} op x y) (hop : op ≠ .imp) (hapart : SlotsApart P s op x y)
    (hP : Exchanges P a) (hst : Step P a b) (hmaint : ¬ a.Maintains) (hf : ¬ a.AllocFails P) :
    ∃ E', Memo P s op x y E' b ∧ b.cost + 6 * E.length + 1 ≤ a.cost + 6 * E'.length := by
  obtain ⟨hadv, hs⟩ := hm.sound.step hst hmaint
  have hr := hw.toRobdd
  cases hst with
  | terminal ht =>
    refine ⟨E, hm.keep hs hadv.extends rfl trivial hm.frames hm.falling fun q hq => hq, ?_⟩
    simp only [Config.cost, Control.cost]
    omega
  | @hit _ _ op' u v r k ht hlookup hne =>
    obtain ⟨rfl, hq, -⟩ := hm.control
    obtain ⟨r', hsome, -⟩ := hm.sound.wf.cacheLookup hop
      ((hr.operands_of_mem ho hq).stored hm.sound.anchored)
    rw [hsome] at hlookup
    cases hlookup
    refine ⟨E, hm.keep hs hadv.extends rfl trivial hm.frames hm.falling fun q hq => hq, ?_⟩
    simp only [Config.cost, Control.cost]
    omega
  | @miss _ _ op' u v k ht hlookup =>
    obtain ⟨rfl, hq, -⟩ := hm.control
    obtain ⟨r', hsome, -⟩ := hm.sound.wf.cacheLookup hop
      ((hr.operands_of_mem ho hq).stored hm.sound.anchored)
    rw [hsome] at hlookup
    cases hlookup
    refine ⟨_, hm.miss hw ho hop ht hsome, ?_⟩
    simp only [Config.cost, Control.cost, Frame.cost, List.map_cons, List.sum_cons,
      List.length_cons]
    omega
  | second =>
    refine ⟨E, hm.second hr ho hop, ?_⟩
    simp only [Config.cost, Control.cost, Frame.cost, List.map_cons, List.sum_cons]
    omega
  | equal | differ _ =>
    obtain ⟨⟨hop', hmem, -⟩, hframes⟩ := List.forall_mem_cons.mp hm.frames
    refine ⟨E, hm.keep hs hadv.extends rfl ⟨hop', ?_⟩ hframes
      (List.pairwise_cons.mp hm.falling).2 fun q hq => hq, ?_⟩
    · subst hop'
      exact hmem
    · simp only [Config.cost, Control.cost, Frame.cost, List.map_cons, List.sum_cons]
      omega
  | create honce =>
    refine ⟨E, hm.keep hs hadv.extends (getOrCreateOnce_cache honce) hm.control hm.frames
      hm.falling fun q hq => hq, ?_⟩
    simp only [Config.cost, Control.cost]
    omega
  | exhaust hfails => exact absurd hfails hf
  | maintain => exact absurd trivial hmaint
  | insert hi =>
    refine ⟨E, hm.insert hw hapart hP hi, ?_⟩
    simp only [Config.cost, Control.cost]
    omega

/-! ### Runs -/

theorem Memo.length_le (hm : Memo P s op x y E a) (hN : s.product op x y ≤ N) : E.length ≤ N := by
  have hsub : (E.toFinset : Set (Ptr × Ptr)) ⊆ s.questions op x y := fun q hq =>
    (hm.asked q (List.mem_toFinset.mp hq)).1
  have hle : (E.length : ℕ∞) ≤ N := calc
    (E.length : ℕ∞) = (E.toFinset : Set (Ptr × Ptr)).encard := by
        rw [Set.encard_coe_eq_coe_finsetCard, List.toFinset_card_of_nodup hm.nodup]
    _ ≤ (s.questions op x y).encard := Set.encard_le_encard hsub
    _ ≤ N := s.encard_questions op x y ▸ hN
  exact_mod_cast hle

/-- **A run of an operation.** The induction is on the steps left, which the questions not yet
asked pay for. -/
theorem Memo.endsWithin (hw : WellFormed (· ≠ .imp) P s)
    (ho : Operands {p | p ∈ s.stored} op x y) (hop : op ≠ .imp) (hapart : SlotsApart P s op x y)
    (hN : s.product op x y ≤ N) :
    ∀ {n : ℕ} {E : List (Ptr × Ptr)} {a : Config}, Memo P s op x y E a → ¬ a.Maintains →
      (∀ c, Steps P a c → ¬ c.AllocFails P) → (∀ c, Steps P a c → Exchanges P c) →
      a.cost + 6 * N ≤ n + 6 * E.length → a.endsWithin P n = true := by
  intro n
  induction n with
  | zero =>
    intro E a hm hmaint hn hP hcost
    have hle := hm.length_le hN
    obtain ⟨t, control, k⟩ := a
    have hzero : control.cost = 0 ∧ (k.map Frame.cost).sum = 0 := by
      have hsum : control.cost + (k.map Frame.cost).sum + 6 * N ≤ 0 + 6 * E.length := hcost
      omega
    cases control with
    | ret r =>
      cases k with
      | nil => rfl
      | cons frame k => cases frame <;> simp [Frame.cost] at hzero
    | maintain => exact absurd trivial hmaint
    | _ => simp [Control.cost] at hzero
  | succ n ih =>
    intro E a hm hmaint hn hP hcost
    rcases hm.sound.exists_step with ⟨b, hst⟩ | ⟨r, hcontrol, hstack, -⟩
    · obtain ⟨E', hm', hpaid⟩ := hm.step hw ho hop hapart (hP a .refl) hst hmaint (hn a .refl)
      have hmaint' := not_maintains_of_noAllocFails hmaint hn (.single hst)
      exact endsWithin_of_step hst hmaint (hn a .refl) <|
        ih hm' hmaint' (fun c hc => hn c (hc.head hst)) (fun c hc => hP c (hc.head hst)) (by omega)
    · obtain ⟨t, control, k⟩ := a
      subst hcontrol
      subst hstack
      rfl

/-- **Memoisation.** If no two questions about its operands share a slot and no compare-exchange of
its insertions fails, an operation takes at most six steps for each pair of nodes below them, and
one more. -/
theorem WellFormed.endsWithin (hw : WellFormed (· ≠ .imp) P s) (hsettled : s.Settled)
    (ho : Operands {p | p ∈ s.stored} op x y) (hop : op ≠ .imp) (hapart : SlotsApart P s op x y)
    (hP : ∀ c, Steps P ⟨s, .call op x y, []⟩ c → Exchanges P c) (hn : NoAllocFails P s op x y)
    (hN : s.product op x y ≤ N) :
    (⟨s, .call op x y, []⟩ : Config).endsWithin P (6 * N + 1) = true := by
  refine Memo.endsWithin hw ho hop hapart hN (E := []) ?_ id hn hP ?_
  · refine ⟨hw.sound ⟨hop, op.child_ne_imp⟩ ho, Extends.refl s, hsettled, List.nodup_nil, ?_,
      ⟨rfl, mem_questions.mpr ⟨.refl, fun _ => .refl⟩, ?_⟩, ?_, List.Pairwise.nil, ?_⟩
    · exact fun q hq => absurd hq List.not_mem_nil
    · exact fun frame hframe => absurd hframe List.not_mem_nil
    · exact fun frame hframe => absurd hframe List.not_mem_nil
    · intro k k' hk hk'
      rw [show s.cache = some k' from hk', Option.some_inj] at hk
      subst hk
      exact ⟨rfl, fun q hq => absurd hq List.not_mem_nil⟩
  · simp [Config.cost, Control.cost]
    omega

/-! ### Nobody is inside the cache -/

theorem Settled.congr (h : s.Settled) (hc : s'.cache = s.cache) : s'.Settled := fun k hk =>
  h k (hc ▸ hk)

theorem settled_of_invalidates (hc : ∃ c : LockFreeCache, s'.cache = some c.invalidateAll) :
    s'.Settled := by
  obtain ⟨c, hc⟩ := hc
  intro k hk i
  rw [hc] at hk
  cases hk
  rfl

/-- A call of the cache leaves it as it entered. -/
theorem Settled.step (h : a.state.Settled) (hst : Step P a b) : b.state.Settled := by
  cases hst with
  | terminal | second | equal | differ | exhaust => exact h
  | hit _ hl _ | miss _ hl =>
    obtain ⟨c, hc, he⟩ := Option.map_eq_some_iff.mp hl
    obtain ⟨-, rfl⟩ := Prod.mk.inj he
    intro k hk
    cases hk
    rw [LockFreeCache.lookup_snd]
    exact h c hc
  | create ho => exact h.congr (getOrCreateOnce_cache ho)
  | maintain fuel hm => exact settled_of_invalidates (performMaintenance_invalidates hm)
  | insert hi =>
    obtain ⟨c, hc, he⟩ := Option.map_eq_some_iff.mp hi
    cases he
    intro k hk i
    cases hk
    rw [LockFreeCache.insert]
    split
    · rw [LockFreeCache.setEntry_entry]
      split
      · rfl
      · exact h c hc i
    · exact h c hc i

theorem Settled.steps (h : a.state.Settled) (hc : Steps P a c) : c.state.Settled := by
  induction hc with
  | refl => exact h
  | tail _ hbc ih => exact ih.step hbc

theorem settled_of_init {rand₁ rand₂ : ℕ → ℕ} {tableSize cacheSize varNum : ℕ}
    (hi : init P fuel rand₁ rand₂ tableSize cacheSize varNum = some s) : s.Settled := by
  obtain ⟨n, h, hc⟩ := init_cache hi
  intro k hk i
  rw [hc] at hk
  cases hk
  rfl

end State

namespace Client

open State

variable {c c' : Client} {i j : ℕ}

/-- Between the actions of a program nobody is inside the cache. -/
theorem settled_of_exec {a : Action} (h : c.table.Settled) (hc : c.exec P fuel a = some c') :
    c'.table.Settled := by
  rcases exec_table hc with hre | ⟨op, i, j, x, y, r, s, rfl, -, hrun, rfl⟩ | ⟨rfl, hg⟩
  · exact h.congr hre.toRecounted.cache
  · have hs : s.Settled :=
      Settled.steps (a := ⟨c.table, .call op x y, []⟩) h (steps_of_bddOp hrun)
    exact hs.congr (counted_ref { c with table := s } r).toRecounted.cache
  · exact settled_of_invalidates (gcLocked_invalidates hg)

theorem settled_of_run (h : c.table.Settled) (hc : Relation.ReflTransGen (PlainActs P) c c') :
    c'.table.Settled := by
  induction hc with
  | refl => exact h
  | tail _ hbc ih =>
    obtain ⟨a, fuel, hexec, -, -⟩ := hbc
    exact settled_of_exec ih hexec

/-- **The recursion is as long as its questions are many.** In every state that plain actions reach,
an operator whose missing nodes fit takes at most `6 * N + 1` steps, if there are at most `N` pairs
of nodes below its operands. This is so as long as no two of the questions share a slot and no
compare-exchange of its insertions fails. -/
theorem memoised_of_run {rand₁ rand₂ : ℕ → ℕ} {tableSize cacheSize varNum : ℕ}
    (hv : varNum < uintMax)
    (hi : State.init P fuel rand₁ rand₂ tableSize cacheSize varNum = some s)
    (hc : Relation.ReflTransGen (PlainActs P) (start s) c)
    (hP : ∀ d, Steps P ⟨c.table, .call op x y, []⟩ d → Exchanges P d)
    (hop : op ≠ .imp) (ho : c.operands op i j = some (x, y))
    (hapart : SlotsApart P c.table op x y)
    (hfits : (subs (map₂ op.connective (c.table.denote x) (c.table.denote y)) \
      c.table.functions).encard ≤ c.table.freeSlots)
    (hN : c.table.product op x y ≤ N) :
    (⟨c.table, .call op x y, []⟩ : Config).endsWithin P (6 * N + 1) = true := by
  have h := ((faithful_of_ready (ready_of_init hv hi)).run hc).1
  have hsettled := settled_of_run (settled_of_init hi) hc
  have hol := h.operands_live ho
  have hos : Operands {p | p ∈ c.table.stored} op x y :=
    ⟨hol.left.1, fun hn => (hol.right hn).1⟩
  have hw : WellFormed (· ≠ .imp) P c.table := h.wf.mono fun _ _ => trivial
  exact hw.endsWithin hsettled hos hop hapart hP
    ((noAllocFails_iff hw hop hos).1.mpr hfits) hN

/-! ### A small operation -/

/-- The exclusive or of the first two variables asks three questions, in three slots. -/
theorem memoised_of_run_small :
    (⟨smallPair.table, .call .xor 3 5, []⟩ : Config).endsWithin smallPlatform (6 * 9 + 1) =
      true := by
  have hx : ∀ p ∈ [1, 2, 3], ∀ q ∈ smallPair.table.heap.children p, q ∈ [1, 2, 3] := by
    decide +kernel
  have hy : ∀ p ∈ [1, 2, 5], ∀ q ∈ smallPair.table.heap.children p, q ∈ [1, 2, 5] := by
    decide +kernel
  have hx' := cone_subset (p := 3) (by decide) hx
  have hy' := cone_subset (p := 5) (by decide) hy
  have hslots : ∀ u ∈ [1, 2, 3], ∀ v ∈ [1, 2, 5], ∀ u' ∈ [1, 2, 3], ∀ v' ∈ [1, 2, 5],
      smallPair.table.terminal .xor u v = none → smallPair.table.terminal .xor u' v' = none →
      (smallPair.table.cache.map fun k => hashVal smallPlatform k .xor u v) =
        (smallPair.table.cache.map fun k => hashVal smallPlatform k .xor u' v') →
      u = u' ∧ v = v' := by decide +kernel
  have hn : NoAllocFails smallPlatform smallPair.table .xor 3 5 :=
    not_allocFails_of_endsWithin (n := 20) (by decide +kernel)
  have h := ((faithful_of_ready ready_small).run plainActs_smallPair).1
  have hol := h.operands_live (show smallPair.operands .xor 0 1 = some (3, 5) by decide +kernel)
  have hP : ∀ d, Steps smallPlatform ⟨smallPair.table, .call .xor 3 5, []⟩ d →
      Exchanges smallPlatform d := by
    rintro ⟨t, control, k⟩ -
    cases control with
    | insert => exact rfl
    | _ => exact trivial
  refine memoised_of_run (by decide) State.init_small plainActs_smallPair hP (by decide)
    (i := 0) (j := 1) (by decide +kernel) ?_
    ((noAllocFails_iff (h.wf.mono fun _ _ => trivial) (by decide)
      ⟨hol.left.1, fun hn => (hol.right hn).1⟩).1.mp hn) ?_
  · rintro cache hcache ⟨u, v⟩ ⟨hu, hv⟩ ⟨u', v'⟩ ⟨hu', hv'⟩ ht ht' hslot
    refine Or.inl (Prod.ext_iff.mpr (hslots u (hx' u hu) v (hy' v hv) u' (hx' u' hu') v'
      (hy' v' hv') ht ht' ?_))
    rw [hcache, Option.map_some, Option.map_some, Option.some_inj]
    exact hslot
  · rw [product, if_neg (by decide)]
    exact (mul_le_mul' (encard_cone_le (by decide) hx) (encard_cone_le (by decide) hy)).trans
      (by decide)

end Client

end Nanobdd
