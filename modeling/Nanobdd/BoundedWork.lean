import Mathlib.Algebra.Order.Ring.Int
import Mathlib.Tactic.Linarith
import Mathlib.Tactic.NormNum
import Mathlib.Tactic.Ring
import Nanobdd.Parallel

/-!
# Nobody waits

The cache forgets, and other threads make it forget more, so the recursion of an operator cannot
count on it. It ends all the same after a number of steps that depends on the number of variables
alone: a call at the last level but `d` needs at most `6 * 2 ^ d - 5` steps of its own, two calls
one level further down included. The other threads cannot make it do more. Only maintenance adds
steps, one failed allocation for each time the thread runs it.

## Main definitions

* `work` — the steps a thread still has to take
* `Event` — what is counted

## Main results

* `bounded_of_run` — **bounded work** of each thread in every interleaving, and no thread is stuck
-/

namespace Nanobdd

open BoolFun State

variable {T : Type*} {P : Platform} {A : Set Ptr} {c c' : Client} {s s' : State} {p q x y r : Ptr}
  {i j k n d fuel : ℕ} {op : Operator} {f g h : BoolFun} {l l' : Activity} {m : Move}
  {others : Activity → Prop}

/-! ### How much there is to do -/

/-- Enough steps for a call with `d` levels below it. -/
def callWork (d : ℕ) : ℤ := 6 * 2 ^ d - 5

theorem callWork_pos (d : ℕ) : 1 ≤ callWork d := by
  have h : (1 : ℤ) ≤ 2 ^ d := one_le_pow₀ (by norm_num)
  rw [callWork]
  omega

theorem callWork_succ (d : ℕ) : callWork (d + 1) = 2 * callWork d + 5 := by
  rw [callWork, callWork, pow_succ]
  ring

theorem callWork_mono (h : d ≤ k) : callWork d ≤ callWork k := by
  have hpow : (2 : ℤ) ^ d ≤ 2 ^ k := pow_le_pow_right₀ (by norm_num) h
  rw [callWork, callWork]
  omega

/-- The steps of the running call. A step from `maintain` is not counted. -/
def Control.work (n : ℕ) (s : State) : Control → ℤ
  | .call op x y => callWork (n - s.topLevel op x y)
  | .create .. => 2
  | .maintain .. => 1
  | .insert .. => 1
  | .ret _ => 0

/-- The steps of a call that waits for one of its recursive calls. -/
def Frame.work (n : ℕ) : Frame → ℤ
  | .low _ _ _ m => 1 + callWork (n - (m + 1)) + 3
  | .high .. => 3

/-- The steps a thread still has to take in its operator. -/
def work (n : ℕ) (c : Client) : Activity → ℤ
  | .idle => 0
  | .running _ _ _ control k => control.work n c.table + (k.map (Frame.work n)).sum

theorem Control.work_nonneg (n : ℕ) (s : State) (control : Control) : 0 ≤ control.work n s := by
  cases control with
  | call op x y => exact (callWork_pos _).trans' zero_le_one
  | _ => simp [work]

theorem Frame.work_nonneg (n : ℕ) (frame : Frame) : 0 ≤ frame.work n := by
  cases frame with
  | low op x y m =>
    have := callWork_pos (n - (m + 1))
    rw [work]
    omega
  | high => simp [work]

theorem work_nonneg (n : ℕ) (c : Client) (l : Activity) : 0 ≤ work n c l := by
  cases l with
  | idle => exact le_rfl
  | running op i j control k =>
    refine add_nonneg (control.work_nonneg n _) (List.sum_nonneg fun w hw => ?_)
    obtain ⟨frame, -, rfl⟩ := List.mem_map.mp hw
    exact frame.work_nonneg n

namespace State

/-! ### Levels -/

theorem topLevel_of_ne_not (hop : op ≠ .not) : s.topLevel op x y = s.minLevel x y := by
  cases op <;> first | rfl | exact absurd rfl hop

/-- The operator expands one of its operands at the top. -/
theorem exists_topLevel (ho : Operands A op x y) :
    ∃ p, Operands A op x y ∧ p ∈ A ∧ (p = x ∨ op ≠ .not ∧ p = y) ∧
      s.topLevel op x y = (s.heap p).level := by
  by_cases hop : op = .not
  · subst hop
    exact ⟨x, ho, ho.left, Or.inl rfl, rfl⟩
  · rw [topLevel_of_ne_not hop, minLevel]
    rcases min_choice (s.heap x).level (s.heap y).level with he | he
    · exact ⟨x, ho, ho.left, Or.inl rfl, he⟩
    · exact ⟨y, ho, ho.right hop, Or.inr ⟨hop, rfl⟩, he⟩

/-- Both operands are below the level `m`. -/
theorem lt_topLevel {m : ℕ} (hx : m < (s.heap x).level) (hy : op ≠ .not → m < (s.heap y).level) :
    m + 1 ≤ s.topLevel op x y := by
  by_cases hop : op = .not
  · subst hop
    exact hx
  · rw [topLevel_of_ne_not hop, minLevel]
    exact lt_min hx (hy hop)

/-- The recursive calls work below the level of the call. -/
theorem Expands.lt_topLevel {m : ℕ} (he : Expands A s op x y m) (hA : Anchored A s)
    (hr : Robdd P s) :
    m + 1 ≤ s.topLevel op.child (s.negCof x m) (op.right (s.negCof y m)) ∧
      m + 1 ≤ s.topLevel op.child (s.posCof x m) (op.right (s.posCof y m)) := by
  have hchild : op.child ≠ .not → op ≠ .not := fun hn hop => hn (Operator.child_eq_not_iff.mpr hop)
  have hx := hr.lt_cof (hA.mem x he.left) he.left_at
  constructor
  · refine State.lt_topLevel hx.1 fun hn => ?_
    rw [right_eq (hchild hn)]
    exact (hr.lt_cof (hA.mem y (he.right (hchild hn))) (he.right_at (hchild hn))).1
  · refine State.lt_topLevel hx.2 fun hn => ?_
    rw [right_eq (hchild hn)]
    exact (hr.lt_cof (hA.mem y (he.right (hchild hn))) (he.right_at (hchild hn))).2

end State

/-- The levels of inner nodes are variables. -/
theorem Client.Exact.level_lt (h : Client.Exact P n c) (hp : p ∈ c.table.stored)
    (hin : c.table.Inner p) : (c.table.heap p).level < n := by
  have hr := h.wf.toRobdd
  by_contra hge
  exact (Diagram.isTop_denote hr.ordered hr.reduced hp (leaf_eq_none_iff.mpr hin)).2
    (h.support p hp _ (not_lt.mp hge))

/-- A call that has to expand its operands does so at a variable. -/
theorem Client.Exact.topLevel_lt (h : Client.Exact P n c)
    (ho : Operands {p | p ∈ c.table.stored} op x y) (ht : c.table.terminal op x y = none) :
    c.table.topLevel op x y < n := by
  obtain ⟨hx, hy, -⟩ := expandsAt_topLevel h.wf.toRobdd.capped ho ht
  obtain ⟨p, -, hp, hpxy, he⟩ := exists_topLevel (s := c.table) ho
  have hat : Robdd.ExpandsAt c.table (c.table.topLevel op x y) p := by
    rcases hpxy with rfl | ⟨hn, rfl⟩
    · exact hx
    · exact hy hn
  rcases hat with hlt | ⟨-, hin⟩
  · exact absurd he hlt.ne
  · exact he ▸ h.level_lt hp hin

/-! ### One step -/

/-- What is counted of a thread. -/
inductive Event
  /-- The thread calls an operator. -/
  | call
  /-- A step inside an operator that is not maintenance. -/
  | step
  | maintenance
  deriving DecidableEq

/-- The events of a move. -/
def Move.events : Move → Activity → List Event
  | .call .., _ => [.call]
  | .step, .running _ _ _ (.maintain ..) _ => [.maintenance]
  | .step, _ => [.step]
  | _, _ => []

/-- The steps in a record that are not paid for by a call or by maintenance. -/
def owed (n : ℕ) (w : List Event) : ℤ :=
  w.count .step - w.count .maintenance - callWork n * w.count .call

theorem owed_append (n : ℕ) (w w' : List Event) : owed n (w ++ w') = owed n w + owed n w' := by
  simp only [owed, List.count_append, Nat.cast_add]
  ring

@[simp] theorem owed_nil (n : ℕ) : owed n [] = 0 := by simp [owed]

@[simp] theorem owed_step (n : ℕ) : owed n [.step] = 1 := by simp [owed]

@[simp] theorem owed_maintenance (n : ℕ) : owed n [.maintenance] = -1 := by simp [owed]

@[simp] theorem owed_call (n : ℕ) : owed n [.call] = -callWork n := by simp [owed]

/-- **Every step is progress**, whatever the other threads have done to table and cache. -/
theorem Works.work_step {control control' : Control} {stack stack' : List Frame}
    (hl : Works P c (.running op i j control stack)) (h : Client.Exact P n c)
    (hst : Step P ⟨c.table, control, stack⟩ ⟨s, control', stack'⟩) :
    owed n (Move.events .step (.running op i j control stack)) +
      work n { c with table := s } (.running op i j control' stack') ≤
        work n c (.running op i j control stack) := by
  obtain ⟨-, x₀, y₀, -, hw, hA, g, hg, hpend⟩ := hl
  have hr := h.wf.toRobdd
  have hbelow : ∀ {op x y m}, m + 1 ≤ c.table.topLevel op x y →
      callWork (n - c.table.topLevel op x y) ≤ callWork (n - (m + 1)) := fun hle =>
    callWork_mono (by omega)
  cases hst with
  | @terminal _ op x y r _ _ =>
    have := callWork_pos (n - c.table.topLevel op x y)
    simp only [Move.events, owed_step, work, Control.work]
    omega
  | @hit _ _ op x y r _ _ _ _ =>
    have := callWork_pos (n - c.table.topLevel op x y)
    simp only [Move.events, owed_step, work, Control.work]
    omega
  | @miss _ _ op x y _ ht hlookup =>
    obtain ⟨⟨hop, -⟩, ho, -⟩ := hg
    obtain ⟨r, hsome, -⟩ := hw.cacheLookup hop (ho.stored hA)
    rw [hsome] at hlookup
    cases hlookup
    have hlt := h.topLevel_lt (ho.stored hA) ht
    have hnext := hbelow ((Expands.of_terminal ho hA hr.capped ht).lt_topLevel hA hr).1
    have hsucc := callWork_succ (n - (c.table.topLevel op x y + 1))
    rw [show n - (c.table.topLevel op x y + 1) + 1 = n - c.table.topLevel op x y by omega] at hsucc
    dsimp only at hnext
    simp only [Move.events, owed_step, work, Control.work, List.map_cons, List.sum_cons,
      Frame.work]
    omega
  | @second _ op x y m fLow k =>
    cases hpend with
    | low _ he _ =>
      have hnext := hbelow (he.lt_topLevel hA hr).2
      dsimp only at hnext
      simp only [Move.events, owed_step, work, Control.work, List.map_cons, List.sum_cons,
        Frame.work]
      omega
  | equal | differ _ =>
    simp only [Move.events, owed_step, work, Control.work, List.map_cons, List.sum_cons,
      Frame.work]
    omega
  | create _ | exhaust _ | insert _ =>
    simp only [Move.events, owed_step, work, Control.work]
    omega
  | maintain fuel _ =>
    simp only [Move.events, owed_maintenance, work, Control.work]
    omega

/-- What the others do is not more work. -/
theorem Works.work_eq (hl : Works P c l) (h : Client.Exact P n c) (hu : Unnoticed l c c') :
    work n c' l = work n c l := by
  cases l with
  | idle => rfl
  | running op i j control k =>
    cases control with
    | call op₁ x y =>
      obtain ⟨-, x₀, y₀, ho, hs⟩ := hl
      obtain ⟨-, hA, g, ⟨-, ho₁, -⟩, -⟩ := hs
      have hlevel : ∀ p ∈ c.table.span op x₀ y₀, (c'.table.heap p).level = (c.table.heap p).level :=
        fun p hp => (hu.carries.key p
          ⟨hA.mem p hp, Or.inl (span_live (h.operands_live ho) p hp)⟩).1
      have htop : c'.table.topLevel op₁ x y = c.table.topLevel op₁ x y := by
        by_cases hop : op₁ = .not
        · subst hop
          exact hlevel x ho₁.left
        · rw [topLevel_of_ne_not hop, topLevel_of_ne_not hop, State.minLevel, State.minLevel,
            hlevel x ho₁.left, hlevel y (ho₁.right hop)]
      simp only [work, Control.work, htop]
    | _ => rfl

/-! ### No thread is stuck -/

/-- **An operator can always go on**, until it has a result. -/
theorem State.Sound.exists_step {D : Operator → Prop} {control : Control} {stack : List Frame}
    (hs : Sound D P A h ⟨s, control, stack⟩) :
    (∃ b, Step P ⟨s, control, stack⟩ b) ∨ ∃ r, control = .ret r ∧ stack = [] ∧ r ∈ s.stored := by
  obtain ⟨hw, hA, g, hg, hpend⟩ := hs
  cases control with
  | call op₁ x y =>
    obtain ⟨⟨hop, -⟩, ho, -⟩ := hg
    cases ht : s.terminal op₁ x y with
    | some r => exact Or.inl ⟨_, .terminal ht⟩
    | none =>
      obtain ⟨r, hlookup, -⟩ := hw.cacheLookup hop (ho.stored hA)
      by_cases hr : r = nullptr
      · subst hr
        exact Or.inl ⟨_, .miss ht hlookup⟩
      · exact Or.inl ⟨_, .hit ht hlookup hr⟩
  | create op₁ x y m fLow fHigh =>
    cases honce : s.getOrCreateOnce P m fLow fHigh with
    | some b => exact Or.inl ⟨_, .create honce⟩
    | none => exact Or.inl ⟨_, .exhaust honce⟩
  | maintain op₁ x y m fLow fHigh =>
    obtain ⟨cache, hcache, -⟩ := hw.cache
    obtain ⟨s, hs⟩ := hw.toStore.performMaintenance_isSome (P := P) hw.closed hcache
      (Nat.lt_succ_self _)
    exact Or.inl ⟨_, .maintain _ hs⟩
  | insert op₁ x y res =>
    obtain ⟨ho, hgoal, hmem, hd⟩ := hg
    obtain ⟨s, hs, -⟩ := hw.cacheInsert (ho.stored hA) hmem (hd.trans hgoal)
    exact Or.inl ⟨_, .insert hs⟩
  | ret r =>
    cases hpend with
    | nil => exact Or.inr ⟨r, rfl, rfl, hg.1⟩
    | low _ _ _ => exact Or.inl ⟨_, .second⟩
    | @high op₁ x y m fLow k _ _ _ _ _ _ =>
      by_cases he : fLow = r
      · subst he
        exact Or.inl ⟨_, .equal⟩
      · exact Or.inl ⟨_, .differ he⟩

theorem Works.exists_step {control : Control} {stack : List Frame}
    (hl : Works P c (.running op i j control stack)) :
    ∃ m b, Takes P others m (c, .running op i j control stack) b := by
  obtain ⟨-, x₀, y₀, -, hs⟩ := hl
  rcases hs.exists_step with ⟨b, hb⟩ | ⟨r, rfl, rfl, hr⟩
  · exact ⟨.step, _, .step hb⟩
  · exact ⟨.construct, _, .construct (if_neg (hs.wf.ne_null hr))⟩

/-! ### Runs -/

/-- The events of the thread `t`. -/
def eventsOf [DecidableEq T] (t u : T) (m : Move) (l : Activity) : List Event :=
  if u = t then m.events l else []

theorem TakesSafely.work_le {b : Client × Activity} (ht : TakesSafely P others m (c, l) b)
    (h : Client.Faithful P n c) (hl : Works P c l) :
    owed n (m.events l) + work n b.1 b.2 ≤ work n c l := by
  obtain ⟨htakes, -, -, -⟩ := ht
  cases htakes with
  | act => simp [Move.events, work]
  | @call _ op i j x y _ =>
    have hmono := callWork_mono (Nat.sub_le n (c.table.topLevel op x y))
    simp only [Move.events, owed_call, work, Control.work, List.map_nil, List.sum_nil]
    omega
  | step hst => exact hl.work_step h.toExact hst
  | construct => simp [Move.events, work, Control.work]

/-- **Bounded work.** From any state of any interleaving in which the thread `t` is between two
calls, however the run goes on, `t` takes at most `6 * 2 ^ varNum` steps for each operator it
calls, and one more for each time it runs maintenance. In every state each thread that is in an
operator can go on. -/
theorem bounded_of_run [DecidableEq T] {rand₁ rand₂ : ℕ → ℕ} {tableSize cacheSize varNum : ℕ}
    {w : List (T × Action)} {v : List Event} {b d : Pool T Client Activity} {t : T}
    (hv : varNum < uintMax)
    (hi : State.init P fuel rand₁ rand₂ tableSize cacheSize varNum = some s)
    (hb : Interleaving P w (Pool.start T s) b) (ht : b.pc t = .idle)
    (hd : Pool.Run (TakesSafely P) (eventsOf t) v b d) :
    v.count .step ≤ 6 * 2 ^ varNum * v.count .call + v.count .maintenance ∧
      ∀ u, d.pc u = .idle ∨ ∃ m e, Takes P (d.others u) m (d.shared, d.pc u) e := by
  have hkeeps := hb.invariant (stable P varNum) (keeps_start (ready_of_init hv hi))
  have hkeeps' := hd.invariant (stable P varNum) hkeeps
  constructor
  · have hbound : owed varNum v + work varNum d.shared (d.pc t) ≤
        work varNum b.shared (b.pc t) := by
      refine hd.bounded (owed_nil _) (owed_append _) (stable P varNum)
        (fun others m c l c' l' ht hc hl => ?_)
        (fun others u m c l c' l' o ht hu ho hc hl hlo => ⟨?_, ?_⟩) hkeeps
      · rw [eventsOf, if_pos rfl]
        exact ht.work_le hc hl
      · rw [eventsOf, if_neg hu, owed_nil]
      · exact hlo.work_eq hc.toExact ((ht.faithful hc hl).2.2.1 o ho)
    rw [ht, owed, callWork, sub_mul, show work varNum b.shared .idle = 0 from rfl] at hbound
    have hnonneg := work_nonneg varNum d.shared (d.pc t)
    have hcalls : (0 : ℤ) ≤ v.count .call := Int.natCast_nonneg _
    have hsteps : (v.count .step : ℤ) ≤
        6 * 2 ^ varNum * v.count .call + v.count .maintenance := by
      linarith only [hbound, hnonneg, hcalls]
    exact_mod_cast hsteps
  · intro u
    cases hu : d.pc u with
    | idle => exact Or.inl rfl
    | running op i j control k => exact Or.inr (Works.exists_step (hu ▸ hkeeps'.2 u))

/-- The thread that computes `v0 & v1` beside another one. -/
theorem bounded_of_run_small : ∃ v d, d.shared.bdds.length = 4 ∧
    Pool.Run (TakesSafely smallPlatform) (eventsOf false) v (Pool.start Bool small) d ∧
    v.count .step ≤ 6 * 2 ^ 3 * v.count .call + v.count .maintenance := by
  obtain ⟨d, hd, hlength⟩ := run_small
  obtain ⟨v, hv⟩ := hd.relabel (eventsOf false)
  exact ⟨v, d, hlength, hv,
    (bounded_of_run (by decide) init_small (Pool.Run.refl _) rfl hv).1⟩

end Nanobdd
