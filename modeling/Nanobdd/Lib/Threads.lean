import Mathlib.Algebra.Order.BigOperators.Group.Finset
import Mathlib.Data.Fintype.Basic
import Mathlib.Logic.Function.Basic
import Mathlib.Logic.Relation

/-!
# Threads over a shared state

A pool is a shared state and, for each thread, the place in its code. One step moves one thread
and may change the shared state; the environment may change the shared state on its own. What a
thread may do can depend on where the others are, which is how locks appear.

An invariant of a pool is put together from four kinds of facts: one about the shared state, one
about each thread, one about each pair of threads, and a sum over the threads. The lemmas reduce
each of them to the thread that moves and the set of the others.

## Main definitions

* `Pool`, `Pool.Step` — threads that take turns
* `Pool.others` — where the other threads are
* `Pool.total` — a number of each thread, summed up
* `Pool.map` — the pool of a part of the program
* `Pool.Run` — a run together with what its moves emit

## Main results

* `Pool.Run.invariant` — what each move keeps of the mover and of the others, every run keeps
* `Pool.Run.replay` — **linearization**: a machine that takes what a run emits, in this order,
  arrives where the run does
-/

/-- A shared state, and the place of each thread in its code. -/
structure Pool (T σ ℓ : Type*) where
  shared : σ
  pc : T → ℓ

namespace Pool

variable {T σ ℓ M : Type*} {c : Pool T σ ℓ} {t u v : T} {s : σ} {l o : ℓ}

/-- Where the threads other than `t` are. -/
def others (c : Pool T σ ℓ) (t : T) (o : ℓ) : Prop := ∃ u, u ≠ t ∧ c.pc u = o

/-- The places of all threads satisfy `φ` if that of `t` does and those of the others do. -/
theorem forall_iff {φ : ℓ → Prop} (t : T) :
    (∀ u, φ (c.pc u)) ↔ φ (c.pc t) ∧ ∀ o, c.others t o → φ o := by
  constructor
  · refine fun h => ⟨h t, ?_⟩
    rintro o ⟨u, -, rfl⟩
    exact h u
  · rintro ⟨ht, ho⟩ u
    by_cases hu : u = t
    · exact hu ▸ ht
    · exact ho _ ⟨u, hu, rfl⟩

/-- A number of each thread, summed up. -/
def total [Fintype T] [AddCommMonoid M] (w : ℓ → M) (c : Pool T σ ℓ) : M := ∑ t, w (c.pc t)

theorem total_eq_zero [Fintype T] [AddCommMonoid M] {w : ℓ → M} (h : ∀ t, w (c.pc t) = 0) :
    c.total w = 0 := Finset.sum_eq_zero fun t _ => h t

variable [DecidableEq T]

/-- Thread `t` has moved to `l`, and the shared state is `s`. -/
def move (c : Pool T σ ℓ) (t : T) (s : σ) (l : ℓ) : Pool T σ ℓ := ⟨s, Function.update c.pc t l⟩

/-- One step: the turn of a thread, or a change from outside. -/
inductive Step (turn : (ℓ → Prop) → σ × ℓ → σ × ℓ → Prop) (env : σ → σ → Prop) :
    Pool T σ ℓ → Pool T σ ℓ → Prop
  | turn {c : Pool T σ ℓ} {t : T} {s : σ} {l : ℓ} :
      turn (c.others t) (c.shared, c.pc t) (s, l) → Step turn env c (c.move t s l)
  | env {c : Pool T σ ℓ} {s : σ} : env c.shared s → Step turn env c ⟨s, c.pc⟩

@[simp] theorem move_shared (c : Pool T σ ℓ) (t : T) (s : σ) (l : ℓ) :
    (c.move t s l).shared = s := rfl

@[simp] theorem move_pc_self (c : Pool T σ ℓ) (t : T) (s : σ) (l : ℓ) :
    (c.move t s l).pc t = l := Function.update_self ..

theorem move_pc_of_ne (hu : u ≠ t) : (c.move t s l).pc u = c.pc u := Function.update_of_ne hu ..

/-- The mover does not move the others. -/
@[simp] theorem others_move (c : Pool T σ ℓ) (t : T) (s : σ) (l : ℓ) :
    (c.move t s l).others t o ↔ c.others t o :=
  exists_congr fun _ => and_congr_right fun hu => by rw [move_pc_of_ne hu]

theorem move_others (c : Pool T σ ℓ) (t : T) (s : σ) (l : ℓ) :
    (c.move t s l).others t = c.others t :=
  funext fun _ => propext (others_move c t s l)

@[simp] theorem move_move (c : Pool T σ ℓ) (t : T) (s s' : σ) (l l' : ℓ) :
    (c.move t s l).move t s' l' = c.move t s' l' := by
  rw [move, move, move]
  simp only [Function.update_idem]

theorem move_self (c : Pool T σ ℓ) (t : T) : c.move t c.shared (c.pc t) = c := by
  rw [move, Function.update_eq_self]

/-- **Running alone.** Turns of one thread are a run of the pool. -/
theorem run_of_turns {turn : (ℓ → Prop) → σ × ℓ → σ × ℓ → Prop} {env : σ → σ → Prop}
    {b : σ × ℓ} (h : Relation.ReflTransGen (turn (c.others t)) (c.shared, c.pc t) b) :
    Relation.ReflTransGen (Step turn env) c (c.move t b.1 b.2) := by
  induction h with
  | refl => rw [move_self]
  | @tail b d _ hbd ih =>
    refine ih.tail ?_
    rw [← move_move c t b.1 d.1 b.2 d.2]
    refine .turn ?_
    rw [move_others, move_shared, move_pc_self]
    exact hbd

theorem forall_move (φ : ℓ → Prop) :
    (∀ u, φ ((c.move t s l).pc u)) ↔ φ l ∧ ∀ o, c.others t o → φ o := by
  rw [forall_iff t, move_pc_self]
  simp only [others_move]

theorem exists_move (φ : ℓ → Prop) :
    (∃ u, φ ((c.move t s l).pc u)) ↔ φ l ∨ ∃ o, c.others t o ∧ φ o := by
  constructor
  · rintro ⟨u, hu⟩
    by_cases hut : u = t
    · rw [hut, move_pc_self] at hu
      exact Or.inl hu
    · rw [move_pc_of_ne hut] at hu
      exact Or.inr ⟨_, ⟨u, hut, rfl⟩, hu⟩
  · rintro (hl | ⟨-, ⟨u, hu, rfl⟩, ho⟩)
    · exact ⟨t, by rwa [move_pc_self]⟩
    · exact ⟨u, by rwa [move_pc_of_ne hu]⟩

/-- A fact about pairs of threads has to be shown for the pairs with the mover. -/
theorem pairwise_move (R : ℓ → ℓ → Prop) (h : ∀ u v, u ≠ v → R (c.pc u) (c.pc v))
    (hl : ∀ o, c.others t o → R l o ∧ R o l) :
    ∀ u v, u ≠ v → R ((c.move t s l).pc u) ((c.move t s l).pc v) := by
  intro u v huv
  by_cases hu : u = t
  · subst hu
    rw [move_pc_self, move_pc_of_ne huv.symm]
    exact (hl _ ⟨v, huv.symm, rfl⟩).1
  · rw [move_pc_of_ne hu]
    by_cases hv : v = t
    · subst hv
      rw [move_pc_self]
      exact (hl _ ⟨u, hu, rfl⟩).2
    · rw [move_pc_of_ne hv]
      exact h u v huv

section map

variable {σ' ℓ' : Type*} (f : σ → σ') (g : ℓ → ℓ')

/-- A part of the shared state, and a part of each place. -/
def map (c : Pool T σ ℓ) : Pool T σ' ℓ' := ⟨f c.shared, fun t => g (c.pc t)⟩

omit [DecidableEq T] in
theorem map_others (c : Pool T σ ℓ) (t : T) :
    (c.map f g).others t = fun o => ∃ w, c.others t w ∧ g w = o := by
  funext o
  refine propext ⟨?_, ?_⟩
  · rintro ⟨u, hu, rfl⟩
    exact ⟨c.pc u, ⟨u, hu, rfl⟩, rfl⟩
  · rintro ⟨-, ⟨u, hu, rfl⟩, rfl⟩
    exact ⟨u, hu, rfl⟩

theorem map_move (c : Pool T σ ℓ) (t : T) (s : σ) (l : ℓ) :
    (c.move t s l).map f g = (c.map f g).move t (f s) (g l) := by
  have hpc : (fun u => g ((c.move t s l).pc u)) =
      Function.update (fun u => g (c.pc u)) t (g l) := by
    funext u
    by_cases hu : u = t
    · rw [hu, move_pc_self, Function.update_self]
    · rw [move_pc_of_ne hu, Function.update_of_ne hu]
  rw [map, hpc]
  rfl

end map

section rest

variable [Fintype T] [AddCommMonoid M] (w : ℓ → M)

/-- The share of the threads other than `t` in the sum. -/
def rest (c : Pool T σ ℓ) (t : T) : M := ∑ u ∈ Finset.univ.erase t, w (c.pc u)

theorem total_eq (c : Pool T σ ℓ) (t : T) : c.total w = w (c.pc t) + c.rest w t :=
  (Finset.add_sum_erase _ _ (Finset.mem_univ t)).symm

/-- The summand of the mover is exchanged. -/
theorem total_move (c : Pool T σ ℓ) (t : T) (s : σ) (l : ℓ) :
    (c.move t s l).total w = w l + c.rest w t := by
  have hrest : (c.move t s l).rest w t = c.rest w t :=
    Finset.sum_congr rfl fun u hu => by rw [move_pc_of_ne (Finset.ne_of_mem_erase hu)]
  rw [total_eq w _ t, hrest, move_pc_self]

theorem rest_eq_zero {w : ℓ → M} (h : ∀ o, c.others t o → w o = 0) : c.rest w t = 0 :=
  Finset.sum_eq_zero fun u hu => h _ ⟨u, Finset.ne_of_mem_erase hu, rfl⟩

theorem le_rest {w : ℓ → ℕ} (ho : c.others t o) : w o ≤ c.rest w t := by
  obtain ⟨u, hu, rfl⟩ := ho
  exact Finset.single_le_sum (f := fun v => w (c.pc v)) (fun _ _ => Nat.zero_le _)
    (Finset.mem_erase.mpr ⟨hu, Finset.mem_univ u⟩)

end rest

/-! ### Runs with a record -/

section record

variable {μ α τ : Type*} {turn : (ℓ → Prop) → μ → σ × ℓ → σ × ℓ → Prop}
  {emits : T → μ → ℓ → List α} {a b : Pool T σ ℓ} {w w' : List α} {m : μ}

/-- A run, with the record of what its moves emit. A turn carries a label. -/
inductive Run (turn : (ℓ → Prop) → μ → σ × ℓ → σ × ℓ → Prop) (emits : T → μ → ℓ → List α) :
    List α → Pool T σ ℓ → Pool T σ ℓ → Prop
  | refl (c : Pool T σ ℓ) : Run turn emits [] c c
  | tail {w : List α} {a c : Pool T σ ℓ} {t : T} {m : μ} {s : σ} {l : ℓ} :
      Run turn emits w a c → turn (c.others t) m (c.shared, c.pc t) (s, l) →
      Run turn emits (w ++ emits t m (c.pc t)) a (c.move t s l)

/-- The shared state has `G`, and every thread stands in it as `L` says. -/
def Keeps (G : σ → Prop) (L : σ → ℓ → Prop) (c : Pool T σ ℓ) : Prop :=
  G c.shared ∧ ∀ t, L c.shared (c.pc t)

omit [DecidableEq T] in
theorem Keeps.others {G : σ → Prop} {L : σ → ℓ → Prop} (h : Keeps G L c) :
    ∀ o, c.others t o → L c.shared o := by
  rintro _ ⟨u, -, rfl⟩
  exact h.2 u

namespace Run

theorem trans (h : Run turn emits w a b) (h' : Run turn emits w' b c) :
    Run turn emits (w ++ w') a c := by
  induction h' with
  | refl => rwa [List.append_nil]
  | tail _ ht ih => exact List.append_assoc .. ▸ (ih h).tail ht

/-- The same run with another record. -/
theorem relabel {β : Type*} (emits' : T → μ → ℓ → List β) (h : Run turn emits w a c) :
    ∃ v, Run turn emits' v a c := by
  induction h with
  | refl => exact ⟨[], .refl _⟩
  | tail _ ht ih =>
    obtain ⟨v, hv⟩ := ih
    exact ⟨_, hv.tail ht⟩

/-- A run with fewer turns to choose from. -/
theorem mono {turn' : (ℓ → Prop) → μ → σ × ℓ → σ × ℓ → Prop}
    (h : ∀ ⦃others m a b⦄, turn others m a b → turn' others m a b) (hr : Run turn emits w a c) :
    Run turn' emits w a c := by
  induction hr with
  | refl => exact .refl _
  | tail _ ht ih => exact ih.tail (h ht)

/-- One turn of a schedule: a thread and its choice. -/
def play {χ : Type*} (next : Pool T σ ℓ → T → χ → Option (μ × σ × ℓ))
    (emits : T → μ → ℓ → List α) (b : List α × Pool T σ ℓ) (x : T × χ) :
    Option (List α × Pool T σ ℓ) :=
  (next b.2 x.1 x.2).map fun r => (b.1 ++ emits x.1 r.1 (b.2.pc x.1), b.2.move x.1 r.2.1 r.2.2)

/-- **Execution.** A schedule that is carried out is a run. -/
theorem of_play {χ : Type*} {next : Pool T σ ℓ → T → χ → Option (μ × σ × ℓ)}
    (hnext : ∀ c t x r, next c t x = some r →
      turn (c.others t) r.1 (c.shared, c.pc t) (r.2.1, r.2.2)) :
    ∀ {sched : List (T × χ)} {w : List α} {b : List α × Pool T σ ℓ},
      sched.foldlM (play next emits) (w, c) = some b → Run turn emits w a c →
      Run turn emits b.1 a b.2 := by
  intro sched
  induction sched generalizing c with
  | nil =>
    intro w b h hr
    cases h
    exact hr
  | cons x sched ih =>
    intro w b h hr
    obtain ⟨d, hd, h⟩ := Option.bind_eq_some_iff.mp h
    obtain ⟨r, hx, rfl⟩ := Option.map_eq_some_iff.mp hd
    exact ih h (hr.tail (hnext c x.1 x.2 r hx))

/-- A move keeps the invariant of its pool. -/
def Stable (turn : (ℓ → Prop) → μ → σ × ℓ → σ × ℓ → Prop) (G : σ → Prop) (L : σ → ℓ → Prop) :
    Prop :=
  ∀ ⦃others m s l s' l'⦄, turn others m (s, l) (s', l') → G s → L s l →
    (∀ o, others o → L s o) → G s' ∧ L s' l' ∧ ∀ o, others o → L s' o

variable {G : σ → Prop} {L : σ → ℓ → Prop}

theorem keeps_move (hstep : Stable turn G L) (ht : turn (c.others t) m (c.shared, c.pc t) (s, l))
    (hc : Keeps G L c) : Keeps G L (c.move t s l) := by
  obtain ⟨hs, hl, ho⟩ := hstep ht hc.1 (hc.2 t) hc.others
  exact ⟨hs, (forall_move (L s)).mpr ⟨hl, ho⟩⟩

/-- **The invariant rule**: a move has to be checked for the mover and for one other thread. -/
theorem invariant (hstep : Stable turn G L) (h : Run turn emits w a c) (ha : Keeps G L a) :
    Keeps G L c := by
  induction h with
  | refl => exact ha
  | tail _ ht ih => exact keeps_move hstep ht (ih ha)

/-- **Linearization.** If every move does to `f` of the shared state what the machine does with
the record of the move, a run does what the machine does with the record of the run. -/
theorem replay {exec : τ → α → Option τ} {f : σ → τ} (hstep : Stable turn G L)
    (hf : ∀ ⦃others t m s l s' l'⦄, turn others m (s, l) (s', l') → G s → L s l →
      (emits t m l).foldlM exec (f s) = some (f s'))
    (h : Run turn emits w a c) (ha : Keeps G L a) :
    w.foldlM exec (f a.shared) = some (f c.shared) := by
  induction h with
  | refl => rfl
  | @tail w a c t m s l hac ht ih =>
    have hc := hac.invariant hstep ha
    rw [List.foldlM_append, ih ha]
    exact hf ht hc.1 (hc.2 t)

/-- **Potential.** If every move pays for what it emits out of the potential of the mover and
changes that of no other thread, the record of a thread is bounded. -/
theorem bounded {t : T} {cost : List α → ℤ} {pot : σ → ℓ → ℤ} (hnil : cost [] = 0)
    (happ : ∀ w w', cost (w ++ w') = cost w + cost w') (hstep : Stable turn G L)
    (hmover : ∀ ⦃others m s l s' l'⦄, turn others m (s, l) (s', l') → G s → L s l →
      cost (emits t m l) + pot s' l' ≤ pot s l)
    (hother : ∀ ⦃others u m s l s' l' o⦄, turn others m (s, l) (s', l') → u ≠ t → others o →
      G s → L s l → L s o → cost (emits u m l) = 0 ∧ pot s' o = pot s o)
    (h : Run turn emits w a c) (ha : Keeps G L a) :
    cost w + pot c.shared (c.pc t) ≤ pot a.shared (a.pc t) := by
  induction h with
  | refl => rw [hnil, zero_add]
  | @tail w a c u m s l hac ht ih =>
    have hc := hac.invariant hstep ha
    have hac := ih ha
    rw [happ, move_shared]
    by_cases hu : u = t
    · subst hu
      have hpaid := hmover ht hc.1 (hc.2 u)
      rw [move_pc_self]
      omega
    · have hto : c.others u (c.pc t) := ⟨t, Ne.symm hu, rfl⟩
      obtain ⟨hfree, hsame⟩ := hother ht hu hto hc.1 (hc.2 u) (hc.2 t)
      rw [move_pc_of_ne (Ne.symm hu), hfree, hsame]
      omega

end Run

end record

end Pool
