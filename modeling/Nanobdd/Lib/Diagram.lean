import Nanobdd.Lib.BoolFun

/-!
# Ordered binary decision diagrams over any type of nodes

A diagram is a labelling: which nodes are leaves, and the level and the two children of the
others. It may have dangling children and cycles; `Ordered` and `Reduced` say of a set of nodes
that it has neither. Under both, a node is determined by the function it denotes.

## Main definitions

* `Diagram`, `Diagram.denote` — the labelling and the function of a node
* `Diagram.Ordered`, `Diagram.Reduced` — the two properties behind canonicity

## Main results

* `Diagram.denote_node` — an inner node denotes a branch
* `Diagram.denote_injOn` — **canonicity**: equal functions, equal nodes
* `Diagram.sub_denote` — every sub-function of a node's function is the function of a node
* `Diagram.Ordered.eval_congr` — the function depends only on the labelling of the set
-/

/-- A labelling of `ν` as the nodes of a decision diagram. -/
structure Diagram (ν : Type*) where
  /-- The value of a leaf, `none` for an inner node. -/
  leaf : ν → Option Bool
  level : ν → ℕ
  low : ν → ν
  high : ν → ν

namespace Diagram

open BoolFun

variable {ν : Type*} {D D' : Diagram ν} {T : Set ν} {top n : ℕ} {p q : ν}

/-- The value of `p`, following at most `n` edges. -/
def eval (D : Diagram ν) : ℕ → ν → BoolFun
  | 0, _ => fun _ => false
  | n + 1, p =>
    match D.leaf p with
    | some b => fun _ => b
    | none => branch (D.level p) (D.eval n (D.low p)) (D.eval n (D.high p))

/-- The function of a node of a diagram whose levels stay below `top`. -/
def denote (D : Diagram ν) (top : ℕ) (p : ν) : BoolFun := D.eval top p

/-- The nodes in `T` are ordered by level, and `T` has their children. -/
structure Ordered (D : Diagram ν) (T : Set ν) (top : ℕ) : Prop where
  level_lt : ∀ p ∈ T, D.level p < top
  low_mem : ∀ p ∈ T, D.leaf p = none → D.low p ∈ T
  high_mem : ∀ p ∈ T, D.leaf p = none → D.high p ∈ T
  lt_low : ∀ p ∈ T, D.leaf p = none → D.level p < D.level (D.low p)
  lt_high : ∀ p ∈ T, D.leaf p = none → D.level p < D.level (D.high p)

/-- No redundant inner node in `T`, and no two nodes with the same label. -/
structure Reduced (D : Diagram ν) (T : Set ν) : Prop where
  low_ne_high : ∀ p ∈ T, D.leaf p = none → D.low p ≠ D.high p
  inner_unique : ∀ p ∈ T, ∀ q ∈ T, D.leaf p = none → D.leaf q = none →
    D.level p = D.level q → D.low p = D.low q → D.high p = D.high q → p = q
  leaf_unique : ∀ p ∈ T, ∀ q ∈ T, ∀ b, D.leaf p = some b → D.leaf q = some b → p = q

theorem eval_leaf {b : Bool} (h : D.leaf p = some b) (n : ℕ) : D.eval (n + 1) p = fun _ => b := by
  simp [eval, h]

theorem eval_node (h : D.leaf p = none) (n : ℕ) :
    D.eval (n + 1) p = branch (D.level p) (D.eval n (D.low p)) (D.eval n (D.high p)) := by
  simp [eval, h]

namespace Ordered

/-- More fuel than the levels above `p` changes nothing. -/
theorem eval_eq (h : D.Ordered T top) :
    ∀ {n m : ℕ} {p : ν}, p ∈ T → top ≤ D.level p + n → top ≤ D.level p + m →
      D.eval n p = D.eval m p := by
  intro n
  induction n with
  | zero =>
    intro m p hp hn _
    have := h.level_lt p hp
    omega
  | succ n ih =>
    intro m p hp hn hm
    cases m with
    | zero =>
      have := h.level_lt p hp
      omega
    | succ m =>
      cases hleaf : D.leaf p with
      | some b => rw [eval_leaf hleaf, eval_leaf hleaf]
      | none =>
        have hlow := h.lt_low p hp hleaf
        have hhigh := h.lt_high p hp hleaf
        rw [eval_node hleaf, eval_node hleaf,
          ih (m := m) (h.low_mem p hp hleaf) (by omega) (by omega),
          ih (m := m) (h.high_mem p hp hleaf) (by omega) (by omega)]

theorem denote_leaf (h : D.Ordered T top) (hp : p ∈ T) {b : Bool} (hb : D.leaf p = some b) :
    D.denote top p = fun _ => b := by
  have hlt := h.level_lt p hp
  obtain ⟨n, rfl⟩ := Nat.exists_eq_add_of_lt (Nat.zero_lt_of_lt hlt)
  rw [Nat.zero_add, denote, eval_leaf hb]

/-- **An inner node denotes a branch on its level.** -/
theorem denote_node (h : D.Ordered T top) (hp : p ∈ T) (hleaf : D.leaf p = none) :
    D.denote top p = branch (D.level p) (D.denote top (D.low p)) (D.denote top (D.high p)) := by
  have hlow := h.lt_low p hp hleaf
  have hhigh := h.lt_high p hp hleaf
  rw [denote, h.eval_eq (m := top + 1) hp (by omega) (by omega), eval_node hleaf]
  rfl

/-- A node ignores every variable above its level. -/
theorem denote_ignores (h : D.Ordered T top) :
    ∀ {n : ℕ} {p : ν}, p ∈ T → top ≤ D.level p + n → ∀ v < D.level p,
      (D.denote top p).Ignores v := by
  intro n
  induction n with
  | zero =>
    intro p hp hn
    have := h.level_lt p hp
    omega
  | succ n ih =>
    intro p hp hn v hv
    cases hleaf : D.leaf p with
    | some b =>
      rw [h.denote_leaf hp hleaf]
      exact ignores_const b v
    | none =>
      have hlow := h.lt_low p hp hleaf
      have hhigh := h.lt_high p hp hleaf
      rw [h.denote_node hp hleaf]
      exact ignores_branch hv.ne
        (ih (h.low_mem p hp hleaf) (by omega) v (by omega))
        (ih (h.high_mem p hp hleaf) (by omega) v (by omega))

theorem ignores_of_lt (h : D.Ordered T top) (hp : p ∈ T) {v : ℕ} (hv : v < D.level p) :
    (D.denote top p).Ignores v :=
  h.denote_ignores (n := top) hp (by omega) v hv

/-- The two sides of an inner node ignore its own variable and all before it. -/
theorem low_ignores (h : D.Ordered T top) (hp : p ∈ T) (hleaf : D.leaf p = none) {v : ℕ}
    (hv : v ≤ D.level p) : (D.denote top (D.low p)).Ignores v :=
  h.ignores_of_lt (h.low_mem p hp hleaf) (lt_of_le_of_lt hv (h.lt_low p hp hleaf))

theorem high_ignores (h : D.Ordered T top) (hp : p ∈ T) (hleaf : D.leaf p = none) {v : ℕ}
    (hv : v ≤ D.level p) : (D.denote top (D.high p)).Ignores v :=
  h.ignores_of_lt (h.high_mem p hp hleaf) (lt_of_le_of_lt hv (h.lt_high p hp hleaf))

/-- The function of a node depends only on the labels inside the set. -/
theorem eval_congr (h : D.Ordered T top) (hleaf : ∀ p ∈ T, D'.leaf p = D.leaf p)
    (hlevel : ∀ p ∈ T, D'.level p = D.level p) (hlow : ∀ p ∈ T, D'.low p = D.low p)
    (hhigh : ∀ p ∈ T, D'.high p = D.high p) :
    ∀ (n : ℕ) {p : ν}, p ∈ T → D'.eval n p = D.eval n p := by
  intro n
  induction n with
  | zero => intro p _; rfl
  | succ n ih =>
    intro p hp
    cases hp' : D.leaf p with
    | some b => rw [eval_leaf hp', eval_leaf ((hleaf p hp).trans hp')]
    | none =>
      rw [eval_node hp', eval_node ((hleaf p hp).trans hp'), hlevel p hp, hlow p hp, hhigh p hp,
        ih (h.low_mem p hp hp'), ih (h.high_mem p hp hp')]

end Ordered

/-! ### Canonicity -/

/-- A leaf is the only node of a reduced set that denotes its constant, because an inner node
depends on its own variable. The induction is on the levels left above the two nodes. -/
theorem denote_injOn_aux (ho : D.Ordered T top) (hr : D.Reduced T) :
    ∀ {n : ℕ} {p q : ν}, p ∈ T → q ∈ T → D.level p ≤ D.level q → top ≤ D.level p + n →
      D.denote top p = D.denote top q → p = q := by
  intro n
  induction n with
  | zero =>
    intro p q hp _ _ hn
    have := ho.level_lt p hp
    omega
  | succ n ih =>
    have ih' : ∀ {p q : ν}, p ∈ T → q ∈ T → top ≤ D.level p + n → top ≤ D.level q + n →
        D.denote top p = D.denote top q → p = q := by
      intro p q hp hq hpn hqn he
      rcases Nat.le_total (D.level p) (D.level q) with hle | hle
      · exact ih hp hq hle hpn he
      · exact (ih hq hp hle hqn he.symm).symm
    -- an inner node really depends on its level
    have hdep : ∀ {p : ν}, p ∈ T → D.leaf p = none → top ≤ D.level p + (n + 1) →
        ¬ (D.denote top p).Ignores (D.level p) := by
      intro p hp hleaf hpn hign
      have hlow := ho.lt_low p hp hleaf
      have hhigh := ho.lt_high p hp hleaf
      rw [ho.denote_node hp hleaf, ignores_branch_self (ho.low_ignores hp hleaf le_rfl)
        (ho.high_ignores hp hleaf le_rfl)] at hign
      exact hr.low_ne_high p hp hleaf
        (ih' (ho.low_mem p hp hleaf) (ho.high_mem p hp hleaf) (by omega) (by omega) hign)
    intro p q hp hq hle hn he
    cases hpl : D.leaf p with
    | some b =>
      cases hql : D.leaf q with
      | some c =>
        rw [ho.denote_leaf hp hpl, ho.denote_leaf hq hql] at he
        have hbc : b = c := congrFun he fun _ => false
        exact hr.leaf_unique p hp q hq b hpl (hbc ▸ hql)
      | none =>
        refine absurd ?_ (hdep hq hql (by omega))
        rw [← he, ho.denote_leaf hp hpl]
        exact ignores_const b _
    | none =>
      have hlevel : D.level p = D.level q := by
        by_contra hne
        refine hdep hp hpl hn ?_
        rw [he]
        exact ho.ignores_of_lt hq (by omega)
      cases hql : D.leaf q with
      | some c =>
        refine absurd ?_ (hdep hp hpl hn)
        rw [he, ho.denote_leaf hq hql]
        exact ignores_const c _
      | none =>
        have hpl' := ho.lt_low p hp hpl
        have hph' := ho.lt_high p hp hpl
        have hql' := ho.lt_low q hq hql
        have hqh' := ho.lt_high q hq hql
        rw [ho.denote_node hp hpl, ho.denote_node hq hql, hlevel] at he
        obtain ⟨e₀, e₁⟩ := branch_inj (ho.low_ignores hp hpl hlevel.symm.le)
          (ho.high_ignores hp hpl hlevel.symm.le) (ho.low_ignores hq hql le_rfl)
          (ho.high_ignores hq hql le_rfl) he
        exact hr.inner_unique p hp q hq hpl hql hlevel
          (ih' (ho.low_mem p hp hpl) (ho.low_mem q hq hql) (by omega) (by omega) e₀)
          (ih' (ho.high_mem p hp hpl) (ho.high_mem q hq hql) (by omega) (by omega) e₁)

/-- **Canonicity.** In an ordered and reduced set, nodes that denote the same function are
equal. -/
theorem denote_injOn (ho : D.Ordered T top) (hr : D.Reduced T) : Set.InjOn (D.denote top) T := by
  intro p hp q hq he
  rcases Nat.le_total (D.level p) (D.level q) with hle | hle
  · exact denote_injOn_aux ho hr (n := top) hp hq hle (by omega) he
  · exact (denote_injOn_aux ho hr (n := top) hq hp hle (by omega) he.symm).symm

theorem denote_low_ne_high (ho : D.Ordered T top) (hr : D.Reduced T) (hp : p ∈ T)
    (hleaf : D.leaf p = none) : D.denote top (D.low p) ≠ D.denote top (D.high p) := fun he =>
  hr.low_ne_high p hp hleaf
    (denote_injOn ho hr (ho.low_mem p hp hleaf) (ho.high_mem p hp hleaf) he)

/-- The first variable of an inner node's function is its level. -/
theorem isTop_denote (ho : D.Ordered T top) (hr : D.Reduced T) (hp : p ∈ T)
    (hleaf : D.leaf p = none) : IsTop (D.level p) (D.denote top p) := by
  rw [ho.denote_node hp hleaf]
  exact isTop_branch (fun _ hu => ho.low_ignores hp hleaf hu)
    (fun _ hu => ho.high_ignores hp hleaf hu) (denote_low_ne_high ho hr hp hleaf)

/-- **Every sub-function of the function of a node is the function of a node**, one that a
relation closed under children reaches. -/
theorem sub_denote (ho : D.Ordered T top) (hr : D.Reduced T) {R : Set ν} (hRT : R ⊆ T)
    (hlow : ∀ p ∈ R, D.leaf p = none → D.low p ∈ R)
    (hhigh : ∀ p ∈ R, D.leaf p = none → D.high p ∈ R) {g h : BoolFun} (hs : Sub g h) :
    ∀ {p : ν}, p ∈ R → D.denote top p = h → ∃ q ∈ R, D.denote top q = g := by
  induction hs with
  | refl => exact fun hp he => ⟨_, hp, he⟩
  | @low h v ht _ ih =>
    intro p hp he
    cases hleaf : D.leaf p with
    | some b =>
      rw [ho.denote_leaf (hRT hp) hleaf] at he
      exact absurd (he ▸ ht) (not_isTop_const b v)
    | none =>
      have hv := (he ▸ isTop_denote ho hr (hRT hp) hleaf).unique ht
      refine ih (hlow p hp hleaf) ?_
      rw [← he, ← hv, ho.denote_node (hRT hp) hleaf,
        cofactor_branch_false (ho.low_ignores (hRT hp) hleaf le_rfl)]
  | @high h v ht _ ih =>
    intro p hp he
    cases hleaf : D.leaf p with
    | some b =>
      rw [ho.denote_leaf (hRT hp) hleaf] at he
      exact absurd (he ▸ ht) (not_isTop_const b v)
    | none =>
      have hv := (he ▸ isTop_denote ho hr (hRT hp) hleaf).unique ht
      refine ih (hhigh p hp hleaf) ?_
      rw [← he, ← hv, ho.denote_node (hRT hp) hleaf,
        cofactor_branch_true (ho.high_ignores (hRT hp) hleaf le_rfl)]

end Diagram
