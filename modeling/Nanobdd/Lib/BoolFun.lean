import Mathlib.Data.Set.Finite.Basic
import Mathlib.Logic.Function.Basic
import Mathlib.Data.Nat.Notation

/-!
# Boolean functions and their decision structure

A Boolean function of countably many variables, its cofactors, and the set of functions that its
reduced ordered decision diagram has nodes for. Nothing here mentions a diagram: `Sub` is defined
on functions alone, and `Diagram` shows that the nodes of a diagram are exactly that set.

## Main definitions

* `BoolFun.branch` — `if a v then f₁ else f₀`, what an inner node means
* `BoolFun.Ignores`, `IsTop` — a variable that does not matter, and the first one that does
* `BoolFun.Sub` — the functions of the nodes of the reduced ordered diagram of a function

## Main results

* `branch_inj` — the two branches are determined by the function
* `Sub.trans`, `sub_cofactor` — how sub-functions nest
-/

/-- A Boolean function of variables numbered by `ℕ`. -/
abbrev BoolFun := (ℕ → Bool) → Bool

namespace BoolFun

variable {f g f₀ f₁ g₀ g₁ : BoolFun} {u v : ℕ}

/-- Shannon's expansion: `f₁` where `v` is true, `f₀` where it is false. -/
def branch (v : ℕ) (f₀ f₁ : BoolFun) : BoolFun := fun a => if a v then f₁ a else f₀ a

/-- The function does not depend on `v`. -/
def Ignores (f : BoolFun) (v : ℕ) : Prop := ∀ a b, f (Function.update a v b) = f a

/-- The cofactor of `f` at `v = b`. -/
def cofactor (v : ℕ) (b : Bool) (f : BoolFun) : BoolFun := fun a => f (Function.update a v b)

/-- `v` is the first variable that `f` depends on. -/
def IsTop (v : ℕ) (f : BoolFun) : Prop := (∀ u < v, f.Ignores u) ∧ ¬ f.Ignores v

/-- Pointwise application of a connective. -/
def map₂ (o : Bool → Bool → Bool) (f g : BoolFun) : BoolFun := fun a => o (f a) (g a)

theorem ignores_const (b : Bool) (v : ℕ) : Ignores (fun _ => b) v := fun _ _ => rfl

theorem cofactor_branch_false (h : f₀.Ignores v) : cofactor v false (branch v f₀ f₁) = f₀ := by
  funext a
  simp [cofactor, branch, h a]

theorem cofactor_branch_true (h : f₁.Ignores v) : cofactor v true (branch v f₀ f₁) = f₁ := by
  funext a
  simp [cofactor, branch, h a]

theorem cofactor_of_ignores (h : f.Ignores v) (b : Bool) : cofactor v b f = f :=
  funext fun a => h a b

/-- Shannon's expansion of a function by its own cofactors. -/
theorem branch_cofactor (v : ℕ) (f : BoolFun) :
    branch v (cofactor v false f) (cofactor v true f) = f := by
  funext a
  simp only [branch, cofactor]
  split
  · next h => rw [← h, Function.update_eq_self]
  · next h =>
    rw [Bool.not_eq_true] at h
    rw [← h, Function.update_eq_self]

theorem ignores_cofactor_self (v : ℕ) (b : Bool) (f : BoolFun) : (cofactor v b f).Ignores v := by
  intro a c
  simp [cofactor, Function.update_idem]

theorem Ignores.cofactor (h : f.Ignores u) (v : ℕ) (b : Bool) :
    (BoolFun.cofactor v b f).Ignores u := by
  intro a c
  by_cases huv : u = v
  · subst huv
    exact ignores_cofactor_self u b f a c
  · simp only [BoolFun.cofactor]
    rw [Function.update_comm huv, h]

theorem branch_self (v : ℕ) (f : BoolFun) : branch v f f = f := by
  funext a
  simp [branch]

theorem branch_inj (hf₀ : f₀.Ignores v) (hf₁ : f₁.Ignores v) (hg₀ : g₀.Ignores v)
    (hg₁ : g₁.Ignores v) (h : branch v f₀ f₁ = branch v g₀ g₁) : f₀ = g₀ ∧ f₁ = g₁ := by
  constructor
  · calc f₀ = cofactor v false (branch v f₀ f₁) := (cofactor_branch_false hf₀).symm
      _ = g₀ := by rw [h, cofactor_branch_false hg₀]
  · calc f₁ = cofactor v true (branch v f₀ f₁) := (cofactor_branch_true hf₁).symm
      _ = g₁ := by rw [h, cofactor_branch_true hg₁]

theorem ignores_branch (huv : u ≠ v) (h₀ : f₀.Ignores u) (h₁ : f₁.Ignores u) :
    (branch v f₀ f₁).Ignores u := by
  intro a b
  simp [branch, Function.update_of_ne huv.symm, h₀ a b, h₁ a b]

/-- A branch matters exactly when its two sides differ. -/
theorem ignores_branch_self (h₀ : f₀.Ignores v) (h₁ : f₁.Ignores v) :
    (branch v f₀ f₁).Ignores v ↔ f₀ = f₁ := by
  constructor
  · intro h
    have hself : branch v f₀ f₁ = branch v (branch v f₀ f₁) (branch v f₀ f₁) :=
      (branch_self v _).symm
    obtain ⟨e₀, e₁⟩ := branch_inj h₀ h₁ h h hself
    rw [e₀, ← e₁]
  · rintro rfl
    rwa [branch_self]

theorem isTop_branch (h₀ : ∀ u ≤ v, f₀.Ignores u) (h₁ : ∀ u ≤ v, f₁.Ignores u) (hne : f₀ ≠ f₁) :
    IsTop v (branch v f₀ f₁) := by
  refine ⟨fun u hu => ignores_branch hu.ne (h₀ u hu.le) (h₁ u hu.le), fun h => hne ?_⟩
  exact (ignores_branch_self (h₀ v le_rfl) (h₁ v le_rfl)).mp h

theorem IsTop.unique (hu : IsTop u f) (hv : IsTop v f) : u = v := by
  rcases Nat.lt_trichotomy u v with h | h | h
  · exact absurd (hv.1 u h) hu.2
  · exact h
  · exact absurd (hu.1 v h) hv.2

theorem not_isTop_const (b : Bool) (v : ℕ) : ¬ IsTop v (fun _ => b) :=
  fun h => h.2 (ignores_const b v)

theorem Ignores.map₂ (o : Bool → Bool → Bool) (hf : f.Ignores v) (hg : g.Ignores v) :
    (map₂ o f g).Ignores v := by
  intro a b
  simp [BoolFun.map₂, hf a b, hg a b]

/-! ### Sub-functions -/

/-- `Sub g h`: the reduced ordered decision diagram of `h` has a node for `g`. -/
inductive Sub (g : BoolFun) : BoolFun → Prop
  | refl : Sub g g
  | low {h v} : IsTop v h → Sub g (cofactor v false h) → Sub g h
  | high {h v} : IsTop v h → Sub g (cofactor v true h) → Sub g h

/-- All sub-functions of `h`. -/
def subs (h : BoolFun) : Set BoolFun := {g | Sub g h}

theorem Sub.trans {h : BoolFun} (hfg : Sub f g) (hgh : Sub g h) : Sub f h := by
  induction hgh with
  | refl => exact hfg
  | low ht _ ih => exact Sub.low ht ih
  | high ht _ ih => exact Sub.high ht ih

/-- A sub-function depends on no variable the function does not depend on. -/
theorem Sub.ignores {h : BoolFun} (hs : Sub g h) (hh : h.Ignores u) : g.Ignores u := by
  induction hs with
  | refl => exact hh
  | low _ _ ih => exact ih (hh.cofactor _ _)
  | high _ _ ih => exact ih (hh.cofactor _ _)

/-- The cofactors at a variable before which the function depends on nothing. -/
theorem sub_cofactor (hf : ∀ u < v, f.Ignores u) (b : Bool) : Sub (cofactor v b f) f := by
  by_cases hv : f.Ignores v
  · rw [cofactor_of_ignores hv]
    exact Sub.refl
  · cases b with
    | false => exact Sub.low ⟨hf, hv⟩ Sub.refl
    | true => exact Sub.high ⟨hf, hv⟩ Sub.refl

end BoolFun
