import Mathlib.Data.Set.Card
import Nanobdd.Lib.BoolFun

/-!
# The size of the diagram of a function

`subs f` is the set of functions that the reduced ordered diagram of `f` has nodes for, so its
cardinality is the size of the diagram. The lemmas below compute it for constants and branches,
and bound it for a connective by the product of the sizes of its operands.

## Main results

* `subs_const`, `subs_branch`, `subs_literal` — the diagrams of a leaf, an inner node, a variable
* `Sub.exists_map₂` — a sub-function of a connective is the connective of two sub-functions
* `encard_subs_map₂_le` — **the product bound**
-/

namespace BoolFun

variable {f g h f₀ f₁ : BoolFun} {v : ℕ} {o : Bool → Bool → Bool}

/-- A constant has no variable to expand. -/
theorem subs_const (b : Bool) : subs (fun _ => b) = {fun _ => b} := by
  ext g
  constructor
  · intro hs
    cases hs with
    | refl => rfl
    | low ht => exact absurd ht (not_isTop_const b _)
    | high ht => exact absurd ht (not_isTop_const b _)
  · rintro rfl
    exact Sub.refl

/-- Below a branch are the diagrams of its two sides. -/
theorem subs_branch (h₀ : ∀ u ≤ v, f₀.Ignores u) (h₁ : ∀ u ≤ v, f₁.Ignores u) (hne : f₀ ≠ f₁) :
    subs (branch v f₀ f₁) = insert (branch v f₀ f₁) (subs f₀ ∪ subs f₁) := by
  have htop := isTop_branch h₀ h₁ hne
  have hlow : cofactor v false (branch v f₀ f₁) = f₀ := cofactor_branch_false (h₀ v le_rfl)
  have hhigh : cofactor v true (branch v f₀ f₁) = f₁ := cofactor_branch_true (h₁ v le_rfl)
  ext g
  constructor
  · intro hs
    cases hs with
    | refl => exact Or.inl rfl
    | low ht hs =>
      rw [ht.unique htop, hlow] at hs
      exact Or.inr (Or.inl hs)
    | high ht hs =>
      rw [ht.unique htop, hhigh] at hs
      exact Or.inr (Or.inr hs)
  · rintro (rfl | hs | hs)
    · exact Sub.refl
    · exact Sub.low htop (hlow.symm ▸ hs)
    · exact Sub.high htop (hhigh.symm ▸ hs)

/-- The variable `v`, negated unless `b`. -/
def literal (v : ℕ) (b : Bool) : BoolFun := branch v (fun _ => !b) fun _ => b

theorem literal_apply (v : ℕ) (b : Bool) (a : ℕ → Bool) : literal v b a = (a v == b) := by
  cases b <;> cases h : a v <;> simp [literal, branch, h]

theorem const_not_ne (b : Bool) : (fun _ => !b : BoolFun) ≠ fun _ => b := fun he =>
  absurd (congrFun he fun _ => false) (Bool.not_ne_self b)

/-- A literal has three nodes. -/
theorem subs_literal (v : ℕ) (b : Bool) :
    subs (literal v b) = {literal v b, (fun _ => false), fun _ => true} := by
  rw [literal, subs_branch (fun u _ => ignores_const _ u) (fun u _ => ignores_const _ u)
    (const_not_ne b), subs_const, subs_const]
  cases b with
  | false => rw [Bool.not_false, Set.singleton_union, Set.pair_comm]
  | true => rw [Bool.not_true, Set.singleton_union]

/-- A literal is no constant, and different literals are different functions. -/
theorem literal_ne_const (v : ℕ) (b c : Bool) : literal v b ≠ fun _ => c := by
  intro he
  have hc := congrFun he fun _ => !c == b
  rw [literal_apply] at hc
  cases b <;> cases c <;> simp at hc

theorem literal_inj {u v : ℕ} {b c : Bool} (he : literal u b = literal v c) : u = v ∧ b = c := by
  have hc : b = c := by
    have hall := congrFun he fun _ => true
    rw [literal_apply, literal_apply] at hall
    cases b <;> cases c <;> simp at hall ⊢
  refine ⟨?_, hc⟩
  subst hc
  have hu := congrFun he fun w => decide (w = u)
  rw [literal_apply, literal_apply, decide_eq_true rfl] at hu
  by_contra hne
  rw [decide_eq_false (Ne.symm hne)] at hu
  cases b <;> simp at hu

/-- A connective that ignores the first variables is that of two sub-functions that ignore them.
A variable that the connective ignores may matter to both operands; their negative cofactors then
do as well. -/
theorem exists_subs_of_ignores {n : ℕ} (hm : ∀ u < n, (map₂ o f g).Ignores u) :
    ∃ f' ∈ subs f, ∃ g' ∈ subs g, map₂ o f' g' = map₂ o f g ∧
      ∀ u < n, f'.Ignores u ∧ g'.Ignores u := by
  induction n with
  | zero => exact ⟨f, Sub.refl, g, Sub.refl, rfl, fun u hu => absurd hu (Nat.not_lt_zero u)⟩
  | succ n ih =>
    obtain ⟨f', hf, g', hg, he, hign⟩ := ih fun u hu => hm u (by omega)
    have hf' : Sub (cofactor n false f') f' := sub_cofactor (fun u hu => (hign u hu).1) false
    have hg' : Sub (cofactor n false g') g' := sub_cofactor (fun u hu => (hign u hu).2) false
    refine ⟨cofactor n false f', hf'.trans hf, cofactor n false g', hg'.trans hg, ?_, ?_⟩
    · calc map₂ o (cofactor n false f') (cofactor n false g')
          = cofactor n false (map₂ o f' g') := rfl
        _ = map₂ o f g := by rw [he, cofactor_of_ignores (hm n (Nat.lt_succ_self n))]
    · intro u hu
      rcases Nat.lt_succ_iff_lt_or_eq.mp hu with hlt | rfl
      · exact ⟨(hign u hlt).1.cofactor n false, (hign u hlt).2.cofactor n false⟩
      · exact ⟨ignores_cofactor_self u false f', ignores_cofactor_self u false g'⟩

/-- **A sub-function of a connective is the connective of two sub-functions.** -/
theorem Sub.exists_map₂ (hs : Sub h (map₂ o f g)) :
    ∃ f' ∈ subs f, ∃ g' ∈ subs g, map₂ o f' g' = h := by
  generalize hk : map₂ o f g = k at hs
  induction hs generalizing f g with
  | refl => exact ⟨f, Sub.refl, g, Sub.refl, hk⟩
  | @low k v ht _ ih =>
    subst hk
    obtain ⟨f', hf, g', hg, he, hign⟩ := exists_subs_of_ignores ht.1
    obtain ⟨f'', hf', g'', hg', he'⟩ := ih (congrArg (cofactor v false) he)
    exact ⟨f'', (hf'.trans (sub_cofactor (fun u hu => (hign u hu).1) false)).trans hf,
      g'', (hg'.trans (sub_cofactor (fun u hu => (hign u hu).2) false)).trans hg, he'⟩
  | @high k v ht _ ih =>
    subst hk
    obtain ⟨f', hf, g', hg, he, hign⟩ := exists_subs_of_ignores ht.1
    obtain ⟨f'', hf', g'', hg', he'⟩ := ih (congrArg (cofactor v true) he)
    exact ⟨f'', (hf'.trans (sub_cofactor (fun u hu => (hign u hu).1) true)).trans hf,
      g'', (hg'.trans (sub_cofactor (fun u hu => (hign u hu).2) true)).trans hg, he'⟩

/-- **The product bound.** -/
theorem encard_subs_map₂_le (o : Bool → Bool → Bool) (f g : BoolFun) :
    (subs (map₂ o f g)).encard ≤ (subs f).encard * (subs g).encard := by
  have hsub : subs (map₂ o f g) ⊆ (fun p : BoolFun × BoolFun => map₂ o p.1 p.2) ''
      (subs f ×ˢ subs g) := by
    intro h hs
    obtain ⟨f', hf, g', hg, he⟩ := Sub.exists_map₂ hs
    exact ⟨(f', g'), ⟨hf, hg⟩, he⟩
  calc (subs (map₂ o f g)).encard ≤ (subs f ×ˢ subs g).encard :=
        (Set.encard_le_encard hsub).trans (Set.encard_image_le _ _)
    _ = (subs f).encard * (subs g).encard := Set.encard_prod

end BoolFun
