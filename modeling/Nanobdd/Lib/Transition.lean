import Mathlib.Logic.Relation

/-!
# Runs of a transition system

A run is a path of `Relation.ReflTransGen`. What one step preserves a run preserves; a run may also
be one that avoids a set of states. A function to the states of another system that turns every
step into a step there, or into none, turns every run into a run. A run on fixed input comes from
a function that takes the steps.
-/

namespace Transition

variable {σ : Type*} {step : σ → σ → Prop} {a b c : σ}

/-- **The invariant rule.** -/
theorem invariant {I : σ → Prop} (hstep : ∀ a b, step a b → I a → I b)
    (h : Relation.ReflTransGen step a b) (ha : I a) : I b := by
  induction h with
  | refl => exact ha
  | tail _ hbc ih => exact hstep _ _ hbc ih

/-- **Simulation.** Seen through `abs`, a run is a run of `spec`. -/
theorem simulation {τ : Type*} {spec : τ → τ → Prop} {abs : σ → τ} {I : σ → Prop}
    (hstep : ∀ a b, step a b → I a → I b)
    (hspec : ∀ a b, step a b → I a → abs b = abs a ∨ spec (abs a) (abs b))
    (h : Relation.ReflTransGen step a b) (ha : I a) :
    Relation.ReflTransGen spec (abs a) (abs b) := by
  induction h with
  | refl => exact .refl
  | @tail b c hab hbc ih =>
    rcases hspec b c hbc (invariant hstep hab ha) with he | hs
    · rwa [he]
    · exact ih.tail hs

/-- **Execution.** What a function does with a list of choices, if it takes all of them, is a
run. -/
theorem run_of_foldlM {χ : Type*} {act : σ → χ → Option σ}
    (hact : ∀ a x b, act a x = some b → step a b) :
    ∀ {l : List χ} {a b : σ}, l.foldlM act a = some b → Relation.ReflTransGen step a b := by
  intro l
  induction l with
  | nil =>
    intro a b h
    cases h
    exact .refl
  | cons x l ih =>
    intro a b h
    obtain ⟨c, hc, h⟩ := Option.bind_eq_some_iff.mp h
    exact (ih h).head (hact a x c hc)

/-- The steps that start outside `bad`. -/
def Avoiding (step : σ → σ → Prop) (bad : σ → Prop) (a b : σ) : Prop := step a b ∧ ¬ bad a

theorem Avoiding.mono {bad bad' : σ → Prop} (hb : ∀ a, bad' a → bad a)
    (h : Relation.ReflTransGen (Avoiding step bad) a b) :
    Relation.ReflTransGen (Avoiding step bad') a b :=
  Relation.ReflTransGen.mono (fun _ _ hs => ⟨hs.1, fun hb' => hs.2 (hb _ hb')⟩) _ _ h

theorem Avoiding.run {bad : σ → Prop} (h : Relation.ReflTransGen (Avoiding step bad) a b) :
    Relation.ReflTransGen step a b :=
  Relation.ReflTransGen.mono (fun _ _ hs => hs.1) _ _ h

end Transition
