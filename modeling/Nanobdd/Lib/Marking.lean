import Mathlib.Data.Finset.Card
import Mathlib.Data.List.Basic
import Mathlib.Logic.Relation

/-!
# Depth-first marking

The recursive marking of a graph: a marked node is skipped, an unmarked one is marked and its
successors are visited in turn. The graph is given by its successor lists, and the recursion is
cut off by a fuel.

## Main results

* `visitAll_spec` — what any finished marking has done: it marked what it was asked to, nothing
  unreachable, and left no newly marked node with an unmarked successor
* `visitAll_isSome` — the fuel needed: one more than the unmarked nodes of a closed finite set
* `visitAll_iff_reach` — **exactness**: from a closed set without marks, a marking marks exactly
  what its roots reach
-/

namespace Marking

variable {ν : Type*} [DecidableEq ν] {succs : ν → List ν} {m m' : ν → Bool} {p q : ν} {n : ℕ}
  {roots : List ν}

/-- Mark `p` and everything below it that is not marked yet. -/
def visit (succs : ν → List ν) : ℕ → (ν → Bool) → ν → Option (ν → Bool)
  | 0, _, _ => none
  | n + 1, m, p =>
    if m p then some m
    else (succs p).foldlM (fun m q => visit succs n m q) (Function.update m p true)

/-- Visit the roots one after the other. -/
def visitAll (succs : ν → List ν) (n : ℕ) (m : ν → Bool) (roots : List ν) : Option (ν → Bool) :=
  roots.foldlM (fun m q => visit succs n m q) m

/-- `q` is below `p`. -/
abbrev Reach (succs : ν → List ν) : ν → ν → Prop := Relation.ReflTransGen fun p q => q ∈ succs p

/-- What a marking from `roots` has done between `m` and `m'`. -/
structure Marked (succs : ν → List ν) (roots : List ν) (m m' : ν → Bool) : Prop where
  mono : ∀ q, m q = true → m' q = true
  root : ∀ r ∈ roots, m' r = true
  sound : ∀ q, m' q = true → m q = true ∨ ∃ r ∈ roots, Reach succs r q
  closed : ∀ q, m' q = true → m q = false → ∀ r ∈ succs q, m' r = true

theorem visitAll_nil : visitAll succs n m [] = some m := rfl

theorem visitAll_cons : visitAll succs n m (p :: roots) =
    (visit succs n m p).bind fun m => visitAll succs n m roots := rfl

theorem visitAll_append {roots' : List ν} : visitAll succs n m (roots ++ roots') =
    (visitAll succs n m roots).bind fun m => visitAll succs n m roots' := by
  rw [visitAll, List.foldlM_append]
  rfl

theorem visit_succ : visit succs (n + 1) m p =
    if m p then some m else visitAll succs n (Function.update m p true) (succs p) := rfl

omit [DecidableEq ν] in
theorem Marked.cons {m₁ : ν → Bool} (h₁ : Marked succs [p] m m₁) (h₂ : Marked succs roots m₁ m') :
    Marked succs (p :: roots) m m' where
  mono q hq := h₂.mono q (h₁.mono q hq)
  root r hr := by
    rcases List.mem_cons.mp hr with rfl | hr
    · exact h₂.mono r (h₁.root r List.mem_cons_self)
    · exact h₂.root r hr
  sound q hq := by
    rcases h₂.sound q hq with hq | ⟨r, hr, hreach⟩
    · rcases h₁.sound q hq with hq | ⟨r, hr, hreach⟩
      · exact Or.inl hq
      · rw [List.mem_singleton] at hr
        exact Or.inr ⟨p, List.mem_cons_self, hr ▸ hreach⟩
    · exact Or.inr ⟨r, List.mem_cons_of_mem _ hr, hreach⟩
  closed q hq hnot r hr := by
    cases hq₁ : m₁ q with
    | true => exact h₂.mono r (h₁.closed q hq₁ hnot r hr)
    | false => exact h₂.closed q hq hq₁ r hr

/-- **What a finished marking has done.** The induction is on the fuel, and inside it on the
list of roots. -/
theorem visitAll_spec : ∀ {n : ℕ} {roots : List ν} {m m' : ν → Bool},
    visitAll succs n m roots = some m' → Marked succs roots m m' := by
  intro n
  induction n with
  | zero =>
    intro roots m m' h
    cases roots with
    | nil =>
      cases h
      exact ⟨fun _ hq => hq, by simp, fun _ hq => Or.inl hq, fun q hq hn => by simp [hq] at hn⟩
    | cons p roots => simp [visitAll_cons, visit] at h
  | succ n ih =>
    intro roots
    induction roots with
    | nil =>
      intro m m' h
      cases h
      exact ⟨fun _ hq => hq, by simp, fun _ hq => Or.inl hq, fun q hq hn => by simp [hq] at hn⟩
    | cons p roots ihr =>
      intro m m' h
      rw [visitAll_cons, Option.bind_eq_some_iff] at h
      obtain ⟨m₁, hp, hrest⟩ := h
      refine Marked.cons ?_ (ihr hrest)
      rw [visit_succ] at hp
      split at hp
      · next hmp =>
        cases hp
        exact ⟨fun _ hq => hq, by simpa using hmp, fun _ hq => Or.inl hq,
          fun q hq hn => by simp [hq] at hn⟩
      · next hmp =>
        have hsub := ih hp
        have hpm : m₁ p = true := hsub.mono p (by simp)
        refine ⟨fun q hq => hsub.mono q ?_, by simpa using hpm, fun q hq => ?_,
          fun q hq hnot r hr => ?_⟩
        · by_cases hqp : q = p
          · simp [hqp]
          · simp [Function.update_of_ne hqp, hq]
        · rcases hsub.sound q hq with hq | ⟨r, hr, hreach⟩
          · by_cases hqp : q = p
            · exact Or.inr ⟨p, List.mem_cons_self, hqp ▸ Relation.ReflTransGen.refl⟩
            · rw [Function.update_of_ne hqp] at hq
              exact Or.inl hq
          · exact Or.inr ⟨p, List.mem_cons_self, hreach.head hr⟩
        · by_cases hqp : q = p
          · subst hqp
            exact hsub.root r hr
          · exact hsub.closed q hq (by rw [Function.update_of_ne hqp, hnot]) r hr

/-! ### Termination -/

/-- More fuel does not change the result. -/
theorem visitAll_mono : ∀ {n : ℕ} {roots : List ν} {m m' : ν → Bool} {k : ℕ}, n ≤ k →
    visitAll succs n m roots = some m' → visitAll succs k m roots = some m' := by
  intro n
  induction n with
  | zero =>
    intro roots m m' k _ h
    cases roots with
    | nil => exact h
    | cons p roots => simp [visitAll_cons, visit] at h
  | succ n ih =>
    intro roots
    induction roots with
    | nil => exact fun _ h => h
    | cons p roots ihr =>
      intro m m' k hk h
      obtain ⟨k, rfl⟩ := Nat.exists_eq_add_of_le' hk
      rw [visitAll_cons, Option.bind_eq_some_iff] at h
      obtain ⟨m₁, hp, hrest⟩ := h
      rw [visitAll_cons]
      have hp' : visit succs (k + (n + 1)) m p = some m₁ := by
        rw [visit_succ] at hp
        rw [← Nat.add_assoc, visit_succ]
        split at hp
        · next hm => rw [if_pos hm, hp]
        · next hm =>
          rw [if_neg hm]
          exact ih (Nat.le_add_left n k) hp
      rw [hp', Option.bind_some]
      exact ihr (Nat.le_add_left _ _) hrest

/-- The nodes of `T` without a mark. -/
def unmarked (T : Finset ν) (m : ν → Bool) : Finset ν := T.filter fun q => m q = false

omit [DecidableEq ν] in
theorem unmarked_card_le {T : Finset ν} (h : ∀ q, m q = true → m' q = true) :
    (unmarked T m').card ≤ (unmarked T m).card := by
  refine Finset.card_le_card fun q hq => ?_
  rw [unmarked, Finset.mem_filter] at hq ⊢
  refine ⟨hq.1, ?_⟩
  cases hm : m q with
  | false => rfl
  | true => rw [h q hm] at hq; exact absurd hq.2 (by simp)

theorem unmarked_card_lt {T : Finset ν} (hp : p ∈ T) (hm : m p = false) :
    (unmarked T (Function.update m p true)).card < (unmarked T m).card := by
  refine Finset.card_lt_card ⟨fun q hq => ?_, fun hsub => ?_⟩
  · rw [unmarked, Finset.mem_filter] at hq ⊢
    by_cases hqp : q = p
    · rw [hqp] at hq
      simp at hq
    · rw [Function.update_of_ne hqp] at hq
      exact hq
  · have hmem : p ∈ unmarked T m := Finset.mem_filter.mpr ⟨hp, hm⟩
    have := hsub hmem
    simp [unmarked] at this

/-- **Enough fuel.** Every nested visit has marked one more node of `T`. -/
theorem visitAll_isSome {T : Finset ν} (hT : ∀ q ∈ T, ∀ r ∈ succs q, r ∈ T) :
    ∀ {n : ℕ} {roots : List ν} {m : ν → Bool}, (∀ r ∈ roots, r ∈ T) → (unmarked T m).card < n →
      ∃ m', visitAll succs n m roots = some m' := by
  intro n
  induction n with
  | zero => intro roots m _ h; omega
  | succ n ih =>
    intro roots
    induction roots with
    | nil => exact fun _ _ => ⟨_, rfl⟩
    | cons p roots ihr =>
      intro m hroots hcard
      have hp : p ∈ T := hroots p List.mem_cons_self
      obtain ⟨m₁, hm₁⟩ : ∃ m₁, visit succs (n + 1) m p = some m₁ := by
        rw [visit_succ]
        cases hmp : m p with
        | true => exact ⟨m, by simp⟩
        | false =>
          have hlt := unmarked_card_lt hp hmp
          simpa using ih (m := Function.update m p true) (hT p hp) (by omega)
      have hspec : Marked succs [p] m m₁ :=
        visitAll_spec (n := n + 1) (by rw [visitAll_cons, hm₁]; rfl)
      have hle := unmarked_card_le (T := T) hspec.mono
      obtain ⟨m', hm'⟩ :=
        ihr (m := m₁) (fun r hr => hroots r (List.mem_cons_of_mem _ hr)) (by omega)
      exact ⟨m', by rw [visitAll_cons, hm₁]; exact hm'⟩

/-! ### Exactness -/

/-- **A marking that starts without marks on a closed set marks exactly what is reachable.** -/
theorem visitAll_iff_reach {T : Set ν} (hT : ∀ q ∈ T, ∀ r ∈ succs q, r ∈ T)
    (hroots : ∀ r ∈ roots, r ∈ T) (hclear : ∀ q ∈ T, m q = false)
    (h : visitAll succs n m roots = some m') (hq : m q = false) :
    m' q = true ↔ ∃ r ∈ roots, Reach succs r q := by
  have hspec := visitAll_spec h
  constructor
  · intro hmq
    rcases hspec.sound q hmq with hmq | hreach
    · rw [hq] at hmq
      exact absurd hmq (by simp)
    · exact hreach
  · rintro ⟨r, hr, hreach⟩
    -- every node on the path is in the set and marked
    suffices hboth : q ∈ T ∧ m' q = true from hboth.2
    clear hq
    induction hreach with
    | refl => exact ⟨hroots r hr, hspec.root r hr⟩
    | @tail b c _ hc ih =>
      exact ⟨hT b ih.1 c hc, hspec.closed b ih.2 (hclear b ih.1) c hc⟩

end Marking
