import Mathlib.Data.List.Nodup
import Mathlib.Logic.Relation

/-!
# Interning

An interner hands out one value for each key and never takes a value back. What it has handed out
so far is a partial map, and all that can happen to this map is an entry for a new key.

A list of values whose keys differ is such a map, and consing a value with a new key adds the entry
for it.

## Main definitions

* `Adds` — what happens to the map in one step
* `index` — the map of a list

## Main results

* `agree_of_run` — two answers for one key are the same, however far apart
* `adds_cons` — consing is an entry
-/

namespace Interning

variable {α κ : Type*} [DecidableEq κ] {m m' : κ → Option α} {key key' : α → κ} {l : List α}
  {k : κ} {x y : α}

/-- Nothing happens, or there is an entry for a new key. -/
inductive Adds (m : κ → Option α) : (κ → Option α) → Prop
  | same : Adds m m
  | entry (k : κ) (x : α) : m k = none → Adds m (Function.update m k (some x))

/-- An entry stays. -/
theorem Adds.eq_some (h : Adds m m') (hx : m k = some x) : m' k = some x := by
  cases h with
  | same => exact hx
  | entry k' y hnone =>
    have hne : k ≠ k' := fun he => by
      rw [he, hnone] at hx
      cases hx
    rw [Function.update_of_ne hne]
    exact hx

theorem eq_some_of_run (h : Relation.ReflTransGen Adds m m') (hx : m k = some x) :
    m' k = some x := by
  induction h with
  | refl => exact hx
  | tail _ hadds ih => exact hadds.eq_some ih

/-- **One value for each key.** -/
theorem agree_of_run (h : Relation.ReflTransGen Adds m m') (hx : m k = some x)
    (hy : m' k = some y) : x = y :=
  Option.some_inj.mp ((eq_some_of_run h hx).symm.trans hy)

/-! ### The map of a list -/

/-- The value of the list with a key. -/
def index (key : α → κ) (l : List α) (k : κ) : Option α := l.find? fun x => key x = k

theorem index_eq_none_iff : index key l k = none ↔ ∀ x ∈ l, key x ≠ k := by
  simp [index, List.find?_eq_none]

theorem index_eq_some_iff (h : (l.map key).Nodup) :
    index key l k = some x ↔ x ∈ l ∧ key x = k := by
  constructor
  · intro hx
    exact ⟨List.mem_of_find?_eq_some hx, by simpa using List.find?_some hx⟩
  · rintro ⟨hx, rfl⟩
    cases hy : index key l (key x) with
    | none => exact absurd rfl (index_eq_none_iff.mp hy x hx)
    | some y =>
      have hkey : key y = key x := by simpa using List.find?_some hy
      rw [List.inj_on_of_nodup_map h (List.mem_of_find?_eq_some hy) hx hkey]

/-- Only the keys of the values in the list matter. -/
theorem index_congr (h : ∀ x ∈ l, key' x = key x) : index key' l = index key l := by
  funext k
  induction l with
  | nil => rfl
  | cons x l ih =>
    have htail : index key' l k = index key l k := ih fun y hy => h y (List.mem_cons_of_mem _ hy)
    rw [index, index, List.find?_cons, List.find?_cons, h x List.mem_cons_self]
    split
    · rfl
    · exact htail

theorem index_cons_of_eq (h : key x = k) : index key (x :: l) k = some x := by
  simp [index, h]

theorem index_cons_of_ne (h : key x ≠ k) : index key (x :: l) k = index key l k := by
  simp [index, h]

theorem index_cons (key : α → κ) (x : α) (l : List α) :
    index key (x :: l) = Function.update (index key l) (key x) (some x) := by
  funext k
  by_cases hk : key x = k
  · subst hk
    rw [index_cons_of_eq rfl, Function.update_self]
  · rw [index_cons_of_ne hk, Function.update_of_ne (Ne.symm hk)]

/-- **Consing a value with a new key** is an entry. -/
theorem adds_cons (h : ∀ y ∈ l, key y ≠ key x) : Adds (index key l) (index key (x :: l)) := by
  rw [index_cons]
  exact .entry _ _ (index_eq_none_iff.mpr h)

end Interning
