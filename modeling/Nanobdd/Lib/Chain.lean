import Mathlib.Data.List.Basic

/-!
# Intrusive singly linked lists

A list threaded through a memory: `next x` is the cell after `x`, and `nil` ends it. `Chain` says
that walking from a head meets exactly the cells of a given list. What is proved is the frame:
a write to a cell off the chain leaves it, and pushing or popping a cell is consing or taking the
tail.
-/

namespace LinkedList

variable {α : Type*} {next next' : α → α} {nil head x : α} {l l' : List α}

/-- Walking from `head` along `next` meets the cells of the list in order, then `nil`. -/
def Chain (next : α → α) (nil : α) : α → List α → Prop
  | head, [] => head = nil
  | head, x :: l => head = x ∧ x ≠ nil ∧ Chain next nil (next x) l

/-- The cells met by walking at most `n` steps from `head`. -/
def walk [DecidableEq α] (next : α → α) (nil : α) : ℕ → α → List α
  | 0, _ => []
  | n + 1, head => if head = nil then [] else head :: walk next nil n (next head)

theorem chain_nil_iff : Chain next nil nil l ↔ l = [] := by
  cases l with
  | nil => simp [Chain]
  | cons x l =>
    simp only [Chain, reduceCtorEq, iff_false, not_and]
    rintro rfl h
    exact absurd rfl h

/-- A chain that does not start with `nil` starts with its head. -/
theorem Chain.exists_cons (h : Chain next nil head l) (hne : head ≠ nil) :
    ∃ l', l = head :: l' ∧ Chain next nil (next head) l' := by
  cases l with
  | nil => exact absurd h hne
  | cons x l =>
    obtain ⟨rfl, -, htail⟩ := h
    exact ⟨l, rfl, htail⟩

theorem Chain.ne_nil (h : Chain next nil head l) (hx : x ∈ l) : x ≠ nil := by
  induction l generalizing head with
  | nil => simp at hx
  | cons y l ih =>
    obtain ⟨-, hy, htail⟩ := h
    rcases List.mem_cons.mp hx with rfl | hx
    · exact hy
    · exact ih htail hx

/-- **Frame.** A chain only depends on the links of its own cells. -/
theorem Chain.congr (h : Chain next nil head l) (hnext : ∀ x ∈ l, next' x = next x) :
    Chain next' nil head l := by
  induction l generalizing head with
  | nil => exact h
  | cons x l ih =>
    obtain ⟨rfl, hx, htail⟩ := h
    refine ⟨rfl, hx, ?_⟩
    rw [hnext head List.mem_cons_self]
    exact ih htail fun y hy => hnext y (List.mem_cons_of_mem _ hy)

theorem Chain.unique (h : Chain next nil head l) (h' : Chain next nil head l') : l = l' := by
  induction l generalizing head l' with
  | nil =>
    rw [show head = nil from h] at h'
    exact (chain_nil_iff.mp h').symm
  | cons x l ih =>
    obtain ⟨rfl, hx, htail⟩ := h
    obtain ⟨l'', rfl, htail'⟩ := h'.exists_cons hx
    rw [ih htail htail']

/-- The cells determine the head. -/
theorem Chain.head_eq {head' : α} (h : Chain next nil head l) (h' : Chain next nil head' l) :
    head = head' := by
  cases l with
  | nil => exact h.trans h'.symm
  | cons x l => exact h.1.trans h'.1.symm

/-- From any of its cells on, a chain is a chain. -/
theorem Chain.suffix (h : Chain next nil head l) (hx : x ∈ l) :
    ∃ l₁ l₂, l = l₁ ++ x :: l₂ ∧ Chain next nil x (x :: l₂) := by
  induction l generalizing head with
  | nil => simp at hx
  | cons y l ih =>
    rcases List.mem_cons.mp hx with rfl | hx
    · exact ⟨[], l, rfl, ⟨rfl, h.2.1, h.2.2⟩⟩
    · obtain ⟨l₁, l₂, rfl, hc⟩ := ih h.2.2 hx
      exact ⟨y :: l₁, l₂, rfl, hc⟩

theorem Chain.walk_eq [DecidableEq α] {n : ℕ} (h : Chain next nil head l) (hn : l.length ≤ n) :
    walk next nil n head = l := by
  induction l generalizing head n with
  | nil =>
    rw [show head = nil from h]
    cases n <;> simp [walk]
  | cons x l ih =>
    obtain ⟨rfl, hx, htail⟩ := h
    cases n with
    | zero => simp at hn
    | succ n =>
      rw [walk, if_neg hx, ih htail (by simpa using hn)]

end LinkedList
