import Nanobdd.CInterface

/-!
# Sessions of the C interface

A call of a function of `capi.h` is a step of the machine on handles, and the library can do
whatever the machine can. So a program sees the machine, over any number of sessions from `init`
to `clear`.

## Main definitions

* `Library.Valid` — the invariant
* `Library.Serves` — the library is as good as the machine

## Main results

* `Library.call_handles` — a call is a step of the machine
* `Library.exists_call` — a step of the machine is a call
* `Library.sessions_of_run` — **any number of sessions** is a run of the machine
-/

namespace Nanobdd

open BoolFun

variable {P : Platform} {n fuel : ℕ}

namespace Library

variable {l l' : Library} {c c' : Client} {e : CCall} {a : Action} {r : CResult}

/-! ### One call -/

/-- The invariant: while there is a table, the objects are those of a program over it. -/
def Valid (P : Platform) (l : Library) : Prop :=
  ∀ c, l.client = some c → Client.Faithful P c.table.vars.length c

/-- What one call does. -/
structure Follows (P : Platform) (l : Library) (e : CCall) (r : CResult) (l' : Library) : Prop where
  answers : l.handles.Answers r e
  next : l.handles.next e = some l'.handles
  valid : (∀ c, l'.client = some c → c.ReferencesFit) → l'.Valid P

theorem admits_of_action (hl : l.client = some c) (he : e.Admits P l) (ha : e.action = some a) :
    c.Admits (State.NoLoss P) a ∧ a.Plain := by
  rcases CCall.action_cases ha with ⟨rfl, rfl⟩ | ⟨rfl, rfl⟩ | ⟨i, rfl, rfl⟩ | ⟨i, rfl, rfl⟩ |
    ⟨i, rfl, rfl⟩ | ⟨i, rfl, rfl⟩ | ⟨op, i, j, rfl, rfl⟩ | ⟨i, rfl, rfl⟩ | ⟨rfl, rfl⟩
  · exact ⟨trivial, trivial⟩
  · exact ⟨trivial, trivial⟩
  · exact ⟨trivial, trivial⟩
  · exact ⟨trivial, trivial⟩
  · exact ⟨trivial, trivial⟩
  · exact ⟨trivial, trivial⟩
  · exact ⟨he.2.2 c i j hl rfl rfl, he.2.1⟩
  · exact ⟨he c i hl rfl, show Operator.not ≠ .imp by decide⟩
  · exact ⟨trivial, trivial⟩

theorem answers_made (h : Handles) (ha : e.action = some a) :
    h.Answers (e.made h.values.length) e := by
  rcases CCall.action_cases ha with ⟨rfl, rfl⟩ | ⟨rfl, rfl⟩ | ⟨_, rfl, rfl⟩ | ⟨_, rfl, rfl⟩ |
    ⟨_, rfl, rfl⟩ | ⟨_, rfl, rfl⟩ | ⟨_, _, _, rfl, rfl⟩ | ⟨_, rfl, rfl⟩ | ⟨rfl, rfl⟩
  all_goals rfl

theorem not_binary_not (he : e.Admits P l) (op : Operator) (lhs rhs : Handle)
    (h : e = .binary op lhs rhs) : op ≠ .not := by
  subst h
  exact he.1

theorem values_length (c : Client) : c.values.length = c.bdds.length := List.length_map _

/-- A call that works on the table. -/
theorem follows_of_action (h : c.library.Valid P) (he : e.Admits P c.library)
    (ha : e.action = some a) (hc : c.library.call P fuel e = some (r, l')) :
    Follows P c.library e r l' := by
  rw [call_eq c ha (not_binary_not he)] at hc
  obtain ⟨c', hexec, hc⟩ := Option.map_eq_some_iff.mp hc
  cases hc
  have hfaithful := h c (client_library c)
  obtain ⟨hadm, hplain⟩ := admits_of_action (client_library c) he ha
  have hvars : c'.table.vars = c.table.vars := (hfaithful.exec_meaning hexec hadm).1.vars
  refine ⟨?_, ?_, fun hfit d hd => ?_⟩
  · exact values_length c ▸ answers_made c.library.handles ha
  · rw [next_eq c ha, hfaithful.exec_values hexec hadm hplain, handles_library, hvars]
    rfl
  · cases (client_library c').symm.trans hd
    rw [hvars]
    exact hfaithful.exec hexec hadm (hfit c' rfl)

theorem create_of_none (hl : l.client = none) (f : Client → Option Client) :
    l.create f = none := by
  rw [create, hl]
  rfl

/-- Without a table nothing can be made. -/
theorem call_of_none (ha : e.action = some a) (he : e.Admits P l) (hfree : ∀ i, e ≠ .free (some i))
    (hl : l.client = none) : l.call P fuel e = none := by
  have hcreate : ∀ f, (l.create f).map (Prod.map CResult.handle fun n => n) = none :=
    fun f => by rw [create_of_none hl, Option.map_none]
  rcases CCall.action_cases ha with ⟨rfl, rfl⟩ | ⟨rfl, rfl⟩ | ⟨i, rfl, rfl⟩ | ⟨i, rfl, rfl⟩ |
    ⟨i, rfl, rfl⟩ | ⟨i, rfl, rfl⟩ | ⟨op, i, j, rfl, rfl⟩ | ⟨i, rfl, rfl⟩ | ⟨rfl, rfl⟩
  · exact hcreate _
  · exact hcreate _
  · exact hcreate _
  · exact hcreate _
  · exact hcreate _
  · exact absurd rfl (hfree i)
  · exact (if_neg he.1).trans (hcreate _)
  · exact hcreate _
  · show (l.nanobddGc fuel).map _ = none
    rw [nanobddGc, hl]
    rfl

/-- A call that needs a table. -/
theorem follows_made (h : l.Valid P) (he : e.Admits P l) (ha : e.action = some a)
    (hfree : ∀ i, e ≠ .free (some i)) (hc : l.call P fuel e = some (r, l')) :
    Follows P l e r l' := by
  cases hl : l.client with
  | none =>
    rw [call_of_none ha he hfree hl] at hc
    cases hc
  | some c =>
    obtain rfl := client_eq_some.mp hl
    exact follows_of_action h he ha hc

/-- A call that changes nothing. -/
theorem Valid.same (h : l.Valid P) (hr : l.handles.Answers r e)
    (hn : l.handles.next e = some l.handles) : Follows P l e r l :=
  ⟨hr, hn, fun _ => h⟩

/-- Freed objects do not matter to a new table. -/
theorem faithful_of_released {s : State} {bdds : List (Option Ptr)} (k : ℕ)
    (h : Client.Faithful P n (Client.start s)) (hb : ∀ o ∈ bdds, o = none) :
    Client.Faithful P n ⟨s, bdds, k⟩ := by
  have hrefs : ∀ p, (⟨s, bdds, k⟩ : Client).references p = (Client.start s).references p := by
    intro p
    have hzero : bdds.count (some p) = 0 := List.count_eq_zero.mpr fun hp =>
      Option.some_ne_none p (hb _ hp)
    rw [Client.references_start, Client.references, Client.handles, hzero, Nat.zero_add]
  refine ⟨h.toExact.recount (Client.Counted.refl s) (h.tallied.recount (Client.Counted.refl s)
    (fun p hp hpos => h.mem p hp (hrefs p ▸ hpos)) fun p hp => ?_), h.wired⟩
  rw [hrefs]
  exact h.counted p hp

theorem vars_isSome (l : Library) : l.handles.vars.isSome = l.nodeTable.isSome := by
  rw [handles, client]
  cases l.nodeTable <;> rfl

theorem follows_init {rand₁ rand₂ : ℕ → ℕ} {tableSize cacheSize varNum : ℕ} (h : l.Valid P)
    (he : (CCall.init rand₁ rand₂ tableSize cacheSize varNum).Admits P l)
    (hc : l.nanobddInit fuel P rand₁ rand₂ tableSize cacheSize varNum = some l') :
    Follows P l (.init rand₁ rand₂ tableSize cacheSize varNum) .void l' := by
  rw [nanobddInit] at hc
  split at hc
  · next hsome =>
    cases hc
    refine h.same rfl ?_
    rw [Handles.next, vars_isSome, if_pos hsome]
  · next hnone =>
    obtain ⟨t, ht, hc⟩ := Option.bind_eq_some_iff.mp hc
    cases hc
    have hl : l.nodeTable = none := by simpa using hnone
    obtain ⟨hv, hreleased⟩ := he hl
    have hfaithful := faithful_of_released l.underflows
      (Client.faithful_of_ready (State.ready_of_init hv ht)) hreleased
    have hvars : t.vars.length = varNum := hfaithful.wired.vars_length
    refine ⟨rfl, ?_, fun _ c hd => ?_⟩
    · -- nothing is left of the last session
      rw [Handles.next, vars_isSome, if_neg hnone, handles_of_none (client_eq_none.mpr hl)]
      show _ = some (Handles.mk (some t.vars.length) (l.bdds.map (Option.map t.value)))
      rw [hvars]
      refine congrArg (fun v => some (Handles.mk (some varNum) v)) ?_
      refine List.map_congr_left fun o ho => ?_
      rw [hreleased o ho]
      rfl
    · cases hd
      exact hvars ▸ hfaithful

theorem follows_clear (l : Library) : Follows P l .clear .void l.nanobddClear := by
  refine ⟨rfl, ?_, fun _ c hc => by cases hc⟩
  rw [Handles.next, handles_of_none (l := l.nanobddClear) rfl]
  have htwice : ∀ f : Ptr → Option BoolFun, (l.bdds.map (Option.map f)).map
      (Option.map fun _ => (none : Option BoolFun)) = l.bdds.map (Option.map fun _ => none) := by
    intro f
    rw [List.map_map]
    exact List.map_congr_left fun o _ => Option.map_map _ _ o
  cases hl : l.client with
  | none =>
    rw [handles_of_none hl, htwice]
    rfl
  | some c =>
    rw [client_eq_some] at hl
    subst hl
    rw [handles_library, Client.values]
    exact congrArg (fun v => some (Handles.mk none v)) (htwice c.table.value)

/-- Without a table `~Bdd` only ends the life of the object. -/
theorem follows_released (hl : l.client = none) {i : ℕ} (hc : l.nanobddBddFree (some i) = some l') :
    Follows P l (.free (some i)) .void l' := by
  simp only [nanobddBddFree, hl] at hc
  obtain ⟨p, hp, hc⟩ := Option.map_eq_some_iff.mp hc
  cases hc
  have hl' : ({ l with bdds := l.bdds.set i none } : Library).client = none :=
    client_eq_none.mpr (client_eq_none.mp hl : l.nodeTable = none)
  refine ⟨rfl, ?_, fun _ c hd => absurd (hl'.symm.trans hd) (Option.some_ne_none c).symm⟩
  have hget : l.bdds[i]? = some (some p) := Option.join_eq_some_iff.mp hp
  rw [Handles.next, handles_of_none hl, handles_of_none hl', Values.get, List.getElem?_map, hget]
  simp [List.map_set]

theorem values_get_of_root {i : ℕ} {p : Ptr} (hp : l.root i = some p) :
    ∃ f, l.handles.values.get i = some f := by
  cases hl : l.client with
  | none =>
    have hget : l.bdds[i]? = some (some p) := Option.join_eq_some_iff.mp hp
    exact ⟨none, by rw [handles_of_none hl, Values.get, List.getElem?_map, hget]; rfl⟩
  | some c =>
    obtain rfl := client_eq_some.mp hl
    have hroot : c.root i = some p := hp
    exact ⟨c.table.value p, by rw [handles_library, Client.values_get, hroot]; rfl⟩

/-- A handle that has outlived its table holds no function. -/
theorem fn_of_none (hl : l.client = none) (i : ℕ) : l.handles.values.fn i = none := by
  rw [handles_of_none hl, Values.fn, Values.get, List.getElem?_map]
  cases l.bdds[i]? with
  | none => rfl
  | some o => cases o <;> rfl

theorem client_of_fn {i : ℕ} {f : BoolFun} (hf : l.handles.values.fn i = some f) :
    ∃ c : Client, l = c.library ∧ c.values.fn i = some f := by
  cases hl : l.client with
  | none =>
    rw [fn_of_none hl] at hf
    cases hf
  | some c =>
    obtain rfl := client_eq_some.mp hl
    exact ⟨c, rfl, hf⟩

/-- `nanobdd_bdd_is_false` and `nanobdd_bdd_is_true` -/
theorem follows_test {i : ℕ} {test : Client → Option Bool} {b : Bool} {g : BoolFun}
    (he : e = .isFalse (some i) ∨ e = .isTrue (some i))
    (hroot : ∀ c, test c = some b → ∃ p, c.root i = some p)
    (hagrees : ∀ (c : Client) f, l = c.library → c.values.fn i = some f →
      (test c = some true ↔ f = g))
    (hc : l.client.bind test = some b) : l.handles.next e = some l.handles ∧
      ∀ f, l.handles.fn (some i) = some f → (b = true ↔ f = g) := by
  obtain ⟨c, hl, hb⟩ := Option.bind_eq_some_iff.mp hc
  obtain rfl := client_eq_some.mp hl
  obtain ⟨p, hp⟩ := hroot c hb
  obtain ⟨f, hf⟩ := values_get_of_root (l := c.library) hp
  constructor
  · have hnext : (c.library.handles.vars.bind fun _ =>
        (c.library.handles.values.get i).bind fun _ => some c.library.handles) =
          some c.library.handles := by
      rw [hf]
      rfl
    rcases he with rfl | rfl
    · exact hnext
    · exact hnext
  · intro f hf
    rw [← hagrees c f rfl hf, hb, Option.some_inj]

theorem follows_equals {i j : ℕ} {b : Bool} (h : l.Valid P)
    (hc : l.nanobddBddEq (some i) (some j) = some b) :
    l.handles.next (.eq (some i) (some j)) = some l.handles ∧
      ∀ f g, l.handles.fn (some i) = some f → l.handles.fn (some j) = some g →
        (b = true ↔ f = g) := by
  have heq := hc
  obtain ⟨x, hx, hc⟩ := Option.bind_eq_some_iff.mp hc
  obtain ⟨y, hy, hc⟩ := Option.bind_eq_some_iff.mp hc
  obtain ⟨f, hf⟩ := values_get_of_root hx
  obtain ⟨g, hg⟩ := values_get_of_root hy
  constructor
  · rw [Handles.next, hf, hg]
    rfl
  · intro f g hf hg
    obtain ⟨c, rfl, hf⟩ := client_of_fn hf
    rw [← (h c rfl).refines.equals_iff i j f g hf hg]
    exact Option.some_inj.symm.trans (iff_of_eq (congrArg (· = some true) heq.symm))

/-- A compound assignment that is right leaves every function where it is. -/
theorem follows_assign_root {op : Operator} {i j : ℕ} (h : l.Valid P)
    (he : (CCall.assign op (some i) (some j)).Admits P l)
    (hc : l.nanobddBddAssign P fuel op (some i) (some j) = some l') :
    Follows P l (.assign op (some i) (some j)) .void l' := by
  obtain ⟨c, hl, hc⟩ := Option.bind_eq_some_iff.mp hc
  obtain ⟨c', hc', hc⟩ := Option.bind_eq_some_iff.mp hc
  cases hc
  obtain ⟨hnot, himp, hassigns⟩ := he
  have hfaithful := h c hl
  obtain ⟨⟨x, y⟩, ho, hc'⟩ := Option.bind_eq_some_iff.mp hc'
  obtain ⟨⟨r, s⟩, hrun, hc'⟩ := Option.bind_eq_some_iff.mp hc'
  cases hc'
  obtain ⟨hn, hkeeps⟩ := hassigns c i j hl rfl rfl x y ho
  obtain rfl := client_eq_some.mp hl
  have hx := (Client.operands_eq_some ho).1
  have hol := hfaithful.operands_live ho
  have hstored : State.Operands {p | p ∈ c.table.stored} op x y :=
    ⟨hol.left.1, fun hn => (hol.right hn).1⟩
  -- the result is the old root
  obtain ⟨hexact, -, hd, hpres⟩ := hfaithful.operate ho hn hrun
  obtain rfl : r = x := (hfaithful.result_eq_left_iff ho hnot hn hrun).mpr hkeeps
  have hself : ({ c with table := s } : Client).setRoot i (some r) = { c with table := s } :=
    Client.setRoot_self (Client.node_eq_some.mp hx).1
  rw [hself]
  obtain ⟨hfaithful', hvalues⟩ := hfaithful.withTable hexact.wf hpres
    fun v hv => hfaithful.answer_ignores hstored hv
  have hresult : map₂ op.connective (c.table.denote r) (c.table.denote y) = c.table.denote r := by
    rw [← State.answer_of_ne_imp hfaithful.wf.toRobdd himp hstored, ← hd]
    exact hpres.denote_eq r hol.left.1 hol.left.2
  have hvars : s.vars = c.table.vars := hpres.roots.vars
  refine ⟨rfl, ?_, fun _ d hd => ?_⟩
  · obtain ⟨hf, g, hg, hgy⟩ := Client.values_operands ho
    rw [Values.right, if_neg hnot] at hg
    have hvaluesr : c.values[i]? = some (some (some (c.table.denote r))) :=
      Option.join_eq_some_iff.mp (Option.join_eq_some_iff.mp hf)
    obtain ⟨hlt, hget⟩ := List.getElem?_eq_some_iff.mp hvaluesr
    rw [handles_library, handles_library, hvalues, Handles.next, hf, hg, hgy hnot]
    simp only [Option.bind_eq_bind, Option.bind_some, hresult, hvars]
    rw [← hget, List.set_getElem_self]
  · cases hd
    rw [hvars]
    exact hfaithful'

/-- Whatever the handles hold is in the table. -/
theorem diagrams_le_numNodes (h : l.Valid P) {k : ℕ} (hk : l.nanobddNumNodes = some k)
    (hn : l.handles.vars = some n) : (l.handles.values.diagrams n).encard ≤ k := by
  obtain ⟨t, ht, rfl⟩ := Option.map_eq_some_iff.mp hk
  have hl : l.client = some ⟨t, l.bdds, l.underflows⟩ := by rw [client, ht, Option.map_some]
  have hfaithful := h _ hl
  rw [client_eq_some] at hl
  rw [hl, handles_library] at hn ⊢
  cases hn
  rw [← hfaithful.liveFunctions_eq, hfaithful.nodeCount,
    ← hfaithful.wf.toRobdd.encard_functions]
  exact Set.encard_le_encard t.liveFunctions_subset

theorem follows_clone {bdd : Handle} (h : l.Valid P)
    (hc : l.call P fuel (.clone bdd) = some (r, l')) : Follows P l (.clone bdd) r l' := by
  cases bdd with
  | none =>
    cases hc
    exact h.same rfl rfl
  | some i => exact follows_made h trivial rfl (fun _ => nofun) hc

theorem follows_free {bdd : Handle} (h : l.Valid P)
    (hc : l.call P fuel (.free bdd) = some (r, l')) : Follows P l (.free bdd) r l' := by
  cases bdd with
  | none =>
    cases hc
    exact h.same rfl rfl
  | some i =>
    cases hl : l.client with
    | none =>
      obtain ⟨l', hl', hc⟩ := Option.map_eq_some_iff.mp hc
      cases hc
      exact follows_released hl hl'
    | some c =>
      obtain rfl := client_eq_some.mp hl
      exact follows_of_action h trivial rfl hc

theorem follows_isFalse {bdd : Handle} (h : l.Valid P)
    (hc : l.call P fuel (.isFalse bdd) = some (r, l')) : Follows P l (.isFalse bdd) r l' := by
  obtain ⟨b, hb, hc⟩ := Option.map_eq_some_iff.mp hc
  cases hc
  cases bdd with
  | none =>
    cases hb
    exact h.same ⟨false, rfl, fun _ => rfl, fun _ hf => by cases hf⟩ rfl
  | some i =>
    obtain ⟨hnext, hagrees⟩ := follows_test (.inl rfl)
      (fun c hc => (Option.bind_eq_some_iff.mp hc).imp fun _ hp => hp.1)
      (fun c f hl hf => (h c (client_eq_some.mpr hl)).refines.isFalse_iff i f hf) hb
    exact h.same ⟨b, rfl, fun hi => absurd hi (Option.some_ne_none i), hagrees⟩ hnext

theorem follows_isTrue {bdd : Handle} (h : l.Valid P)
    (hc : l.call P fuel (.isTrue bdd) = some (r, l')) : Follows P l (.isTrue bdd) r l' := by
  obtain ⟨b, hb, hc⟩ := Option.map_eq_some_iff.mp hc
  cases hc
  cases bdd with
  | none =>
    cases hb
    exact h.same ⟨false, rfl, fun _ => rfl, fun _ hf => by cases hf⟩ rfl
  | some i =>
    obtain ⟨hnext, hagrees⟩ := follows_test (.inr rfl)
      (fun c hc => (Option.bind_eq_some_iff.mp hc).imp fun _ hp => hp.1)
      (fun c f hl hf => (h c (client_eq_some.mpr hl)).refines.isTrue_iff i f hf) hb
    exact h.same ⟨b, rfl, fun hi => absurd hi (Option.some_ne_none i), hagrees⟩ hnext

theorem follows_eq {lhs rhs : Handle} (h : l.Valid P)
    (hc : l.call P fuel (.eq lhs rhs) = some (r, l')) : Follows P l (.eq lhs rhs) r l' := by
  obtain ⟨b, hb, hc⟩ := Option.map_eq_some_iff.mp hc
  cases hc
  rcases lhs with - | i
  · cases hb
    exact h.same ⟨_, rfl, fun _ => beq_iff_eq, fun _ _ hf => by cases hf⟩ rfl
  rcases rhs with - | j
  · cases hb
    exact h.same ⟨_, rfl, fun _ => beq_iff_eq, fun _ _ _ hg => by cases hg⟩ rfl
  · obtain ⟨hnext, hagrees⟩ := follows_equals h hb
    exact h.same ⟨b, rfl, fun hn => by simp at hn, hagrees⟩ hnext

theorem follows_binary {op : Operator} {lhs rhs : Handle} (h : l.Valid P)
    (he : (CCall.binary op lhs rhs).Admits P l)
    (hc : l.call P fuel (.binary op lhs rhs) = some (r, l')) :
    Follows P l (.binary op lhs rhs) r l' := by
  have hc' : (l.nanobddBddBinary P fuel op lhs rhs).map (Prod.map .handle id) = some (r, l') :=
    (if_neg he.1).symm.trans hc
  rcases lhs with - | i
  · cases hc'
    exact h.same rfl rfl
  rcases rhs with - | j
  · cases hc'
    exact h.same rfl rfl
  · exact follows_made h he rfl (fun _ => nofun) hc

theorem follows_not {value : Handle} (h : l.Valid P) (he : (CCall.not value).Admits P l)
    (hc : l.call P fuel (.not value) = some (r, l')) : Follows P l (.not value) r l' := by
  cases value with
  | none =>
    cases hc
    exact h.same rfl rfl
  | some i => exact follows_made h he rfl (fun _ => nofun) hc

theorem follows_assign {op : Operator} {lhs rhs : Handle} (h : l.Valid P)
    (he : (CCall.assign op lhs rhs).Admits P l)
    (hc : l.call P fuel (.assign op lhs rhs) = some (r, l')) :
    Follows P l (.assign op lhs rhs) r l' := by
  have hc' : (l.nanobddBddAssign P fuel op lhs rhs).map (.void, ·) = some (r, l') :=
    (if_neg he.1).symm.trans hc
  rcases lhs with - | i
  · cases hc'
    exact h.same rfl rfl
  rcases rhs with - | j
  · cases hc'
    exact h.same rfl rfl
  · obtain ⟨l'', hl', hc'⟩ := Option.map_eq_some_iff.mp hc'
    cases hc'
    exact follows_assign_root h he hl'

theorem follows_numNodes (h : l.Valid P) (hc : l.call P fuel .numNodes = some (r, l')) :
    Follows P l .numNodes r l' := by
  obtain ⟨k, hk, hc⟩ := Option.map_eq_some_iff.mp hc
  cases hc
  refine h.same ⟨k, rfl, fun n hn => diagrams_le_numNodes h hk hn⟩ ?_
  obtain ⟨t, ht, -⟩ := Option.map_eq_some_iff.mp hk
  have hvars : l.handles.vars.isSome := by rw [vars_isSome, ht, Option.isSome_some]
  obtain ⟨n, hn⟩ := Option.isSome_iff_exists.mp hvars
  rw [Handles.next, hn, Option.map_some]

/-- **A call is a step of the machine.** -/
theorem call_handles (h : l.Valid P) (he : e.Admits P l)
    (hc : l.call P fuel e = some (r, l')) : Follows P l e r l' := by
  cases e with
  | init rand₁ rand₂ tableSize cacheSize varNum =>
    obtain ⟨l', hl', hc⟩ := Option.map_eq_some_iff.mp hc
    cases hc
    exact follows_init h he hl'
  | clear =>
    cases hc
    exact follows_clear l
  | bddFalse => exact follows_made h he rfl (fun _ => nofun) hc
  | bddTrue => exact follows_made h he rfl (fun _ => nofun) hc
  | getVar i => exact follows_made h he rfl (fun _ => nofun) hc
  | getNvar i => exact follows_made h he rfl (fun _ => nofun) hc
  | clone bdd => exact follows_clone h hc
  | free bdd => exact follows_free h hc
  | isFalse bdd => exact follows_isFalse h hc
  | isTrue bdd => exact follows_isTrue h hc
  | eq lhs rhs => exact follows_eq h hc
  | binary op lhs rhs => exact follows_binary h he hc
  | not value => exact follows_not h he hc
  | assign op lhs rhs => exact follows_assign h he hc
  | numNodes => exact follows_numNodes h hc
  | gc => exact follows_made h he rfl (fun _ => nofun) hc

/-! ### What the machine can do -/

theorem root_of_get {i : ℕ} {f : Option BoolFun} (hf : l.handles.values.get i = some f) :
    ∃ p, l.root i = some p := by
  cases hl : l.client with
  | none =>
    rw [handles_of_none hl, Values.get, List.getElem?_map] at hf
    rw [root]
    cases hb : l.bdds[i]? with
    | none => simp [hb] at hf
    | some o =>
      cases o with
      | none => simp [hb] at hf
      | some p => exact ⟨p, rfl⟩
  | some c =>
    obtain rfl := client_eq_some.mp hl
    exact Client.root_of_values_get hf

/-- An object that `nanobdd_bdd_is_false` can look at. -/
theorem client_of_test {i : ℕ} {h' : Handles} (hn : (l.handles.vars.bind fun _ =>
    (l.handles.values.get i).bind fun _ => some l.handles) = some h') :
    ∃ (c : Client) (p : Ptr), l = c.library ∧ c.root i = some p := by
  obtain ⟨n, hvars, hn⟩ := Option.bind_eq_some_iff.mp hn
  obtain ⟨f, hf, -⟩ := Option.bind_eq_some_iff.mp hn
  obtain ⟨p, hp⟩ := root_of_get hf
  cases hl : l.client with
  | none =>
    rw [handles_of_none hl] at hvars
    cases hvars
  | some c =>
    obtain rfl := client_eq_some.mp hl
    exact ⟨c, p, rfl, hp⟩

/-- A call that starts a session. It may find no prime or no memory. -/
def Starts (l : Library) : CCall → Prop
  | .init .. => l.nodeTable = none
  | _ => False

theorem exists_assign_root {op : Operator} {i j : ℕ} {f g : BoolFun} (h : l.Valid P)
    (he : (CCall.assign op (some i) (some j)).Admits P l)
    (hf : l.handles.values.fn i = some f) (hg : l.handles.values.fn j = some g) :
    ∃ F x, ∀ fuel ≥ F, l.call P fuel (.assign op (some i) (some j)) = some x := by
  obtain ⟨c, rfl, hf⟩ := client_of_fn hf
  obtain ⟨hnot, -, hassigns⟩ := he
  have hfaithful := h c rfl
  have hright : c.values.right op j = some g := (if_neg hnot).trans hg
  obtain ⟨x, y, ho⟩ : ∃ x y, c.operands op i j = some (x, y) :=
    Client.operands_of_values hf hright
  obtain ⟨F, r, s, hF⟩ := (hfaithful.wf.preserved ⟨trivial, trivial⟩ hfaithful.unmarked
    hfaithful.live_false hfaithful.live_true (hfaithful.operands_live ho)
    (hassigns c i j rfl rfl rfl x y ho).1).1
  refine ⟨F, (.void, (({ c with table := s } : Client).setRoot i (some r)).library),
    fun fuel hfuel => ?_⟩
  rw [call, if_neg hnot, nanobddBddAssign, client_library]
  simp only [Option.bind_eq_bind, Option.bind_some,
    Client.applyAssign_of_bddOp ho (hF fuel hfuel), Option.map_some]

/-- A call that needs a table returns if the action of the machine is possible. -/
theorem exists_action {h' : Handles} (h : l.Valid P) (he : e.Admits P l)
    (ha : e.action = some a) (hnone : l.client = none → l.handles.next e = none)
    (hn : l.handles.next e = some h') : ∃ F x, ∀ fuel ≥ F, l.call P fuel e = some x := by
  cases hl : l.client with
  | none =>
    rw [hnone hl] at hn
    cases hn
  | some c =>
    obtain rfl := client_eq_some.mp hl
    rw [next_eq c ha] at hn
    obtain ⟨v, hv, -⟩ := Option.map_eq_some_iff.mp hn
    obtain ⟨F, c', hF⟩ := (h c hl).exec_of_values hv (admits_of_action hl he ha).1
    refine ⟨F, (e.made c.bdds.length, c'.library), fun fuel hfuel => ?_⟩
    rw [call_eq c ha (not_binary_not he), hF fuel hfuel, Option.map_some]

theorem exists_free {bdd : Handle} {h' : Handles} (h : l.Valid P)
    (hn : l.handles.next (.free bdd) = some h') :
    ∃ F x, ∀ fuel ≥ F, l.call P fuel (.free bdd) = some x := by
  cases bdd with
  | none => exact ⟨0, _, fun _ _ => rfl⟩
  | some i =>
    cases hl : l.client with
    | none =>
      obtain ⟨f, hf, -⟩ := Option.map_eq_some_iff.mp hn
      obtain ⟨p, hp⟩ := root_of_get hf
      refine ⟨0, (.void, { l with bdds := l.bdds.set i none }), fun fuel _ => ?_⟩
      rw [call, nanobddBddFree]
      simp only [hl, hp, Option.map_some]
    | some c =>
      refine exists_action h trivial rfl (fun hnone => ?_) hn
      rw [hl] at hnone
      cases hnone

theorem exists_isFalse {bdd : Handle} {h' : Handles}
    (hn : l.handles.next (.isFalse bdd) = some h') :
    ∃ F x, ∀ fuel ≥ F, l.call P fuel (.isFalse bdd) = some x := by
  cases bdd with
  | none => exact ⟨0, _, fun _ _ => rfl⟩
  | some i =>
    obtain ⟨c, p, rfl, hroot⟩ := client_of_test hn
    refine ⟨0, (.bool (p == c.table.falseNode), c.library), fun fuel _ => ?_⟩
    rw [call, nanobddBddIsFalse, client_library]
    simp [Client.isFalse, hroot]

theorem exists_isTrue {bdd : Handle} {h' : Handles} (hn : l.handles.next (.isTrue bdd) = some h') :
    ∃ F x, ∀ fuel ≥ F, l.call P fuel (.isTrue bdd) = some x := by
  cases bdd with
  | none => exact ⟨0, _, fun _ _ => rfl⟩
  | some i =>
    obtain ⟨c, p, rfl, hroot⟩ := client_of_test hn
    refine ⟨0, (.bool (p == c.table.trueNode), c.library), fun fuel _ => ?_⟩
    rw [call, nanobddBddIsTrue, client_library]
    simp [Client.isTrue, hroot]

theorem exists_eq {lhs rhs : Handle} {h' : Handles} (hn : l.handles.next (.eq lhs rhs) = some h') :
    ∃ F x, ∀ fuel ≥ F, l.call P fuel (.eq lhs rhs) = some x := by
  rcases lhs with - | i
  · exact ⟨0, _, fun _ _ => rfl⟩
  rcases rhs with - | j
  · exact ⟨0, _, fun _ _ => rfl⟩
  obtain ⟨f, hf, hn⟩ := Option.bind_eq_some_iff.mp hn
  obtain ⟨g, hg, -⟩ := Option.bind_eq_some_iff.mp hn
  obtain ⟨x, hx⟩ := root_of_get hf
  obtain ⟨y, hy⟩ := root_of_get hg
  refine ⟨0, (.bool (x == y), l), fun fuel _ => ?_⟩
  rw [call, nanobddBddEq, hx, hy]
  rfl

theorem exists_assign {op : Operator} {lhs rhs : Handle} {h' : Handles} (h : l.Valid P)
    (he : (CCall.assign op lhs rhs).Admits P l)
    (hn : l.handles.next (.assign op lhs rhs) = some h') :
    ∃ F x, ∀ fuel ≥ F, l.call P fuel (.assign op lhs rhs) = some x := by
  rcases lhs with - | i
  · exact ⟨0, _, fun _ _ => if_neg he.1⟩
  rcases rhs with - | j
  · exact ⟨0, _, fun _ _ => if_neg he.1⟩
  obtain ⟨f, hf, hn⟩ := Option.bind_eq_some_iff.mp hn
  obtain ⟨g, hg, -⟩ := Option.bind_eq_some_iff.mp hn
  exact exists_assign_root h he hf hg

theorem exists_numNodes {h' : Handles} (hn : l.handles.next .numNodes = some h') :
    ∃ F x, ∀ fuel ≥ F, l.call P fuel .numNodes = some x := by
  obtain ⟨n, hn, -⟩ := Option.map_eq_some_iff.mp hn
  have hsome : l.nodeTable.isSome := by rw [← vars_isSome, hn, Option.isSome_some]
  obtain ⟨t, ht⟩ := Option.isSome_iff_exists.mp hsome
  refine ⟨0, (.size t.nodeCount, l), fun fuel _ => ?_⟩
  rw [call, nanobddNumNodes, ht]
  rfl

/-- **What the machine can do next, the library does.** -/
theorem exists_call {h' : Handles} (h : l.Valid P) (he : e.Admits P l) (hs : ¬ l.Starts e)
    (hn : l.handles.next e = some h') : ∃ F x, ∀ fuel ≥ F, l.call P fuel e = some x := by
  have hnext : ∀ {β : Type} {f : ℕ → Option β}, l.client = none → l.handles.vars.bind f = none :=
    fun hl => by rw [handles_of_none hl, Option.bind_none]
  cases e with
  | init rand₁ rand₂ tableSize cacheSize varNum =>
    refine ⟨0, (.void, l), fun fuel _ => ?_⟩
    have hsome : l.nodeTable.isSome := Option.isSome_iff_ne_none.mpr hs
    rw [call, nanobddInit, if_pos hsome, Option.map_some]
  | clear => exact ⟨0, _, fun _ _ => rfl⟩
  | bddFalse => exact exists_action h he rfl hnext hn
  | bddTrue => exact exists_action h he rfl hnext hn
  | getVar i => exact exists_action h he rfl hnext hn
  | getNvar i => exact exists_action h he rfl hnext hn
  | clone bdd =>
    cases bdd with
    | none => exact ⟨0, _, fun _ _ => rfl⟩
    | some i => exact exists_action h he rfl hnext hn
  | free bdd => exact exists_free h hn
  | isFalse bdd => exact exists_isFalse hn
  | isTrue bdd => exact exists_isTrue hn
  | eq lhs rhs => exact exists_eq hn
  | binary op lhs rhs =>
    rcases lhs with - | i
    · exact ⟨0, _, fun _ _ => if_neg he.1⟩
    rcases rhs with - | j
    · exact ⟨0, _, fun _ _ => if_neg he.1⟩
    · exact exists_action h he rfl hnext hn
  | not value =>
    cases value with
    | none => exact ⟨0, _, fun _ _ => rfl⟩
    | some i => exact exists_action h he rfl hnext hn
  | assign op lhs rhs => exact exists_assign h he hn
  | numNodes => exact exists_numNodes hn
  | gc => exact exists_action h he rfl hnext hn

/-! ### Sessions -/

/-- The library is as good as the machine. -/
structure Serves (P : Platform) (l : Library) : Prop where
  /-- A call answers what the machine answers, and leaves what the machine leaves. -/
  follows : ∀ e fuel r l', e.Admits P l → l.call P fuel e = some (r, l') →
    l.handles.Answers r e ∧ l.handles.next e = some l'.handles
  /-- What the machine can do next ends, given enough fuel. -/
  performs : ∀ e h, e.Admits P l → ¬ l.Starts e → l.handles.next e = some h →
    ∃ F x, ∀ fuel ≥ F, l.call P fuel e = some x
  counted : ∀ c, l.client = some c → ∀ p ∈ c.table.stored,
    (c.table.heap p).refCount = c.handles p + c.table.permanent p
  /-- After a collection the nodes are those of the functions in use. -/
  collects : ∀ fuel l', l.nanobddGc fuel = some l' → ∃ n k, l.handles.vars = some n ∧
    l'.nanobddNumNodes = some k ∧ (k : ℕ∞) = (l.handles.values.diagrams n).encard ∧
    ((∀ i, l.handles.values.fn i = none) → k = 2 + 2 * n)

theorem Valid.collects (h : l.Valid P) (hc : l.nanobddGc fuel = some l') :
    ∃ n k, l.handles.vars = some n ∧ l'.nanobddNumNodes = some k ∧
      (k : ℕ∞) = (l.handles.values.diagrams n).encard ∧
      ((∀ i, l.handles.values.fn i = none) → k = 2 + 2 * n) := by
  obtain ⟨c, hl, hc⟩ := Option.bind_eq_some_iff.mp hc
  obtain ⟨c', hgc, hc⟩ := Option.bind_eq_some_iff.mp hc
  cases hc
  have hexec : c.exec P fuel .gc = some c' := hgc
  have hmin := (h c hl).gc_minimal hexec
  obtain rfl := client_eq_some.mp hl
  exact ⟨_, c'.table.nodeCount, rfl, rfl, hmin.numNodes, hmin.nodeCount_eq⟩

theorem Valid.serves (h : l.Valid P) : Serves P l where
  follows _ _ _ _ he hc := ⟨(call_handles h he hc).answers, (call_handles h he hc).next⟩
  performs _ _ he hs hn := exists_call h he hs hn
  counted c hl := (h c hl).counted
  collects _ _ hc := h.collects hc

theorem Valid.step (h : l.Valid P) (hs : CStep P l l') : l'.Valid P := by
  obtain ⟨e, fuel, r, hc, he, hfit⟩ := hs
  exact (call_handles h he hc).valid hfit

theorem valid_unloaded (P : Platform) : unloaded.Valid P := fun c hc => by cases hc

/-- **Any number of sessions.** A program calls the functions of the C interface, in any order and
with null handles wherever it likes, and `init` and `clear` as often as it likes. Its handles hold
what those of the machine hold, and every call answers as the machine does. -/
theorem sessions_of_run (hc : Relation.ReflTransGen (CStep P) unloaded l) :
    Relation.ReflTransGen Handles.Calls unloaded.handles l.handles ∧ Serves P l := by
  refine ⟨Transition.simulation (I := Valid P) (fun _ _ hs h => h.step hs) (fun b d hs h => ?_) hc
    (valid_unloaded P), ?_⟩
  · obtain ⟨e, fuel, r, hcall, he, -⟩ := hs
    exact Or.inr ⟨e, (call_handles h he hcall).next⟩
  · exact (Transition.invariant (I := Valid P) (fun _ _ hs h => h.step hs) hc
      (valid_unloaded P)).serves

/-- A table with three variables, and at most two objects. -/
theorem fits_small {c : Client} (hr : Client.Counted State.small c.table) (hb : c.bdds.length ≤ 2) :
    ∀ d, c.library.client = some d → d.ReferencesFit := by
  rintro d hd
  cases hd
  exact Client.referencesFit_small hr.vars hr.nvars (hb.trans_lt (by decide))

theorem cStep_init_small {bdds : List (Option Ptr)} (hb : ∀ o ∈ bdds, o = none)
    (hlen : bdds.length ≤ 2) :
    CStep State.smallPlatform ⟨none, bdds, 0⟩ ⟨some State.small, bdds, 0⟩ := by
  refine ⟨.init id id 11 11 3, 40, .void, ?_, fun _ => ⟨by decide, hb⟩,
    fits_small (c := ⟨State.small, bdds, 0⟩) (Client.Counted.refl _) hlen⟩
  simp [call, nanobddInit, State.init_small]

theorem cStep_getVar_small {c : Client} {i : ℕ} {p : Ptr} (hr : Client.Counted State.small c.table)
    (hb : c.bdds.length ≤ 1) (hi : ([3, 5, 7] : List Ptr)[i]? = some p) (hp : p ≠ nullptr) :
    CStep State.smallPlatform c.library ((c.ref p).push p).library := by
  have hget : c.getVar i = some ((c.ref p).push p) := Client.getVar_small hr.vars hi hp
  have hre : Client.Counted State.small ((c.ref p).push p).table :=
    hr.trans (Client.counted_ref c p)
  refine ⟨.getVar i, 0, .handle (some c.bdds.length), ?_, trivial, fits_small hre ?_⟩
  · rw [call_eq (e := .getVar i) c rfl (by simp)]
    exact congrArg (Option.map _) hget
  · rw [Client.push, Client.ref_bdds, List.length_append]
    exact Nat.succ_le_succ hb

/-- The library after a second `init` and `getVar(1)`, with a freed handle of the first session. -/
def smallReopened : Library := (((⟨State.small, [none], 0⟩ : Client).ref 5).push 5).library

/-- A program that takes a variable, clears the library, frees its handle and starts again. -/
theorem sessions_of_run_small :
    Relation.ReflTransGen Handles.Calls unloaded.handles smallReopened.handles ∧
      Serves State.smallPlatform smallReopened := by
  have hclear : CStep State.smallPlatform ((((Client.start State.small).ref 3).push 3).library)
      ⟨none, [some 3], 0⟩ := ⟨.clear, 0, .void, rfl, trivial, fun c hc => by cases hc⟩
  have hfree : CStep State.smallPlatform ⟨none, [some 3], 0⟩ ⟨none, [none], 0⟩ :=
    ⟨.free (some 0), 0, .void, rfl, trivial, fun c hc => by cases hc⟩
  have hfirst := cStep_getVar_small (c := Client.start State.small) (i := 0) (p := 3)
    (Client.Counted.refl _) (by decide) rfl (by decide)
  have hsecond := cStep_getVar_small (c := ⟨State.small, [none], 0⟩) (i := 1) (p := 5)
    (Client.Counted.refl _) (by decide) rfl (by decide)
  have hstart : CStep State.smallPlatform unloaded ⟨some State.small, [], 0⟩ :=
    cStep_init_small (by simp) (by decide)
  have hrestart : CStep State.smallPlatform ⟨none, [none], 0⟩ ⟨some State.small, [none], 0⟩ :=
    cStep_init_small (by simp) (by decide)
  exact sessions_of_run ((((((Relation.ReflTransGen.single hstart).tail hfirst).tail hclear).tail
    hfree).tail hrestart).tail hsecond)

end Library

end Nanobdd
