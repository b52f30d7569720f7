import Nanobdd.CacheProtocol

/-!
# No torn answers

Any number of threads in `lookup` and `insert`, and nobody in `invalidateAll`. A writer inside an
entry is alone there, so what a reader has compared stays as it is until it leaves, and the four
fields it reads are those of one insertion, which had written all of them before.

`origin` is a set of insertions that those that are released belong to. The invariant is about any
such set, and grows with it; the log of a run is one.

## Main definitions

* `Ordinary` — an access of `lookup` or `insert`
* `Payload.From`, `Spot.Knows` — what is in an entry, and what a thread inside knows of it
* `Logged` — a run with the log of the insertions it has completed

## Main results

* `Untorn.step` — the step lemma
* `untorn_of_run` — **a lookup that finds a node answers with one insertion out of the log**
-/

namespace Nanobdd

/-- The insertion is an answer to the query. -/
def Insertion.Answers (w : Insertion) (q : Query) : Prop :=
  w.slot = q.slot ∧ w.op = q.op ∧ ((w.left = q.left ∧ w.right = q.right) ∨
    isCommutativeOperator q.op = true ∧ w.left = q.right ∧ w.right = q.left)

/-- The fields of an entry that the counter guards, and who wrote the node. -/
structure Payload where
  node : Ptr
  left : Ptr
  right : Ptr
  op : Operator
  author : Option Insertion

/-- The payload of an entry. -/
def Slots.payload (s : Slots) (i : ℕ) : Payload :=
  ⟨(s.entry i).node, (s.entry i).left, (s.entry i).right, (s.entry i).op, s.author i⟩

/-- An access of `lookup` or `insert`. -/
def Ordinary (others : Spot → Prop) (x y : Slots × Spot) : Prop :=
  Access others x y ∧ ∀ n i, y.2 ≠ .clearNode n i

namespace Spot

/-- The thread is in `invalidateAll`. -/
def Clears : Spot → Prop
  | clearNode .. | clearLeft .. | clearRight .. | clearCount .. => True
  | _ => False

end Spot

variable {T : Type*} [DecidableEq T] {s s' : Slots} {l l' o : Spot} {q : Query} {w : Insertion}
  {others : Spot → Prop} {i j n : ℕ} {e : Payload} {origin origin' : Insertion → Prop}

/-- One step of the program. -/
abbrev OrdinaryStep : Pool T Slots Spot → Pool T Slots Spot → Prop :=
  Pool.Step Ordinary fun _ _ => False

/-! ### Without `invalidateAll` -/

/-- Nobody is or has been in `invalidateAll`. -/
structure Calm (c : Pool T Slots Spot) : Prop where
  not_clears : ∀ t, ¬ (c.pc t).Clears
  cleared : ∀ i, c.shared.cleared i = 0

theorem Ordinary.not_clears (h : Ordinary others (s, l) (s', l')) (hl : ¬ l.Clears) :
    ¬ l'.Clears ∧ s'.cleared = s.cleared := by
  obtain ⟨h, hn⟩ := h
  cases h with
  | invalidateAll => exact absurd rfl (hn _ _)
  | readOp => exact ⟨by split <;> exact id, rfl⟩
  | readLeft => exact ⟨by dsimp only [Query.otherOrder]; split_ifs <;> exact id, rfl⟩
  | readRight => exact ⟨by dsimp only [Query.otherOrder]; split_ifs <;> exact id, rfl⟩
  | readSwappedLeft => exact ⟨by split <;> exact id, rfl⟩
  | readSwappedRight => exact ⟨by split <;> exact id, rfl⟩
  | clearNode => exact absurd trivial hl
  | clearLeft => exact absurd trivial hl
  | clearRight => exact absurd trivial hl
  | clearCount => exact absurd trivial hl
  | finish => exact absurd trivial hl
  | _ => exact ⟨id, rfl⟩

/-- An ordinary access is a guarded one. -/
theorem Calm.step {c c' : Pool T Slots Spot} (h : Calm c) (hs : OrdinaryStep c c') :
    GuardedStep c c' ∧ Calm c' := by
  cases hs with
  | @turn t s l ht =>
    have hl := h.not_clears t
    obtain ⟨hl', hcleared⟩ := ht.not_clears hl
    refine ⟨.turn ⟨ht.1, fun n i hi => ?_, fun w _ => ?_⟩, ?_, fun i => ?_⟩
    · have hi' : c.pc t = .clearCount n i := hi
      exact absurd (by rw [hi']; trivial) hl
    · show c.shared.cleared w.slot ≤ w.begun
      rw [h.cleared]
      exact Nat.zero_le _
    · refine (Pool.forall_move fun o : Spot => ¬ o.Clears).mpr ⟨hl', ?_⟩
      rintro - ⟨u, -, rfl⟩
      exact h.not_clears u
    · show s.cleared i = 0
      rw [hcleared]
      exact h.cleared i
  | env he => exact he.elim

/-! ### What is in an entry -/

namespace Payload

/-- All four fields are from one insertion into this entry, or the entry was never written. -/
def From (origin : Insertion → Prop) (i : ℕ) (e : Payload) : Prop :=
  match e.author with
  | none => e.node = nullptr
  | some w => origin w ∧ w.slot = i ∧ e.node = w.node ∧ e.left = w.left ∧ e.right = w.right ∧
      e.op = w.op

theorem From.mono (ho : ∀ w, origin w → origin' w) (h : e.From origin i) : e.From origin' i := by
  rw [From] at h ⊢
  split at h
  · exact h
  · exact ⟨ho _ h.1, h.2⟩

end Payload

/-- What a thread inside an entry knows of the payload, and what it takes with it. -/
def Spot.Knows (origin : Insertion → Prop) (s : Slots) : Spot → Prop
  | readLeft q => (s.payload q.slot).op = q.op
  | readRight q => (s.payload q.slot).op = q.op ∧ (s.payload q.slot).left = q.left
  | readSwappedLeft q => (s.payload q.slot).op = q.op ∧ isCommutativeOperator q.op = true
  | readSwappedRight q => (s.payload q.slot).op = q.op ∧ isCommutativeOperator q.op = true ∧
      (s.payload q.slot).left = q.right
  | readNode q => (s.payload q.slot).op = q.op ∧
      (((s.payload q.slot).left = q.left ∧ (s.payload q.slot).right = q.right) ∨
        isCommutativeOperator q.op = true ∧ (s.payload q.slot).left = q.right ∧
          (s.payload q.slot).right = q.left)
  | leave q out a | returned q out a =>
    out ≠ nullptr → ∃ w, a = some w ∧ origin w ∧ w.Answers q ∧ w.node = out
  | writeLeft w => (s.payload w.slot).author = some w ∧ (s.payload w.slot).node = w.node
  | writeRight w => (s.payload w.slot).author = some w ∧ (s.payload w.slot).node = w.node ∧
      (s.payload w.slot).left = w.left
  | writeOp w => (s.payload w.slot).author = some w ∧ (s.payload w.slot).node = w.node ∧
      (s.payload w.slot).left = w.left ∧ (s.payload w.slot).right = w.right
  | release w => (s.payload w.slot).author = some w ∧ (s.payload w.slot).node = w.node ∧
      (s.payload w.slot).left = w.left ∧ (s.payload w.slot).right = w.right ∧
      (s.payload w.slot).op = w.op
  | _ => True

/-- What a thread knows stays true while the payload of the entry it is inside does. -/
theorem Spot.Knows.congr (ho : ∀ w, origin w → origin' w)
    (hp : ∀ i, l.Inside i → s'.payload i = s.payload i) (h : l.Knows origin s) :
    l.Knows origin' s' := by
  cases l with
  | readLeft q => rwa [Knows, hp q.slot (Or.inl rfl)]
  | readRight q => rwa [Knows, hp q.slot (Or.inl rfl)]
  | readSwappedLeft q => rwa [Knows, hp q.slot (Or.inl rfl)]
  | readSwappedRight q => rwa [Knows, hp q.slot (Or.inl rfl)]
  | readNode q => rwa [Knows, hp q.slot (Or.inl rfl)]
  | writeLeft w => rwa [Knows, hp w.slot (Or.inr rfl)]
  | writeRight w => rwa [Knows, hp w.slot (Or.inr rfl)]
  | writeOp w => rwa [Knows, hp w.slot (Or.inr rfl)]
  | release w => rwa [Knows, hp w.slot (Or.inr rfl)]
  | leave q out a =>
    intro hout
    obtain ⟨w, ha, hw, hrest⟩ := h hout
    exact ⟨w, ha, ho w hw, hrest⟩
  | returned q out a =>
    intro hout
    obtain ⟨w, ha, hw, hrest⟩ := h hout
    exact ⟨w, ha, ho w hw, hrest⟩
  | _ => trivial

namespace Slots

theorem payload_setUse (s : Slots) (i j : ℕ) (uc : ℤ) :
    (s.setUse i uc).payload j = s.payload j := by
  rw [payload, payload, setUse, entry_modify]
  by_cases hj : j = i
  · simp only [hj, if_true]
    rfl
  · simp only [hj, if_false]
    rfl

/-- A write to an entry is to no other entry. -/
theorem payload_modify_of_ne (hj : j ≠ i) (f : LockFreeCacheEntry → LockFreeCacheEntry) :
    (s.modify i f).payload j = s.payload j := by
  rw [payload, payload, entry_modify, if_neg hj]
  rfl

theorem payload_modify_self (s : Slots) (i : ℕ) (f : LockFreeCacheEntry → LockFreeCacheEntry) :
    (s.modify i f).payload i =
      ⟨(f (s.entry i)).node, (f (s.entry i)).left, (f (s.entry i)).right, (f (s.entry i)).op,
        s.author i⟩ := by
  rw [payload, entry_modify, if_pos rfl]
  rfl

theorem payload_writeNode_of_ne (hj : j ≠ w.slot) : (s.writeNode w).payload j = s.payload j := by
  have hentry : (s.writeNode w).entry j = s.entry j := if_neg hj
  have hauthor : (s.writeNode w).author j = s.author j := if_neg hj
  rw [payload, payload, hentry, hauthor]

theorem payload_writeNode_self (s : Slots) (w : Insertion) :
    (s.writeNode w).payload w.slot =
      ⟨w.node, (s.entry w.slot).left, (s.entry w.slot).right, (s.entry w.slot).op, some w⟩ := by
  have hentry : (s.writeNode w).entry w.slot = { s.entry w.slot with node := w.node } := if_pos rfl
  have hauthor : (s.writeNode w).author w.slot = some w := if_pos rfl
  rw [payload, hentry, hauthor]

end Slots

/-- **Frame.** Only the writer inside an entry changes its payload. -/
theorem Ordinary.payload (h : Ordinary others (s, l) (s', l')) (hl : ¬ l.Clears)
    (hj : l.writer ≠ some j) : s'.payload j = s.payload j := by
  obtain ⟨h, hn⟩ := h
  have hslot : ∀ {w : Insertion}, some w.slot ≠ some j → j ≠ w.slot := fun h he => h (he ▸ rfl)
  cases h with
  | enter => exact Slots.payload_setUse ..
  | leave => exact Slots.payload_setUse ..
  | acquire => exact Slots.payload_setUse ..
  | release => exact Slots.payload_setUse ..
  | writeNode => exact Slots.payload_writeNode_of_ne (hslot hj)
  | writeLeft => exact Slots.payload_modify_of_ne (hslot hj) _
  | writeRight => exact Slots.payload_modify_of_ne (hslot hj) _
  | writeOp => exact Slots.payload_modify_of_ne (hslot hj) _
  | invalidateAll => exact absurd rfl (hn _ _)
  | clearNode => exact absurd trivial hl
  | clearLeft => exact absurd trivial hl
  | clearRight => exact absurd trivial hl
  | clearCount => exact absurd trivial hl
  | finish => exact absurd trivial hl
  | _ => rfl

/-- What the query finds after both comparisons in one order have been made. -/
theorem Query.knows_otherOrder (hop : (s.payload q.slot).op = q.op) :
    q.otherOrder.Knows origin s := by
  rw [otherOrder]
  split
  · next hc => exact ⟨hop, hc⟩
  · exact fun h => absurd rfl h

/-- **What the mover knows.** A reader is inside an entry whose payload is from one insertion. -/
theorem Ordinary.knows (h : Ordinary others (s, l) (s', l')) (hl : ¬ l.Clears)
    (hfrom : ∀ i, l.reader = some i → (s.payload i).From origin i) (hk : l.Knows origin s) :
    l'.Knows origin s' := by
  obtain ⟨h, hn⟩ := h
  have hnull : ∀ q : Query, (Spot.leave q nullptr none).Knows origin s := fun q hq => absurd rfl hq
  cases h with
  | absent => exact fun hq => absurd rfl hq
  | locked => exact fun hq => absurd rfl hq
  | readOp =>
    split
    · next hop => exact hop
    · exact hnull _
  | readLeft =>
    split
    · next hleft => exact ⟨hk, hleft⟩
    · exact Query.knows_otherOrder hk
  | readRight =>
    split
    · next hright => exact ⟨hk.1, Or.inl ⟨hk.2, hright⟩⟩
    · exact Query.knows_otherOrder hk.1
  | readSwappedLeft =>
    split
    · next hleft => exact ⟨hk.1, hk.2, hleft⟩
    · exact hnull _
  | readSwappedRight =>
    split
    · next hright => exact ⟨hk.1, Or.inr ⟨hk.2.1, hk.2.2, hright⟩⟩
    · exact hnull _
  | @readNode _ q =>
    intro hout
    have hf := hfrom q.slot rfl
    rw [Payload.From] at hf
    obtain ⟨hop, hoperands⟩ := hk
    split at hf
    · exact absurd hf hout
    · next w ha =>
      obtain ⟨hw, hslot, hnode, hleft, hright, hop'⟩ := hf
      rw [hleft, hright] at hoperands
      exact ⟨w, ha, hw, ⟨hslot, hop'.symm.trans hop, hoperands⟩, hnode.symm⟩
  | leave => exact hk
  | @writeNode _ w =>
    rw [Spot.Knows, Slots.payload_writeNode_self]
    exact ⟨rfl, rfl⟩
  | @writeLeft _ w =>
    rw [Spot.Knows, Slots.setLeft, Slots.payload_modify_self]
    exact ⟨hk.1, hk.2, rfl⟩
  | @writeRight _ w =>
    rw [Spot.Knows, Slots.setRight, Slots.payload_modify_self]
    exact ⟨hk.1, hk.2.1, hk.2.2, rfl⟩
  | @writeOp _ w =>
    rw [Spot.Knows, Slots.setOp, Slots.payload_modify_self]
    exact ⟨hk.1, hk.2.1, hk.2.2.1, hk.2.2.2, rfl⟩
  | invalidateAll => exact absurd rfl (hn _ _)
  | clearNode => exact absurd trivial hl
  | clearLeft => exact absurd trivial hl
  | clearRight => exact absurd trivial hl
  | clearCount => exact absurd trivial hl
  | finish => exact absurd trivial hl
  | _ => trivial

/-- A writer leaves with its releasing store. -/
theorem Ordinary.released (h : Ordinary others (s, l) (s', l')) (hw : l.writer = some i)
    (hw' : l'.writer ≠ some i) : ∃ w, l = .release w ∧ w.slot = i := by
  obtain ⟨h, -⟩ := h
  cases h with
  | @release _ w => exact ⟨w, rfl, Option.some_inj.mp hw⟩
  | lookup _ _ _ _ hl => cases l <;> first | exact hl.elim | exact absurd hw nofun
  | insert _ _ _ _ _ hl => cases l <;> first | exact hl.elim | exact absurd hw nofun
  | invalidateAll hl => cases l <;> first | exact hl.elim | exact absurd hw nofun
  | writeNode => exact absurd hw hw'
  | writeLeft => exact absurd hw hw'
  | writeRight => exact absurd hw hw'
  | writeOp => exact absurd hw hw'
  | _ => exact absurd hw nofun

/-! ### All threads -/

section pool

variable {c c' : Pool T Slots Spot} {t u : T}

/-- What nobody is writing was written by one insertion, and everybody knows as much as it needs
to. -/
structure Untorn [Fintype T] (origin : Insertion → Prop) (c : Pool T Slots Spot) : Prop where
  written : ∀ i, c.total (Spot.writes i) = 0 → (c.shared.payload i).From origin i
  knows : ∀ t, (c.pc t).Knows origin c.shared

/-- A reader keeps the writers out. -/
theorem Kempt.no_writer [Fintype T] (h : Kempt c) (ht : (c.pc t).reader = some i) :
    c.total (Spot.writes i) = 0 := by
  have hr : (c.pc t).reads i = 1 := if_pos ht
  have hb := h.balanced i
  rw [Pool.total_eq (Spot.reads i) c t, hr, Balanced] at hb
  omega

/-- A writer keeps everybody out. -/
theorem Kempt.alone [Fintype T] (h : Kempt c) (ht : (c.pc t).writer = some i)
    (ho : c.others t o) : ¬ o.Inside i := by
  have hw : (c.pc t).writes i = 1 := if_pos ht
  have hb := h.balanced i
  rw [Pool.total_eq (Spot.reads i) c t, Pool.total_eq (Spot.writes i) c t, hw, Balanced] at hb
  rintro (hr' | hw')
  · have hle := Pool.le_rest (w := Spot.reads i) ho
    rw [Spot.reads, if_pos hr'] at hle
    omega
  · have hle := Pool.le_rest (w := Spot.writes i) ho
    rw [Spot.writes, if_pos hw'] at hle
    omega

/-- **One access.** A reader takes with it what one insertion has written, nobody else's entry
changes, and a writer leaves an entry that it has written itself. -/
theorem Untorn.step [Fintype T] (h : Untorn origin c) (hk : Kempt c) (hc : Calm c)
    (ho : ∀ w, origin w → origin' w) (hrel : ∀ w, c.pc t = .release w → origin' w)
    (ht : Ordinary (c.others t) (c.shared, c.pc t) (s, l)) : Untorn origin' (c.move t s l) := by
  have hl := hc.not_clears t
  constructor
  · intro i hi
    rw [Pool.total_move, Nat.add_eq_zero_iff] at hi
    obtain ⟨hli, hrest⟩ := hi
    have hwriter : l.writer ≠ some i := fun hw => by
      rw [Spot.writes, if_pos hw] at hli
      exact absurd hli one_ne_zero
    by_cases hw : (c.pc t).writer = some i
    · obtain ⟨w, hpc, rfl⟩ := ht.released hw hwriter
      have hknows := h.knows t
      have hpayload : s.payload w.slot = c.shared.payload w.slot := by
        obtain ⟨ht, -⟩ := ht
        rw [hpc] at ht
        cases ht with
        | release => exact Slots.payload_setUse ..
        | lookup _ _ _ _ hout => exact hout.elim
        | insert _ _ _ _ _ hout => exact hout.elim
        | invalidateAll hout => exact hout.elim
      rw [hpc] at hknows
      obtain ⟨hauthor, hfields⟩ := hknows
      rw [Pool.move_shared, hpayload, Payload.From, hauthor]
      exact ⟨hrel w hpc, rfl, hfields⟩
    · have hzero : c.total (Spot.writes i) = 0 := by
        rw [Pool.total_eq (Spot.writes i) c t, hrest, Spot.writes, if_neg hw]
      rw [Pool.move_shared, ht.payload hl hw]
      exact (h.written i hzero).mono ho
  · refine (Pool.forall_move fun o : Spot => o.Knows origin' s).mpr ⟨?_, ?_⟩
    · have hfrom : ∀ i, (c.pc t).reader = some i → (c.shared.payload i).From origin i :=
        fun i hi => h.written i (hk.no_writer hi)
      exact (ht.knows hl hfrom (h.knows t)).congr ho fun _ _ => rfl
    · intro o hother
      have hpayload : ∀ i, o.Inside i → s.payload i = c.shared.payload i := fun i hi =>
        ht.payload hl fun hw => hk.alone hw hother hi
      obtain ⟨u, -, rfl⟩ := hother
      exact (h.knows u).congr ho hpayload

/-- The number of `invalidateAll` calls only goes up. -/
theorem Access.begun_le (h : Access others (s, l) (s', l')) : s.begun ≤ s'.begun := by
  cases h with
  | invalidateAll => exact Nat.le_succ _
  | _ => exact le_rfl

/-- An access is ordinary if nobody has called `invalidateAll`. -/
theorem Access.ordinary (h : Access others (s, l) (s', l')) (hl : ¬ l.Clears)
    (h0 : s'.begun = 0) : Ordinary others (s, l) (s', l') := by
  refine ⟨h, ?_⟩
  cases h with
  | invalidateAll => exact absurd h0 (Nat.succ_ne_zero _)
  | clearCount => exact absurd trivial hl
  | readOp => dsimp only; split <;> nofun
  | readLeft => dsimp only [Query.otherOrder]; split_ifs <;> nofun
  | readRight => dsimp only [Query.otherOrder]; split_ifs <;> nofun
  | readSwappedLeft => dsimp only; split <;> nofun
  | readSwappedRight => dsimp only; split <;> nofun
  | _ => nofun

/-- The releasing store of an insertion is entered in the log. -/
def logged (t : T) (_ : Unit) : Spot → List (T × Insertion)
  | .release w => [(t, w)]
  | _ => []

/-- A run of the program, with the log of the insertions it has completed: all four fields are
written, and the entry is released. -/
abbrev Logged : List (T × Insertion) → Pool T Slots Spot → Pool T Slots Spot → Prop :=
  Pool.Run (fun others _ => Access others) logged

/-- **The invariant of a run** without `invalidateAll`: what is read comes out of the log. -/
theorem Logged.untorn [Fintype T] {size : ℕ} {h : 0 < size} {log : List (T × Insertion)}
    (hrun : Logged log (Slots.new size h).quiet c) (h0 : c.shared.begun = 0) :
    Kempt c ∧ Calm c ∧ Untorn (fun w => ∃ u, (u, w) ∈ log) c := by
  generalize hc₀ : (Slots.new size h).quiet = c₀ at hrun
  induction hrun with
  | refl =>
    subst hc₀
    exact ⟨kempt_new size h, ⟨fun _ => id, fun _ => rfl⟩, fun _ _ => rfl, fun _ => trivial⟩
  | @tail log c₁ c t m s l hrun ht ih =>
    obtain ⟨hk, hc, hu⟩ := ih (Nat.le_zero.mp (ht.begun_le.trans h0.le)) hc₀
    have hord : Ordinary (c.others t) (c.shared, c.pc t) (s, l) :=
      ht.ordinary (hc.not_clears t) h0
    obtain ⟨hg, hc'⟩ := hc.step (.turn hord)
    refine ⟨hk.step hg, hc', hu.step hk hc ?_ (fun w hpc => ⟨t, ?_⟩) hord⟩
    · rintro w ⟨u, hw⟩
      exact ⟨u, List.mem_append_left _ hw⟩
    · rw [hpc]
      exact List.mem_append_right _ List.mem_cons_self

/-- **No torn answers.** Any number of threads call `lookup` and `insert`, their accesses in any
order, and nobody calls `invalidateAll`. The counter of an entry is `-1` with one writer inside
and no reader, or it is the number of readers inside and there is no writer. A lookup that returns
a node has taken it from one insertion that the run has completed before, into the entry of the
lookup, with its operator and its operands, in the other order if the operator is commutative. -/
theorem untorn_of_run [Fintype T] {size : ℕ} {h : 0 < size} {log : List (T × Insertion)}
    (hrun : Logged log (Slots.new size h).quiet c) (h0 : c.shared.begun = 0) :
    (∀ i, c.total (Spot.writes i) = 0 ∧ (c.shared.entry i).useCount = c.total (Spot.reads i) ∨
      c.total (Spot.writes i) = 1 ∧ c.total (Spot.reads i) = 0 ∧
        (c.shared.entry i).useCount = -1) ∧
      ∀ t q out a, c.pc t = .returned q out a → out ≠ nullptr →
        ∃ u w, a = some w ∧ (u, w) ∈ log ∧ w.Answers q ∧ w.node = out := by
  obtain ⟨hk, -, hu⟩ := hrun.untorn h0
  refine ⟨hk.balanced, fun t q out a ht hout => ?_⟩
  have hknows := hu.knows t
  rw [ht] at hknows
  obtain ⟨w, ha, ⟨u, hw⟩, hrest⟩ := hknows hout
  exact ⟨u, w, ha, hw, hrest⟩

/-- One access, by the choice of the thread. -/
def chosen (c : Pool T Slots Spot) (t : T) (x : Choice) : Option (Unit × Slots × Spot) :=
  (c.shared.act (c.pc t) x).map fun r => ((), r)

theorem Logged.of_play {sched : List (T × Choice)} {log : List (T × Insertion)}
    (h : sched.foldlM (Pool.Run.play chosen logged) ([], c) = some (log, c')) :
    Logged log c c' := by
  refine Pool.Run.of_play (fun d t x r hr => ?_) h (.refl c)
  obtain ⟨⟨s, l⟩, hact, rfl⟩ := Option.map_eq_some_iff.mp hr
  exact .of_act hact

/-- A lookup meets an entry whose writer has stored the node and no more. It waits until the writer
has left, a second reader comes in beside it, and an insertion into the entry gives up. -/
def overlapping : List (Fin 4 × Choice) :=
  List.flatten [
    [(0, .insert 0 7 1 2 .and), (0, .go), (0, .go), (1, .lookup 0 2 1 .and), (1, .go), (0, .go),
      (0, .go), (0, .go), (0, .go), (1, .go)],
    [(2, .lookup 0 1 3 .and), (2, .go), (2, .go), (2, .go), (3, .insert 0 8 1 3 .or), (3, .go)],
    List.replicate 6 (1, .go)]

/-- The lookup finds the insertion, with its operands in the other order. -/
theorem untorn_of_run_small : ∃ (log : List (Fin 4 × Insertion)) (c : Pool (Fin 4) Slots Spot),
    log = [(0, insertion)] ∧ c.pc 1 = .returned ⟨0, 2, 1, .and, 0⟩ 7 (some insertion) ∧
      c.pc 2 = .readOp ⟨0, 1, 3, .and, 0⟩ ∧ ∃ u w, some insertion = some w ∧ (u, w) ∈ log ∧
        w.Answers ⟨0, 2, 1, .and, 0⟩ ∧ w.node = 7 := by
  have hsome : (overlapping.foldlM (Pool.Run.play chosen logged)
      ([], (Slots.new 1 Nat.one_pos).quiet)).any (fun r =>
        decide (r.1 = [(0, insertion)] ∧ r.2.shared.begun = 0 ∧
          r.2.pc 1 = .returned ⟨0, 2, 1, .and, 0⟩ 7 (some insertion) ∧
          r.2.pc 2 = .readOp ⟨0, 1, 3, .and, 0⟩)) = true := by
    decide +kernel
  obtain ⟨⟨log, c⟩, hplay, hfacts⟩ := (Option.any_eq_true _ _).mp hsome
  obtain ⟨hlog, hbegun, hpc, hreader⟩ := of_decide_eq_true hfacts
  have hrun : Logged log (Slots.new 1 Nat.one_pos).quiet c := .of_play hplay
  exact ⟨log, c, hlog, hpc, hreader, (untorn_of_run hrun hbegun).2 1 _ _ _ hpc (by decide)⟩

end pool

end Nanobdd
