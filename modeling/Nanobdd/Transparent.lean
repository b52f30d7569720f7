import Mathlib.Data.Set.Card
import Nanobdd.Programs

/-!
# When maintenance is transparent

`getOrCreateNode` may run `performMaintenance` at any depth of an operator, and the collection
knows nothing of the locals of the recursion. Whether that does harm depends only on the table
the operator starts with and on the function it is to compute. Up to the first collection the
operator creates exactly the missing nodes of the result, children first, and while it has
created at least one it holds one that nothing else keeps. So a collection is harmless only if no
node has been created before it, which means that no slot was free at the start.

## Main definitions

* `Transparent` — the operator returns the right node, the table stays closed, and no collection
  frees a node the operator holds
* `FirstMissSafe` — the functions in hand when the recursion meets the first missing one
* `Room` — the condition on the table and the result

## Main results

* `Kept.overflows` — what is known when maintenance begins
* `transparent_iff` — maintenance is transparent if and only if there is room
* `not_transparent_of_run` — a program where it is not
-/

namespace Nanobdd

open BoolFun

variable {D : Operator → Prop} {P : Platform} {A : Set Ptr} {s s' t : State} {op : Operator}
  {x y p r : Ptr} {m v : ℕ} {f g h : BoolFun} {F L : Set BoolFun} {k : List Frame}
  {a b c : Config} {fuel : ℕ}

/-! ### The functions in hand -/

/-- Walk down the diagram of a function to the first one, low before high, that is not in `F`
although its cofactors are. All cofactors at hand there are in `L`: the low one of every function
whose high one the walk goes to, and both of the last function. -/
inductive FirstMissSafe (F L : Set BoolFun) : BoolFun → Prop
  | low {g : BoolFun} {v : ℕ} : IsTop v g → cofactor v false g ∉ F →
      FirstMissSafe F L (cofactor v false g) → FirstMissSafe F L g
  | high {g : BoolFun} {v : ℕ} : IsTop v g → cofactor v false g ∈ L → cofactor v true g ∉ F →
      FirstMissSafe F L (cofactor v true g) → FirstMissSafe F L g
  | here {g : BoolFun} {v : ℕ} : IsTop v g → cofactor v false g ∈ L → cofactor v true g ∈ L →
      FirstMissSafe F L g

namespace FirstMissSafe

theorem low_iff (hLF : L ⊆ F) (ht : IsTop v g) (hlow : cofactor v false g ∉ F) :
    FirstMissSafe F L g ↔ FirstMissSafe F L (cofactor v false g) := by
  constructor
  · intro hg
    cases hg with
    | low ht' _ hg => exact ht'.unique ht ▸ hg
    | high ht' hl => exact absurd (hLF (ht'.unique ht ▸ hl)) hlow
    | here ht' hl => exact absurd (hLF (ht'.unique ht ▸ hl)) hlow
  · exact low ht hlow

theorem high_iff (hLF : L ⊆ F) (ht : IsTop v g) (hlow : cofactor v false g ∈ F)
    (hhigh : cofactor v true g ∉ F) :
    FirstMissSafe F L g ↔ FirstMissSafe F L (cofactor v true g) ∧ cofactor v false g ∈ L := by
  constructor
  · intro hg
    cases hg with
    | low ht' hl => exact absurd hlow (ht'.unique ht ▸ hl)
    | high ht' hl _ hg => exact ht'.unique ht ▸ ⟨hg, hl⟩
    | here ht' _ hh => exact absurd (hLF (ht'.unique ht ▸ hh)) hhigh
  · exact fun hg => high ht hg.2 hhigh hg.1

theorem here_iff (ht : IsTop v g) (hlow : cofactor v false g ∈ F) (hhigh : cofactor v true g ∈ F) :
    FirstMissSafe F L g ↔ cofactor v false g ∈ L ∧ cofactor v true g ∈ L := by
  constructor
  · intro hg
    cases hg with
    | low ht' hl => exact absurd hlow (ht'.unique ht ▸ hl)
    | high ht' _ hh => exact absurd hhigh (ht'.unique ht ▸ hh)
    | here ht' hl hh => exact ht'.unique ht ▸ ⟨hl, hh⟩
  · exact fun hg => here ht hg.1 hg.2

end FirstMissSafe

namespace State

/-! ### The functions of a table -/

/-- The functions of the stored nodes. -/
def functions (s : State) : Set BoolFun := s.denote '' {p | p ∈ s.stored}

/-- The functions of the live nodes. -/
def liveFunctions (s : State) : Set BoolFun := s.denote '' {p | p ∈ s.stored ∧ s.Live p}

theorem liveFunctions_subset (s : State) : s.liveFunctions ⊆ s.functions :=
  Set.image_mono fun _ hp => hp.1

theorem Robdd.encard_denote (hr : Robdd P s) {T : Set Ptr} (hT : ∀ p ∈ T, p ∈ s.stored) :
    (s.denote '' T).encard = T.encard :=
  Set.InjOn.encard_image fun _ hp _ hq he => (hr.canonical (hT _ hp) (hT _ hq)).mp he

theorem Robdd.encard_stored (hr : Robdd P s) :
    ({p | p ∈ s.stored} : Set Ptr).encard = s.stored.length := by
  have hset : ({p | p ∈ s.stored} : Set Ptr) = s.stored.toFinset := by
    ext p
    simp
  rw [hset, Set.encard_coe_eq_coe_finsetCard, List.toFinset_card_of_nodup hr.hashed.nodup]

theorem Robdd.encard_functions (hr : Robdd P s) : s.functions.encard = s.stored.length :=
  (hr.encard_denote fun _ hp => hp).trans hr.encard_stored

theorem Robdd.mem_liveFunctions (hr : Robdd P s) (hp : p ∈ s.stored) :
    s.denote p ∈ s.liveFunctions ↔ s.Live p := by
  constructor
  · rintro ⟨q, ⟨hq, hlive⟩, he⟩
    rwa [(hr.canonical hq hp).mp he] at hlive
  · exact fun hlive => ⟨p, ⟨hp, hlive⟩, rfl⟩

/-- A table with a function has its whole diagram. -/
theorem Robdd.sub_mem_functions (hr : Robdd P s) (hh : h ∈ s.functions) (hg : Sub g h) :
    g ∈ s.functions := by
  obtain ⟨p, hp, he⟩ := hh
  exact Diagram.sub_denote hr.ordered hr.reduced (R := {p | p ∈ s.stored}) (fun _ hp => hp)
    (fun p hp hleaf => hr.low_mem p hp (leaf_eq_none_iff.mp hleaf))
    (fun p hp hleaf => hr.high_mem p hp (leaf_eq_none_iff.mp hleaf)) hg hp he

/-- The slots that are free after maintenance. -/
noncomputable def slotsCollected (s : State) : ℕ :=
  let n := ({p | p ∈ s.stored ∧ s.Live p} : Set Ptr).ncard
  if s.freeSlots + s.stored.length = n then s.allocator.nextSlabCapacity
  else s.freeSlots + s.stored.length - n

/-- There is room for the missing nodes of `h`: in the free slots, or, if there are none, after a
collection that spares what is in hand when the first node is missed. -/
def Room (s : State) (h : BoolFun) : Prop :=
  (subs h \ s.functions).encard ≤ s.freeSlots ∨
    (s.freeSlots = 0 ∧ FirstMissSafe s.functions s.liveFunctions h ∧
      (subs h \ s.liveFunctions).encard ≤ s.slotsCollected)

/-- The operator returns a node for its result, the table stays closed under children, and no
collection takes a node that the locals of the operator hold. -/
structure Transparent (P : Platform) (s : State) (op : Operator) (x y : Ptr) : Prop where
  returns : ∃ F r s', ∀ fuel ≥ F, bddOp P op fuel s x y = some (r, s')
  correct : ∀ fuel r s', bddOp P op fuel s x y = some (r, s') →
    r ∈ s'.stored ∧ s'.denote r = map₂ op.connective (s.denote x) (s.denote y) ∧ s'.Closed
  spares : ∀ b c, Steps P ⟨s, .call op x y, []⟩ b → b.Maintains → Step P b c →
    ∀ p ∈ b.held, p ∈ c.state.stored

/-! ### The first missing node -/

theorem Combines.isTop {fLow fHigh : Ptr} (hc : Combines D A s op x y m fLow fHigh g)
    (hA : Anchored A s) (hr : Robdd P s) : IsTop m g := by
  refine ⟨fun u hu => ?_, fun hign => hc.low_ne_high ?_⟩
  · rw [hc.goal_eq]
    exact hc.expands.ignores hA hr hu
  · refine (hr.canonical hc.low_mem hc.high_mem).mp ?_
    rw [hc.low_eq, hc.high_eq, cofactor_of_ignores hign, cofactor_of_ignores hign]

/-- If no stored node has the key, none has the function. -/
theorem Combines.not_mem_functions {fLow fHigh : Ptr}
    (hc : Combines D A s op x y m fLow fHigh g) (hA : Anchored A s) (hr : Robdd P s)
    (hmiss : ∀ p ∈ s.stored, ¬ ((s.heap p).level = m ∧ (s.heap p).low = fLow ∧
      (s.heap p).high = fHigh)) : g ∉ s.functions := by
  rintro ⟨p, hp, rfl⟩
  have htop := hc.isTop hA hr
  have hin : s.Inner p := by
    constructor
    · rintro rfl
      rw [hr.denote_false] at htop
      exact not_isTop_const false m htop
    · rintro rfl
      rw [hr.denote_true] at htop
      exact not_isTop_const true m htop
  have hlevel : (s.heap p).level = m :=
    (Diagram.isTop_denote hr.ordered hr.reduced hp (leaf_eq_none_iff.mpr hin)).unique htop
  have hat : Robdd.ExpandsAt s m p := Or.inr ⟨hlevel.symm, hin⟩
  have hlow := hr.denote_negCof hp hat
  have hhigh := hr.denote_posCof hp hat
  rw [negCof, if_neg (by omega), ← hc.low_eq] at hlow
  rw [posCof, if_neg (by omega), ← hc.high_eq] at hhigh
  exact hmiss p hp ⟨hlevel, (hr.canonical (hr.low_mem p hp hin) hc.low_mem).mp hlow,
    (hr.canonical (hr.high_mem p hp hin) hc.high_mem).mp hhigh⟩

/-- The frames below a call for a missing function: the walk passes them, and what they hold is
what it has in hand. -/
theorem Pending.firstMissSafe (hp : Pending D A s k g h) (hA : Anchored A s) (hr : Robdd P s)
    (hg : g ∉ s.functions) : FirstMissSafe s.functions s.liveFunctions h ↔
      FirstMissSafe s.functions s.liveFunctions g ∧ ∀ p ∈ k.flatMap Frame.held, s.Live p := by
  have hLF := s.liveFunctions_subset
  induction hp with
  | nil h => simp
  | @low op x y m k h _ he _ ih =>
    set G := s.goal op x y
    have hign : ∀ u < m, G.Ignores u := fun _ hu => he.ignores hA hr hu
    have hG : G ∉ s.functions := fun hmem =>
      hg (hr.sub_mem_functions hmem (sub_cofactor hign false))
    have hwalk : FirstMissSafe s.functions s.liveFunctions G ↔
        FirstMissSafe s.functions s.liveFunctions (cofactor m false G) := by
      by_cases hm : G.Ignores m
      · rw [cofactor_of_ignores hm]
      · exact FirstMissSafe.low_iff hLF ⟨hign, hm⟩ hg
    exact (ih hG).trans (and_congr_left fun _ => hwalk)
  | @high op x y m fLow k h _ he hmem hd _ ih =>
    set G := s.goal op x y
    have hign : ∀ u < m, G.Ignores u := fun _ hu => he.ignores hA hr hu
    have hG : G ∉ s.functions := fun hmem =>
      hg (hr.sub_mem_functions hmem (sub_cofactor hign true))
    have hm : ¬ G.Ignores m := fun hm => by
      rw [cofactor_of_ignores hm] at hd
      exact hG ⟨fLow, hmem, hd⟩
    have hlow : cofactor m false G ∈ s.liveFunctions ↔ s.Live fLow :=
      hd ▸ hr.mem_liveFunctions hmem
    refine (ih hG).trans ?_
    rw [FirstMissSafe.high_iff hLF ⟨hign, hm⟩ (hd ▸ ⟨fLow, hmem, rfl⟩) hg, hlow]
    simp only [List.flatMap_cons, Frame.held, List.singleton_append, List.mem_cons,
      forall_eq_or_imp, and_assoc]

/-- **The allocation fails.** There is no free slot, the function is missing, and the walk down
the result has in hand what the operator holds. -/
theorem Sound.allocFails {fLow fHigh : Ptr}
    (hs : Sound D P A h ⟨s, .maintain op x y m fLow fHigh, k⟩) (hf : s.AllocFails P m fLow fHigh) :
    s.freeSlots = 0 ∧ (∃ g ∈ subs h, g ∉ s.functions) ∧
      (FirstMissSafe s.functions s.liveFunctions h ↔
        ∀ p ∈ Config.held ⟨s, .maintain op x y m fLow fHigh, k⟩, s.Live p) := by
  obtain ⟨hw, hA, g, hg, hpend⟩ := hs
  have hr := hw.toRobdd
  have hc : Combines D A s op x y m fLow fHigh g := hg
  obtain ⟨hmiss, hfree⟩ : (∀ p ∈ s.stored, ¬ ((s.heap p).level = m ∧ (s.heap p).low = fLow ∧
      (s.heap p).high = fHigh)) ∧ s.freeSlots = 0 := by
    rw [AllocFails] at hf
    rcases hr.toStore.getOrCreateOnce m fLow fHigh with
      ⟨p, -, -, hsome⟩ | ⟨hmiss, ⟨-, hfree⟩ | ⟨p, u, -, hsome⟩⟩
    · rw [hf] at hsome
      exact absurd hsome (by simp)
    · exact ⟨hmiss, hfree⟩
    · rw [hf] at hsome
      exact absurd hsome (by simp)
  have hnot := hc.not_mem_functions hA hr hmiss
  refine ⟨hfree, ⟨g, hpend.sub hA hr, hnot⟩, ?_⟩
  have hlow : cofactor m false g ∈ s.functions := hc.low_eq ▸ ⟨fLow, hc.low_mem, rfl⟩
  have hhigh : cofactor m true g ∈ s.functions := hc.high_eq ▸ ⟨fHigh, hc.high_mem, rfl⟩
  rw [hpend.firstMissSafe hA hr hnot, FirstMissSafe.here_iff (hc.isTop hA hr) hlow hhigh,
    ← hc.low_eq, ← hc.high_eq, hr.mem_liveFunctions hc.low_mem, hr.mem_liveFunctions hc.high_mem]
  simp only [Config.held, Control.held, List.mem_append, List.mem_cons, List.not_mem_nil, or_false,
    or_imp, forall_and, forall_eq]

/-! ### Up to the next collection -/

/-- What the operator has done to the table `s` without maintenance. -/
structure Grown (h : BoolFun) (s : State) (c : Config) : Prop where
  «extends» : Extends s c.state
  slots : c.state.freeSlots + c.state.stored.length = s.freeSlots + s.stored.length
  nextSlab : c.state.allocator.nextSlabCapacity = s.allocator.nextSlabCapacity
  fresh : ∀ p ∈ c.state.stored, p ∉ s.stored →
    (c.state.heap p).refCount = 0 ∧ c.state.denote p ∈ subs h
  held : ∀ p ∈ c.state.stored, p ∉ s.stored → ∃ q ∈ c.held, q ∉ s.stored

theorem Grown.refl (a : Config) : Grown h a.state a :=
  ⟨Extends.refl _, rfl, rfl, fun _ hp hnot => absurd hp hnot, fun _ hp hnot => absurd hp hnot⟩

theorem Grown.advance (hg : Grown h s b) (hadv : Advance h b c) (hr : Robdd P s)
    (hrb : Robdd P b.state) : Grown h s c where
  «extends» := hg.extends.trans hadv.extends
  slots := hadv.slots.trans hg.slots
  nextSlab := hadv.nextSlab.trans hg.nextSlab
  fresh p hp hnot := by
    by_cases hpb : p ∈ b.state.stored
    · rw [hadv.extends.heap_eq p hpb, hrb.denote_eq hadv.extends.agrees hpb]
      exact hg.fresh p hpb hnot
    · obtain ⟨hcount, -, hsub, -⟩ := hadv.fresh p hp hpb
      exact ⟨hcount, hsub⟩
  held p hp hnot := by
    by_cases hpb : p ∈ b.state.stored
    · -- an earlier node: the operator still holds something that was not there at the start
      have hT : Anchored {q | q ∈ s.stored} b.state := by
        refine ⟨fun q hq => hg.extends.mem q hq, fun q hq r hqr => hr.closed q hq r ?_⟩
        rw [Heap.children, hg.extends.heap_eq q hq] at hqr
        exact hqr
      exact hadv.dirty _ hT (hg.held p hpb hnot)
    · exact ⟨p, (hadv.fresh p hp hpb).2.2.2, hnot⟩

/-- A node created since is not live. -/
theorem Grown.mem_of_live (hg : Grown h s c) (hclosed : s.Closed) (hp : c.state.Live p) :
    p ∈ s.stored ∧ s.Live p := by
  obtain ⟨r, hr, hreach⟩ := hp
  obtain ⟨hrc, hcount⟩ := mem_roots.mp hr
  have hrs : r ∈ s.stored := by
    by_contra hnot
    exact hcount (hg.fresh r hrc hnot).1
  have hlive : s.Live r := Live.of_refCount hrs (by rwa [← hg.extends.heap_eq r hrs])
  induction hreach with
  | refl => exact ⟨hrs, hlive⟩
  | tail _ hc ih =>
    rw [Heap.children, hg.extends.heap_eq _ ih.1] at hc
    exact ⟨hclosed _ ih.1 _ hc, ih.2.child hc⟩

/-- Steps without maintenance. -/
abbrev Quiet (P : Platform) : Config → Config → Prop :=
  Relation.ReflTransGen fun a b => Step P a b ∧ ¬ a.Maintains

theorem Kept.quiet (hk : Kept D P t h a) (hq : Quiet P a c) :
    Kept D P t h c ∧ Grown h a.state c := by
  induction hq with
  | refl => exact ⟨hk, Grown.refl a⟩
  | @tail b c _ hbc ih =>
    obtain ⟨hkb, hgb⟩ := ih
    obtain ⟨hadv, -⟩ := hkb.sound.step hbc.1 hbc.2
    exact ⟨hkb.step hbc.1 fun hl => hbc.2 hl.1,
      hgb.advance hadv hk.sound.wf.toRobdd hkb.sound.wf.toRobdd⟩

/-- A run is quiet, or it comes to a first maintenance. -/
theorem quiet_or_maintains (h : Steps P a c) : Quiet P a c ∨
    ∃ b b', Quiet P a b ∧ b.Maintains ∧ Step P b b' ∧ Steps P b' c := by
  induction h with
  | refl => exact Or.inl .refl
  | @tail b c _ hbc ih =>
    rcases ih with hq | ⟨d, d', hq, hm, hd, hrest⟩
    · by_cases hm : b.Maintains
      · exact Or.inr ⟨b, c, hq, hm, hbc, .refl⟩
      · exact Or.inl (hq.tail ⟨hbc, hm⟩)
    · exact Or.inr ⟨d, d', hq, hm, hd, hrest.tail hbc⟩

/-! ### Counting -/

theorem Grown.denote_eq (hg : Grown h s c) (hr : Robdd P s) (hp : p ∈ s.stored) :
    c.state.denote p = s.denote p := hr.denote_eq hg.extends.agrees hp

theorem Grown.functions_subset (hg : Grown h s c) (hr : Robdd P s) :
    s.functions ⊆ c.state.functions := by
  rintro - ⟨p, hp, rfl⟩
  exact ⟨p, hg.extends.mem p hp, hg.denote_eq hr hp⟩

/-- The new functions are in the diagram of the result. -/
theorem Grown.created_subset (hg : Grown h s c) (hr : Robdd P s) :
    c.state.functions \ s.functions ⊆ subs h \ s.functions := by
  rintro - ⟨⟨p, hp, rfl⟩, hnot⟩
  refine ⟨(hg.fresh p hp fun hps => hnot ?_).2, hnot⟩
  exact ⟨p, hps, (hg.denote_eq hr hps).symm⟩

/-- Every new function has cost one slot. -/
theorem Grown.encard_created (hg : Grown h s c) (hr : Robdd P s) (hrc : Robdd P c.state) :
    (c.state.functions \ s.functions).encard + c.state.freeSlots = s.freeSlots := by
  have hcard := Set.encard_sdiff_add_encard_of_subset (hg.functions_subset hr)
  rw [hr.encard_functions, hrc.encard_functions] at hcard
  have hfinite : (c.state.functions \ s.functions).encard ≠ ⊤ := fun htop => by
    rw [htop, top_add] at hcard
    exact ENat.natCast_ne_top _ hcard.symm
  obtain ⟨n, hn⟩ := ENat.ne_top_iff_exists.mp hfinite
  have hslots := hg.slots
  rw [← hn] at hcard ⊢
  norm_cast at hcard ⊢
  omega

/-- An operator that has returned has created all missing nodes. -/
theorem Kept.fits (hk : Kept D P t h a) (hq : Quiet P a ⟨s', .ret r, []⟩) :
    (subs h \ a.state.functions).encard ≤ a.state.freeSlots := by
  obtain ⟨hkc, hg⟩ := hk.quiet hq
  have hr := hk.sound.wf.toRobdd
  have hrc := hkc.sound.wf.toRobdd
  obtain ⟨-, -, g, ⟨hmem, hd⟩, hpend⟩ := hkc.sound
  cases hpend
  have hsub : subs h \ a.state.functions ⊆ s'.functions \ a.state.functions := fun f hf =>
    ⟨hrc.sub_mem_functions ⟨r, hmem, hd⟩ hf.1, hf.2⟩
  calc (subs h \ a.state.functions).encard
      ≤ (s'.functions \ a.state.functions).encard := Set.encard_le_encard hsub
    _ ≤ (s'.functions \ a.state.functions).encard + s'.freeSlots := le_self_add
    _ = a.state.freeSlots := hg.encard_created hr hrc

/-- **Maintenance begins.** No slot is free, there are more missing nodes than there were free
slots, and the walk down the result has in hand what the operator holds. -/
theorem Kept.overflows (hk : Kept D P t h a) (ha : ¬ a.Maintains) (hq : Quiet P a b)
    (hb : b.Maintains) : b.state.freeSlots = 0 ∧
      (a.state.freeSlots : ℕ∞) < (subs h \ a.state.functions).encard ∧
      (FirstMissSafe b.state.functions b.state.liveFunctions h ↔ ∀ p ∈ b.held, b.state.Live p) := by
  obtain ⟨hkb, hg⟩ := hk.quiet hq
  have hr := hk.sound.wf.toRobdd
  have hrb := hkb.sound.wf.toRobdd
  obtain ⟨hfree, ⟨g, hsub, hnot⟩, hwalk⟩ : b.state.freeSlots = 0 ∧
      (∃ g ∈ subs h, g ∉ b.state.functions) ∧
      (FirstMissSafe b.state.functions b.state.liveFunctions h ↔
        ∀ p ∈ b.held, b.state.Live p) := by
    rcases Relation.ReflTransGen.cases_tail hq with rfl | ⟨d, -, hd, -⟩
    · exact absurd hb ha
    · cases hd with
      | exhaust hf => exact hkb.sound.allocFails hf
      | _ => exact hb.elim
  refine ⟨hfree, ?_, hwalk⟩
  have hcreated := hg.encard_created hr hrb
  rw [hfree, Nat.cast_zero, add_zero] at hcreated
  have hgcreated : g ∉ b.state.functions \ a.state.functions := fun hmem => hnot hmem.1
  have hgmissing : g ∈ subs h \ a.state.functions :=
    ⟨hsub, fun hmem => hnot (hg.functions_subset hr hmem)⟩
  have hle := Set.encard_le_encard (Set.insert_subset hgmissing (hg.created_subset hr))
  rw [Set.encard_insert_of_notMem hgcreated, hcreated] at hle
  exact (ENat.lt_add_one_iff (ENat.natCast_ne_top _)).mpr le_rfl |>.trans_le hle

/-- **A node has been created before maintenance begins.** The operator holds one that the
collection takes. -/
theorem Kept.loses_of_created (hk : Kept D P t h a) (ha : ¬ a.Maintains) (hq : Quiet P a b)
    (hb : b.Maintains) (hfree : a.state.freeSlots ≠ 0) : b.Loses := by
  obtain ⟨hkb, hg⟩ := hk.quiet hq
  have hr := hk.sound.wf.toRobdd
  have hcreated := hg.encard_created hr hkb.sound.wf.toRobdd
  rw [(hk.overflows ha hq hb).1, Nat.cast_zero, add_zero] at hcreated
  obtain ⟨-, ⟨p, hp, rfl⟩, hnot⟩ : (b.state.functions \ a.state.functions).Nonempty := by
    rw [← Set.encard_pos, hcreated]
    exact_mod_cast Nat.pos_of_ne_zero hfree
  obtain ⟨q, hq, hnew⟩ := hg.held p hp fun hpa => hnot ⟨p, hpa, (hg.denote_eq hr hpa).symm⟩
  exact ⟨hb, q, hq, fun hlive => hnew (hg.mem_of_live hr.closed hlive).1⟩

/-- Without a free slot at the start nothing has been created. -/
theorem Grown.mem_of_no_slots (hg : Grown h s c) (hr : Robdd P s) (hrc : Robdd P c.state)
    (hfree : s.freeSlots = 0) (hp : p ∈ c.state.stored) : p ∈ s.stored := by
  have hcreated := hg.encard_created hr hrc
  rw [hfree, Nat.cast_zero, add_eq_zero, Set.encard_eq_zero, Set.sdiff_eq_empty] at hcreated
  obtain ⟨q, hq, he⟩ := hcreated.1 ⟨p, hp, rfl⟩
  rw [← hg.denote_eq hr hq] at he
  rwa [← (hrc.canonical (hg.extends.mem q hq) hp).mp he]

theorem Grown.same (hg : Grown h s c) (hr : Robdd P s) (hrc : Robdd P c.state)
    (hfree : s.freeSlots = 0) : c.state.functions = s.functions ∧
      c.state.liveFunctions = s.liveFunctions ∧ c.state.slotsCollected = s.slotsCollected := by
  have hmem : ∀ p, p ∈ c.state.stored ↔ p ∈ s.stored := fun p =>
    ⟨hg.mem_of_no_slots hr hrc hfree, hg.extends.mem p⟩
  have hlive : ∀ p, (p ∈ c.state.stored ∧ c.state.Live p) ↔ (p ∈ s.stored ∧ s.Live p) := fun p =>
    ⟨fun hp => hg.mem_of_live hr.closed hp.2,
      fun hp => ⟨hg.extends.mem p hp.1, hg.extends.live hr.closed hp.2⟩⟩
  refine ⟨?_, ?_, ?_⟩
  · simp only [functions, hmem]
    exact Set.image_congr fun p hp => hg.denote_eq hr hp
  · simp only [liveFunctions, hlive]
    exact Set.image_congr fun p hp => hg.denote_eq hr hp.1
  · simp only [slotsCollected, hlive, hg.slots, hg.nextSlab]

/-! ### Maintenance -/

theorem Swept.slotsAfter_eq (hs : Swept P s s') : s.slotsAfter s' = s.slotsCollected := by
  have hset : ({p | p ∈ s.stored ∧ s.Live p} : Set Ptr) = s'.stored.toFinset := by
    ext p
    simp [hs.mem_iff]
  have hcard : ({p | p ∈ s.stored ∧ s.Live p} : Set Ptr).ncard = s'.stored.length := by
    rw [hset, Set.ncard_coe_finset, List.toFinset_card_of_nodup hs.store.hashed.nodup]
  simp only [slotsAfter, slotsCollected, hcard]

theorem Swept.functions_eq (hs : Swept P s s') (hr' : Robdd P s') :
    s'.functions = s.liveFunctions := by
  simp only [functions, liveFunctions, ← hs.mem_iff]
  exact Set.image_congr fun p hp => hs.denote_eq hr' hp

/-- The step of maintenance. -/
theorem Kept.maintains (hk : Kept D P t h b) (hm : b.Maintains) (hbc : Step P b c) :
    Swept P b.state c.state ∧ 0 < c.state.freeSlots ∧
      c.state.freeSlots = b.state.slotsCollected ∧ ¬ c.Maintains := by
  cases hbc with
  | maintain fuel hpm =>
    obtain ⟨cache, hcache, -⟩ := hk.sound.wf.cache
    obtain ⟨hswept, hpos, hslots⟩ := hk.sound.wf.toStore.performMaintenance hk.sound.wf.closed
      hk.preserved.unmarked hcache hpm
    exact ⟨hswept, hpos, hslots.trans hswept.slotsAfter_eq, id⟩
  | _ => exact hm.elim

theorem Kept.held_mem (hk : Kept D P t h c) : ∀ p ∈ c.held, p ∈ c.state.stored := by
  obtain ⟨-, -, g, hg, hpend⟩ := hk.sound
  intro p hp
  rcases List.mem_append.mp hp with hp | hp
  · exact hg.held_mem p hp
  · exact hpend.held_mem p hp

theorem Kept.spares_iff (hk : Kept D P t h b) (hm : b.Maintains) (hbc : Step P b c) :
    (∀ p ∈ b.held, p ∈ c.state.stored) ↔ ¬ b.Loses := by
  obtain ⟨hswept, -⟩ := hk.maintains hm hbc
  constructor
  · rintro hmem ⟨-, p, hp, hdead⟩
    exact hdead ((hswept.mem_iff p).mp (hmem p hp)).2
  · intro hn p hp
    refine (hswept.mem_iff p).mpr ⟨hk.held_mem p hp, ?_⟩
    by_contra hdead
    exact hn ⟨hm, p, hp, hdead⟩

/-! ### The exact condition -/

/-- With room, the operator meets no harmful collection. -/
theorem Kept.noLoss (hk : Kept D P t h a) (ha : ¬ a.Maintains) (hroom : a.state.Room h)
    (hc : Steps P a c) : ¬ c.Loses := by
  intro hl
  -- a maintenance after quiet steps is the second case of the condition
  have hfirst : ∀ b, Quiet P a b → b.Maintains → a.state.freeSlots = 0 ∧ ¬ b.Loses ∧
      (subs h \ b.state.liveFunctions).encard ≤ b.state.slotsCollected := by
    intro b hq hb
    obtain ⟨-, hlt, hwalk⟩ := hk.overflows ha hq hb
    rcases hroom with hle | ⟨hfree, hsafe, hle⟩
    · exact absurd hle (not_le.mpr hlt)
    · obtain ⟨hkb, hg⟩ := hk.quiet hq
      obtain ⟨hF, hL, hS⟩ := hg.same hk.sound.wf.toRobdd hkb.sound.wf.toRobdd hfree
      rw [hF, hL] at hwalk
      refine ⟨hfree, fun ⟨_, p, hp, hdead⟩ => hdead (hwalk.mp hsafe p hp), ?_⟩
      rwa [hL, hS]
  rcases quiet_or_maintains hc with hq | ⟨b, b', hq, hb, hbb', hrest⟩
  · exact (hfirst c hq hl.1).2.1 hl
  · obtain ⟨-, hn, hle⟩ := hfirst b hq hb
    obtain ⟨hkb, -⟩ := hk.quiet hq
    obtain ⟨hswept, -, hslots, hb'⟩ := hkb.maintains hb hbb'
    have hk' := hkb.step hbb' hn
    -- after the collection the slots suffice, so there is no second one
    have hnever : ∀ d, Quiet P b' d → ¬ d.Maintains := by
      intro d hqd hd
      have hlt := (hk'.overflows hb' hqd hd).2.1
      rw [hslots, hswept.functions_eq hk'.sound.wf.toRobdd] at hlt
      exact absurd hle (not_le.mpr hlt)
    rcases quiet_or_maintains hrest with hqc | ⟨d, -, hqd, hd, -, -⟩
    · exact hnever c hqc hl.1
    · exact hnever d hqd hd

/-- An operator that ends without a loss has had room. -/
theorem Kept.room (hk : Kept D P t h a) (ha : ¬ a.Maintains)
    (hn : ∀ b c, Steps P a b → Step P b c → ¬ b.Loses) (hret : Steps P a ⟨s', .ret r, []⟩) :
    a.state.Room h := by
  rcases quiet_or_maintains hret with hq | ⟨b, b', hq, hb, hbb', hrest⟩
  · exact Or.inl (hk.fits hq)
  have hsteps : Steps P a b := Relation.ReflTransGen.mono (fun _ _ hs => hs.1) _ _ hq
  have hnb := hn b b' hsteps hbb'
  have hfree : a.state.freeSlots = 0 := by
    by_contra hne
    exact hnb (hk.loses_of_created ha hq hb hne)
  obtain ⟨hkb, hg⟩ := hk.quiet hq
  obtain ⟨hF, hL, hS⟩ := hg.same hk.sound.wf.toRobdd hkb.sound.wf.toRobdd hfree
  obtain ⟨hswept, hpos, hslots, hb'⟩ := hkb.maintains hb hbb'
  have hk' := hkb.step hbb' hnb
  refine Or.inr ⟨hfree, ?_, ?_⟩
  · rw [← hF, ← hL, (hk.overflows ha hq hb).2.2]
    intro p hp
    by_contra hdead
    exact hnb ⟨hb, p, hp, hdead⟩
  · rcases quiet_or_maintains hrest with hqr | ⟨d, d', hqd, hd, hdd', -⟩
    · rw [← hL, ← hS, ← hslots, ← hswept.functions_eq hk'.sound.wf.toRobdd]
      exact hk'.fits hqr
    · -- a second maintenance comes after a node has been created
      have hsteps' : Steps P b' d := Relation.ReflTransGen.mono (fun _ _ hs => hs.1) _ _ hqd
      exact absurd (hk'.loses_of_created hb' hqd hd hpos.ne')
        (hn d d' ((hsteps.tail hbb').trans hsteps') hdd')

/-- **Maintenance is transparent exactly when there is room.** For every well-formed table, all
operands with a nonzero counter, and every number of free slots. -/
theorem transparent_iff (hw : WellFormed (· ≠ .imp) P s) (hu : s.Unmarked)
    (hf : (s.heap s.falseNode).refCount ≠ 0) (ht : (s.heap s.trueNode).refCount ≠ 0)
    (hop : op ≠ .imp) (ho : Operands {p | p ∈ s.stored ∧ (s.heap p).refCount ≠ 0} op x y) :
    Transparent P s op x y ↔ s.Room (map₂ op.connective (s.denote x) (s.denote y)) := by
  have hfl : s.Live s.falseNode := Live.of_refCount hw.false_mem hf
  have htl : s.Live s.trueNode := Live.of_refCount hw.true_mem ht
  have hol : Operands {p | p ∈ s.stored ∧ s.Live p} op x y :=
    ⟨⟨ho.left.1, Live.of_refCount ho.left.1 ho.left.2⟩,
      fun hn => ⟨(ho.right hn).1, Live.of_refCount (ho.right hn).1 (ho.right hn).2⟩⟩
  have hanswer : s.answer op x y = map₂ op.connective (s.denote x) (s.denote y) := by
    rw [answer_eq_goal hw.toRobdd ⟨ho.left.1, fun hn => (ho.right hn).1⟩ hop, goal,
      Operator.result, Operator.computes_of_ne_imp hop]
  have hk := hw.kept ⟨hop, op.child_ne_imp⟩ hu hfl htl hol
  rw [hanswer] at hk
  constructor
  · intro htr
    -- every configuration on the way keeps its meaning
    have hrun : ∀ c, Steps P ⟨s, .call op x y, []⟩ c →
        Kept (· ≠ .imp) P s (map₂ op.connective (s.denote x) (s.denote y)) c := by
      intro c hc
      induction hc with
      | refl => exact hk
      | @tail b c hab hbc ih =>
        refine ih.step hbc fun hl => ?_
        exact (ih.spares_iff hl.1 hbc).mp (htr.spares b c hab hl.1 hbc) hl
    obtain ⟨F, r, s', hF⟩ := htr.returns
    refine hk.room id (fun b c hab hbc hl => ?_) (steps_of_bddOp (hF F le_rfl))
    exact ((hrun b hab).spares_iff hl.1 hbc).mp (htr.spares b c hab hl.1 hbc) hl
  · intro hroom
    have hn : NoLoss P s op x y := fun c hc => hk.noLoss id hroom hc
    obtain ⟨hret, hright⟩ := hw.preserved ⟨hop, op.child_ne_imp⟩ hu hfl htl hol hn
    refine ⟨hret, fun fuel r s' hsome => ?_, fun b c hab hb hbc => ?_⟩
    · obtain ⟨hw', hr, hd, -⟩ := hright fuel r s' hsome
      exact ⟨hr, hd.trans hanswer, hw'.closed⟩
    · exact ((hk.run hn hab).spares_iff hb hbc).mpr (hn b hab)

/-! ### Small programs -/

/-- `v0 & v1` takes the last slot, and `v0 | v1` needs maintenance, which finds nothing to free. -/
theorem transparent_iff_small : ∃ c : Client, c.table.freeSlots = 0 ∧
    c.table.AllocFails smallPlatform 0 5 2 ∧ (Transparent smallPlatform c.table .or 3 5 ↔
      c.table.Room (map₂ (Operator.connective .or) (c.table.denote 3) (c.table.denote 5))) := by
  have hsome : ([Action.getVar 0, .getVar 1, .apply .and 0 1].foldlM
      (Client.briskly smallPlatform 20 40) (Client.start tight)).any (fun c => decide (
        c.table.freeSlots = 0 ∧ (c.table.getOrCreateOnce smallPlatform 0 5 2).isNone = true ∧
        (c.table.heap c.table.falseNode).refCount ≠ 0 ∧
        (c.table.heap c.table.trueNode).refCount ≠ 0 ∧
        ∀ p ∈ ([3, 5] : List ℕ), p ∈ c.table.stored ∧ (c.table.heap p).refCount ≠ 0)) = true := by
    decide +kernel
  obtain ⟨c, hc, hfacts⟩ := (Option.any_eq_true _ _).mp hsome
  obtain ⟨hfree, hfails, hfalse, htrue, hcounted⟩ := of_decide_eq_true hfacts
  have h : Client.Exact smallPlatform 3 c :=
    (Client.exact_of_ready (ready_of_init (by decide) init_tight)).run
      (fun c a ha => Client.noLoss_of_noAllocFails c a ha.1) (fun _ hfit => hfit)
      (Client.run_of_briskly hc)
  exact ⟨c, hfree, Option.isNone_iff_eq_none.mp hfails, transparent_iff
    (h.wf.mono fun _ _ => trivial) h.unmarked hfalse htrue (by decide)
    ⟨hcounted 3 (by simp), fun _ => hcounted 5 (by simp)⟩⟩

/-- A node that is its own high child has no value where its variable is true. -/
theorem denote_of_high_self {a : ℕ → Bool} (hin : s.Inner p) (hhigh : (s.heap p).high = p)
    (ha : a (s.heap p).level = true) : s.denote p a = false := by
  have heval : ∀ n, s.diagram.eval n p a = false := by
    intro n
    induction n with
    | zero => rfl
    | succ n ih =>
      rw [Diagram.eval, leaf_eq_none_iff.mpr hin]
      show (if a (s.heap p).level then s.diagram.eval n (s.heap p).high a else _) = false
      rw [if_pos ha, hhigh, ih]
  exact heval levelTop

end State

namespace Client

open State

/-- Three objects, for the three variables. -/
def smallTriple : Client := (smallPair.ref 7).push 7

theorem acts_smallTriple :
    Relation.ReflTransGen (CountedActs smallPlatform) (start small) smallTriple :=
  acts_smallPair.tail ⟨.getVar 2, 0, getVar_small rfl rfl (by decide), ⟨trivial, trivial⟩,
    referencesFit_small rfl rfl (by decide)⟩

theorem countedActs_of_endsWithin {c c' : Client} {i j n : ℕ}
    (ho : c.operands op i j = some (x, y))
    (hends : (⟨c.table, .call op x y, []⟩ : Config).endsWithin P n = true)
    (hexec : c.exec P fuel (.apply op i j) = some c')
    (hfit : c'.bdds.length + (c'.table.vars.length + c'.table.nvars.length + 2) < 2 ^ 32) :
    CountedActs P c c' := by
  refine ⟨.apply op i j, fuel, hexec, ⟨?_, trivial⟩, referencesFit_of_length hfit⟩
  intro x' y' ho'
  rw [ho] at ho'
  cases ho'
  exact not_allocFails_of_endsWithin hends

/-- **Maintenance is not transparent.** A program makes `v1 & v2` and `v0 & v1`, which leaves one
free slot, and then `v0 ^ (v1 & v2)`. The node for the second cofactor takes the slot, the
collection frees it while it is in `fHigh`, and its slot becomes the result, its own high child. -/
theorem not_transparent_of_run : ∃ (s : State) (c : Client) (x y : Ptr),
    init smallPlatform 40 id id 11 11 3 = some s ∧
      Relation.ReflTransGen (CountedActs smallPlatform) (start s) c ∧
      c.operands .xor 0 3 = some (x, y) ∧ ¬ Transparent smallPlatform c.table .xor x y := by
  have hrun : ((smallTriple.exec smallPlatform 40 (.apply .and 1 2)).bind fun c₁ =>
      (c₁.exec smallPlatform 40 (.apply .and 0 1)).bind fun c₂ =>
        (c₂.table.bddOp smallPlatform .xor 40 3 9).map fun r => (c₁, c₂, r)).any
      (fun r => decide (
        -- the two conjunctions meet no failing allocation
        smallTriple.operands .and 1 2 = some (5, 7) ∧
        Config.endsWithin smallPlatform 20 ⟨smallTriple.table, .call .and 5 7, []⟩ = true ∧
        r.1.bdds.length + (r.1.table.vars.length + r.1.table.nvars.length + 2) < 2 ^ 32 ∧
        r.1.operands .and 0 1 = some (3, 5) ∧
        Config.endsWithin smallPlatform 20 ⟨r.1.table, .call .and 3 5, []⟩ = true ∧
        r.2.1.bdds.length + (r.2.1.table.vars.length + r.2.1.table.nvars.length + 2) < 2 ^ 32 ∧
        r.2.1.operands .xor 0 3 = some (3, 9) ∧
        -- the operands
        r.2.1.table.falseNode = 1 ∧ r.2.1.table.trueNode = 2 ∧
        (∀ p ∈ [3, 7, 9], p ∈ r.2.1.table.stored) ∧
        (((r.2.1.table.heap 3).level, (r.2.1.table.heap 3).low, (r.2.1.table.heap 3).high) =
          (0, 1, 2)) ∧
        (((r.2.1.table.heap 7).level, (r.2.1.table.heap 7).low, (r.2.1.table.heap 7).high) =
          (2, 1, 2)) ∧
        (((r.2.1.table.heap 9).level, (r.2.1.table.heap 9).low, (r.2.1.table.heap 9).high) =
          (1, 1, 7)) ∧
        -- the result
        r.2.2.2.falseNode ≠ r.2.2.1 ∧ r.2.2.2.trueNode ≠ r.2.2.1 ∧
        (r.2.2.2.heap r.2.2.1).level = 0 ∧ (r.2.2.2.heap r.2.2.1).high = r.2.2.1)) = true := by
    decide +kernel
  obtain ⟨⟨c₁, c₂, r, t⟩, hc, hfacts⟩ := (Option.any_eq_true _ _).mp hrun
  obtain ⟨ho₁, hends₁, hfit₁, ho₂, hends₂, hfit₂, ho, hfalse, htrue, hmem, h3, h7, h9, hrf, hrt,
    hlevel, hhigh⟩ := of_decide_eq_true hfacts
  obtain ⟨c₁', hc₁, hc⟩ := Option.bind_eq_some_iff.mp hc
  obtain ⟨c₂', hc₂, hc⟩ := Option.bind_eq_some_iff.mp hc
  obtain ⟨⟨r', t'⟩, hxor, hc⟩ := Option.map_eq_some_iff.mp hc
  cases hc
  have hacts := (acts_smallTriple.tail (countedActs_of_endsWithin ho₁ hends₁ hc₁ hfit₁)).tail
    (countedActs_of_endsWithin ho₂ hends₂ hc₂ hfit₂)
  refine ⟨small, c₂, 3, 9, init_small, hacts, ho, fun htr => ?_⟩
  have hr : Robdd smallPlatform c₂.table := ((exact_of_ready ready_small).run
    (fun c a ha => noLoss_of_noAllocFails c a ha.1) (fun _ hfit => hfit) hacts).wf.toRobdd
  have hd := (htr.correct 40 r t hxor).2.1
  -- an assignment on which the result should be true
  have hvalue := congrFun hd fun v => decide (v < 2)
  rw [denote_of_high_self ⟨hrf.symm, hrt.symm⟩ hhigh (by rw [hlevel]; rfl)] at hvalue
  have hin : ∀ p, p ≠ 1 → p ≠ 2 → c₂.table.Inner p := fun p h₁ h₂ => by
    rw [State.Inner, hfalse, htrue]
    exact ⟨h₁, h₂⟩
  simp only [Prod.mk.injEq] at h3 h7 h9
  have hF : c₂.table.denote 1 = fun _ => false := hfalse ▸ hr.denote_false
  have hT : c₂.table.denote 2 = fun _ => true := htrue ▸ hr.denote_true
  have hd3 : c₂.table.denote 3 = branch 0 (fun _ => false) fun _ => true := by
    rw [hr.denote_inner (hmem 3 (by simp)) (hin 3 (by decide) (by decide)), h3.1, h3.2.1, h3.2.2,
      hF, hT]
  have hd9 : c₂.table.denote 9 =
      branch 1 (fun _ => false) (branch 2 (fun _ => false) fun _ => true) := by
    rw [hr.denote_inner (hmem 9 (by simp)) (hin 9 (by decide) (by decide)), h9.1, h9.2.1, h9.2.2,
      hF, hr.denote_inner (hmem 7 (by simp)) (hin 7 (by decide) (by decide)), h7.1, h7.2.1, h7.2.2,
      hF, hT]
  rw [hd3, hd9] at hvalue
  exact absurd hvalue (by decide)

end Client

end Nanobdd
