import RangeFlow.Proofs.Facts.Exact
import RangeFlow.Proofs.Facts.Join

/-!
# The lattice of regular states

Regular states are ordered by `State.isSubset`, and `State.join` is their least upper bound, so they
form a join-semilattice (`SemilatticeSup RegularState`). `State.compare?` reports how two of them are
related (`compare?_eq_lt_iff`, `Regular.compare?_eq_gt_iff`), `State.widen` is above both of its
arguments (`Regular.isSubset_widen`), and a larger state describes more stores (`Le.describes`).
-/

namespace RangeFlow.State

variable {s t u : State} {σ : Store}

/-! ## Regular states -/

/-- Whether a state is regular can be read off its entries and classes. -/
theorem regular_iff : s.Regular ↔
    (∀ entry ∈ s.values.toList, entry.2.Canonical ∧ entry.2.isTop = false ∧
      entry.2.isBottom = false ∧ entry.2.bits = entry.1.bits) ∧
    (∀ c ∈ s.aliases.classes.toList, ∀ d ∈ s.aliases.classes.toList, ∀ slot ∈ c.toList,
      slot ∈ d → c = d) ∧
    ∀ c ∈ s.aliases.classes.toList, 1 < c.size := by
  constructor
  · intro h
    refine ⟨?_, fun c hc d hd slot mem => ?_,
      fun c hc => h.nontrivial c (Std.ExtTreeSet.mem_toList.1 hc)⟩
    · rintro ⟨slot, i⟩ listed
      have entry := Std.ExtTreeMap.mem_toList_iff_getElem?_eq_some.1 listed
      exact ⟨h.canonical entry, (h.entry entry).2⟩
    · exact h.disjoint c (Std.ExtTreeSet.mem_toList.1 hc) d (Std.ExtTreeSet.mem_toList.1 hd) slot
        (Std.ExtTreeSet.mem_toList.1 mem)
  · rintro ⟨entries, disjoint, nontrivial⟩
    have entries {slot : Slot} {i : Interval} (entry : s.values[slot]? = some i) :=
      entries (slot, i) (Std.ExtTreeMap.mem_toList_iff_getElem?_eq_some.2 entry)
    exact
      { entry := fun entry => ⟨(entries entry).1.normal, (entries entry).2⟩
        valid := fun entry => (entries entry).2.2.2 ▸ (entries entry).1.isValid
        disjoint := fun c hc d hd slot mem => disjoint c (Std.ExtTreeSet.mem_toList.2 hc) d
          (Std.ExtTreeSet.mem_toList.2 hd) slot (Std.ExtTreeSet.mem_toList.2 mem)
        nontrivial := fun c hc => nontrivial c (Std.ExtTreeSet.mem_toList.2 hc) }

instance : Decidable s.Regular := decidable_of_iff _ regular_iff.symm

theorem Regular.join (hs : s.Regular) (ht : t.Regular) : (s.join t).Regular :=
  (hs.obeys_all.join (Discipline.lawful_regular _) ht.obeys_all).regular

theorem Regular.widen (hs : s.Regular) (ht : t.Regular) : (s.widen t).Regular :=
  (hs.obeys_all.widen (Discipline.lawful_regular _) ht.obeys_all).regular

/-! ## The order -/

theorem Regular.isSubset_iff_le (hs : s.Regular) (ht : t.Regular) : s.isSubset t = true ↔ s.Le t :=
  ⟨hs.le_of_isSubset, fun h => h.isSubset hs.disjoint ht.nontrivial⟩

/-- A larger state describes more stores. -/
theorem Le.describes (h : s.Le t) (described : s.Describes σ) : t.Describes σ where
  value valid := Interval.contains_of_isSubset (h.value _) (described.value valid)
  same validX validY same := described.same validX validY (h.same same)

/-- Regular states, which are ordered by inclusion. -/
abbrev RegularState : Type := {s : State // s.Regular}

instance : PartialOrder RegularState where
  le s t := s.1.isSubset t.1
  le_refl s := s.1.isSubset_refl
  le_trans s t u hst htu := (s.2.isSubset_iff_le u.2).2
    (((s.2.isSubset_iff_le t.2).1 hst).trans ((t.2.isSubset_iff_le u.2).1 htu))
  le_antisymm s t hst hts := Subtype.ext (s.2.le_antisymm t.2.toOrderly
    ((s.2.isSubset_iff_le t.2).1 hst) ((t.2.isSubset_iff_le s.2).1 hts))

instance : SemilatticeSup RegularState where
  sup s t := ⟨s.1.join t.1, s.2.join t.2⟩
  le_sup_left s t := (s.2.isSubset_iff_le (s.2.join t.2)).2 s.2.le_join_left
  le_sup_right s t := (t.2.isSubset_iff_le (s.2.join t.2)).2 (s.2.le_join_right t.2.toOrderly)
  sup_le s t u hsu htu := ((s.2.join t.2).isSubset_iff_le u.2).2
    (s.2.join_le ((s.2.isSubset_iff_le u.2).1 hsu)
      ((t.2.isSubset_iff_le u.2).1 htu))

theorem Regular.isSubset_antisymm (hs : s.Regular) (ht : t.Regular) (hst : s.isSubset t)
    (hts : t.isSubset s) : s = t :=
  congrArg Subtype.val (le_antisymm (a := (⟨s, hs⟩ : RegularState)) (b := ⟨t, ht⟩) hst hts)

/-! ## Comparison -/

theorem compare?_eq_eq_iff : s.compare? t = some .eq ↔ s = t := by
  unfold compare?
  split_ifs <;> simp_all

theorem compare?_eq_lt_iff : s.compare? t = some .lt ↔ s.isSubset t ∧ s ≠ t := by
  unfold compare?
  split_ifs <;> simp_all

theorem Regular.compare?_eq_gt_iff (hs : s.Regular) (ht : t.Regular) :
    s.compare? t = some .gt ↔ t.isSubset s ∧ s ≠ t := by
  unfold compare?
  split_ifs with equal smaller larger
  · simp [equal]
  · -- States that are below each other are equal.
    have not_larger : ¬t.isSubset s := fun larger => equal (hs.isSubset_antisymm ht smaller larger)
    simp [not_larger]
  · simp [equal, larger]
  · simp [larger]

theorem compare?_eq_none_iff : s.compare? t = none ↔ ¬s.isSubset t ∧ ¬t.isSubset s := by
  unfold compare?
  split_ifs with equal smaller larger
  · subst equal
    simp [s.isSubset_refl]
  · simp [smaller]
  · simp [larger]
  · simp [smaller, larger]

/-! ## Joins and widenings -/

theorem Regular.isSubset_widen (hs : s.Regular) (ht : t.Regular) :
    s.isSubset (s.widen t) ∧ t.isSubset (s.widen t) :=
  ⟨(hs.isSubset_iff_le (hs.widen ht)).2 hs.le_widen_left,
    (ht.isSubset_iff_le (hs.widen ht)).2 (hs.le_widen_right ht.toOrderly)⟩

/-- Regular states form a join-semilattice under inclusion. Comparison reports the order, a widening is
above both states, and a state describes every store that a smaller one describes. -/
theorem regular_semilattice (hs : s.Regular) (ht : t.Regular) (hu : u.Regular) :
    (s.isSubset s ∧ (s.isSubset t → t.isSubset u → s.isSubset u) ∧
      (s.isSubset t → t.isSubset s → s = t)) ∧
    ((s.compare? t = some .eq ↔ s = t) ∧
      (s.compare? t = some .lt ↔ s.isSubset t ∧ s ≠ t) ∧
      (s.compare? t = some .gt ↔ t.isSubset s ∧ s ≠ t) ∧
      (s.compare? t = none ↔ ¬s.isSubset t ∧ ¬t.isSubset s)) ∧
    ((s.join t).Regular ∧ s.isSubset (s.join t) ∧ t.isSubset (s.join t) ∧
      (s.isSubset u → t.isSubset u → (s.join t).isSubset u)) ∧
    (s.join t = t.join s ∧ (s.join t).join u = s.join (t.join u) ∧ s.join s = s ∧
      (t.isSubset s → s.join t = s)) ∧
    ((s.widen t).Regular ∧ s.isSubset (s.widen t) ∧ t.isSubset (s.widen t)) ∧
    (s.isSubset t → ∀ σ : Store, s.Describes σ → t.Describes σ) := by
  let a : RegularState := ⟨s, hs⟩
  let b : RegularState := ⟨t, ht⟩
  let c : RegularState := ⟨u, hu⟩
  refine ⟨⟨s.isSubset_refl, le_trans (a := a) (b := b) (c := c), hs.isSubset_antisymm ht⟩,
    ⟨compare?_eq_eq_iff, compare?_eq_lt_iff, hs.compare?_eq_gt_iff ht, compare?_eq_none_iff⟩,
    ⟨hs.join ht, le_sup_left (a := a) (b := b), le_sup_right (a := a) (b := b),
      sup_le (a := a) (b := b) (c := c)⟩,
    ⟨congrArg Subtype.val (sup_comm a b), congrArg Subtype.val (sup_assoc a b c),
      congrArg Subtype.val (sup_idem a), fun below => ?_⟩,
    ⟨hs.widen ht, hs.isSubset_widen ht⟩,
    fun below σ => ((hs.isSubset_iff_le ht).1 below).describes⟩
  exact congrArg Subtype.val (sup_eq_left.2 (show b ≤ a from below))

/-- Two bounded slots of three that are known to be equal. -/
def threeEqual : State where
  values := {(⟨"a", 8⟩, .range 8 0 5), (⟨"b", 8⟩, .range 8 1 9)}
  aliases := ⟨{{⟨"a", 8⟩, ⟨"b", 8⟩, ⟨"c", 8⟩}}⟩

/-- Other bounds for one of them, and fewer equalities. -/
def twoEqual : State where
  values := {(⟨"a", 8⟩, .range 8 3 7)}
  aliases := ⟨{{⟨"a", 8⟩, ⟨"c", 8⟩}}⟩

/-- What both states say. -/
def commonFacts : State where
  values := {(⟨"a", 8⟩, .range 8 0 7)}
  aliases := ⟨{{⟨"a", 8⟩, ⟨"c", 8⟩}}⟩

/-- Neither of two states is below the other, their join is the state of what both say, in either
order, and it describes the stores of both. -/
theorem regular_semilattice_unrelated :
    threeEqual.compare? twoEqual = none ∧ threeEqual.join twoEqual = commonFacts ∧
      twoEqual.join threeEqual = commonFacts ∧ commonFacts.join threeEqual = commonFacts ∧
      (∀ σ : Store, threeEqual.Describes σ → commonFacts.Describes σ) ∧
      commonFacts.isSubset (threeEqual.widen twoEqual) := by
  have regular : threeEqual.Regular ∧ twoEqual.Regular ∧ commonFacts.Regular := by decide +kernel
  have joined : threeEqual.join twoEqual = commonFacts := by decide +kernel
  obtain ⟨three, two, common⟩ := regular
  obtain ⟨-, ⟨-, -, -, unrelated⟩, ⟨-, above, -⟩, ⟨comm, -⟩, ⟨wide, left, right⟩, -⟩ :=
    regular_semilattice three two common
  obtain ⟨-, -, -, ⟨-, -, -, absorbs⟩, -, -⟩ := regular_semilattice common three two
  obtain ⟨-, -, -, -, -, stores⟩ := regular_semilattice three common two
  obtain ⟨-, -, ⟨-, -, -, least⟩, -⟩ := regular_semilattice three two wide
  rw [joined] at above comm least
  exact ⟨unrelated.2 (by decide +kernel), joined, comm.symm, absorbs above, stores above,
    least left right⟩

end RangeFlow.State
