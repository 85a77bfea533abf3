import RangeFlow.Facts.Alias
import RangeFlow.Proofs.Order

/-!
# Alias classes as an equivalence

`AliasClasses.Same` is the relation that a set of classes stands for. On disjoint classes it is an
equivalence, `classOf` gives its classes, and every operation has the relation that its name
promises (`same_invalidate`, `same_union`, `same_copy`, `same_intersect`). All of them keep classes
disjoint, and leave no class of fewer than two slots if there was none.
-/

namespace RangeFlow.AliasClasses

variable {a b : AliasClasses} {x y z : Slot} {c d : SlotSet}

/-- No slot is in two classes. -/
def PairwiseDisjoint (a : AliasClasses) : Prop :=
  ∀ c ∈ a.classes, ∀ d ∈ a.classes, ∀ slot ∈ c, slot ∈ d → c = d

/-- Every class has at least two slots. -/
def Nontrivial (a : AliasClasses) : Prop := ∀ c ∈ a.classes, 1 < c.size

/-- Two slots that are equal, or known to hold equal values. -/
def Same (a : AliasClasses) (x y : Slot) : Prop := x = y ∨ ∃ c ∈ a.classes, x ∈ c ∧ y ∈ c

theorem Same.refl (a : AliasClasses) (x : Slot) : a.Same x x := .inl rfl

theorem Same.symm (h : a.Same x y) : a.Same y x := by
  rcases h with rfl | ⟨c, hc, hx, hy⟩
  · exact .refl _ _
  · exact .inr ⟨c, hc, hy, hx⟩

theorem Same.of_mem (hc : c ∈ a.classes) (hx : x ∈ c) (hy : y ∈ c) : a.Same x y :=
  .inr ⟨c, hc, hx, hy⟩

theorem Same.trans (disjoint : a.PairwiseDisjoint) (hxy : a.Same x y) (hyz : a.Same y z) :
    a.Same x z := by
  rcases hxy with rfl | ⟨c, hc, hx, hy⟩
  · exact hyz
  · rcases hyz with rfl | ⟨d, hd, hy', hz⟩
    · exact .of_mem hc hx hy
    · obtain rfl := disjoint c hc d hd y hy hy'
      exact .of_mem hc hx hz

theorem pairwiseDisjoint_empty : empty.PairwiseDisjoint := by
  simp [PairwiseDisjoint, empty]

theorem nontrivial_empty : empty.Nontrivial := by
  simp [Nontrivial, empty]

theorem same_empty : empty.Same x y ↔ x = y := by
  simp [Same, empty]

/-! ## Finding classes -/

theorem find?_eq_none_iff : a.find? x = none ↔ ∀ c ∈ a.classes, x ∉ c := by
  simp [find?, List.find?_eq_none]

theorem find?_mem (h : a.find? x = some c) : c ∈ a.classes ∧ x ∈ c := by
  have mem := List.mem_of_find?_eq_some h
  have holds := List.find?_some h
  exact ⟨Std.ExtTreeSet.mem_toList.1 mem, holds⟩

theorem find?_eq_some_iff (disjoint : a.PairwiseDisjoint) :
    a.find? x = some c ↔ c ∈ a.classes ∧ x ∈ c := by
  refine ⟨find?_mem, fun ⟨hc, hx⟩ => ?_⟩
  cases found : a.find? x with
  | none => exact absurd hx (find?_eq_none_iff.1 found c hc)
  | some d =>
    obtain ⟨hd, hx'⟩ := find?_mem found
    rw [disjoint c hc d hd x hx hx']

theorem classOf_eq_of_mem (disjoint : a.PairwiseDisjoint) (hc : c ∈ a.classes) (hx : x ∈ c) :
    a.classOf x = c := by
  rw [classOf, (find?_eq_some_iff disjoint).2 ⟨hc, hx⟩, Option.getD_some]

theorem mem_classOf (disjoint : a.PairwiseDisjoint) : y ∈ a.classOf x ↔ a.Same x y := by
  cases found : a.find? x with
  | none =>
    have alone := find?_eq_none_iff.1 found
    rw [classOf, found, Option.getD_none]
    constructor
    · intro mem
      left
      simpa using mem
    · rintro (rfl | ⟨c, hc, hx, -⟩)
      · simp
      · exact absurd hx (alone c hc)
  | some c =>
    obtain ⟨hc, hx⟩ := find?_mem found
    rw [classOf_eq_of_mem disjoint hc hx]
    constructor
    · exact fun hy => .of_mem hc hx hy
    · rintro (rfl | ⟨d, hd, hx', hy⟩)
      · exact hx
      · rwa [disjoint c hc d hd x hx hx']

/-- Slots that are found to be equal share a class, whether or not classes are disjoint. -/
theorem same_of_areAliased (h : a.areAliased x y) : a.Same x y := by
  simp only [areAliased, Bool.or_eq_true, decide_eq_true_eq, Option.any_eq_true] at h
  rcases h with rfl | ⟨c, found, hy⟩
  · exact .refl a x
  · obtain ⟨hc, hx⟩ := find?_mem found
    exact .of_mem hc hx hy

theorem areAliased_iff (disjoint : a.PairwiseDisjoint) :
    a.areAliased x y = true ↔ a.Same x y := by
  refine ⟨same_of_areAliased, ?_⟩
  simp only [areAliased, Bool.or_eq_true, decide_eq_true_eq, Option.any_eq_true]
  rintro (rfl | ⟨c, hc, hx, hy⟩)
  · exact .inl rfl
  · exact .inr ⟨c, (find?_eq_some_iff disjoint).2 ⟨hc, hx⟩, hy⟩

/-! ## Sizes -/

theorem card_toFinset_toList (c : SlotSet) : c.toList.toFinset.card = c.size := by
  rw [List.toFinset_card_of_nodup (nodup_toList c), Std.ExtTreeSet.length_toList]

theorem one_lt_size_iff : 1 < c.size ↔ ∃ x ∈ c, ∃ y ∈ c, x ≠ y := by
  rw [← card_toFinset_toList, Finset.one_lt_card]
  simp

/-! ## Overwriting a slot -/

theorem mem_classes_invalidate (h : a.find? z = some c) :
    d ∈ (a.invalidate z).classes ↔
      d ≠ c ∧ d ∈ a.classes ∨ d = c.erase z ∧ 1 < (c.erase z).size := by
  rw [invalidate, h]
  dsimp only
  split_ifs with several
  · simp only [mem_insert_iff, mem_erase_iff, several, and_true, or_comm]
  · simp only [mem_erase_iff, several, and_false, or_false]

theorem pairwiseDisjoint_invalidate (disjoint : a.PairwiseDisjoint) (z : Slot) :
    (a.invalidate z).PairwiseDisjoint := by
  cases found : a.find? z with
  | none => rwa [invalidate, found]
  | some c =>
    have hc := (find?_mem found).1
    intro d hd e he slot hd' he'
    rw [mem_classes_invalidate found] at hd he
    rcases hd with ⟨dne, hd⟩ | ⟨rfl, -⟩ <;> rcases he with ⟨ene, he⟩ | ⟨rfl, -⟩
    · exact disjoint d hd e he slot hd' he'
    · exact absurd (disjoint d hd c hc slot hd' (Std.ExtTreeSet.mem_of_mem_erase he')) dne
    · exact absurd (disjoint e he c hc slot he' (Std.ExtTreeSet.mem_of_mem_erase hd')) ene
    · rfl

theorem nontrivial_invalidate (nontrivial : a.Nontrivial) (z : Slot) :
    (a.invalidate z).Nontrivial := by
  cases found : a.find? z with
  | none => rwa [invalidate, found]
  | some c =>
    intro d hd
    rw [mem_classes_invalidate found] at hd
    rcases hd with ⟨-, hd⟩ | ⟨rfl, several⟩
    · exact nontrivial d hd
    · exact several

/-- An overwritten slot is known to equal no other. -/
theorem same_invalidate (disjoint : a.PairwiseDisjoint) :
    (a.invalidate z).Same x y ↔ x = y ∨ a.Same x y ∧ x ≠ z ∧ y ≠ z := by
  cases found : a.find? z with
  | none =>
    have alone := find?_eq_none_iff.1 found
    rw [invalidate, found]
    constructor
    · rintro (rfl | ⟨c, hc, hx, hy⟩)
      · exact .inl rfl
      · refine .inr ⟨.of_mem hc hx hy, ?_, ?_⟩
        · rintro rfl
          exact alone c hc hx
        · rintro rfl
          exact alone c hc hy
    · rintro (rfl | ⟨same, -⟩)
      · exact .refl _ _
      · exact same
  | some c =>
    obtain ⟨hc, hz⟩ := find?_mem found
    constructor
    · rintro (rfl | ⟨d, hd, hx, hy⟩)
      · exact .inl rfl
      · right
        rw [mem_classes_invalidate found] at hd
        rcases hd with ⟨dne, hd⟩ | ⟨rfl, -⟩
        · refine ⟨.of_mem hd hx hy, ?_, ?_⟩
          · rintro rfl
            exact dne (disjoint d hd c hc _ hx hz)
          · rintro rfl
            exact dne (disjoint d hd c hc _ hy hz)
        · rw [mem_erase_iff] at hx hy
          exact ⟨.of_mem hc hx.2 hy.2, hx.1, hy.1⟩
    · rintro (rfl | ⟨rfl | ⟨d, hd, hx, hy⟩, xne, yne⟩)
      · exact .refl _ _
      · exact .refl _ _
      · by_cases equal : x = y
        · exact .inl equal
        · right
          by_cases hdc : d = c
          · subst hdc
            have hx' : x ∈ d.erase z := mem_erase_iff.2 ⟨xne, hx⟩
            have hy' : y ∈ d.erase z := mem_erase_iff.2 ⟨yne, hy⟩
            refine ⟨d.erase z, (mem_classes_invalidate found).2 (.inr ⟨rfl, ?_⟩), hx', hy'⟩
            exact one_lt_size_iff.2 ⟨x, hx', y, hy', equal⟩
          · exact ⟨d, (mem_classes_invalidate found).2 (.inl ⟨hdc, hd⟩), hx, hy⟩

/-! ## Joining classes -/

theorem mem_classes_union (apart : a.areAliased x y = false) :
    d ∈ (a.union x y).classes ↔
      d = a.classOf x ∪ a.classOf y ∨ d ≠ a.classOf y ∧ d ≠ a.classOf x ∧ d ∈ a.classes := by
  rw [union, apart]
  simp only [Bool.false_eq_true, ↓reduceIte, mem_insert_iff, mem_erase_iff]

/-- A class that meets the class of a slot is the class of that slot. -/
theorem eq_classOf_of_same (disjoint : a.PairwiseDisjoint) (hd : d ∈ a.classes) (hz : z ∈ d)
    (same : a.Same x z) : d = a.classOf x := by
  rcases same with rfl | ⟨c, hc, hx, hz'⟩
  · exact (classOf_eq_of_mem disjoint hd hz).symm
  · obtain rfl := disjoint d hd c hc z hz hz'
    exact (classOf_eq_of_mem disjoint hd hx).symm

theorem pairwiseDisjoint_union (disjoint : a.PairwiseDisjoint) (x y : Slot) :
    (a.union x y).PairwiseDisjoint := by
  cases apart : a.areAliased x y with
  | true => rwa [union, if_pos apart]
  | false =>
    -- No old class that was kept meets the new one.
    have kept {d : SlotSet} {slot : Slot} (hd : d ∈ a.classes) (dy : d ≠ a.classOf y)
        (dx : d ≠ a.classOf x) (mem : slot ∈ d) : slot ∉ a.classOf x ∪ a.classOf y := by
      intro h
      rcases Std.ExtTreeSet.mem_union_iff.1 h with h | h
      · exact dx (eq_classOf_of_same disjoint hd mem ((mem_classOf disjoint).1 h))
      · exact dy (eq_classOf_of_same disjoint hd mem ((mem_classOf disjoint).1 h))
    intro d hd e he slot hd' he'
    rw [mem_classes_union apart] at hd he
    rcases hd with rfl | ⟨dy, dx, hd⟩ <;> rcases he with rfl | ⟨ey, ex, he⟩
    · rfl
    · exact absurd hd' (kept he ey ex he')
    · exact absurd he' (kept hd dy dx hd')
    · exact disjoint d hd e he slot hd' he'

theorem nontrivial_union (disjoint : a.PairwiseDisjoint) (nontrivial : a.Nontrivial)
    (x y : Slot) : (a.union x y).Nontrivial := by
  cases apart : a.areAliased x y with
  | true => rwa [union, if_pos apart]
  | false =>
    intro d hd
    rw [mem_classes_union apart] at hd
    rcases hd with rfl | ⟨-, -, hd⟩
    · have hx : x ∈ a.classOf x ∪ a.classOf y :=
        Std.ExtTreeSet.mem_union_iff.2 (.inl ((mem_classOf disjoint).2 (.refl _ _)))
      have hy : y ∈ a.classOf x ∪ a.classOf y :=
        Std.ExtTreeSet.mem_union_iff.2 (.inr ((mem_classOf disjoint).2 (.refl _ _)))
      refine one_lt_size_iff.2 ⟨x, hx, y, hy, ?_⟩
      rintro rfl
      simp [areAliased] at apart
    · exact nontrivial d hd

/-- Joining relates what was related, and the classes of the two slots. -/
theorem same_union (disjoint : a.PairwiseDisjoint) {u v : Slot} :
    (a.union x y).Same u v ↔
      a.Same u v ∨ a.Same x u ∧ a.Same y v ∨ a.Same y u ∧ a.Same x v := by
  cases apart : a.areAliased x y with
  | true =>
    have known := (areAliased_iff disjoint).1 apart
    rw [union, if_pos apart]
    constructor
    · exact .inl
    · rintro (h | ⟨hu, hv⟩ | ⟨hu, hv⟩)
      · exact h
      · exact hu.symm.trans disjoint (known.trans disjoint hv)
      · exact hu.symm.trans disjoint (known.symm.trans disjoint hv)
  | false =>
    have joined {s : Slot} : s ∈ a.classOf x ∪ a.classOf y ↔ a.Same x s ∨ a.Same y s := by
      rw [Std.ExtTreeSet.mem_union_iff, mem_classOf disjoint, mem_classOf disjoint]
    constructor
    · rintro (rfl | ⟨d, hd, hu, hv⟩)
      · exact .inl (.refl _ _)
      · rw [mem_classes_union apart] at hd
        rcases hd with rfl | ⟨-, -, hd⟩
        · rcases joined.1 hu with hu | hu <;> rcases joined.1 hv with hv | hv
          · exact .inl (hu.symm.trans disjoint hv)
          · exact .inr (.inl ⟨hu, hv⟩)
          · exact .inr (.inr ⟨hu, hv⟩)
          · exact .inl (hu.symm.trans disjoint hv)
        · exact .inl (.of_mem hd hu hv)
    · have both {u v : Slot} (hu : a.Same x u ∨ a.Same y u) (hv : a.Same x v ∨ a.Same y v) :
          (a.union x y).Same u v :=
        .of_mem ((mem_classes_union apart).2 (.inl rfl)) (joined.2 hu) (joined.2 hv)
      rintro ((rfl | ⟨d, hd, hu, hv⟩) | ⟨hu, hv⟩ | ⟨hu, hv⟩)
      · exact .refl _ _
      · by_cases dx : d = a.classOf x
        · subst dx
          exact both (.inl ((mem_classOf disjoint).1 hu)) (.inl ((mem_classOf disjoint).1 hv))
        · by_cases dy : d = a.classOf y
          · subst dy
            exact both (.inr ((mem_classOf disjoint).1 hu)) (.inr ((mem_classOf disjoint).1 hv))
          · exact .of_mem ((mem_classes_union apart).2 (.inr ⟨dy, dx, hd⟩)) hu hv
      · exact both (.inl hu) (.inr hv)
      · exact both (.inr hu) (.inl hv)

/-! ## Copying -/

theorem pairwiseDisjoint_copy (disjoint : a.PairwiseDisjoint) (dst src : Slot) :
    (a.copy dst src).PairwiseDisjoint := by
  unfold copy
  split_ifs
  · exact disjoint
  · exact pairwiseDisjoint_union (pairwiseDisjoint_invalidate disjoint dst) dst src

theorem nontrivial_copy (disjoint : a.PairwiseDisjoint) (nontrivial : a.Nontrivial)
    (dst src : Slot) : (a.copy dst src).Nontrivial := by
  unfold copy
  split_ifs
  · exact nontrivial
  · exact nontrivial_union (pairwiseDisjoint_invalidate disjoint dst)
      (nontrivial_invalidate nontrivial dst) dst src

/-- What is related after a copy to another slot: what was related without `dst`, and `dst` with the
class of `src`. -/
theorem same_copy (disjoint : a.PairwiseDisjoint) {dst src : Slot} (other : dst ≠ src)
    {u v : Slot} :
    (a.copy dst src).Same u v ↔
      u = v ∨ (a.Same u v ∧ u ≠ dst ∧ v ≠ dst) ∨
        (u = dst ∧ a.Same src v ∧ v ≠ dst) ∨ (v = dst ∧ a.Same src u ∧ u ≠ dst) := by
  have first {s : Slot} : (a.invalidate dst).Same dst s ↔ s = dst := by
    rw [same_invalidate disjoint]
    simp [eq_comm]
  have second {s : Slot} : (a.invalidate dst).Same src s ↔ a.Same src s ∧ s ≠ dst := by
    rw [same_invalidate disjoint]
    constructor
    · rintro (rfl | ⟨h, -, hs⟩)
      · exact ⟨.refl _ _, other.symm⟩
      · exact ⟨h, hs⟩
    · exact fun ⟨h, hs⟩ => .inr ⟨h, other.symm, hs⟩
  rw [copy, if_neg other, same_union (pairwiseDisjoint_invalidate disjoint dst), first, first,
    second, second, same_invalidate disjoint]
  tauto

/-! ## Merging -/

theorem mem_classes_intersect :
    c ∈ (a.intersect b).classes ↔
      ∃ d ∈ a.classes, ∃ e ∈ b.classes, c = d ∩ e ∧ 1 < c.size := by
  simp only [intersect, mem_ofList_iff, List.mem_filter, List.mem_flatMap, List.mem_map,
    Std.ExtTreeSet.mem_toList, decide_eq_true_eq]
  constructor
  · rintro ⟨⟨d, hd, e, he, rfl⟩, several⟩
    exact ⟨d, hd, e, he, rfl, several⟩
  · rintro ⟨d, hd, e, he, rfl, several⟩
    exact ⟨⟨d, hd, e, he, rfl⟩, several⟩

theorem nontrivial_intersect (a b : AliasClasses) : (a.intersect b).Nontrivial := by
  intro c hc
  obtain ⟨d, -, e, -, -, several⟩ := mem_classes_intersect.1 hc
  exact several

theorem pairwiseDisjoint_intersect (ha : a.PairwiseDisjoint) (hb : b.PairwiseDisjoint) :
    (a.intersect b).PairwiseDisjoint := by
  intro c hc c' hc' slot h h'
  obtain ⟨d, hd, e, he, rfl, -⟩ := mem_classes_intersect.1 hc
  obtain ⟨d', hd', e', he', rfl, -⟩ := mem_classes_intersect.1 hc'
  rw [Std.ExtTreeSet.mem_inter_iff] at h h'
  rw [ha d hd d' hd' slot h.1 h'.1, hb e he e' he' slot h.2 h'.2]

/-- Merging relates what both relate. -/
theorem same_intersect : (a.intersect b).Same x y ↔ a.Same x y ∧ b.Same x y := by
  constructor
  · rintro (rfl | ⟨c, hc, hx, hy⟩)
    · exact ⟨.refl _ _, .refl _ _⟩
    · obtain ⟨d, hd, e, he, rfl, -⟩ := mem_classes_intersect.1 hc
      rw [Std.ExtTreeSet.mem_inter_iff] at hx hy
      exact ⟨.of_mem hd hx.1 hy.1, .of_mem he hx.2 hy.2⟩
  · rintro ⟨rfl | ⟨d, hd, hx, hy⟩, hb⟩
    · exact .refl _ _
    · rcases hb with rfl | ⟨e, he, hx', hy'⟩
      · exact .refl _ _
      · by_cases equal : x = y
        · exact .inl equal
        · have hx := Std.ExtTreeSet.mem_inter_iff.2 ⟨hx, hx'⟩
          have hy := Std.ExtTreeSet.mem_inter_iff.2 ⟨hy, hy'⟩
          have several := one_lt_size_iff.2 ⟨x, hx, y, hy, equal⟩
          exact .of_mem (mem_classes_intersect.2 ⟨d, hd, e, he, rfl, several⟩) hx hy

/-! ## Equality -/

/-- A class of several slots is the class of each of them in any classes with the same relation. -/
theorem mem_classes_of_same_iff (ha : a.PairwiseDisjoint) (hb : b.PairwiseDisjoint)
    (nontrivial : a.Nontrivial) (h : ∀ x y, a.Same x y ↔ b.Same x y) (hc : c ∈ a.classes) :
    c ∈ b.classes := by
  obtain ⟨x, hx, y, hy, other⟩ := one_lt_size_iff.1 (nontrivial c hc)
  rcases (h x y).1 (.of_mem hc hx hy) with equal | ⟨d, hd, hx', -⟩
  · exact absurd equal other
  · have same : c = d := by
      apply Std.ExtTreeSet.ext_mem
      intro k
      rw [← classOf_eq_of_mem ha hc hx, ← classOf_eq_of_mem hb hd hx', mem_classOf ha,
        mem_classOf hb, h]
    rwa [same]

/-- Classes that stand for the same relation are equal. -/
theorem eq_of_same_iff (ha : a.PairwiseDisjoint) (hb : b.PairwiseDisjoint)
    (nontrivialA : a.Nontrivial) (nontrivialB : b.Nontrivial)
    (h : ∀ x y, a.Same x y ↔ b.Same x y) : a = b := by
  have classes : a.classes = b.classes := by
    apply Std.ExtTreeSet.ext_mem
    intro c
    exact ⟨mem_classes_of_same_iff ha hb nontrivialA h,
      mem_classes_of_same_iff hb ha nontrivialB fun x y => (h x y).symm⟩
  cases a
  cases b
  exact congrArg _ classes

end RangeFlow.AliasClasses
