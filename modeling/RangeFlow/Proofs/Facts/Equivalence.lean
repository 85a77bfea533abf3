import RangeFlow.Proofs.Facts.Inclusion

/-!
# Alias classes as representations of equivalences

The operations reach only disjoint classes of two or more slots from the empty ones
(`Reached.partition`). On such classes `areAliased` decides an equivalence whose classes `classOf`
gives, and each operation changes it as it promises: joining generates an equivalence
(`Partition.areAliased_union`), overwriting separates one slot (`Partition.areAliased_invalidate`),
copying moves one slot into another class (`Partition.areAliased_copy`), and merging keeps what both
sides relate (`Partition.areAliased_intersect`). Inclusion of the relations is `refines`, and two values
with one relation are equal.

Main statement: `represent_equivalence`.
-/

namespace RangeFlow.AliasClasses

variable {a b : AliasClasses} {x y : Slot}

/-! ## Classes that the operations reach -/

/-- Disjoint classes of two or more slots each. -/
structure Partition (a : AliasClasses) : Prop where
  disjoint : a.PairwiseDisjoint
  nontrivial : a.Nontrivial

/-- What the operations make of the empty classes. -/
inductive Reached : AliasClasses → Prop where
  | empty : Reached empty
  | copy {a : AliasClasses} (dst src : Slot) : Reached a → Reached (a.copy dst src)
  | union {a : AliasClasses} (lhs rhs : Slot) : Reached a → Reached (a.union lhs rhs)
  | invalidate {a : AliasClasses} (slot : Slot) : Reached a → Reached (a.invalidate slot)
  | intersect {a b : AliasClasses} : Reached a → Reached b → Reached (a.intersect b)

theorem partition_empty : empty.Partition := ⟨pairwiseDisjoint_empty, nontrivial_empty⟩

theorem Partition.invalidate (ha : a.Partition) (slot : Slot) : (a.invalidate slot).Partition :=
  ⟨pairwiseDisjoint_invalidate ha.disjoint slot, nontrivial_invalidate ha.nontrivial slot⟩

theorem Partition.union (ha : a.Partition) (lhs rhs : Slot) : (a.union lhs rhs).Partition :=
  ⟨pairwiseDisjoint_union ha.disjoint lhs rhs, nontrivial_union ha.disjoint ha.nontrivial lhs rhs⟩

theorem Partition.copy (ha : a.Partition) (dst src : Slot) : (a.copy dst src).Partition :=
  ⟨pairwiseDisjoint_copy ha.disjoint dst src, nontrivial_copy ha.disjoint ha.nontrivial dst src⟩

theorem Partition.intersect (ha : a.Partition) (hb : b.Partition) : (a.intersect b).Partition :=
  ⟨pairwiseDisjoint_intersect ha.disjoint hb.disjoint, nontrivial_intersect a b⟩

theorem Reached.partition (ha : a.Reached) : a.Partition := by
  induction ha with
  | empty => exact partition_empty
  | copy dst src _ ih => exact ih.copy dst src
  | union lhs rhs _ ih => exact ih.union lhs rhs
  | invalidate slot _ ih => exact ih.invalidate slot
  | intersect _ _ iha ihb => exact iha.intersect ihb

/-! ## The relation and what the operations make of it -/

namespace Partition

theorem equivalence (ha : a.Partition) : Equivalence fun x y => a.areAliased x y = true := by
  simp only [areAliased_iff ha.disjoint]
  exact ⟨.refl a, .symm, .trans ha.disjoint⟩

theorem mem_classOf_iff (ha : a.Partition) : y ∈ a.classOf x ↔ a.areAliased x y := by
  rw [mem_classOf ha.disjoint, areAliased_iff ha.disjoint]

theorem areAliased_invalidate (ha : a.Partition) (slot : Slot) :
    (a.invalidate slot).areAliased x y ↔ x = y ∨ a.areAliased x y ∧ x ≠ slot ∧ y ≠ slot := by
  rw [areAliased_iff (ha.invalidate slot).disjoint, areAliased_iff ha.disjoint,
    same_invalidate ha.disjoint]

/-- Joining two slots gives the smallest equivalence that relates them and what was related. -/
theorem areAliased_union (ha : a.Partition) (lhs rhs : Slot) :
    (a.union lhs rhs).areAliased x y ↔
      Relation.EqvGen (fun u v => a.areAliased u v ∨ u = lhs ∧ v = rhs) x y := by
  have joined := (ha.union lhs rhs).equivalence
  have disjoint := ha.disjoint
  constructor
  · intro related
    have old {u v : Slot} (same : a.Same u v) :
        Relation.EqvGen (fun u v => a.areAliased u v ∨ u = lhs ∧ v = rhs) u v :=
      .rel u v (.inl ((areAliased_iff disjoint).2 same))
    have new : Relation.EqvGen (fun u v => a.areAliased u v ∨ u = lhs ∧ v = rhs) lhs rhs :=
      .rel lhs rhs (.inr ⟨rfl, rfl⟩)
    rw [areAliased_iff (ha.union lhs rhs).disjoint, same_union disjoint] at related
    rcases related with same | ⟨hx, hy⟩ | ⟨hx, hy⟩
    · exact old same
    · exact .trans x lhs y (old hx.symm) (.trans lhs rhs y new (old hy))
    · exact .trans x rhs y (old hx.symm) (.trans rhs lhs y (.symm lhs rhs new) (old hy))
  · intro generated
    induction generated with
    | rel u v related =>
      rw [areAliased_iff (ha.union lhs rhs).disjoint, same_union disjoint]
      rcases related with known | ⟨rfl, rfl⟩
      · exact .inl ((areAliased_iff disjoint).1 known)
      · exact .inr (.inl ⟨.refl a u, .refl a v⟩)
    | refl u => exact joined.refl u
    | symm u v _ ih => exact joined.symm ih
    | trans u v w _ _ ihu ihv => exact joined.trans ihu ihv

theorem areAliased_copy (ha : a.Partition) {dst src : Slot} (other : dst ≠ src) :
    (a.copy dst src).areAliased x y ↔
      x = y ∨ (a.areAliased x y ∧ x ≠ dst ∧ y ≠ dst) ∨
        (x = dst ∧ a.areAliased src y ∧ y ≠ dst) ∨ (y = dst ∧ a.areAliased src x ∧ x ≠ dst) := by
  simp only [areAliased_iff (ha.copy dst src).disjoint, areAliased_iff ha.disjoint,
    same_copy ha.disjoint other]

theorem areAliased_intersect (ha : a.Partition) (hb : b.Partition) :
    (a.intersect b).areAliased x y ↔ a.areAliased x y ∧ b.areAliased x y := by
  rw [areAliased_iff (ha.intersect hb).disjoint, areAliased_iff ha.disjoint,
    areAliased_iff hb.disjoint, same_intersect]

theorem refines_iff_areAliased (ha : a.Partition) (hb : b.Partition) :
    a.refines b ↔ ∀ x y, b.areAliased x y → a.areAliased x y := by
  simp only [areAliased_iff ha.disjoint, areAliased_iff hb.disjoint]
  exact ⟨fun h x y => same_of_refines h, refines_of_same ha.disjoint hb.nontrivial⟩

theorem eq_of_areAliased_iff (ha : a.Partition) (hb : b.Partition)
    (h : ∀ x y, a.areAliased x y ↔ b.areAliased x y) : a = b := by
  simp only [areAliased_iff ha.disjoint, areAliased_iff hb.disjoint] at h
  exact eq_of_same_iff ha.disjoint hb.disjoint ha.nontrivial hb.nontrivial h

end Partition

/-! ## Representation -/

/-- Reached classes are disjoint, have two or more slots, and stand for an equivalence whose classes are
those of the slots. Joining gives the smallest equivalence with one more pair, overwriting takes a slot
out, copying moves a slot into the class of another, merging gives the common pairs, and `refines`
compares the relations. Two reached values with one relation are equal. -/
theorem represent_equivalence (ha : a.Reached) :
    a.PairwiseDisjoint ∧ a.Nontrivial ∧
      (Equivalence fun x y => a.areAliased x y = true) ∧
      (∀ x y, y ∈ a.classOf x ↔ a.areAliased x y) ∧
      (∀ lhs rhs x y, (a.union lhs rhs).areAliased x y ↔
        Relation.EqvGen (fun u v => a.areAliased u v ∨ u = lhs ∧ v = rhs) x y) ∧
      (∀ slot x y, (a.invalidate slot).areAliased x y ↔
        x = y ∨ a.areAliased x y ∧ x ≠ slot ∧ y ≠ slot) ∧
      (∀ dst src, dst ≠ src →
        (∀ x y, x ≠ dst → y ≠ dst → ((a.copy dst src).areAliased x y ↔ a.areAliased x y)) ∧
        ∀ y, (a.copy dst src).areAliased dst y ↔ y = dst ∨ y ≠ dst ∧ a.areAliased src y) ∧
      ∀ b, b.Reached →
        (∀ x y, (a.intersect b).areAliased x y ↔ a.areAliased x y ∧ b.areAliased x y) ∧
        (a.refines b ↔ ∀ x y, b.areAliased x y → a.areAliased x y) ∧
        ((∀ x y, a.areAliased x y ↔ b.areAliased x y) → a = b) := by
  have ha := ha.partition
  refine ⟨ha.disjoint, ha.nontrivial, ha.equivalence, fun x y => ha.mem_classOf_iff,
    fun lhs rhs x y => ha.areAliased_union lhs rhs, fun slot x y => ha.areAliased_invalidate slot,
    fun dst src other => ⟨fun x y hx hy => ?_, fun y => ?_⟩, fun b hb => ?_⟩
  · rw [ha.areAliased_copy other]
    have reflexive : x = y → a.areAliased x y := fun e => e ▸ ha.equivalence.refl x
    tauto
  · rw [ha.areAliased_copy other, eq_comm]
    tauto
  · have hb := hb.partition
    exact ⟨fun x y => ha.areAliased_intersect hb, ha.refines_iff_areAliased hb,
      ha.eq_of_areAliased_iff hb⟩

section Merge

private abbrev word (name : String) : Slot := ⟨name, 32⟩

/-- One class of three slots, put together by copies. -/
def threeCopies : AliasClasses := (empty.copy (word "j") (word "i")).copy (word "k") (word "i")

/-- Two classes of two slots. -/
def twoPairs : AliasClasses := (empty.copy (word "j") (word "i")).copy (word "l") (word "k")

/-- A class of three slots from which one is moved away. -/
def oneMoved : AliasClasses := threeCopies.copy (word "j") (word "l")

/-- Merging keeps the one pair that both sides know, and moving a slot leaves the rest of its class
together. -/
theorem represent_equivalence_merge :
    threeCopies.Reached ∧ twoPairs.Reached ∧
      (threeCopies.intersect twoPairs).areAliased (word "i") (word "j") ∧
      ¬(threeCopies.intersect twoPairs).areAliased (word "i") (word "k") ∧
      ¬(threeCopies.intersect twoPairs).areAliased (word "k") (word "l") ∧
      threeCopies.refines (threeCopies.intersect twoPairs) ∧
      word "j" ≠ word "l" ∧ oneMoved.areAliased (word "i") (word "k") ∧
      oneMoved.areAliased (word "j") (word "l") ∧ ¬oneMoved.areAliased (word "j") (word "i") := by
  have three : threeCopies.Reached := (Reached.empty.copy _ _).copy _ _
  have two : twoPairs.Reached := (Reached.empty.copy _ _).copy _ _
  have other : word "j" ≠ word "l" := by decide
  obtain ⟨-, -, -, -, -, -, copies, merges⟩ := represent_equivalence three
  obtain ⟨kept, moved⟩ := copies _ _ other
  obtain ⟨merged, -, -⟩ := merges twoPairs two
  obtain ⟨-, coarser, -⟩ := merges _ (three.intersect two)
  refine ⟨three, two, (merged _ _).2 (by decide +kernel), fun h => ?_, fun h => ?_,
    coarser.2 fun x y h => ((merged x y).1 h).1, other,
    (kept _ _ (by decide) (by decide)).2 (by decide +kernel), (moved _).2 (by decide +kernel),
    fun h => ?_⟩
  · exact absurd ((merged _ _).1 h).2 (by decide +kernel)
  · exact absurd ((merged _ _).1 h).1 (by decide +kernel)
  · exact absurd ((moved _).1 h) (by decide +kernel)

end Merge

end RangeFlow.AliasClasses
