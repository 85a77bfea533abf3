import RangeFlow.Proofs.Interval.Hull

/-!
# The best narrowing

`a.refine c b` is the smallest interval of the values of `a` that compare as `c` with some value of `b`
(`isHull_refine`). These values are `a.matching c b`, and they fill an interval unless `c` asks for
inequality (`contains_refine_iff`).

The values of `b` that compare with some value of `a` are the same before and after `a` is narrowed
(`matching_swap_refine`), because a value that is left out compares with none of them. So the two sides
of a comparison can be narrowed one after the other.

Main statement: `refine_best`.
-/

namespace RangeFlow.Interval

variable {a b i j : Interval} {values : Set Int}

/-! ## Smallest intervals -/

/-- There is one smallest interval of a width. -/
theorem IsHull.unique (hi : i.IsHull values) (hj : j.IsHull values) (width : i.bits = j.bits) :
    i = j := by
  refine hi.canonical.normal.ext hj.canonical.normal width fun x => ⟨?_, ?_⟩
  · exact contains_of_isSubset (hi.least j width.symm hj.covers)
  · exact contains_of_isSubset (hj.least i width hi.covers)

/-- The smallest interval of no integers is empty, and of any others it is not. -/
theorem IsHull.eq_bottom_iff (h : i.IsHull values) : i = bottom i.bits ↔ values = ∅ := by
  constructor
  · intro empty
    refine Set.eq_empty_of_forall_notMem fun x hx => ?_
    have held := h.covers x hx
    rw [empty, contains_bottom] at held
    exact Bool.false_ne_true held
  · rintro rfl
    have below : i.isSubset (bottom i.bits) := h.least _ rfl fun x hx => hx.elim
    refine h.canonical.normal.ext trivial rfl fun x => ⟨contains_of_isSubset below, fun held => ?_⟩
    rw [contains_bottom] at held
    exact absurd held Bool.false_ne_true

/-! ## Values that compare with some value -/

/-- The values of `a` that compare as `c` with some value of `b`. -/
def matching (a : Interval) (c : Comparison) (b : Interval) : Set Int :=
  {x | a.contains x ∧ ∃ y, b.contains y ∧ c.holds x y}

theorem matching_subset_refine (ha : a.Canonical) (c : Comparison) {x : Int}
    (hx : x ∈ a.matching c b) : (a.refine c b).contains x := by
  obtain ⟨hx, y, hy, holds⟩ := hx
  exact contains_refine hx hy (ha.holds hx) holds

theorem isHull_refine (ha : a.Canonical) (hb : b.Canonical) (same : a.bits = b.bits)
    (c : Comparison) : (a.refine c b).IsHull (a.matching c b) :=
  .of_endsIn (canonical_refine ha c b) (fun _ hx => matching_subset_refine ha c hx) (isSubset_refl _)
    (endsIn_refine ha hb same c)

theorem contains_refine_iff (ha : a.Canonical) (hb : b.Canonical) (same : a.bits = b.bits)
    {c : Comparison} (ordered : c ≠ .ne) (x : Int) :
    (a.refine c b).contains x ↔ x ∈ a.matching c b :=
  ⟨exists_holds_of_contains_refine hb.normal same ordered, matching_subset_refine ha c⟩

/-- Narrowing one side takes no partner from a value of the other side. -/
theorem matching_swap_refine (ha : a.Canonical) (b : Interval) (c : Comparison) :
    b.matching c.swap (a.refine c b) = b.matching c.swap a := by
  ext y
  constructor
  · rintro ⟨hy, x, hx, holds⟩
    exact ⟨hy, x, contains_of_isSubset (refine_isSubset ha.normal c b) hx, holds⟩
  · rintro ⟨hy, x, hx, holds⟩
    refine ⟨hy, x, matching_subset_refine ha c ⟨hx, y, hy, ?_⟩, holds⟩
    rwa [Comparison.holds_swap] at holds

/-- Narrowing gives the smallest interval of the values that compare with some value of the other
interval, which is empty exactly if there are none, and for all comparisons but inequality it holds
nothing else. Narrowing the second interval by the narrowed first one is narrowing it by the first. -/
theorem refine_best (ha : a.Canonical) (hb : b.Canonical) (same : a.bits = b.bits)
    (c : Comparison) :
    (a.refine c b).IsHullOf a.bits (a.matching c b) ∧
      (a.refine c b = bottom a.bits ↔ a.matching c b = ∅) ∧
      (c ≠ .ne → ∀ x, (a.refine c b).contains x ↔ x ∈ a.matching c b) ∧
      b.refine c.swap (a.refine c b) = b.refine c.swap a := by
  have hull := isHull_refine ha hb same c
  have narrowed := isHull_refine hb (canonical_refine ha c b) (by rw [bits_refine, same]) c.swap
  rw [matching_swap_refine ha] at narrowed
  refine ⟨⟨bits_refine a c b, hull⟩, ?_, contains_refine_iff ha hb same, ?_⟩
  · simpa only [bits_refine] using hull.eq_bottom_iff
  · exact narrowed.unique (isHull_refine hb ha same.symm c.swap) (by simp only [bits_refine])

/-- A single value at the end of the width: nothing is below it, and inequality moves one bound. -/
theorem refine_best_least :
    (between 8 (-128) 5).Canonical ∧ (constant 8 (-128)).Canonical ∧
      (between 8 (-128) 5).refine .ne (constant 8 (-128)) = range 8 (-127) 5 ∧
      ((between 8 (-128) 5).refine .ne (constant 8 (-128))).IsHullOf 8
        ((between 8 (-128) 5).matching .ne (constant 8 (-128))) ∧
      (between 8 (-128) 5).refine .lt (constant 8 (-128)) = bottom 8 ∧
      (between 8 (-128) 5).matching .lt (constant 8 (-128)) = ∅ ∧
      (constant 8 (-128)).refine .ne ((between 8 (-128) 5).refine .ne (constant 8 (-128))) =
        (constant 8 (-128)).refine .ne (between 8 (-128) 5) := by
  have left : (between 8 (-128) 5).Canonical := canonical_between rfl _ _
  have right : (constant 8 (-128)).Canonical := canonical_constant rfl _
  obtain ⟨hull, -, -, sequential⟩ := refine_best left right (by decide) .ne
  obtain ⟨-, empty, -, -⟩ := refine_best left right (by decide) .lt
  exact ⟨left, right, by decide, hull, by decide, empty.1 (by decide), sequential⟩

end RangeFlow.Interval
