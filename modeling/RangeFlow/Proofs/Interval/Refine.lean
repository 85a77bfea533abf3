import RangeFlow.Interval.Refine
import RangeFlow.Proofs.Interval.Contents

/-!
# Narrowing by a comparison, on what intervals hold

`refine` keeps every value that compares with some value of the other interval
(`contains_refine`), and leaves a value only if there is such a pair (`exists_holds_of_refine`).
`without` does the same for a value to be left out.
-/

namespace RangeFlow

/-! ## Comparisons -/

namespace Comparison

theorem holds_swap (c : Comparison) (x y : Int) : c.swap.holds y x = c.holds x y := by
  cases c <;> simp [swap, holds, eq_comm]

theorem holds_negate (c : Comparison) (x y : Int) : c.negate.holds x y = !c.holds x y := by
  rw [Bool.eq_iff_iff]
  cases c <;> simp [negate, holds]

theorem holds_self (c : Comparison) (x : Int) : c.holds x x = c.isReflexive := by
  cases c <;> simp [isReflexive, holds]

end Comparison

namespace Interval

open Width (Holds)

/-! ## Leaving out a value -/

@[simp]
theorem bits_without (a : Interval) (value : Int) : (a.without value).bits = a.bits := by
  unfold without
  split
  · rfl
  · split_ifs <;> simp

theorem contains_without {a : Interval} {value x : Int} (hx : a.contains x)
    (held : Holds a.bits x) (other : x ≠ value) : (a.without value).contains x := by
  obtain ⟨lo, hi, bounds, lower, upper⟩ := contains_iff.1 hx
  rw [without, bounds]
  dsimp only
  split_ifs with single
  · omega
  · exact contains_between.2 ⟨by omega, upper, held⟩
  · exact contains_between.2 ⟨lower, by omega, held⟩
  · exact hx

theorem contains_of_contains_without {a : Interval} {value x : Int}
    (h : (a.without value).contains x) : a.contains x := by
  unfold without at h
  split at h
  · exact h
  · rename_i lo hi bounds
    split_ifs at h
    · simp at h
    · rw [contains_between] at h
      exact contains_iff.2 ⟨lo, hi, bounds, by omega, by omega⟩
    · rw [contains_between] at h
      exact contains_iff.2 ⟨lo, hi, bounds, by omega, by omega⟩
    · exact h

theorem canonical_without {a : Interval} (ha : a.Canonical) (value : Int) :
    (a.without value).Canonical := by
  unfold without
  split
  · exact ha
  · split_ifs
    · exact ha.isValid
    · exact canonical_between ha.isValid _ _
    · exact canonical_between ha.isValid _ _
    · exact ha

/-- The bounds of an interval between bounds of its width that leaves something. -/
theorem bounds?_between {bits : Nat} {lo hi : Int} (lower : Width.minValue bits ≤ lo)
    (upper : hi ≤ Width.maxValue bits) (ordered : lo ≤ hi) :
    (between bits lo hi).bounds? = some (lo, hi) := by
  unfold between
  dsimp only
  rw [max_eq_left lower, min_eq_left upper, if_neg (by omega)]
  split_ifs with full
  · rw [bounds?, full.1, full.2]
  · rfl

/-- Leaving out a value leaves bounds that are other values, and that moved only past it. -/
theorem bounds_without {a : Interval} (ha : a.Canonical) {value lo hi : Int}
    (bounds : a.bounds? = some (lo, hi)) {lo' hi' : Int}
    (bounds' : (a.without value).bounds? = some (lo', hi')) :
    (lo' ≠ value ∧ (lo' = lo ∨ lo' = value + 1)) ∧ hi' ≠ value ∧ (hi' = hi ∨ hi' = value - 1) := by
  have inside := ha.bounds bounds
  unfold without at bounds'
  rw [bounds] at bounds'
  dsimp only at bounds'
  split_ifs at bounds' with single least greatest
  · simp [bounds?] at bounds'
  · rw [bounds?_between (by omega) inside.2.2 (by omega)] at bounds'
    cases bounds'
    omega
  · rw [bounds?_between inside.1 (by omega) (by omega)] at bounds'
    cases bounds'
    omega
  · rw [bounds] at bounds'
    cases bounds'
    omega

theorem exists_contains_ne {a : Interval} (ha : a.Canonical) {value : Int}
    (full : (a.without value).isBottom = false) : ∃ x, a.contains x ∧ x ≠ value := by
  obtain ⟨x, hx⟩ := (canonical_without ha value).exists_contains full
  cases bounds' : (a.without value).bounds? with
  | none => simp [bounds?_eq_none_iff.1 bounds'] at full
  | some b =>
    have ordered := ((canonical_without ha value).bounds bounds').2.1
    have last : (a.without value).contains b.2 :=
      contains_iff.2 ⟨_, _, bounds', ordered, le_rfl⟩
    obtain ⟨lo, hi, bounds, -, -⟩ := contains_iff.1 (contains_of_contains_without last)
    exact ⟨b.2, contains_of_contains_without last, (bounds_without ha bounds bounds').2.1⟩

/-- Leaving out an end is a change. -/
theorem without_ne {i : Interval} {lo hi value : Int} (bounds : i.bounds? = some (lo, hi))
    (anEnd : value = lo ∨ value = hi) : i.without value ≠ i := by
  intro same
  have bounds' := bounds
  rw [← same, without, bounds] at bounds'
  dsimp only at bounds'
  have above (bits : Nat) : (between bits (lo + 1) hi).bounds? ≠ some (lo, hi) := by
    intro kept
    have := (normal_between bits (lo + 1) hi).bounds kept
    have := contains_between.1 (contains_iff.2 ⟨lo, hi, kept, le_rfl, this.2.1⟩)
    omega
  have below (bits : Nat) : (between bits lo (hi - 1)).bounds? ≠ some (lo, hi) := by
    intro kept
    have := (normal_between bits lo (hi - 1)).bounds kept
    have := contains_between.1 (contains_iff.2 ⟨lo, hi, kept, this.2.1, le_rfl⟩)
    omega
  split_ifs at bounds' with single least greatest
  · cases bounds'
  · exact above _ bounds'
  · exact below _ bounds'
  · rcases anEnd with rfl | rfl
    · exact least rfl
    · exact greatest rfl

/-! ## Comparisons with some value -/

@[simp]
theorem bits_refine (a : Interval) (c : Comparison) (b : Interval) :
    (a.refine c b).bits = a.bits := by
  unfold refine
  split
  · cases c <;> dsimp only
    case eq => simp
    case ne => split <;> simp
    case lt => split_ifs <;> simp
    case le => simp
    case gt => split_ifs <;> simp
    case ge => simp
  · rfl

/-- Telling an interval apart from another leaves it as it is, leaves out a value of it, or leaves
nothing. -/
theorem refine_ne_cases (i b : Interval) :
    i.refine .ne b = i ∨ (∃ value, i.refine .ne b = i.without value) ∨
      i.refine .ne b = bottom i.bits := by
  unfold refine
  split
  · dsimp only
    split
    · exact .inr (.inl ⟨_, rfl⟩)
    · exact .inl rfl
  · exact .inr (.inr rfl)

theorem contains_refine {a b : Interval} {c : Comparison} {x y : Int} (hx : a.contains x)
    (hy : b.contains y) (held : Holds a.bits x) (holds : c.holds x y) :
    (a.refine c b).contains x := by
  obtain ⟨lo, hi, bounds, lower, upper⟩ := contains_iff.1 hy
  obtain ⟨alo, ahi, abounds, -, -⟩ := contains_iff.1 hx
  have least := held.1
  have greatest := held.2
  rw [refine, abounds, bounds]
  dsimp only
  cases c <;> simp only [Comparison.holds, decide_eq_true_eq] at holds <;> dsimp only
  case eq =>
    subst holds
    exact contains_meet hx hy held
  case ne =>
    split
    · rename_i value single
      obtain rfl : y = value := by
        rw [value?, bounds] at single
        dsimp only at single
        split_ifs at single
        cases single
        omega
      exact contains_without hx held holds
    · exact hx
  case lt =>
    rw [if_neg (by omega)]
    exact contains_meet hx (contains_between.2 ⟨least, by omega, held⟩) held
  case le => exact contains_meet hx (contains_between.2 ⟨least, by omega, held⟩) held
  case gt =>
    rw [if_neg (by omega)]
    exact contains_meet hx (contains_between.2 ⟨by omega, greatest, held⟩) held
  case ge => exact contains_meet hx (contains_between.2 ⟨by omega, greatest, held⟩) held

/-- A meet that leaves something leaves a common value. -/
theorem exists_contains_meet {a b : Interval} (ha : a.Canonical) (same : a.bits = b.bits)
    (full : (a.meet b).isBottom = false) : ∃ x, a.contains x ∧ b.contains x := by
  obtain ⟨x, hx⟩ := (canonical_meet ha b).exists_contains full
  obtain ⟨ha, hb, -⟩ := (contains_meet_iff same).1 hx
  exact ⟨x, ha, hb⟩

theorem exists_ne_of_value?_eq_none {b : Interval} (hb : b.Canonical) (full : b.isBottom = false)
    (several : b.value? = none) (x : Int) : ∃ y, b.contains y ∧ y ≠ x := by
  cases bounds : b.bounds? with
  | none => simp [bounds?_eq_none_iff.1 bounds] at full
  | some pair =>
    have ordered := (hb.bounds bounds).2.1
    rw [value?, bounds] at several
    dsimp only at several
    split_ifs at several with single
    by_cases first : pair.1 = x
    · exact ⟨pair.2, contains_iff.2 ⟨_, _, bounds, ordered, le_rfl⟩, by omega⟩
    · exact ⟨pair.1, contains_iff.2 ⟨_, _, bounds, le_rfl, ordered⟩, first⟩

theorem contains_of_value?_eq_some {b : Interval} {value : Int} (single : b.value? = some value) :
    b.contains value := by
  rw [value?] at single
  split at single
  · rename_i lo hi bounds
    split_ifs at single with same
    cases single
    exact contains_iff.2 ⟨_, _, bounds, le_rfl, same.le⟩
  · cases single

/-- A comparison leaves something only if it holds of some values of the two intervals. -/
theorem exists_holds_of_refine {a b : Interval} {c : Comparison} (ha : a.Canonical)
    (hb : b.Canonical) (same : a.bits = b.bits) (full : (a.refine c b).isBottom = false) :
    ∃ x y, a.contains x ∧ b.contains y ∧ c.holds x y := by
  unfold refine at full
  split at full
  · rename_i lo hi abounds bounds
    have ordered := (hb.bounds bounds).2.1
    have lowest : b.contains lo := contains_iff.2 ⟨_, _, bounds, le_rfl, ordered⟩
    have highest : b.contains hi := contains_iff.2 ⟨_, _, bounds, ordered, le_rfl⟩
    cases c <;> dsimp only at full
    case eq =>
      obtain ⟨x, hx, hy⟩ := exists_contains_meet ha same full
      exact ⟨x, x, hx, hy, by simp [Comparison.holds]⟩
    case ne =>
      split at full
      · rename_i value single
        obtain ⟨x, hx, other⟩ := exists_contains_ne ha full
        exact ⟨x, value, hx, contains_of_value?_eq_some single, by simp [Comparison.holds, other]⟩
      · rename_i several
        obtain ⟨x, hx⟩ := ha.exists_contains full
        obtain ⟨y, hy, other⟩ :=
          exists_ne_of_value?_eq_none hb (isBottom_eq_false lowest) several x
        exact ⟨x, y, hx, hy, by simp [Comparison.holds, other.symm]⟩
    case lt =>
      split_ifs at full
      · simp [isBottom] at full
      · obtain ⟨x, hx, hy⟩ := exists_contains_meet ha (by simp) full
        rw [contains_between] at hy
        exact ⟨x, hi, hx, highest, by simp only [Comparison.holds, decide_eq_true_eq]; omega⟩
    case le =>
      obtain ⟨x, hx, hy⟩ := exists_contains_meet ha (by simp) full
      rw [contains_between] at hy
      exact ⟨x, hi, hx, highest, by simp only [Comparison.holds, decide_eq_true_eq]; omega⟩
    case gt =>
      split_ifs at full
      · simp [isBottom] at full
      · obtain ⟨x, hx, hy⟩ := exists_contains_meet ha (by simp) full
        rw [contains_between] at hy
        exact ⟨x, lo, hx, lowest, by simp only [Comparison.holds, decide_eq_true_eq]; omega⟩
    case ge =>
      obtain ⟨x, hx, hy⟩ := exists_contains_meet ha (by simp) full
      rw [contains_between] at hy
      exact ⟨x, lo, hx, lowest, by simp only [Comparison.holds, decide_eq_true_eq]; omega⟩
  · simp [isBottom] at full

end Interval

end RangeFlow
