import RangeFlow.Proofs.Interval.Closure
import RangeFlow.Proofs.Interval.Hull

/-!
# Wrapped ranges

`Interval.ofExact` gives the smallest interval of what the integers of a range wrap to
(`isHull_ofExact`). If it is the whole width, the range goes past the end of the width
(`exists_past_end`), so it has integers that wrap to the largest and to the smallest one.

Where every integer between the exact bounds is a result, the operator inherits this: sums,
differences, negated values, complements and casts are as small as they can be, also where they
overflow (`wrapped_results_best`).
-/

namespace RangeFlow.Interval

open Width (Holds)

/-- What the integers of a range wrap to. -/
def wrappedRange (bits : Nat) (lo hi : Int) : Set Int :=
  {z | ∃ v, lo ≤ v ∧ v ≤ hi ∧ z = Width.wrap v bits}

/-- A range with more integers than the width has, or whose bounds change places, goes past the end
of the width. -/
theorem exists_past_end {bits : Nat} (valid : Width.isValid bits) {lo hi : Int} (ordered : lo ≤ hi)
    (around : Width.twoPow bits ≤ hi - lo ∨ Width.wrap hi bits < Width.wrap lo bits) :
    ∃ k : Int, lo ≤ Width.maxValue bits + k * Width.twoPow bits ∧
      Width.maxValue bits + k * Width.twoPow bits < hi := by
  obtain ⟨k, first⟩ := Width.exists_wrap_eq_sub valid lo
  obtain ⟨m, last⟩ := Width.exists_wrap_eq_sub valid hi
  have lowest := Width.holds_wrap valid lo
  have highest := Width.holds_wrap valid hi
  have count := Width.maxValue_add_one valid
  refine ⟨k, by have := lowest.2; omega, ?_⟩
  rcases around with wide | crossed
  · have := lowest.1
    omega
  · -- The upper bound is moved by a larger multiple than the lower one.
    have positive := (Width.twoPow_pos bits).le
    have further : k < m := by
      by_contra close
      have := mul_le_mul_of_nonneg_right (not_lt.1 close) positive
      omega
    have moved := mul_le_mul_of_nonneg_right (Int.add_one_le_of_lt further) positive
    rw [add_mul, one_mul] at moved
    have := highest.1
    omega

/-- The bounds of the whole width are wrapped integers of a range that goes past its end. -/
theorem endsIn_top {bits : Nat} (valid : Width.isValid bits) {lo hi : Int} (ordered : lo ≤ hi)
    (around : Width.twoPow bits ≤ hi - lo ∨ Width.wrap hi bits < Width.wrap lo bits) :
    (top bits).EndsIn (wrappedRange bits lo hi) := by
  obtain ⟨k, lower, upper⟩ := exists_past_end valid ordered around
  have count := Width.maxValue_add_one valid
  have nonempty := Width.minValue_le_maxValue bits
  intro least greatest bounds
  cases bounds
  constructor
  · refine ⟨Width.minValue bits + (k + 1) * Width.twoPow bits, ?_, ?_, ?_⟩
    · rw [add_mul]
      omega
    · rw [add_mul]
      omega
    · exact (Width.wrap_add_mul valid ⟨le_rfl, nonempty⟩ (k + 1)).symm
  · exact ⟨_, lower, upper.le, (Width.wrap_add_mul valid ⟨nonempty, le_rfl⟩ k).symm⟩

theorem endsIn_ofExact {bits : Nat} (valid : Width.isValid bits) (lo hi : Int) :
    (ofExact bits lo hi).EndsIn (wrappedRange bits lo hi) := by
  unfold ofExact
  dsimp only
  split_ifs with empty wide ordered
  · intro least greatest bounds
    cases bounds
  · exact endsIn_top valid (by omega) (.inl (wide.resolve_left (Width.not_maxCounted_lt valid)))
  · intro least greatest bounds
    rw [bounds?_between (Width.holds_wrap valid lo).1 (Width.holds_wrap valid hi).2 ordered] at bounds
    cases bounds
    exact ⟨⟨lo, le_rfl, by omega, rfl⟩, ⟨hi, by omega, le_rfl, rfl⟩⟩
  · exact endsIn_top valid (by omega) (.inr (by omega))

/-- An exact range gives the smallest interval of what its integers wrap to. -/
theorem isHull_ofExact {bits : Nat} (valid : Width.isValid bits) (lo hi : Int) :
    (ofExact bits lo hi).IsHull (wrappedRange bits lo hi) := by
  refine .of_endsIn (canonical_ofExact valid lo hi) ?_ (isSubset_refl _) (endsIn_ofExact valid lo hi)
  rintro _ ⟨v, lower, upper, rfl⟩
  exact contains_ofExact valid lower upper

/-! ## Results that fill a range -/

theorem isHull_lift {f : Int × Int → Int × Int} {g : Int → Int} {a : Interval} (ha : a.Proper)
    (fills : ∀ lo hi v, (f (lo, hi)).1 ≤ v ∧ v ≤ (f (lo, hi)).2 ↔ ∃ x, lo ≤ x ∧ x ≤ hi ∧ v = g x) :
    (lift f a).IsHull {z | ∃ x, a.contains x ∧ z = Width.wrap (g x) a.bits} := by
  obtain ⟨lo, hi, bounds, -⟩ := ha.exists_bounds
  rw [lift, bounds]
  refine (isHull_ofExact ha.1.isValid _ _).congr fun z => ?_
  constructor
  · rintro ⟨v, below, above, rfl⟩
    obtain ⟨x, lower, upper, rfl⟩ := (fills lo hi v).1 ⟨below, above⟩
    exact ⟨x, (contains_iff_of_bounds bounds).2 ⟨lower, upper⟩, rfl⟩
  · rintro ⟨x, hx, rfl⟩
    obtain ⟨lower, upper⟩ := (contains_iff_of_bounds bounds).1 hx
    obtain ⟨below, above⟩ := (fills lo hi (g x)).2 ⟨x, lower, upper, rfl⟩
    exact ⟨g x, below, above, rfl⟩

theorem isHull_lift₂ {f : Int × Int → Int × Int → Int × Int} {g : Int → Int → Int}
    {a b : Interval} (ha : a.Proper) (hb : b.Proper)
    (fills : ∀ alo ahi blo bhi v, alo ≤ ahi → blo ≤ bhi →
      ((f (alo, ahi) (blo, bhi)).1 ≤ v ∧ v ≤ (f (alo, ahi) (blo, bhi)).2 ↔
        ∃ x y, (alo ≤ x ∧ x ≤ ahi) ∧ (blo ≤ y ∧ y ≤ bhi) ∧ v = g x y)) :
    (lift₂ f a b).IsHull
      {z | ∃ x y, a.contains x ∧ b.contains y ∧ z = Width.wrap (g x y) a.bits} := by
  obtain ⟨alo, ahi, abounds, -, aordered, -⟩ := ha.exists_bounds
  obtain ⟨blo, bhi, bbounds, -, bordered, -⟩ := hb.exists_bounds
  have fills v := fills alo ahi blo bhi v aordered bordered
  rw [lift₂, abounds, bbounds]
  refine (isHull_ofExact ha.1.isValid _ _).congr fun z => ?_
  constructor
  · rintro ⟨v, below, above, rfl⟩
    obtain ⟨x, y, inA, inB, rfl⟩ := (fills v).1 ⟨below, above⟩
    exact ⟨x, y, (contains_iff_of_bounds abounds).2 inA, (contains_iff_of_bounds bbounds).2 inB, rfl⟩
  · rintro ⟨x, y, hx, hy, rfl⟩
    have inA := (contains_iff_of_bounds abounds).1 hx
    have inB := (contains_iff_of_bounds bbounds).1 hy
    obtain ⟨below, above⟩ := (fills (g x y)).2 ⟨x, y, inA, inB, rfl⟩
    exact ⟨g x y, below, above, rfl⟩

section Results

variable {a b : Interval} (ha : a.Proper)
include ha

theorem isHull_add (hb : b.Proper) : (a.add b).IsHull
    {z | ∃ x y, a.contains x ∧ b.contains y ∧ z = Width.wrap (x + y) a.bits} := by
  refine isHull_lift₂ ha hb fun alo ahi blo bhi v aordered bordered => ?_
  simp only [sumBounds]
  constructor
  · rintro ⟨below, above⟩
    exact ⟨max alo (v - bhi), v - max alo (v - bhi), by omega, by omega, by omega⟩
  · rintro ⟨x, y, inA, inB, rfl⟩
    omega

theorem isHull_sub (hb : b.Proper) : (a.sub b).IsHull
    {z | ∃ x y, a.contains x ∧ b.contains y ∧ z = Width.wrap (x - y) a.bits} := by
  refine isHull_lift₂ ha hb fun alo ahi blo bhi v aordered bordered => ?_
  simp only [differenceBounds]
  constructor
  · rintro ⟨below, above⟩
    exact ⟨max alo (v + blo), max alo (v + blo) - v, by omega, by omega, by omega⟩
  · rintro ⟨x, y, inA, inB, rfl⟩
    omega

theorem isHull_neg : a.neg.IsHull {z | ∃ x, a.contains x ∧ z = Width.wrap (-x) a.bits} := by
  refine isHull_lift ha fun lo hi v => ?_
  simp only [negatedBounds]
  constructor
  · exact fun _ => ⟨-v, by omega, by omega, by omega⟩
  · rintro ⟨x, lower, upper, rfl⟩
    omega

theorem isHull_not : a.not.IsHull {z | ∃ x, a.contains x ∧ z = Width.wrap (-x - 1) a.bits} := by
  refine isHull_lift ha fun lo hi v => ?_
  simp only [complementBounds]
  constructor
  · exact fun _ => ⟨-v - 1, by omega, by omega, by omega⟩
  · rintro ⟨x, lower, upper, rfl⟩
    omega

theorem isHull_cast {bits : Nat} (valid : Width.isValid bits) :
    (a.cast bits).IsHull {z | ∃ x, a.contains x ∧ z = Width.wrap x bits} := by
  obtain ⟨lo, hi, bounds, -⟩ := ha.exists_bounds
  rw [cast, bounds]
  refine (isHull_ofExact valid lo hi).congr fun z => ?_
  simp only [contains_iff_of_bounds bounds, and_assoc]
  rfl

end Results

/-- Wrapping gives the integer of a width that is congruent to an integer, an exact range the smallest
interval of what its integers wrap to, and so do the operators that are exact before they wrap. -/
theorem wrapped_results_best {w : Nat} (valid : Width.isValid w) :
    (∀ v z, Width.wrap v w = z ↔
      (-2 ^ (w - 1) ≤ z ∧ z ≤ 2 ^ (w - 1) - 1) ∧ z ≡ v [ZMOD 2 ^ w]) ∧
    (∀ lo hi, lo ≤ hi →
      (ofExact w lo hi).IsHullOf w {z | ∃ v, lo ≤ v ∧ v ≤ hi ∧ z = Width.wrap v w}) ∧
    ∀ a b : Interval, a.Proper → b.Proper → a.bits = w → b.bits = w →
      (a.add b).IsHullOf w
        {z | ∃ x y, a.contains x ∧ b.contains y ∧ z = Width.wrap (x + y) w} ∧
      (a.sub b).IsHullOf w
        {z | ∃ x y, a.contains x ∧ b.contains y ∧ z = Width.wrap (x - y) w} ∧
      a.neg.IsHullOf w {z | ∃ x, a.contains x ∧ z = Width.wrap (-x) w} ∧
      a.not.IsHullOf w {z | ∃ x, a.contains x ∧ z = Width.wrap (-x - 1) w} ∧
      ∀ bits, Width.isValid bits →
        (a.cast bits).IsHullOf bits {z | ∃ x, a.contains x ∧ z = Width.wrap x bits} := by
  refine ⟨fun v z => ?_, fun lo hi _ => ⟨bits_ofExact w lo hi, isHull_ofExact valid lo hi⟩, ?_⟩
  · rw [Width.wrap_eq_iff valid, Holds, Width.minValue_of_isValid valid,
      Width.maxValue_of_isValid valid]
  · rintro a b ha hb rfl -
    exact ⟨⟨bits_lift₂ _ a b, isHull_add ha hb⟩, ⟨bits_lift₂ _ a b, isHull_sub ha hb⟩,
      ⟨bits_lift _ a, isHull_neg ha⟩, ⟨bits_lift _ a, isHull_not ha⟩,
      fun bits valid => ⟨bits_cast a bits, isHull_cast ha valid⟩⟩

/-- Sums that overflow together stay one range, and a range across the end of the width is all of it. -/
theorem wrapped_results_best_overflow :
    (between 8 100 120).Proper ∧ (between 8 90 100).Proper ∧
    (between 8 100 120).add (between 8 90 100) = range 8 (-66) (-36) ∧
    ((between 8 100 120).add (between 8 90 100)).IsHullOf 8
      {z | ∃ x y, (between 8 100 120).contains x ∧ (between 8 90 100).contains y ∧
        z = Width.wrap (x + y) 8} ∧
    ofExact 8 127 128 = top 8 ∧
    (ofExact 8 127 128).IsHullOf 8 {z | ∃ v, 127 ≤ v ∧ v ≤ 128 ∧ z = Width.wrap v 8} := by
  have left : (between 8 100 120).Proper := ⟨canonical_between rfl _ _, rfl⟩
  have right : (between 8 90 100).Proper := ⟨canonical_between rfl _ _, rfl⟩
  obtain ⟨-, ranges, results⟩ := wrapped_results_best (w := 8) rfl
  exact ⟨left, right, by decide, (results _ _ left right rfl rfl).1, by decide,
    ranges 127 128 (by decide)⟩

end RangeFlow.Interval
