import RangeFlow.Proofs.Interval.Hull
import RangeFlow.Proofs.Interval.Monotone

/-!
# Corners are results

Products and quotients do not fill a range, but the least and the greatest of them are corners, and
corners are results themselves. So an operator gives the smallest interval of its results if none of
them leaves the width (`isHull_ofExact_of_held`). Shifts by one amount are monotone, and their corners
are the shifted bounds.

Main statement: `corner_results_best`.
-/

namespace RangeFlow.Interval

open Width (Holds)

/-- Bounds that the width holds are not wrapped. -/
theorem ofExact_eq_between {bits : Nat} (valid : Width.isValid bits) {lo hi : Int}
    (first : Holds bits lo) (last : Holds bits hi) (ordered : lo ≤ hi) :
    ofExact bits lo hi = between bits lo hi := by
  have narrow : ¬Width.twoPow bits ≤ hi - lo := by
    have count := Width.maxValue_add_one valid
    have := first.1
    have := last.2
    omega
  unfold ofExact
  rw [if_neg (by omega), if_neg (not_or.2 ⟨Width.not_maxCounted_lt valid, narrow⟩),
    Width.wrap_of_holds valid first, Width.wrap_of_holds valid last]
  exact if_pos ordered

theorem isHull_ofExact_of_held {bits : Nat} (valid : Width.isValid bits) {values : Set Int}
    {lo hi : Int} (first : lo ∈ values) (last : hi ∈ values)
    (held : ∀ x ∈ values, Holds bits x) (enclosed : ∀ x ∈ values, lo ≤ x ∧ x ≤ hi) :
    (ofExact bits lo hi).IsHull values := by
  rw [ofExact_eq_between valid (held lo first) (held hi last) (enclosed lo first).2]
  exact isHull_between valid first last held enclosed

variable {a b : Interval} (ha : a.Proper) (hb : b.Proper)
include ha hb

/-! ## Products and quotients -/

theorem isHull_mul (fits : ∀ x y, a.contains x → b.contains y → Holds a.bits (x * y)) :
    (a.mul b).IsHull {z | ∃ x y, a.contains x ∧ b.contains y ∧ z = x * y} := by
  obtain ⟨p, abounds, -, ordered, -⟩ := exists_bounds ha
  obtain ⟨q, bbounds, -, ordered', -⟩ := exists_bounds hb
  have inA {x : Int} := contains_iff_of_bounds (x := x) abounds
  have inB {y : Int} := contains_iff_of_bounds (x := y) bbounds
  have corner : ∀ c ∈ productCorners p q, ∃ x y, a.contains x ∧ b.contains y ∧ c = x * y := by
    intro c hc
    obtain ⟨x, y, hx, hy, rfl⟩ := of_mem_productCorners ordered ordered' hc
    exact ⟨x, y, inA.2 hx, inB.2 hy, rfl⟩
  have full : productCorners p q ≠ [] := by simp [productCorners]
  obtain ⟨least, greatest⟩ := hull_mem full
  rw [mul, lift₂, abounds, bbounds]
  apply isHull_ofExact_of_held ha.1.isValid (corner _ least) (corner _ greatest)
  · rintro z ⟨x, y, hx, hy, rfl⟩
    exact fits x y hx hy
  · rintro z ⟨x, y, hx, hy, rfl⟩
    exact productBounds_enclose (inA.1 hx).1 (inA.1 hx).2 (inB.1 hy).1 (inB.1 hy).2

theorem isHull_div (nonzero : b.bounds? ≠ some (0, 0))
    (fits : ∀ x y, a.contains x → b.contains y → y ≠ 0 → Holds a.bits (x.tdiv y)) :
    (a.div b).IsHull {z | ∃ x y, a.contains x ∧ b.contains y ∧ y ≠ 0 ∧ z = x.tdiv y} := by
  obtain ⟨p, abounds, -, ordered, -⟩ := exists_bounds ha
  obtain ⟨q, bbounds, -, ordered', -⟩ := exists_bounds hb
  have inA {x : Int} := contains_iff_of_bounds (x := x) abounds
  have inB {y : Int} := contains_iff_of_bounds (x := y) bbounds
  have parts := nonzeroParts_ne_nil hb nonzero bbounds
  have corner : ∀ c ∈ quotientCorners p (nonzeroParts q),
      ∃ x y, a.contains x ∧ b.contains y ∧ y ≠ 0 ∧ c = x.tdiv y := by
    intro c hc
    obtain ⟨x, y, hx, hy, apart, rfl⟩ := of_mem_quotientCorners ordered ordered' hc
    exact ⟨x, y, inA.2 hx, inB.2 hy, apart, rfl⟩
  have full : quotientCorners p (nonzeroParts q) ≠ [] := by
    obtain ⟨part, rest, split⟩ := List.exists_cons_of_ne_nil parts
    simp [quotientCorners, split]
  obtain ⟨least, greatest⟩ := hull_mem full
  rw [div, liftNonzero_of_bounds abounds bbounds parts]
  apply isHull_ofExact_of_held ha.1.isValid (corner _ least) (corner _ greatest)
  · rintro z ⟨x, y, hx, hy, apart, rfl⟩
    exact fits x y hx hy apart
  · rintro z ⟨x, y, hx, hy, apart, rfl⟩
    exact quotientBounds_enclose_nonzero (inA.1 hx).1 (inA.1 hx).2 (inB.1 hy).1 (inB.1 hy).2 apart

/-! ## Shifts by one amount -/

omit ha in
theorem value?_of_single {value : Int} (single : ∀ y, b.contains y → y = value) :
    b.value? = some value := by
  obtain ⟨lo, hi, bounds, -, ordered, -⟩ := hb.exists_bounds
  have inB {y : Int} := contains_iff_of_bounds (x := y) bounds
  have first := single lo (inB.2 ⟨le_rfl, ordered⟩)
  have last := single hi (inB.2 ⟨ordered, le_rfl⟩)
  rw [value?, bounds, first, last]
  exact if_pos rfl

variable {k : Nat} (known : a.shiftAmount? b = some k)
include known

theorem isHull_shl (fits : ∀ x, a.contains x → Holds a.bits (x * 2 ^ k)) :
    (a.shl b).IsHull {z | ∃ x, a.contains x ∧ z = x * 2 ^ k} := by
  obtain ⟨lo, hi, bounds, -, ordered, -⟩ := ha.exists_bounds
  have inA {x : Int} := contains_iff_of_bounds (x := x) bounds
  have small := shiftAmount?_lt ha.1.isValid hb known
  have inside := ha.1.representable lo hi bounds
  have shifted : a.shl b = ofExact a.bits (lo * Width.twoPow k) (hi * Width.twoPow k) := by
    simp only [shl, ha.2, hb.2, known, Bool.or_self, Bool.false_eq_true, ↓reduceIte, lift, bounds,
      shiftedBounds, held, low128_shifted inside.1 small, low128_shifted inside.2 small]
  rw [shifted, Width.twoPow_eq]
  refine isHull_ofExact_of_held ha.1.isValid ⟨lo, inA.2 ⟨le_rfl, ordered⟩, rfl⟩
    ⟨hi, inA.2 ⟨ordered, le_rfl⟩, rfl⟩ ?_ ?_
  · rintro z ⟨x, hx, rfl⟩
    exact fits x hx
  · rintro z ⟨x, hx, rfl⟩
    have positive : (0 : Int) ≤ 2 ^ k := by positivity
    exact ⟨mul_le_mul_of_nonneg_right (inA.1 hx).1 positive,
      mul_le_mul_of_nonneg_right (inA.1 hx).2 positive⟩

theorem isHull_shr : (a.shr b).IsHull {z | ∃ x, a.contains x ∧ z = x / 2 ^ k} := by
  obtain ⟨lo, hi, bounds, -, ordered, -⟩ := ha.exists_bounds
  have inA {x : Int} := contains_iff_of_bounds (x := x) bounds
  have shifted : a.shr b = between a.bits (lo / Width.twoPow k) (hi / Width.twoPow k) := by
    simp only [shr, ha.2, hb.2, bounds, known, Bool.or_self, Bool.false_eq_true, ↓reduceIte]
  rw [shifted, Width.twoPow_eq]
  refine isHull_between ha.1.isValid ⟨lo, inA.2 ⟨le_rfl, ordered⟩, rfl⟩
    ⟨hi, inA.2 ⟨ordered, le_rfl⟩, rfl⟩ ?_ ?_
  · -- A word that is shifted to the right is a word.
    rintro z ⟨x, hx, rfl⟩
    obtain ⟨word, rfl⟩ := ha.1.exists_word hx
    rw [← toInt_sshiftRight_eq_ediv]
    exact Holds.of_toInt ha.1.isValid _
  · rintro z ⟨x, hx, rfl⟩
    have positive : (0 : Int) < 2 ^ k := by positivity
    exact ⟨Int.ediv_le_ediv positive (inA.1 hx).1, Int.ediv_le_ediv positive (inA.1 hx).2⟩

/-- Without negative values both shifts to the right agree. -/
theorem isHull_ushr (nonneg : ∀ x, a.contains x → 0 ≤ x) :
    (a.ushr b).IsHull {z | ∃ x, a.contains x ∧ z = (BitVec.ofInt a.bits x >>> k).toInt} := by
  obtain ⟨lo, hi, bounds, -, ordered, -⟩ := ha.exists_bounds
  have least : 0 ≤ lo := nonneg lo ((contains_iff_of_bounds bounds).2 ⟨le_rfl, ordered⟩)
  rw [ushr_eq ha hb bounds, if_pos least]
  refine (isHull_shr ha hb known).congr fun z => ?_
  have agree {x : Int} (hx : a.contains x) : (BitVec.ofInt a.bits x >>> k).toInt = x / 2 ^ k := by
    have same : (BitVec.ofInt a.bits x).toInt = x := by
      rw [Width.toInt_ofInt ha.1.isValid, Width.wrap_of_holds ha.1.isValid (ha.1.holds hx)]
    have sign : (BitVec.ofInt a.bits x).msb = false :=
      toInt_nonneg_iff.1 (same.symm ▸ nonneg x hx)
    rw [← BitVec.sshiftRight_eq_of_msb_false sign, toInt_sshiftRight_eq_ediv, same]
  constructor
  · rintro ⟨x, hx, rfl⟩
    exact ⟨x, hx, (agree hx).symm⟩
  · rintro ⟨x, hx, rfl⟩
    exact ⟨x, hx, agree hx⟩

omit known

/-- Products and quotients that do not leave the width, and shifts by one amount that do not either,
are given the smallest interval that holds them. -/
theorem corner_results_best :
    ((∀ x y, a.contains x → b.contains y → Holds a.bits (x * y)) →
      (a.mul b).IsHullOf a.bits {z | ∃ x y, a.contains x ∧ b.contains y ∧ z = x * y}) ∧
    (b.bounds? ≠ some (0, 0) →
      (∀ x y, a.contains x → b.contains y → y ≠ 0 → Holds a.bits (x.tdiv y)) →
      (a.div b).IsHullOf a.bits
        {z | ∃ x y, a.contains x ∧ b.contains y ∧ y ≠ 0 ∧ z = x.tdiv y}) ∧
    ∀ value, (∀ y, b.contains y = true ↔ y = value) → ∀ k : Nat, (k : Int) = value % a.bits →
      (a.shr b).IsHullOf a.bits {z | ∃ x, a.contains x ∧ z = x / 2 ^ k} ∧
      ((∀ x, a.contains x → Holds a.bits (x * 2 ^ k)) →
        (a.shl b).IsHullOf a.bits {z | ∃ x, a.contains x ∧ z = x * 2 ^ k}) ∧
      ((∀ x, a.contains x → 0 ≤ x) →
        (a.ushr b).IsHullOf a.bits
          {z | ∃ x, a.contains x ∧ z = (BitVec.ofInt a.bits x >>> k).toInt}) := by
  refine ⟨fun fits => ⟨bits_binary .mul a b, isHull_mul ha hb fits⟩,
    fun nonzero fits => ⟨bits_binary .div a b, isHull_div ha hb nonzero fits⟩,
    fun value single k amount => ?_⟩
  have known : a.shiftAmount? b = some k := by
    rw [shiftAmount?_of_value? ha.1.isValid (value?_of_single hb fun y hy => (single y).1 hy),
      ← amount, Int.toNat_natCast]
  exact ⟨⟨bits_binary .shr a b, isHull_shr ha hb known⟩,
    fun fits => ⟨bits_binary .shl a b, isHull_shl ha hb known fits⟩,
    fun nonneg => ⟨bits_binary .ushr a b, isHull_ushr ha hb known nonneg⟩⟩

omit ha hb in
/-- Factors and divisors of both signs, and shifts by a negative amount of another width. -/
theorem corner_results_best_signs :
    (between 8 (-9) 5).Proper ∧ (between 8 (-7) 2).Proper ∧ (constant 4 (-6)).Proper ∧
    (between 8 (-9) 5).mul (between 8 (-7) 2) = range 8 (-35) 63 ∧
    ((between 8 (-9) 5).mul (between 8 (-7) 2)).IsHullOf 8
      {z | ∃ x y, (between 8 (-9) 5).contains x ∧ (between 8 (-7) 2).contains y ∧ z = x * y} ∧
    (between 8 (-9) 5).div (between 8 (-7) 2) = range 8 (-9) 9 ∧
    ((between 8 (-9) 5).div (between 8 (-7) 2)).IsHullOf 8
      {z | ∃ x y, (between 8 (-9) 5).contains x ∧ (between 8 (-7) 2).contains y ∧ y ≠ 0 ∧
        z = x.tdiv y} ∧
    (between 8 (-9) 5).shr (constant 4 (-6)) = range 8 (-3) 1 ∧
    ((between 8 (-9) 5).shr (constant 4 (-6))).IsHullOf 8
      {z | ∃ x, (between 8 (-9) 5).contains x ∧ z = x / 2 ^ 2} ∧
    (between 8 (-9) 5).shl (constant 4 (-6)) = range 8 (-36) 20 ∧
    ((between 8 (-9) 5).shl (constant 4 (-6))).IsHullOf 8
      {z | ∃ x, (between 8 (-9) 5).contains x ∧ z = x * 2 ^ 2} ∧
    (between 8 3 100).ushr (constant 4 (-6)) = range 8 0 25 ∧
    ((between 8 3 100).ushr (constant 4 (-6))).IsHullOf 8
      {z | ∃ x, (between 8 3 100).contains x ∧ z = (BitVec.ofInt 8 x >>> 2).toInt} := by
  have left : (between 8 (-9) 5).Proper := ⟨canonical_between rfl _ _, rfl⟩
  have right : (between 8 (-7) 2).Proper := ⟨canonical_between rfl _ _, rfl⟩
  have positive : (between 8 3 100).Proper := ⟨canonical_between rfl _ _, rfl⟩
  have amount : (constant 4 (-6)).Proper := proper_constant rfl _
  have single (y : Int) : (constant 4 (-6)).contains y = true ↔ y = -6 := contains_constant rfl
  have inA {x : Int} : (between 8 (-9) 5).contains x = true ↔ -9 ≤ x ∧ x ≤ 5 :=
    contains_iff_of_bounds (by decide)
  have inB {y : Int} : (between 8 (-7) 2).contains y = true ↔ -7 ≤ y ∧ y ≤ 2 :=
    contains_iff_of_bounds (by decide)
  obtain ⟨products, quotients, -⟩ := corner_results_best left right
  obtain ⟨rightShift, leftShift, -⟩ :=
    (corner_results_best left amount).2.2 (-6) single 2 (by decide)
  obtain ⟨-, -, logicalShift⟩ :=
    (corner_results_best positive amount).2.2 (-6) single 2 (by decide)
  refine ⟨left, right, amount, by decide, products fun x y hx hy => ?_, by decide,
    quotients (by decide) fun x y hx hy apart => ?_, by decide, rightShift, by decide,
    leftShift fun x hx => ?_, by decide, logicalShift fun x hx => ?_⟩
  · have enclosed := productBounds_enclose (p := (-9, 5)) (q := (-7, 2)) (inA.1 hx).1 (inA.1 hx).2
      (inB.1 hy).1 (inB.1 hy).2
    exact ⟨le_trans (by decide) enclosed.1, enclosed.2.trans (by decide)⟩
  · have enclosed := quotientBounds_enclose_nonzero (p := (-9, 5)) (q := (-7, 2)) (inA.1 hx).1
      (inA.1 hx).2 (inB.1 hy).1 (inB.1 hy).2 apart
    exact ⟨le_trans (by decide) enclosed.1, enclosed.2.trans (by decide)⟩
  · have inside := inA.1 hx
    have least : Width.minValue (between 8 (-9) 5).bits = -128 := by decide
    have greatest : Width.maxValue (between 8 (-9) 5).bits = 127 := by decide
    rw [Holds, least, greatest]
    omega
  · have inside := contains_between.1 hx
    omega

end RangeFlow.Interval
