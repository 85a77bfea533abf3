import RangeFlow.Proofs.Interval.Checked
import RangeFlow.Proofs.Interval.Monotone

/-!
# Operators do not overflow

On canonical intervals every word of a checked computation fits, so the operators on machine words
(`Checked.unary`, `Checked.binary`, `Checked.cast`, `Checked.refine`) have a result, and it is that of
the operators on unbounded integers. The margins are thin: the span of all products of words of 64 bits
is `2 ^ 127 - 2 ^ 63`, and so is that of all such words moved by 63 places.

Main statement: `operators_exact`.
-/

namespace RangeFlow.Checked

open Width (Holds)

variable {x y lo hi : Int} {bits size count : Nat}

/-! ## Words -/

theorem fit_eq (h : Fits size x) : fit size x = some x := if_pos h

theorem fits_64_iff : Fits 64 x ↔ -9223372036854775808 ≤ x ∧ x ≤ 9223372036854775807 := by
  norm_num [Fits]

theorem fits_128_iff : Fits 128 x ↔
    -170141183460469231731687303715884105728 ≤ x ∧ x ≤ 170141183460469231731687303715884105727 := by
  norm_num [Fits]

theorem fits_of_holds (h : Holds bits x) : Fits 64 x := by
  have lower := (Width.minValue_64_le bits).trans h.1
  have upper := h.2.trans (Width.maxValue_le_64 bits)
  rw [Width.minValue_64] at lower
  rw [Width.maxValue_64] at upper
  exact ⟨lower, upper⟩

theorem fits_minValue (bits : Nat) : Fits 64 (Width.minValue bits) :=
  fits_of_holds ⟨le_rfl, Width.minValue_le_maxValue bits⟩

theorem fits_maxValue (bits : Nat) : Fits 64 (Width.maxValue bits) :=
  fits_of_holds ⟨Width.minValue_le_maxValue bits, le_rfl⟩

theorem holds_of_fits (h : Fits 64 x) : Holds 64 x := by
  rw [Holds, Width.minValue_64, Width.maxValue_64]
  exact h

/-- Words stay words when they move toward zero. -/
theorem Fits.toward_zero (h : Fits size x) (between : 0 ≤ y ∧ y ≤ x ∨ x ≤ y ∧ y ≤ 0) :
    Fits size y := by
  have positive : (0 : Int) < 2 ^ (size - 1) := by positivity
  unfold Fits at *
  omega

theorem tdiv_toward_zero (x : Int) (positive : 0 < y) :
    0 ≤ x.tdiv y ∧ x.tdiv y ≤ x ∨ x ≤ x.tdiv y ∧ x.tdiv y ≤ 0 := by
  have smaller := Int.natAbs_tdiv_le_natAbs x y
  rcases le_total 0 x with nonneg | nonpos
  · have := Int.tdiv_nonneg nonneg positive.le
    omega
  · have := Int.tdiv_nonneg (Int.neg_nonneg_of_nonpos nonpos) positive.le
    rw [Int.neg_tdiv] at this
    omega

theorem remainder_eq (fits : Fits size x) (positive : 0 < y) (fits' : Fits size y) :
    remainder size x y = some (x % y) := by
  have divides : quotient size x y = some (x.tdiv y) := by
    rw [quotient, if_neg positive.ne', fit_eq (fits.toward_zero (tdiv_toward_zero x positive))]
  have nonneg := Int.emod_nonneg x positive.ne'
  have below := Int.emod_lt_of_pos x positive
  rw [remainder, divides]
  exact fit_eq (fits'.toward_zero (.inl ⟨nonneg, below.le⟩))

theorem shiftRight_eq (fits : Fits size x) (small : count < size) :
    shiftRight size x count = some (x / 2 ^ count) := by
  have positive : (0 : Int) < 2 ^ count := by positivity
  rw [shiftRight, if_pos small]
  refine fit_eq (fits.toward_zero ?_)
  rcases le_total 0 x with nonneg | nonpos
  · exact .inl ⟨Int.ediv_nonneg nonneg positive.le, Int.ediv_le_self _ nonneg⟩
  · refine .inr ⟨?_, Int.ediv_nonpos_of_nonpos_of_neg nonpos positive⟩
    rw [Int.le_ediv_iff_mul_le positive]
    nlinarith

/-! ## Widths -/

section Widths

variable (valid : Width.isValid bits)
include valid

theorem fits_twoPow : Fits 128 (Width.twoPow bits) := by
  have positive := Width.twoPow_pos bits
  have most := Width.twoPow_mono (Width.isValid_iff.1 valid).2
  rw [show Width.twoPow 64 = 18446744073709551616 from rfl] at most
  rw [fits_128_iff]
  omega

theorem count_eq : shiftLeft 128 1 bits = some (Width.twoPow bits) := by
  have narrow := (Width.isValid_iff.1 valid).2
  rw [shiftLeft, if_pos (by omega), one_mul, ← Width.twoPow_eq]
  exact fit_eq (fits_twoPow valid)

theorem half_eq (narrow : bits < 64) : half bits = some (2 ^ (bits - 1)) := by
  have wide := (Width.isValid_iff.1 valid).1
  have most := Width.twoPow_mono (show bits - 1 ≤ 62 by omega)
  have positive := Width.twoPow_pos (bits - 1)
  rw [half, if_neg (by omega), shiftLeft, if_pos (by omega), one_mul]
  refine fit_eq (fits_64_iff.2 ?_)
  rw [show Width.twoPow 62 = 4611686018427387904 from rfl] at most
  rw [← Width.twoPow_eq]
  omega

theorem minValue_eq : minValue bits = some (Width.minValue bits) := by
  rw [minValue]
  split_ifs with wide
  · obtain rfl : bits = 64 := le_antisymm (Width.isValid_iff.1 valid).2 wide
    rw [Width.minValue_64]
  · rw [half_eq valid (by omega), Option.bind_eq_bind, Option.bind_some, opposite,
      ← Width.minValue_of_isValid valid]
    exact fit_eq (fits_minValue bits)

theorem maxValue_eq : maxValue bits = some (Width.maxValue bits) := by
  rw [maxValue]
  split_ifs with wide
  · obtain rfl : bits = 64 := le_antisymm (Width.isValid_iff.1 valid).2 wide
    rw [Width.maxValue_64]
  · rw [half_eq valid (by omega), Option.bind_eq_bind, Option.bind_some, difference,
      ← Width.maxValue_of_isValid valid]
    exact fit_eq (fits_maxValue bits)

theorem wrap_eq (fits : Fits 128 x) : wrap x bits = some (Width.wrap x bits) := by
  have holds : Holds bits (Width.signed x bits) := by
    rw [Width.signed_eq_bmod valid]
    exact Width.holds_bmod valid x
  have residue : remainder 128 x (Width.twoPow bits) = some (Width.residue x bits) :=
    remainder_eq fits (Width.twoPow_pos bits) (fits_twoPow valid)
  have signed : fit 64 (Width.signed x bits) = some (Width.wrap x bits) := by
    rw [Width.wrap, Width.low64_of_holds holds]
    exact fit_eq (fits_of_holds holds)
  simp only [wrap, count_eq valid, residue, maxValue_eq valid, Option.bind_eq_bind, Option.bind_some]
  rw [← signed]
  unfold Width.signed at holds ⊢
  split_ifs at holds ⊢ with above
  · have moved : difference 128 (Width.residue x bits) (Width.twoPow bits) =
        some (Width.residue x bits - Width.twoPow bits) := by
      have word := fits_64_iff.1 (fits_of_holds holds)
      exact fit_eq (fits_128_iff.2 (by omega))
    rw [moved]
    rfl
  · rfl

theorem between_eq (lo hi : Int) : between bits lo hi = some (Interval.between bits lo hi) := by
  rw [between, minValue_eq valid, maxValue_eq valid]
  simp only [Option.bind_eq_bind, Option.bind_some, Interval.between]
  split_ifs <;> rfl

theorem constant_eq (fits : Fits 64 x) : constant bits x = some (Interval.constant bits x) := by
  rw [constant, wrap_eq valid (fits_128_iff.2 (by rw [fits_64_iff] at fits; omega))]
  exact between_eq valid _ _

end Widths

/-- Two bounds and their distance are words of 128 bits. -/
def Spans (p : Int × Int) : Prop := Fits 128 p.1 ∧ Fits 128 p.2 ∧ Fits 128 (p.2 - p.1)

theorem ofExact_eq (valid : Width.isValid bits) (spans : Spans (lo, hi)) :
    ofExact bits lo hi = some (Interval.ofExact bits lo hi) := by
  obtain ⟨first, last, apart⟩ := spans
  have span : difference 128 hi lo = some (hi - lo) := fit_eq apart
  have counted := Width.not_maxCounted_lt valid
  simp only [ofExact, Interval.ofExact, span, count_eq valid, wrap_eq valid first, wrap_eq valid last,
    between_eq valid, counted, false_or, Option.bind_eq_bind, Option.bind_some, Option.pure_def]
  split_ifs <;> rfl

/-- Bounds in order that are words of 64 bits. -/
structure Bounds (p : Int × Int) : Prop where
  ordered : p.1 ≤ p.2
  fst : Fits 64 p.1
  snd : Fits 64 p.2

theorem Bounds.of_canonical {a : Interval} (ha : a.Canonical) {p : Int × Int}
    (bounds : a.bounds? = some p) : Bounds p where
  ordered := (ha.bounds bounds).2.1
  fst := fits_of_holds (ha.representable p.1 p.2 bounds).1
  snd := fits_of_holds (ha.representable p.1 p.2 bounds).2

theorem Bounds.limits {p : Int × Int} (hp : Bounds p) :
    -9223372036854775808 ≤ p.1 ∧ p.1 ≤ p.2 ∧ p.2 ≤ 9223372036854775807 :=
  ⟨(fits_64_iff.1 hp.fst).1, hp.ordered, (fits_64_iff.1 hp.snd).2⟩

/-! ## Exact bounds -/

/-- Exact bounds have been computed, and can be wrapped. -/
structure Computes (computed : Option (Int × Int)) (exact : Int × Int) : Prop where
  result : computed = some exact
  spans : Spans exact

section Lifts

variable {a b : Interval} (ha : a.Canonical)
include ha

theorem lift_eq {f : Int × Int → Option (Int × Int)} {g : Int × Int → Int × Int}
    (exact : ∀ p, Bounds p → Computes (f p) (g p)) :
    lift f a = some (Interval.lift g a) := by
  cases bounds : a.bounds? with
  | none => simp only [lift, Interval.lift, bounds, Option.pure_def]
  | some p =>
    obtain ⟨computed, spans⟩ := exact p (.of_canonical ha bounds)
    simp only [lift, Interval.lift, bounds, computed, Option.bind_eq_bind, Option.bind_some]
    exact ofExact_eq ha.isValid spans

variable (hb : b.Canonical)
include hb

theorem lift₂_eq {f : Int × Int → Int × Int → Option (Int × Int)}
    {g : Int × Int → Int × Int → Int × Int}
    (exact : ∀ p q, Bounds p → Bounds q → Computes (f p q) (g p q)) :
    lift₂ f a b = some (Interval.lift₂ g a b) := by
  cases abounds : a.bounds? with
  | none => simp only [lift₂, Interval.lift₂, abounds, Option.pure_def]
  | some p =>
    cases bbounds : b.bounds? with
    | none => simp only [lift₂, Interval.lift₂, abounds, bbounds, Option.pure_def]
    | some q =>
      obtain ⟨computed, spans⟩ := exact p q (.of_canonical ha abounds) (.of_canonical hb bbounds)
      simp only [lift₂, Interval.lift₂, abounds, bbounds, computed, Option.bind_eq_bind,
        Option.bind_some]
      exact ofExact_eq ha.isValid spans

theorem liftNonzero_eq {f : Int × Int → List (Int × Int) → Option (Int × Int)}
    {g : Int × Int → List (Int × Int) → Int × Int}
    (exact : ∀ p q, Bounds p → Bounds q → Interval.nonzeroParts q ≠ [] →
      Computes (f p (Interval.nonzeroParts q)) (g p (Interval.nonzeroParts q))) :
    liftNonzero f a b = some (Interval.liftNonzero g a b) := by
  cases abounds : a.bounds? with
  | none => simp only [liftNonzero, Interval.liftNonzero, abounds, Option.pure_def]
  | some p =>
    cases bbounds : b.bounds? with
    | none => simp only [liftNonzero, Interval.liftNonzero, abounds, bbounds, Option.pure_def]
    | some q =>
      have step := exact p q (.of_canonical ha abounds) (.of_canonical hb bbounds)
      simp only [liftNonzero, Interval.liftNonzero, abounds, bbounds]
      cases parts : Interval.nonzeroParts q with
      | nil => rfl
      | cons part rest =>
        rw [parts] at step
        obtain ⟨computed, spans⟩ := step (List.cons_ne_nil part rest)
        simp only [computed, Option.bind_eq_bind, Option.bind_some]
        exact ofExact_eq ha.isValid spans

end Lifts

section ExactBounds

theorem Spans.fit_eq {p : Int × Int} (spans : Spans p) :
    (do return (← fit 128 p.1, ← fit 128 p.2)) = some p := by
  rw [Checked.fit_eq spans.1, Checked.fit_eq spans.2.1]
  rfl

/-- Bounds that are a few times as large as words of 64 bits are far from the ends of 128 bits. -/
theorem spans_of_small (first : -2 ^ 65 ≤ lo ∧ lo ≤ 2 ^ 65) (last : -2 ^ 65 ≤ hi ∧ hi ≤ 2 ^ 65) :
    Spans (lo, hi) := by
  simp only [Spans, fits_128_iff]
  omega

/-- The least and the greatest of some integers span no more than bounds of them. -/
theorem spans_hull {corners : List Int} (full : corners ≠ []) (outer : Spans (lo, hi))
    (within : ∀ c ∈ corners, lo ≤ c ∧ c ≤ hi) : Spans (Interval.hull corners) := by
  obtain ⟨least, greatest⟩ := Interval.hull_mem full
  have first := within _ least
  have last := within _ greatest
  have ordered := Interval.hull_fst_le greatest
  simp only [Spans, fits_128_iff] at outer ⊢
  omega

/-- Words of 64 bits that are moved by 63 places span `2 ^ 127 - 2 ^ 63`. -/
theorem shifted_within (hx : Fits 64 x) (small : count < 64) :
    -2 ^ 126 ≤ x * 2 ^ count ∧ x * 2 ^ count ≤ 2 ^ 126 - 2 ^ 63 := by
  rw [fits_64_iff] at hx
  have positive : (0 : Int) < 2 ^ count := by positivity
  have most : (2 : Int) ^ count ≤ 2 ^ 63 := pow_le_pow_right₀ (by norm_num) (by omega)
  constructor <;> nlinarith

/-- The extreme products are those of the smallest word with itself and with the largest one. -/
theorem product_within (hx : Fits 64 x) (hy : Fits 64 y) :
    -(2 ^ 126 - 2 ^ 63) ≤ x * y ∧ x * y ≤ 2 ^ 126 := by
  rw [fits_64_iff] at hx hy
  have enclosed := Interval.productBounds_enclose
    (p := (-9223372036854775808, 9223372036854775807))
    (q := (-9223372036854775808, 9223372036854775807)) hx.1 hx.2 hy.1 hy.2
  exact ⟨le_trans (by decide) enclosed.1, enclosed.2.trans (by decide)⟩

/-- The products of words of 64 bits span `2 ^ 127 - 2 ^ 63`. -/
theorem spans_products : Spans (-(2 ^ 126 - 2 ^ 63), 2 ^ 126) := by
  norm_num [Spans, fits_128_iff]

theorem product_eq (hx : Fits 64 x) (hy : Fits 64 y) : product 128 x y = some (x * y) := by
  have within := product_within hx hy
  exact fit_eq (fits_128_iff.2 (by omega))

theorem mapM_eq_map {α β : Type} {f : α → Option β} {g : α → β} {l : List α}
    (h : ∀ c ∈ l, f c = some (g c)) : l.mapM f = some (l.map g) := by
  induction l with
  | nil => rfl
  | cons c rest ih =>
    rw [List.forall_mem_cons] at h
    simp only [List.mapM_cons, h.1, ih h.2, Option.bind_eq_bind, Option.bind_some, Option.pure_def,
      List.map_cons]

theorem quotient_within (hx : Fits 64 x) (y : Int) :
    -2 ^ 65 ≤ x.tdiv y ∧ x.tdiv y ≤ 2 ^ 65 := by
  have smaller := Int.natAbs_tdiv_le_natAbs x y
  rw [fits_64_iff] at hx
  omega

theorem quotient_eq (hx : Fits 64 x) (nonzero : y ≠ 0) : quotient 128 x y = some (x.tdiv y) := by
  have within := quotient_within hx y
  rw [quotient, if_neg nonzero]
  exact fit_eq (fits_128_iff.2 (by omega))

variable {p q : Int × Int} (hp : Bounds p)
include hp

theorem negatedBounds_computes : Computes (negatedBounds p) (Interval.negatedBounds p) := by
  have limits := hp.limits
  have spans : Spans (Interval.negatedBounds p) := spans_of_small (by omega) (by omega)
  exact ⟨spans.fit_eq, spans⟩

theorem complementBounds_computes : Computes (complementBounds p) (Interval.complementBounds p) := by
  have limits := hp.limits
  have spans : Spans (Interval.complementBounds p) := spans_of_small (by omega) (by omega)
  refine ⟨?_, spans⟩
  rw [complementBounds, (negatedBounds_computes hp).result]
  exact spans.fit_eq

theorem shiftedBounds_computes {amount : Nat} (small : amount < 64) :
    Computes (do return (← shiftLeft 128 p.1 amount, ← shiftLeft 128 p.2 amount))
      (Interval.held (Interval.shiftedBounds amount p)) := by
  have first := shifted_within hp.fst small
  have last := shifted_within hp.snd small
  have exact : Interval.held (Interval.shiftedBounds amount p) =
      (p.1 * 2 ^ amount, p.2 * 2 ^ amount) := by
    rw [Interval.shiftedBounds, Interval.held, Interval.low128_shifted (holds_of_fits hp.fst) small,
      Interval.low128_shifted (holds_of_fits hp.snd) small, Width.twoPow_eq]
  have spans : Spans (p.1 * 2 ^ amount, p.2 * 2 ^ amount) := by
    simp only [Spans, fits_128_iff]
    omega
  rw [exact]
  refine ⟨?_, spans⟩
  rw [shiftLeft, shiftLeft, if_pos (by omega), if_pos (by omega)]
  exact spans.fit_eq

variable (hq : Bounds q)
include hq

theorem sumBounds_computes : Computes (sumBounds p q) (Interval.sumBounds p q) := by
  have limits := hp.limits
  have limits' := hq.limits
  have spans : Spans (Interval.sumBounds p q) := spans_of_small (by omega) (by omega)
  exact ⟨spans.fit_eq, spans⟩

theorem differenceBounds_computes :
    Computes (differenceBounds p q) (Interval.differenceBounds p q) := by
  have limits := hp.limits
  have limits' := hq.limits
  have spans : Spans (Interval.differenceBounds p q) := spans_of_small (by omega) (by omega)
  exact ⟨spans.fit_eq, spans⟩

theorem productBounds_computes : Computes (productBounds p q) (Interval.productBounds p q) := by
  constructor
  · simp only [productBounds, product_eq hp.fst hq.fst, product_eq hp.fst hq.snd,
      product_eq hp.snd hq.fst, product_eq hp.snd hq.snd, List.mapM_cons, List.mapM_nil,
      Option.bind_eq_bind, Option.bind_some, Option.pure_def]
    rfl
  · refine spans_hull (by simp [Interval.productCorners]) spans_products fun c hc => ?_
    simp only [Interval.productCorners, List.mem_cons, List.not_mem_nil, or_false] at hc
    rcases hc with rfl | rfl | rfl | rfl
    · exact product_within hp.fst hq.fst
    · exact product_within hp.fst hq.snd
    · exact product_within hp.snd hq.fst
    · exact product_within hp.snd hq.snd

/-- The divisors are ends of parts that do not hold zero. -/
theorem quotientBounds_computes (some_part : Interval.nonzeroParts q ≠ []) :
    Computes (quotientBounds p (Interval.nonzeroParts q))
      (Interval.quotientBounds p (Interval.nonzeroParts q)) := by
  constructor
  · have corners (part : Int × Int) (mem : part ∈ Interval.nonzeroParts q) :
        (do return [← quotient 128 p.1 part.1, ← quotient 128 p.1 part.2,
          ← quotient 128 p.2 part.1, ← quotient 128 p.2 part.2]) =
        some [p.1.tdiv part.1, p.1.tdiv part.2, p.2.tdiv part.1, p.2.tdiv part.2] := by
      have apart := Interval.of_mem_nonzeroParts hq.ordered mem
      have first : part.1 ≠ 0 := by omega
      have last : part.2 ≠ 0 := by omega
      rw [quotient_eq hp.fst first, quotient_eq hp.fst last, quotient_eq hp.snd first,
        quotient_eq hp.snd last]
      rfl
    rw [quotientBounds, mapM_eq_map corners]
    rfl
  · obtain ⟨part, rest, split⟩ := List.exists_cons_of_ne_nil some_part
    refine spans_hull (by simp [Interval.quotientCorners, split])
      (spans_of_small (by norm_num) (by norm_num) : Spans (-2 ^ 65, 2 ^ 65)) fun c hc => ?_
    obtain ⟨x, y, inside, -, -, rfl⟩ := Interval.of_mem_quotientCorners hp.ordered hq.ordered hc
    have limits := hp.limits
    exact quotient_within (fits_64_iff.2 (by omega)) y

omit hp in
theorem magnitude_eq (some_part : Interval.nonzeroParts q ≠ []) :
    magnitude (Interval.nonzeroParts q) = some (Interval.magnitude (Interval.nonzeroParts q)) ∧
      1 ≤ Interval.magnitude (Interval.nonzeroParts q) ∧
      Interval.magnitude (Interval.nonzeroParts q) ≤ 2 ^ 63 := by
  have limits := hq.limits
  have reach : 1 ≤ Interval.magnitude (Interval.nonzeroParts q) ∧
      Interval.magnitude (Interval.nonzeroParts q) ≤
        Interval.magnitude (Interval.nonzeroParts (-9223372036854775808, 9223372036854775807)) :=
    Interval.magnitude_mono hq.ordered limits.1 limits.2.2 some_part
  refine ⟨?_, reach.1, reach.2.trans (by decide)⟩
  have reaches (part : Int × Int) (mem : part ∈ Interval.nonzeroParts q) :
      (do return max (← distance 128 part.1) (← distance 128 part.2)) =
        some (max (Int.ofNat part.1.natAbs) (Int.ofNat part.2.natAbs)) := by
    have inside := Interval.of_mem_nonzeroParts hq.ordered mem
    rw [distance, distance, fit_eq (fits_128_iff.2 (by omega)), fit_eq (fits_128_iff.2 (by omega))]
    rfl
  rw [magnitude, mapM_eq_map reaches]
  rfl

theorem remainderBounds_computes (some_part : Interval.nonzeroParts q ≠ []) :
    Computes (remainderBounds p (Interval.nonzeroParts q))
      (Interval.remainderBounds p (Interval.nonzeroParts q)) := by
  obtain ⟨computed, least, greatest⟩ := magnitude_eq hq some_part
  have limits := hp.limits
  constructor
  · simp only [remainderBounds, computed, Option.bind_eq_bind, Option.bind_some, difference, opposite]
    rw [fit_eq (fits_128_iff.2 (by omega)), Option.bind_some, fit_eq (fits_128_iff.2 (by omega))]
    rfl
  · refine spans_of_small ?_ ?_ <;> split_ifs <;> omega

end ExactBounds

/-! ## Masks -/

/-- The masks that are not below a value. -/
def masksAbove (value : Int) : Set Int := {m | value ≤ m ∧ ∃ n : Nat, m = 2 ^ n - 1}

theorem isLeast_onesAbove {value : Int} (nonneg : 0 ≤ value) :
    IsLeast (masksAbove value) (Interval.onesAbove value) := by
  obtain ⟨k, shape, covers⟩ := Interval.exists_onesAbove_eq value
  push_cast at shape
  refine ⟨⟨?_, k, shape⟩, ?_⟩
  · have := covers value.toNat (Int.toNat_of_nonneg nonneg).le
    zify at this
    omega
  · rintro m ⟨above, n, rfl⟩
    unfold Interval.onesAbove
    split_ifs with zero
    · omega
    · have small : value.toNat < 2 ^ n := by
        zify
        omega
      have fewer := (Nat.log2_lt (by omega)).2 small
      have := Width.twoPow_mono (show value.toNat.log2 + 1 ≤ n from fewer)
      rw [Width.twoPow_eq n] at this
      omega

/-- Appending ones to a mask that is not above the least one ends there. -/
theorem appendOnes_eq {value mask : Int} (least : IsLeast (masksAbove value) mask)
    (fits : Fits 64 mask) {ones n : Nat} (shape : (ones : Int) = 2 ^ n - 1) (below : ones ≤ mask) :
    appendOnes value ones = some mask := by
  obtain ⟨⟨above, k, rfl⟩, smallest⟩ := least
  -- A mask below the value has fewer ones than the least mask above it, so one more is not too many.
  have step {ones n : Nat} (shape : (ones : Int) = 2 ^ n - 1) (short : (ones : Int) < value) :
      ((ones <<< 1 ||| 1 : Nat) : Int) = 2 ^ (n + 1) - 1 ∧
        ((ones <<< 1 ||| 1 : Nat) : Int) ≤ 2 ^ k - 1 := by
    have fewer : n < k := (pow_lt_pow_iff_right₀ (by norm_num : (1 : Int) < 2)).1 (by omega)
    have next : ((ones <<< 1 ||| 1 : Nat) : Int) = 2 ^ (n + 1) - 1 := by
      rw [shiftLeft_or_one, pow_succ]
      push_cast
      omega
    have most : (2 : Int) ^ (n + 1) ≤ 2 ^ k := pow_le_pow_right₀ (by norm_num) fewer
    exact ⟨next, by omega⟩
  fun_induction appendOnes value ones generalizing n with
  | case1 ones short next _ ih => exact ih (step shape short).1 (step shape short).2
  | case2 ones short none =>
    have kept : Fits 64 ((ones <<< 1 ||| 1 : Nat) : Int) :=
      fits.toward_zero (.inl ⟨Int.natCast_nonneg _, (step shape short).2⟩)
    rw [fit_eq kept] at none
    cases none
  | case3 ones enough =>
    have := smallest ⟨not_lt.1 enough, n, shape⟩
    rw [le_antisymm below this]

/-- The mask above a word is a word. -/
theorem fits_onesAbove {value : Int} (nonneg : 0 ≤ value) (fits : Fits 64 value) :
    Fits 64 (Interval.onesAbove value) := by
  obtain ⟨⟨above, -⟩, smallest⟩ := isLeast_onesAbove nonneg
  have := smallest ⟨fits.2, 63, rfl⟩
  rw [fits_64_iff]
  omega

theorem appendOnes_zero {value : Int} (nonneg : 0 ≤ value) (fits : Fits 64 value) :
    appendOnes value 0 = some (Interval.onesAbove value) := by
  have least := isLeast_onesAbove nonneg
  exact appendOnes_eq least (fits_onesAbove nonneg fits) (n := 0) rfl (nonneg.trans least.1.1)

/-! ## Operators -/

section Operators

variable {a b : Interval} (ha : a.Canonical)
include ha

theorem unary_eq (op : UnaryOperator) : unary op a = some (Interval.unary op a) := by
  cases op with
  | neg => exact lift_eq ha fun _ => negatedBounds_computes
  | not => exact lift_eq ha fun _ => complementBounds_computes

theorem cast_eq (valid : Width.isValid bits) : cast a bits = some (a.cast bits) := by
  cases bounds : a.bounds? with
  | none => simp only [cast, Interval.cast, bounds, Option.pure_def]
  | some p =>
    have word := Bounds.of_canonical ha bounds
    have limits := word.limits
    simp only [cast, Interval.cast, bounds]
    exact ofExact_eq valid (spans_of_small (by omega) (by omega))

theorem and_eq (b : Interval) : and a b = some (a.and b) := by
  cases abounds : a.bounds? with
  | none => simp only [and, Interval.and, abounds, Option.pure_def]
  | some p =>
    cases bbounds : b.bounds? with
    | none => simp only [and, Interval.and, abounds, bbounds, Option.pure_def]
    | some q =>
      simp only [and, Interval.and, abounds, bbounds, between_eq ha.isValid]
      split_ifs <;> rfl

variable (hb : b.Canonical)
include hb

/-- The mask above two upper bounds that are not negative is found without overflow. -/
theorem appendOnes_max {p q : Int × Int} (abounds : a.bounds? = some p)
    (bbounds : b.bounds? = some q) (nonneg : 0 ≤ p.1 ∧ 0 ≤ q.1) :
    appendOnes (max p.2 q.2) 0 = some (Interval.onesAbove (max p.2 q.2)) := by
  have hp := Bounds.of_canonical ha abounds
  have hq := Bounds.of_canonical hb bbounds
  have limits := hp.limits
  have limits' := hq.limits
  exact appendOnes_zero (by omega) (fits_64_iff.2 (by omega))

theorem or_eq : or a b = some (a.or b) := by
  cases abounds : a.bounds? with
  | none => simp only [or, Interval.or, abounds, Option.pure_def]
  | some p =>
    cases bbounds : b.bounds? with
    | none => simp only [or, Interval.or, abounds, bbounds, Option.pure_def]
    | some q =>
      simp only [or, Interval.or, abounds, bbounds]
      split_ifs with nonneg
      · rw [appendOnes_max ha hb abounds bbounds nonneg]
        exact between_eq ha.isValid _ _
      · rfl

theorem xor_eq : xor a b = some (a.xor b) := by
  cases abounds : a.bounds? with
  | none => simp only [xor, Interval.xor, abounds, Option.pure_def]
  | some p =>
    cases bbounds : b.bounds? with
    | none => simp only [xor, Interval.xor, abounds, bbounds, Option.pure_def]
    | some q =>
      simp only [xor, Interval.xor, abounds, bbounds]
      split_ifs with nonneg
      · rw [appendOnes_max ha hb abounds bbounds nonneg]
        exact between_eq ha.isValid _ _
      · rfl

theorem shiftAmount_eq : shiftAmount a b = some (a.shiftAmount? b) := by
  cases known : b.value? with
  | none => simp only [shiftAmount, Interval.shiftAmount?, known, Option.pure_def, Option.map_none]
  | some value =>
    have valid := Width.isValid_iff.1 ha.isValid
    have word : Fits 64 value :=
      fits_of_holds (hb.holds (Interval.contains_of_value?_eq_some known))
    have width : Fits 64 a.bits := fits_64_iff.2 (by omega)
    rw [Interval.shiftAmount?_of_value? ha.isValid known]
    simp only [shiftAmount, known, fit_eq width, Option.bind_eq_bind, Option.bind_some,
      remainder_eq word (show (0 : Int) < a.bits by omega) width, Option.pure_def]

omit hb in
theorem shiftAmount?_lt_bits {amount : Nat} (known : a.shiftAmount? b = some amount) :
    amount < a.bits := by
  have valid := Width.isValid_iff.1 ha.isValid
  obtain ⟨value, single, -⟩ := Option.map_eq_some_iff.1 known
  have below := Int.emod_lt_of_pos value (show (0 : Int) < a.bits by omega)
  rw [Interval.shiftAmount?_of_value? ha.isValid single, Option.some.injEq] at known
  omega

theorem shl_eq : shl a b = some (a.shl b) := by
  have narrow := (Width.isValid_iff.1 ha.isValid).2
  rw [shl, Interval.shl, shiftAmount_eq ha hb]
  split_ifs with empty
  · rfl
  · cases known : a.shiftAmount? b with
    | none => rfl
    | some amount =>
      have small := shiftAmount?_lt_bits ha known
      exact lift_eq ha fun _ hp => shiftedBounds_computes hp (small.trans_le narrow)

theorem shr_eq : shr a b = some (a.shr b) := by
  have narrow := (Width.isValid_iff.1 ha.isValid).2
  rw [shr, Interval.shr, shiftAmount_eq ha hb]
  split_ifs with empty
  · rfl
  · cases bounds : a.bounds? with
    | none => rfl
    | some p =>
      have word := Bounds.of_canonical ha bounds
      cases known : a.shiftAmount? b with
      | none =>
        simp only [Option.bind_eq_bind, Option.bind_some, between_eq ha.isValid]
        split_ifs <;> rfl
      | some amount =>
        have small := (shiftAmount?_lt_bits ha known).trans_le narrow
        simp only [Option.bind_eq_bind, Option.bind_some, shiftRight_eq word.fst small,
          shiftRight_eq word.snd small, between_eq ha.isValid, Width.twoPow_eq]

theorem ushr_eq : ushr a b = some (a.ushr b) := by
  rw [ushr, Interval.ushr, shiftAmount_eq ha hb, shr_eq ha hb]
  split_ifs with empty
  · rfl
  · cases a.bounds? with
    | none => rfl
    | some p =>
      rcases a.shiftAmount? b with _ | _ | amount
      · exact (apply_ite some (0 ≤ p.1) (a.shr b) (Interval.top a.bits)).symm
      · rfl
      · exact (apply_ite some (0 ≤ p.1) (a.shr b) (Interval.top a.bits)).symm

theorem binary_eq (op : BinaryOperator) : binary op a b = some (Interval.binary op a b) := by
  cases op with
  | add => exact lift₂_eq ha hb fun _ _ => sumBounds_computes
  | sub => exact lift₂_eq ha hb fun _ _ => differenceBounds_computes
  | mul => exact lift₂_eq ha hb fun _ _ => productBounds_computes
  | div => exact liftNonzero_eq ha hb fun _ _ => quotientBounds_computes
  | rem => exact liftNonzero_eq ha hb fun _ _ => remainderBounds_computes
  | and => exact and_eq ha b
  | or => exact or_eq ha hb
  | xor => exact xor_eq ha hb
  | shl => exact shl_eq ha hb
  | shr => exact shr_eq ha hb
  | ushr => exact ushr_eq ha hb

end Operators

/-! ## Narrowing -/

section Narrowing

variable {a b : Interval} (ha : a.Canonical)
include ha

theorem meet_eq (b : Interval) : meet a b = some (a.meet b) := by
  rw [meet, Interval.meet]
  split_ifs with apart
  · rfl
  · cases a.bounds? with
    | none => rfl
    | some p =>
      cases b.bounds? with
      | none => rfl
      | some q => exact between_eq ha.isValid _ _

/-- A bound moves inward only if it is not the other bound, so that it is not the last word. -/
theorem without_eq (value : Int) : without a value = some (a.without value) := by
  cases bounds : a.bounds? with
  | none => simp only [without, Interval.without, bounds, Option.pure_def]
  | some p =>
    have word := Bounds.of_canonical ha bounds
    have limits := word.limits
    simp only [without, Interval.without, bounds]
    split_ifs with single low high
    · rfl
    · rw [sum, fit_eq (fits_64_iff.2 (by omega))]
      exact between_eq ha.isValid _ _
    · rw [difference, fit_eq (fits_64_iff.2 (by omega))]
      exact between_eq ha.isValid _ _
    · rfl

variable (hb : b.Canonical) (same : a.bits = b.bits)
include hb same

theorem refine_eq (c : Comparison) : refine a c b = some (a.refine c b) := by
  cases abounds : a.bounds? with
  | none => simp only [refine, Interval.refine, abounds, Option.pure_def]
  | some p =>
    cases bbounds : b.bounds? with
    | none => simp only [refine, Interval.refine, abounds, bbounds, Option.pure_def]
    | some q =>
      -- The bounds of `b` are words of the width, so one that is not the end can be moved on.
      have inside := hb.bounds bbounds
      have least : Fits 64 (Width.minValue a.bits) := fits_minValue a.bits
      have greatest : Fits 64 (Width.maxValue a.bits) := fits_maxValue a.bits
      rw [fits_64_iff] at least greatest
      rw [← same] at inside
      simp only [refine, Interval.refine, abounds, bbounds, minValue_eq ha.isValid,
        maxValue_eq ha.isValid, Option.bind_eq_bind, Option.bind_some]
      cases c with
      | eq => exact meet_eq ha b
      | ne =>
        cases b.value? with
        | none => rfl
        | some value => exact without_eq ha value
      | lt =>
        dsimp only
        split_ifs with first
        · rfl
        · rw [difference, fit_eq (fits_64_iff.2 (by omega)), Option.bind_some, between_eq ha.isValid]
          exact meet_eq ha _
      | le =>
        simp only [between_eq ha.isValid, Option.bind_some]
        exact meet_eq ha _
      | gt =>
        dsimp only
        split_ifs with last
        · rfl
        · rw [sum, fit_eq (fits_64_iff.2 (by omega)), Option.bind_some, between_eq ha.isValid]
          exact meet_eq ha _
      | ge =>
        simp only [between_eq ha.isValid, Option.bind_some]
        exact meet_eq ha _

end Narrowing

/-- No word of a computation on canonical intervals overflows, nothing is divided by zero and nothing
is shifted by its width or more: every operator, cast and narrowing on machine words has a result, and
it is the one on unbounded integers. Neither do the constructors overflow, on exact bounds whose distance
is a word, and appending ones ends at the least mask that is not below a word. -/
theorem operators_exact {a b : Interval} (ha : a.Canonical) (hb : b.Canonical) :
    (∀ op, unary op a = some (Interval.unary op a)) ∧
    (∀ bits, Width.isValid bits → cast a bits = some (a.cast bits)) ∧
    (∀ op, binary op a b = some (Interval.binary op a b)) ∧
    (∀ amount, a.shiftAmount? b = some amount → amount < a.bits) ∧
    (a.bits = b.bits → ∀ c, refine a c b = some (a.refine c b)) ∧
    (∀ lo hi, between a.bits lo hi = some (Interval.between a.bits lo hi)) ∧
    (∀ x, Fits 64 x → constant a.bits x = some (Interval.constant a.bits x)) ∧
    (∀ lo hi, Spans (lo, hi) → ofExact a.bits lo hi = some (Interval.ofExact a.bits lo hi)) ∧
    ∀ x, 0 ≤ x → Fits 64 x → appendOnes x 0 = some (Interval.onesAbove x) ∧
      Fits 64 (Interval.onesAbove x) ∧ IsLeast (masksAbove x) (Interval.onesAbove x) := by
  refine ⟨unary_eq ha, fun _ => cast_eq ha, binary_eq ha hb, fun _ => shiftAmount?_lt_bits ha,
    refine_eq ha hb, between_eq ha.isValid, fun _ => constant_eq ha.isValid,
    fun _ _ => ofExact_eq ha.isValid, fun x nonneg fits => ?_⟩
  exact ⟨appendOnes_zero nonneg fits, fits_onesAbove nonneg fits, isLeast_onesAbove nonneg⟩

open RangeFlow.Interval (top bottom range) in
/-- Words of 64 bits reach the ends: all of them multiplied by each other and shifted by 63 places, the
smallest one divided by minus one, and nothing above the largest one, to which one cannot be added. -/
theorem operators_exact_ends :
    (top 64).Canonical ∧ (Interval.constant 64 (-1)).Canonical ∧
    (range 64 9223372036854775807 9223372036854775807).Canonical ∧
    Checked.binary .mul (top 64) (top 64) = some (top 64) ∧
    Checked.binary .shl (top 64) (Interval.constant 64 (-1)) = some (top 64) ∧
    Checked.binary .div (top 64) (Interval.constant 64 (-1)) = some (top 64) ∧
    Checked.sum 64 9223372036854775807 1 = none ∧
    Checked.refine (top 64) .gt (range 64 9223372036854775807 9223372036854775807) =
      some (bottom 64) ∧
    Checked.appendOnes 4611686018427387904 0 = some 9223372036854775807 := by
  have all : (top 64).Canonical := by decide
  have one : (Interval.constant 64 (-1)).Canonical := Interval.canonical_constant rfl _
  have last : (range 64 9223372036854775807 9223372036854775807).Canonical := by decide
  obtain ⟨-, -, products, -⟩ := operators_exact all all
  obtain ⟨-, -, shifts, -⟩ := operators_exact all one
  obtain ⟨-, -, -, -, narrowing, -, -, -, masks⟩ := operators_exact all last
  refine ⟨all, one, last, ?_, ?_, ?_, by decide, ?_, ?_⟩
  · rw [products]
    decide
  · rw [shifts]
    decide
  · rw [shifts]
    decide
  · rw [narrowing rfl]
    decide
  · rw [(masks _ (by decide) (by decide)).1]
    decide

end RangeFlow.Checked
