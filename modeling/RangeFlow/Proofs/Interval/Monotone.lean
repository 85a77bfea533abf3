import RangeFlow.Proofs.Interval.Closure
import RangeFlow.Proofs.Interval.Inclusion

/-!
# Operators are monotone

A larger operand gives a larger result (`unary_mono`, `cast_mono`, `binary_mono`), except that
nothing is known of a division by an interval that holds only zero. The operators that compute exact
bounds are monotone because the bounds are and because wrapping keeps inclusion (`ofExact_mono`); those
that look at bits are compared formula by formula.
-/

namespace RangeFlow.Interval

open Width (Holds)

/-- The bounds of an interval enclose those of an interval in it. -/
theorem exists_bounds_of_isSubset {a b : Interval} (h : a.isSubset b) {p : Int × Int}
    (bounds : a.bounds? = some p) : ∃ q : Int × Int, b.bounds? = some q ∧ q.1 ≤ p.1 ∧ p.2 ≤ q.2 := by
  obtain ⟨lo, hi, bounds', lower, upper⟩ := (isSubset_iff.1 h).2 p.1 p.2 bounds
  exact ⟨(lo, hi), bounds', lower, upper⟩

theorem exists_bounds {a : Interval} (ha : a.Proper) :
    ∃ p : Int × Int, a.bounds? = some p ∧ Width.minValue a.bits ≤ p.1 ∧ p.1 ≤ p.2 ∧
      p.2 ≤ Width.maxValue a.bits := by
  obtain ⟨lo, hi, bounds, inside⟩ := ha.exists_bounds
  exact ⟨(lo, hi), bounds, inside⟩

/-! ## Exact bounds -/

/-- Wrapping keeps inclusion: a range that wraps as one piece does so with all its parts. -/
theorem ofExact_mono {bits : Nat} (valid : Width.isValid bits) {lo hi lo' hi' : Int}
    (lower : lo' ≤ lo) (upper : hi ≤ hi') :
    (ofExact bits lo hi).isSubset (ofExact bits lo' hi') := by
  by_cases empty : hi < lo
  · rw [ofExact, if_pos empty]
    exact bottom_isSubset (by simp)
  · have inside := (canonical_ofExact valid lo hi).normal.inside
    have whole : ofExact bits lo' hi' = top bits →
        (ofExact bits lo hi).isSubset (ofExact bits lo' hi') :=
      fun h => by rw [h]; exact inside.isSubset_top (by simp)
    by_cases wide : Width.maxCounted < bits ∨ Width.twoPow bits ≤ hi' - lo'
    · exact whole (by rw [ofExact, if_neg (by omega), if_pos wide])
    · by_cases ordered : Width.wrap lo' bits ≤ Width.wrap hi' bits
      · -- Both ranges are moved by the same multiple of the number of words.
        obtain ⟨m, moved⟩ :=
          exists_wrap_eq_of_ordered valid (by omega) (by push Not at wide; exact wide.2) ordered
        have first := moved lo (by omega) (by omega)
        have last := moved hi (by omega) (by omega)
        have first' := moved lo' le_rfl (by omega)
        have last' := moved hi' (by omega) le_rfl
        have inner : ofExact bits lo hi =
            between bits (Width.wrap lo bits) (Width.wrap hi bits) := by
          rw [ofExact, if_neg empty, if_neg (by omega)]
          exact if_pos (by omega)
        have outer : ofExact bits lo' hi' =
            between bits (Width.wrap lo' bits) (Width.wrap hi' bits) := by
          rw [ofExact, if_neg (by omega), if_neg wide]
          exact if_pos ordered
        rw [inner, outer]
        exact between_mono bits (by omega) (by omega)
      · refine whole ?_
        rw [ofExact, if_neg (by omega), if_neg wide]
        exact if_neg ordered

theorem lift_mono {f : Int × Int → Int × Int} {a a' : Interval} (ha : a.Proper)
    (h : a.isSubset a')
    (mono : ∀ p q : Int × Int, a.bounds? = some p → a'.bounds? = some q → q.1 ≤ p.1 → p.2 ≤ q.2 →
      (f q).1 ≤ (f p).1 ∧ (f p).2 ≤ (f q).2) : (lift f a).isSubset (lift f a') := by
  obtain ⟨p, bounds, -⟩ := exists_bounds ha
  obtain ⟨q, bounds', lower, upper⟩ := exists_bounds_of_isSubset h bounds
  obtain ⟨lower, upper⟩ := mono p q bounds bounds' lower upper
  rw [lift, lift, bounds, bounds', ← bits_eq_of_isSubset h]
  exact ofExact_mono ha.1.isValid lower upper

theorem lift₂_mono {f : Int × Int → Int × Int → Int × Int} {a b a' b' : Interval} (ha : a.Proper)
    (hb : b.Proper) (hab : a.isSubset a') (hbb : b.isSubset b')
    (mono : ∀ p q p' q' : Int × Int, p.1 ≤ p.2 → q.1 ≤ q.2 → p'.1 ≤ p.1 → p.2 ≤ p'.2 →
      q'.1 ≤ q.1 → q.2 ≤ q'.2 → (f p' q').1 ≤ (f p q).1 ∧ (f p q).2 ≤ (f p' q').2) :
    (lift₂ f a b).isSubset (lift₂ f a' b') := by
  obtain ⟨p, abounds, -, ordered, -⟩ := exists_bounds ha
  obtain ⟨q, bbounds, -, ordered', -⟩ := exists_bounds hb
  obtain ⟨p', abounds', alower, aupper⟩ := exists_bounds_of_isSubset hab abounds
  obtain ⟨q', bbounds', blower, bupper⟩ := exists_bounds_of_isSubset hbb bbounds
  obtain ⟨lower, upper⟩ := mono p q p' q' ordered ordered' alower aupper blower bupper
  rw [lift₂, lift₂, abounds, abounds', bbounds, bbounds', ← bits_eq_of_isSubset hab]
  exact ofExact_mono ha.1.isValid lower upper

theorem cast_mono {a a' : Interval} {bits : Nat} (valid : Width.isValid bits) (ha : a.Proper)
    (h : a.isSubset a') : (a.cast bits).isSubset (a'.cast bits) := by
  obtain ⟨p, bounds, -⟩ := exists_bounds ha
  obtain ⟨q, bounds', lower, upper⟩ := exists_bounds_of_isSubset h bounds
  rw [cast, cast, bounds, bounds']
  exact ofExact_mono valid lower upper

theorem unary_mono {a a' : Interval} (ha : a.Proper) (h : a.isSubset a')
    (operator : UnaryOperator) : (unary operator a).isSubset (unary operator a') := by
  cases operator with
  | neg =>
    refine lift_mono ha h fun p q _ _ _ _ => ?_
    simp only [negatedBounds]
    omega
  | not =>
    refine lift_mono ha h fun p q _ _ _ _ => ?_
    simp only [complementBounds]
    omega

/-! ## Corners -/

/-- Corners that lie between the ends of other corners have their ends there as well. -/
theorem hull_mono {corners corners' : List Int} (full : corners ≠ [])
    (h : ∀ c ∈ corners, (hull corners').1 ≤ c ∧ c ≤ (hull corners').2) :
    (hull corners').1 ≤ (hull corners).1 ∧ (hull corners).2 ≤ (hull corners').2 := by
  obtain ⟨least, greatest⟩ := hull_mem full
  exact ⟨(h _ least).1, (h _ greatest).2⟩

/-- Every corner is a product of values between the bounds. -/
theorem of_mem_productCorners {p q : Int × Int} (ordered : p.1 ≤ p.2) (ordered' : q.1 ≤ q.2)
    {c : Int} (hc : c ∈ productCorners p q) :
    ∃ x y, (p.1 ≤ x ∧ x ≤ p.2) ∧ (q.1 ≤ y ∧ y ≤ q.2) ∧ c = x * y := by
  simp only [productCorners, List.mem_cons, List.not_mem_nil, or_false] at hc
  rcases hc with rfl | rfl | rfl | rfl <;>
    exact ⟨_, _, ⟨by omega, by omega⟩, ⟨by omega, by omega⟩, rfl⟩

theorem mul_mono {a b a' b' : Interval} (ha : a.Proper) (hb : b.Proper) (hab : a.isSubset a')
    (hbb : b.isSubset b') : (a.mul b).isSubset (a'.mul b') := by
  refine lift₂_mono ha hb hab hbb fun p q p' q' ordered ordered' alower aupper blower bupper => ?_
  refine hull_mono (by simp [productCorners]) fun c hc => ?_
  obtain ⟨x, y, inA, inB, rfl⟩ := of_mem_productCorners ordered ordered' hc
  exact productBounds_enclose (by omega) (by omega) (by omega) (by omega)

/-! ## Quotients and remainders -/

theorem nonzeroParts_eq_nil_iff {p : Int × Int} : nonzeroParts p = [] ↔ 0 ≤ p.1 ∧ p.2 ≤ 0 := by
  simp only [nonzeroParts]
  split_ifs <;> simp <;> omega

/-- The parts of a divisor are in order, on one side of zero, and inside the divisor. -/
theorem of_mem_nonzeroParts {p part : Int × Int} (ordered : p.1 ≤ p.2)
    (mem : part ∈ nonzeroParts p) :
    p.1 ≤ part.1 ∧ part.1 ≤ part.2 ∧ part.2 ≤ p.2 ∧ (part.2 < 0 ∨ 0 < part.1) := by
  simp only [nonzeroParts, List.mem_append, List.mem_ite_nil_right, List.mem_singleton] at mem
  rcases mem with ⟨low, rfl⟩ | ⟨high, rfl⟩ <;> dsimp only <;> omega

theorem liftNonzero_of_bounds {f : Int × Int → List (Int × Int) → Int × Int} {a b : Interval}
    {p q : Int × Int} (abounds : a.bounds? = some p) (bbounds : b.bounds? = some q)
    (parts : nonzeroParts q ≠ []) :
    liftNonzero f a b = ofExact a.bits (f p (nonzeroParts q)).1 (f p (nonzeroParts q)).2 := by
  rw [liftNonzero, abounds, bbounds]
  dsimp only
  split
  · exact absurd ‹_› parts
  · rfl

/-- A divisor that is not exactly zero has a part on one side of it. -/
theorem nonzeroParts_ne_nil {b : Interval} (hb : b.Proper) (nonzero : b.bounds? ≠ some (0, 0))
    {q : Int × Int} (bounds : b.bounds? = some q) : nonzeroParts q ≠ [] := by
  have ordered := (hb.1.bounds bounds).2.1
  rw [ne_eq, nonzeroParts_eq_nil_iff]
  rintro ⟨lower, upper⟩
  exact nonzero (by rw [bounds, Option.some.injEq, Prod.ext_iff]; dsimp only; omega)

theorem liftNonzero_mono {f : Int × Int → List (Int × Int) → Int × Int} {a b a' b' : Interval}
    (ha : a.Proper) (hb : b.Proper) (nonzero : b.bounds? ≠ some (0, 0)) (hab : a.isSubset a')
    (hbb : b.isSubset b')
    (mono : ∀ p q p' q' : Int × Int, p.1 ≤ p.2 → q.1 ≤ q.2 → p'.1 ≤ p.1 → p.2 ≤ p'.2 →
      q'.1 ≤ q.1 → q.2 ≤ q'.2 → nonzeroParts q ≠ [] →
      (f p' (nonzeroParts q')).1 ≤ (f p (nonzeroParts q)).1 ∧
        (f p (nonzeroParts q)).2 ≤ (f p' (nonzeroParts q')).2) :
    (liftNonzero f a b).isSubset (liftNonzero f a' b') := by
  obtain ⟨p, abounds, -, ordered, -⟩ := exists_bounds ha
  obtain ⟨q, bbounds, -, ordered', -⟩ := exists_bounds hb
  obtain ⟨p', abounds', alower, aupper⟩ := exists_bounds_of_isSubset hab abounds
  obtain ⟨q', bbounds', blower, bupper⟩ := exists_bounds_of_isSubset hbb bbounds
  have parts := nonzeroParts_ne_nil hb nonzero bbounds
  have parts' : nonzeroParts q' ≠ [] := by
    rw [ne_eq, nonzeroParts_eq_nil_iff] at parts ⊢
    omega
  obtain ⟨lower, upper⟩ := mono p q p' q' ordered ordered' alower aupper blower bupper parts
  rw [liftNonzero_of_bounds abounds bbounds parts, liftNonzero_of_bounds abounds' bbounds' parts',
    ← bits_eq_of_isSubset hab]
  exact ofExact_mono ha.1.isValid lower upper

/-- Every corner is a quotient of values between the bounds. -/
theorem of_mem_quotientCorners {p q : Int × Int} (ordered : p.1 ≤ p.2) (ordered' : q.1 ≤ q.2)
    {c : Int} (hc : c ∈ quotientCorners p (nonzeroParts q)) :
    ∃ x y, (p.1 ≤ x ∧ x ≤ p.2) ∧ (q.1 ≤ y ∧ y ≤ q.2) ∧ y ≠ 0 ∧ c = x.tdiv y := by
  obtain ⟨part, mem, hc⟩ := List.mem_flatMap.1 hc
  obtain ⟨first, inOrder, last, side⟩ := of_mem_nonzeroParts ordered' mem
  simp only [List.mem_cons, List.not_mem_nil, or_false] at hc
  rcases hc with rfl | rfl | rfl | rfl <;>
    exact ⟨_, _, ⟨by omega, by omega⟩, ⟨by omega, by omega⟩, by omega, rfl⟩

theorem quotientBounds_enclose_nonzero {p q : Int × Int} {x y : Int} (alower : p.1 ≤ x)
    (aupper : x ≤ p.2) (blower : q.1 ≤ y) (bupper : y ≤ q.2) (nonzero : y ≠ 0) :
    (quotientBounds p (nonzeroParts q)).1 ≤ x.tdiv y ∧
      x.tdiv y ≤ (quotientBounds p (nonzeroParts q)).2 := by
  obtain ⟨dlo, dhi, mem, dlower, dupper, side⟩ := mem_nonzeroParts blower bupper nonzero
  exact quotientBounds_enclose alower aupper mem dlower dupper side

theorem div_mono {a b a' b' : Interval} (ha : a.Proper) (hb : b.Proper)
    (nonzero : b.bounds? ≠ some (0, 0)) (hab : a.isSubset a') (hbb : b.isSubset b') :
    (a.div b).isSubset (a'.div b') := by
  refine liftNonzero_mono ha hb nonzero hab hbb
    fun p q p' q' ordered ordered' alower aupper blower bupper parts => ?_
  refine hull_mono ?_ fun c hc => ?_
  · obtain ⟨part, rest, split⟩ := List.exists_cons_of_ne_nil parts
    simp [quotientCorners, split]
  · obtain ⟨x, y, inA, inB, apart, rfl⟩ := of_mem_quotientCorners ordered ordered' hc
    exact quotientBounds_enclose_nonzero (by omega) (by omega) (by omega) (by omega) apart

/-- The parts of a larger divisor reach at least as far from zero. -/
theorem magnitude_mono {q q' : Int × Int} (ordered : q.1 ≤ q.2) (lower : q'.1 ≤ q.1)
    (upper : q.2 ≤ q'.2) (parts : nonzeroParts q ≠ []) :
    1 ≤ magnitude (nonzeroParts q) ∧ magnitude (nonzeroParts q) ≤ magnitude (nonzeroParts q') := by
  unfold magnitude
  cases greatest : ((nonzeroParts q).map fun p : Int × Int =>
      max (Int.ofNat p.1.natAbs) (Int.ofNat p.2.natAbs)).max? with
  | none => simp [parts] at greatest
  | some m =>
    obtain ⟨part, mem, rfl⟩ := List.mem_map.1 (List.max?_eq_some_iff.1 greatest).1
    obtain ⟨first, inOrder, last, side⟩ := of_mem_nonzeroParts ordered mem
    have reach {y : Int} (hl : part.1 ≤ y) (hu : y ≤ part.2) :
        (y.natAbs : Int) ≤ magnitude (nonzeroParts q') := by
      obtain ⟨dlo, dhi, mem', dlower, dupper, -⟩ :=
        mem_nonzeroParts (lower.trans (first.trans hl)) (hu.trans (last.trans upper)) (by omega)
      exact natAbs_le_magnitude mem' dlower dupper
    have low := reach le_rfl inOrder
    have high := reach inOrder le_rfl
    simp only [magnitude, Int.ofNat_eq_natCast, Option.getD_some] at low high ⊢
    omega

theorem rem_mono {a b a' b' : Interval} (ha : a.Proper) (hb : b.Proper)
    (nonzero : b.bounds? ≠ some (0, 0)) (hab : a.isSubset a') (hbb : b.isSubset b') :
    (a.rem b).isSubset (a'.rem b') := by
  refine liftNonzero_mono ha hb nonzero hab hbb
    fun p q p' q' ordered ordered' alower aupper blower bupper parts => ?_
  have magnitudes := magnitude_mono ordered' blower bupper parts
  simp only [remainderBounds]
  constructor <;> split_ifs <;> omega

/-! ## Bitwise operators -/

theorem binary_isSubset_top {a : Interval} (ha : a.Proper) (operator : BinaryOperator)
    (b : Interval) {bits : Nat} (width : a.bits = bits) :
    (binary operator a b).isSubset (top bits) := by
  have canonical : (binary operator a b).Canonical := by
    rcases canonical_binary_or_eq ha.1.isValid operator b with canonical | same
    · exact canonical
    · rw [same]
      exact ha.1
  exact canonical.normal.inside.isSubset_top (by rw [bits_binary, width])

theorem onesAbove_mono {x y : Int} (h : x ≤ y) : onesAbove x ≤ onesAbove y := by
  unfold onesAbove
  split_ifs with hx hy hy
  · exact le_rfl
  · have := Width.twoPow_pos (y.toNat.log2 + 1)
    omega
  · omega
  · have larger : x.toNat.log2 + 1 ≤ y.toNat.log2 + 1 := by
      rw [Nat.log2_eq_log_two, Nat.log2_eq_log_two]
      exact Nat.succ_le_succ (Nat.log_mono_right (by omega))
    have := pow_le_pow_right₀ (show (1 : Int) ≤ 2 by norm_num) larger
    rw [Width.twoPow_eq, Width.twoPow_eq]
    omega

section Bitwise

variable {a b a' b' : Interval} (ha : a.Proper) (hb : b.Proper) (hab : a.isSubset a')
  (hbb : b.isSubset b')
include ha hb hab hbb

theorem and_mono : (a.and b).isSubset (a'.and b') := by
  have bits := bits_eq_of_isSubset hab
  have whole := binary_isSubset_top ha .and b bits
  obtain ⟨p, abounds, -, ordered, -⟩ := exists_bounds ha
  obtain ⟨q, bbounds, -, ordered', -⟩ := exists_bounds hb
  obtain ⟨p', abounds', alower, aupper⟩ := exists_bounds_of_isSubset hab abounds
  obtain ⟨q', bbounds', blower, bupper⟩ := exists_bounds_of_isSubset hbb bbounds
  simp only [binary, and, abounds, abounds', bbounds, bbounds'] at whole ⊢
  by_cases left : 0 ≤ p'.1 <;> by_cases right : 0 ≤ q'.1
  · rw [if_pos (by omega), if_pos (by omega), bits]
    exact between_mono _ le_rfl (by omega)
  · rw [if_neg (c := 0 ≤ p'.1 ∧ 0 ≤ q'.1) (by omega), if_pos left, bits]
    split_ifs
    · exact between_mono _ le_rfl (by omega)
    · exact between_mono _ le_rfl (by omega)
    · omega
    · omega
  · rw [if_neg (c := 0 ≤ p'.1 ∧ 0 ≤ q'.1) (by omega), if_neg left, if_pos right, bits]
    split_ifs
    · exact between_mono _ le_rfl (by omega)
    · omega
    · exact between_mono _ le_rfl (by omega)
    · omega
  · rw [if_neg (c := 0 ≤ p'.1 ∧ 0 ≤ q'.1) (by omega), if_neg left, if_neg right]
    exact whole

theorem or_mono : (a.or b).isSubset (a'.or b') := by
  have bits := bits_eq_of_isSubset hab
  have whole := binary_isSubset_top ha .or b bits
  obtain ⟨p, abounds, -, ordered, -⟩ := exists_bounds ha
  obtain ⟨q, bbounds, -, ordered', -⟩ := exists_bounds hb
  obtain ⟨p', abounds', alower, aupper⟩ := exists_bounds_of_isSubset hab abounds
  obtain ⟨q', bbounds', blower, bupper⟩ := exists_bounds_of_isSubset hbb bbounds
  simp only [binary, or, abounds, abounds', bbounds, bbounds'] at whole ⊢
  by_cases nonneg : 0 ≤ p'.1 ∧ 0 ≤ q'.1
  · rw [if_pos (by omega), if_pos nonneg, bits]
    exact between_mono _ (by omega) (onesAbove_mono (by omega))
  · rw [if_neg nonneg]
    exact whole

theorem xor_mono : (a.xor b).isSubset (a'.xor b') := by
  have bits := bits_eq_of_isSubset hab
  have whole := binary_isSubset_top ha .xor b bits
  obtain ⟨p, abounds, -, ordered, -⟩ := exists_bounds ha
  obtain ⟨q, bbounds, -, ordered', -⟩ := exists_bounds hb
  obtain ⟨p', abounds', alower, aupper⟩ := exists_bounds_of_isSubset hab abounds
  obtain ⟨q', bbounds', blower, bupper⟩ := exists_bounds_of_isSubset hbb bbounds
  simp only [binary, xor, abounds, abounds', bbounds, bbounds'] at whole ⊢
  by_cases nonneg : 0 ≤ p'.1 ∧ 0 ≤ q'.1
  · rw [if_pos (by omega), if_pos nonneg, bits]
    exact between_mono _ le_rfl (onesAbove_mono (by omega))
  · rw [if_neg nonneg]
    exact whole

end Bitwise

/-! ## Shifts -/

/-- An amount that is known for a larger interval is the same for every interval in it. -/
theorem shiftAmount?_of_isSubset {a b a' b' : Interval} (bits : a.bits = a'.bits) (hb : b.Proper)
    (hbb : b.isSubset b') {amount : Nat} (known : a'.shiftAmount? b' = some amount) :
    a.shiftAmount? b = some amount := by
  obtain ⟨value, single, rfl⟩ := Option.map_eq_some_iff.1 known
  rw [shiftAmount?, value?_of_isSubset hb.1.normal hb.2 hbb single, bits]
  rfl

/-- Words are shifted by less than their width. -/
theorem shiftAmount?_lt {a b : Interval} (valid : Width.isValid a.bits) (hb : b.Proper)
    {amount : Nat} (known : a.shiftAmount? b = some amount) : amount < 64 := by
  obtain ⟨y, hy⟩ := hb.exists_word
  rw [shiftAmount?_eq_distance valid rfl hy known]
  exact shiftDistance_lt valid y

/-- A shift to the right by nothing changes nothing. -/
theorem shr_of_shiftAmount?_eq_zero {a b : Interval} (ha : a.Proper) (hb : b.Proper)
    (known : a.shiftAmount? b = some 0) : a.shr b = a := by
  obtain ⟨p, bounds, -⟩ := exists_bounds ha
  simp only [shr, ha.2, hb.2, bounds, known, Bool.or_self, Bool.false_eq_true, ↓reduceIte]
  rw [show Width.twoPow 0 = 1 from rfl, Int.ediv_one, Int.ediv_one]
  exact (ha.1.normal.eq_between bounds).symm

/-- The logical shift is the arithmetic one, unless a negative value may be moved. -/
theorem ushr_eq {a b : Interval} (ha : a.Proper) (hb : b.Proper) {p : Int × Int}
    (bounds : a.bounds? = some p) :
    a.ushr b = if 0 ≤ p.1 then a.shr b else if a.shiftAmount? b = some 0 then a else top a.bits := by
  simp only [ushr, ha.2, hb.2, bounds, Bool.or_self, Bool.false_eq_true, ↓reduceIte]
  by_cases known : a.shiftAmount? b = some 0
  · simp [known, shr_of_shiftAmount?_eq_zero ha hb known]
  · rw [if_neg known]
    split
    · exact absurd ‹_› known
    · rename_i same _
      cases same
      rfl
    · cases ‹some p = none›

section Shifts

variable {a b a' b' : Interval} (ha : a.Proper) (ha' : a'.Proper) (hb : b.Proper) (hb' : b'.Proper)
  (hab : a.isSubset a') (hbb : b.isSubset b')
include ha hb hab hbb

include ha' hb' in
theorem shl_mono : (a.shl b).isSubset (a'.shl b') := by
  have bits := bits_eq_of_isSubset hab
  cases known : a'.shiftAmount? b' with
  | none =>
    have whole : a'.shl b' = top a'.bits := by simp [shl, ha'.2, hb'.2, known]
    rw [whole]
    exact binary_isSubset_top ha .shl b bits
  | some amount =>
    have known' := shiftAmount?_of_isSubset bits hb hbb known
    have small := shiftAmount?_lt ha.1.isValid hb known'
    have positive := (Width.twoPow_pos amount).le
    have inner : a.shl b = lift (fun bounds => held (shiftedBounds amount bounds)) a := by
      simp [shl, ha.2, hb.2, known']
    have outer : a'.shl b' = lift (fun bounds => held (shiftedBounds amount bounds)) a' := by
      simp [shl, ha'.2, hb'.2, known]
    rw [inner, outer]
    refine lift_mono ha hab fun p q bounds bounds' lower upper => ?_
    have fits := ha.1.representable p.1 p.2 bounds
    have fits' := ha'.1.representable q.1 q.2 bounds'
    simp only [shiftedBounds, held, low128_shifted fits.1 small, low128_shifted fits.2 small,
      low128_shifted fits'.1 small, low128_shifted fits'.2 small]
    exact ⟨mul_le_mul_of_nonneg_right lower positive, mul_le_mul_of_nonneg_right upper positive⟩

include ha' hb' in
theorem shr_mono : (a.shr b).isSubset (a'.shr b') := by
  have bits := bits_eq_of_isSubset hab
  have whole := binary_isSubset_top ha .shr b bits
  obtain ⟨p, abounds, -, ordered, -⟩ := exists_bounds ha
  obtain ⟨p', abounds', lower, upper⟩ := exists_bounds_of_isSubset hab abounds
  simp only [binary, shr, ha.2, hb.2, ha'.2, hb'.2, abounds, abounds', Bool.or_self,
    Bool.false_eq_true, ↓reduceIte] at whole ⊢
  cases known : a'.shiftAmount? b' with
  | some amount =>
    have positive := Width.twoPow_pos amount
    rw [shiftAmount?_of_isSubset bits hb hbb known, bits]
    exact between_mono _ (Int.ediv_le_ediv positive lower) (Int.ediv_le_ediv positive upper)
  | none =>
    dsimp only
    split_ifs with nonneg
    · cases known' : a.shiftAmount? b with
      | some amount =>
        have first := Int.ediv_nonneg (nonneg.trans lower) (Width.twoPow_pos amount).le
        have last := Int.ediv_le_self (Width.twoPow amount) (nonneg.trans (lower.trans ordered))
        rw [bits]
        exact between_mono _ first (by omega)
      | none =>
        dsimp only
        rw [if_pos (nonneg.trans lower), bits]
        exact between_mono _ le_rfl upper
    · exact whole

include ha' hb' in
theorem ushr_mono : (a.ushr b).isSubset (a'.ushr b') := by
  have bits := bits_eq_of_isSubset hab
  have whole := binary_isSubset_top ha .ushr b bits
  obtain ⟨p, abounds, -⟩ := exists_bounds ha
  obtain ⟨p', abounds', lower, -⟩ := exists_bounds_of_isSubset hab abounds
  have outer := ushr_eq ha' hb' abounds'
  by_cases nonneg : 0 ≤ p'.1
  · -- For values that are not negative both shifts to the right agree.
    rw [if_pos nonneg] at outer
    rw [ushr_eq ha hb abounds, if_pos (nonneg.trans lower), outer]
    exact shr_mono ha ha' hb hb' hab hbb
  · rw [if_neg nonneg] at outer
    by_cases known : a'.shiftAmount? b' = some 0
    · have known' := shiftAmount?_of_isSubset bits hb hbb known
      rw [if_pos known] at outer
      rw [ushr_eq ha hb abounds, if_pos known', shr_of_shiftAmount?_eq_zero ha hb known', ite_self,
        outer]
      exact hab
    · rw [if_neg known] at outer
      rw [outer]
      exact whole

end Shifts

/-! ## Operators by name -/

/-- Larger operands give a larger result, unless the smaller divisor can only be zero. -/
theorem binary_mono {a b a' b' : Interval} (ha : a.Proper) (ha' : a'.Proper) (hb : b.Proper)
    (hb' : b'.Proper) (hab : a.isSubset a') (hbb : b.isSubset b') (operator : BinaryOperator)
    (nonzero : operator = .div ∨ operator = .rem → b.bounds? ≠ some (0, 0)) :
    (binary operator a b).isSubset (binary operator a' b') := by
  cases operator with
  | add =>
    refine lift₂_mono ha hb hab hbb fun p q p' q' _ _ _ _ _ _ => ?_
    simp only [sumBounds]
    omega
  | sub =>
    refine lift₂_mono ha hb hab hbb fun p q p' q' _ _ _ _ _ _ => ?_
    simp only [differenceBounds]
    omega
  | mul => exact mul_mono ha hb hab hbb
  | div => exact div_mono ha hb (nonzero (.inl rfl)) hab hbb
  | rem => exact rem_mono ha hb (nonzero (.inr rfl)) hab hbb
  | and => exact and_mono ha hb hab hbb
  | or => exact or_mono ha hb hab hbb
  | xor => exact xor_mono ha hb hab hbb
  | shl => exact shl_mono ha ha' hb hb' hab hbb
  | shr => exact shr_mono ha ha' hb hb' hab hbb
  | ushr => exact ushr_mono ha ha' hb hb' hab hbb

end RangeFlow.Interval
