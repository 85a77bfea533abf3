import RangeFlow.Proofs.Interval.Refine

/-!
# Inclusion of intervals

`Interval.isSubset` compares widths and bounds (`isSubset_iff`), so it is a preorder. Between normal
intervals it is inclusion of what they hold (`isSubset_of_contains`), which is how the lattice
operations and the narrowing by a comparison are shown to be monotone.
-/

namespace RangeFlow.Interval

open Width (Holds)

/-! ## The order -/

theorem isSubset_iff {a b : Interval} :
    a.isSubset b = true ↔ a.bits = b.bits ∧ ∀ lo hi, a.bounds? = some (lo, hi) →
      ∃ lo' hi', b.bounds? = some (lo', hi') ∧ lo' ≤ lo ∧ hi ≤ hi' := by
  by_cases bits : a.bits = b.bits
  · by_cases same : a = b
    · subst same
      simp only [isSubset, compare?, ne_eq, not_true_eq_false, ↓reduceIte, true_and, true_iff]
      exact fun lo hi bounds => ⟨lo, hi, bounds, le_rfl, le_rfl⟩
    · rcases abounds : a.bounds? with _ | ⟨alo, ahi⟩
      · simp [isSubset, compare?, bits, same, abounds]
      · rcases bbounds : b.bounds? with _ | ⟨blo, bhi⟩
        · simp [isSubset, compare?, bits, same, abounds, bbounds]
        · by_cases inside : blo ≤ alo ∧ ahi ≤ bhi
          · simp [isSubset, compare?, bits, same, abounds, bbounds, inside]
          · by_cases around : alo ≤ blo ∧ bhi ≤ ahi <;>
              simp [isSubset, compare?, bits, same, abounds, bbounds, inside, around]
  · simp [isSubset, compare?, bits]

theorem isSubset_refl (a : Interval) : a.isSubset a :=
  isSubset_iff.2 ⟨rfl, fun lo hi bounds => ⟨lo, hi, bounds, le_rfl, le_rfl⟩⟩

theorem isSubset_trans {a b c : Interval} (hab : a.isSubset b) (hbc : b.isSubset c) :
    a.isSubset c := by
  obtain ⟨bits, bounds⟩ := isSubset_iff.1 hab
  obtain ⟨bits', bounds'⟩ := isSubset_iff.1 hbc
  refine isSubset_iff.2 ⟨bits.trans bits', fun lo hi h => ?_⟩
  obtain ⟨lo', hi', h', lower, upper⟩ := bounds lo hi h
  obtain ⟨lo'', hi'', h'', lower', upper'⟩ := bounds' lo' hi' h'
  exact ⟨lo'', hi'', h'', lower'.trans lower, upper.trans upper'⟩

theorem bits_eq_of_isSubset {a b : Interval} (h : a.isSubset b) : a.bits = b.bits :=
  (isSubset_iff.1 h).1

theorem contains_of_isSubset {a b : Interval} (h : a.isSubset b) {x : Int} (hx : a.contains x) :
    b.contains x := by
  obtain ⟨lo, hi, bounds, lower, upper⟩ := contains_iff.1 hx
  obtain ⟨lo', hi', bounds', lower', upper'⟩ := (isSubset_iff.1 h).2 lo hi bounds
  exact contains_iff.2 ⟨lo', hi', bounds', lower'.trans lower, upper.trans upper'⟩

/-- A normal interval is included in every interval of its width that holds its values. -/
theorem isSubset_of_contains {a b : Interval} (ha : a.Normal) (bits : a.bits = b.bits)
    (h : ∀ x, a.contains x → b.contains x) : a.isSubset b := by
  refine isSubset_iff.2 ⟨bits, fun lo hi bounds => ?_⟩
  have ordered := (ha.bounds bounds).2.1
  obtain ⟨lo', hi', bounds', lower, -⟩ :=
    contains_iff.1 (h lo (contains_iff.2 ⟨lo, hi, bounds, le_rfl, ordered⟩))
  obtain ⟨_, _, bounds'', -, upper⟩ :=
    contains_iff.1 (h hi (contains_iff.2 ⟨lo, hi, bounds, ordered, le_rfl⟩))
  cases bounds'.symm.trans bounds''
  exact ⟨lo', hi', bounds', lower, upper⟩

theorem isBottom_eq_false_of_isSubset {a b : Interval} (h : a.isSubset b)
    (full : a.isBottom = false) : b.isBottom = false := by
  rw [Bool.eq_false_iff, ne_eq, ← bounds?_eq_none_iff] at full ⊢
  intro empty
  cases bounds : a.bounds? with
  | none => exact full bounds
  | some pair =>
    obtain ⟨lo', hi', bounds', -⟩ := (isSubset_iff.1 h).2 pair.1 pair.2 bounds
    rw [empty] at bounds'
    cases bounds'

theorem bottom_isSubset {a : Interval} {bits : Nat} (h : bits = a.bits) :
    (bottom bits).isSubset a :=
  isSubset_iff.2 ⟨h, fun lo hi bounds => by cases bounds⟩

/-! ## Bounds inside the width -/

theorem Inside.isSubset_top {i : Interval} (h : i.Inside) {bits : Nat} (width : i.bits = bits) :
    i.isSubset (top bits) := by
  subst width
  exact isSubset_iff.2 ⟨rfl, fun lo hi bounds =>
    ⟨_, _, rfl, (h lo hi bounds).1, (h lo hi bounds).2.2⟩⟩

/-! ## Lattice -/

theorem between_mono (bits : Nat) {lo hi lo' hi' : Int} (lower : lo' ≤ lo) (upper : hi ≤ hi') :
    (between bits lo hi).isSubset (between bits lo' hi') := by
  refine isSubset_of_contains (normal_between _ _ _) (by simp) fun x hx => ?_
  obtain ⟨hlo, hhi, held⟩ := contains_between.1 hx
  exact contains_between.2 ⟨lower.trans hlo, hhi.trans upper, held⟩

theorem meet_isSubset {a : Interval} (ha : a.Normal) (b : Interval) : (a.meet b).isSubset a := by
  by_cases same : a.bits = b.bits
  · exact isSubset_of_contains (normal_meet ha b) (bits_meet a b)
      fun x hx => ((contains_meet_iff same).1 hx).1
  · rw [meet_of_bits_ne same]
    exact isSubset_refl a

theorem meet_isSubset_right {a b : Interval} (ha : a.Normal) (same : a.bits = b.bits) :
    (a.meet b).isSubset b :=
  isSubset_of_contains (normal_meet ha b) (by rw [bits_meet, same])
    fun _ hx => ((contains_meet_iff same).1 hx).2.1

/-- The meet is the greatest interval below both. -/
theorem isSubset_meet {a b c : Interval} (hc : c.Normal) (hca : c.isSubset a) (hcb : c.isSubset b) :
    c.isSubset (a.meet b) := by
  have bits := bits_eq_of_isSubset hca
  refine isSubset_of_contains hc (by rw [bits_meet, bits]) fun x hx => ?_
  exact contains_meet (contains_of_isSubset hca hx) (contains_of_isSubset hcb hx)
    (bits ▸ hc.holds hx)

theorem meet_mono {a b a' b' : Interval} (ha : a.Normal) (hab : a.isSubset a')
    (hb : b.isSubset b') : (a.meet b).isSubset (a'.meet b') := by
  have left := isSubset_trans (meet_isSubset ha b) hab
  by_cases same : a.bits = b.bits
  · exact isSubset_meet (normal_meet ha b) left
      (isSubset_trans (meet_isSubset_right ha same) hb)
  · rwa [meet_of_bits_ne (a := a') fun h =>
      same ((bits_eq_of_isSubset hab).trans (h.trans (bits_eq_of_isSubset hb).symm))]

theorem isSubset_join {a b : Interval} (ha : a.Normal) : a.isSubset (a.join b) :=
  isSubset_of_contains ha (bits_join a b).symm fun _ hx => contains_join_left hx (ha.holds hx)

theorem isSubset_join_right {a b : Interval} (hb : b.Normal) (same : a.bits = b.bits) :
    b.isSubset (a.join b) :=
  isSubset_of_contains hb (by rw [bits_join, same])
    fun _ hx => contains_join_right hx (same ▸ hb.holds hx)

theorem isSubset_widen {a b : Interval} (ha : a.Normal) : a.isSubset (a.widen b) :=
  isSubset_of_contains ha (bits_widen a b).symm fun _ hx => contains_widen_left hx (ha.holds hx)

theorem isSubset_widen_right {a b : Interval} (hb : b.Normal) (same : a.bits = b.bits) :
    b.isSubset (a.widen b) :=
  isSubset_of_contains hb (by rw [bits_widen, same])
    fun _ hx => contains_widen_right hx (same ▸ hb.holds hx)

/-! ## Leaving out values -/

theorem normal_without {a : Interval} (ha : a.Normal) (value : Int) : (a.without value).Normal := by
  unfold without
  split
  · exact ha
  · split_ifs
    · trivial
    · exact normal_between _ _ _
    · exact normal_between _ _ _
    · exact ha

/-- A value that is to be left out stays only if it is not at an end. -/
theorem contains_without_self {a : Interval} {value : Int} :
    (a.without value).contains value = true ↔
      ∃ lo hi, a.bounds? = some (lo, hi) ∧ lo < value ∧ value < hi := by
  unfold without
  cases bounds : a.bounds? with
  | none => simp [contains, bounds]
  | some pair =>
    dsimp only
    split_ifs with single least greatest
    · simp only [contains_bottom, Option.some.injEq]
      constructor
      · exact fun h => by cases h
      · rintro ⟨lo, hi, rfl, lower, upper⟩
        omega
    · rw [contains_between]
      constructor
      · exact fun h => by omega
      · rintro ⟨lo, hi, same, lower, upper⟩
        cases same
        omega
    · rw [contains_between]
      constructor
      · exact fun h => by omega
      · rintro ⟨lo, hi, same, lower, upper⟩
        cases same
        omega
    · rw [contains_iff, bounds]
      constructor
      · rintro ⟨lo, hi, same, lower, upper⟩
        cases same
        exact ⟨lo, hi, rfl, by omega, by omega⟩
      · rintro ⟨lo, hi, same, lower, upper⟩
        exact ⟨lo, hi, same, lower.le, upper.le⟩

theorem without_mono {a b : Interval} (ha : a.Normal) (h : a.isSubset b) (value : Int) :
    (a.without value).isSubset (b.without value) := by
  have bits := bits_eq_of_isSubset h
  refine isSubset_of_contains (normal_without ha value) (by simpa using bits) fun x hx => ?_
  have old := contains_of_contains_without hx
  by_cases here : x = value
  · subst here
    obtain ⟨lo, hi, bounds, lower, upper⟩ := contains_without_self.1 hx
    obtain ⟨lo', hi', bounds', lower', upper'⟩ := (isSubset_iff.1 h).2 lo hi bounds
    exact contains_without_self.2 ⟨lo', hi', bounds', by omega, by omega⟩
  · exact contains_without (contains_of_isSubset h old) (bits ▸ ha.holds old) here

/-! ## Comparisons -/

theorem normal_refine {a : Interval} (ha : a.Normal) (c : Comparison) (b : Interval) :
    (a.refine c b).Normal := by
  unfold refine
  split
  · cases c <;> dsimp only
    case eq => exact normal_meet ha _
    case ne =>
      split
      · exact normal_without ha _
      · exact ha
    case lt =>
      split_ifs
      · trivial
      · exact normal_meet ha _
    case le => exact normal_meet ha _
    case gt =>
      split_ifs
      · trivial
      · exact normal_meet ha _
    case ge => exact normal_meet ha _
  · trivial

theorem canonical_refine {a : Interval} (ha : a.Canonical) (c : Comparison) (b : Interval) :
    (a.refine c b).Canonical :=
  canonical_iff.2 ⟨by rw [bits_refine]; exact ha.isValid, normal_refine ha.normal c b⟩

/-- What is left compares with some value of the other interval, unless only inequality was asked
for. -/
theorem exists_holds_of_contains_refine {a b : Interval} {c : Comparison} (hb : b.Normal)
    (same : a.bits = b.bits) (exact : c ≠ .ne) {x : Int} (hx : (a.refine c b).contains x) :
    a.contains x ∧ ∃ y, b.contains y ∧ c.holds x y := by
  unfold refine at hx
  split at hx
  · rename_i lo hi _ bounds
    have ordered := (hb.bounds bounds).2.1
    have lowest : b.contains lo := contains_iff.2 ⟨_, _, bounds, le_rfl, ordered⟩
    have highest : b.contains hi := contains_iff.2 ⟨_, _, bounds, ordered, le_rfl⟩
    -- A bound of `b` on the side of the comparison is the value to compare with.
    have side {lo' hi' y : Int} (hx : (a.meet (between a.bits lo' hi')).contains x)
        (hy : b.contains y) (holds : lo' ≤ x → x ≤ hi' → c.holds x y) :
        a.contains x ∧ ∃ y, b.contains y ∧ c.holds x y := by
      obtain ⟨old, inside, -⟩ := (contains_meet_iff (by simp)).1 hx
      obtain ⟨lower, upper, -⟩ := contains_between.1 inside
      exact ⟨old, y, hy, holds lower upper⟩
    cases c <;> dsimp only at hx
    case eq =>
      obtain ⟨left, right, -⟩ := (contains_meet_iff same).1 hx
      exact ⟨left, x, right, by simp [Comparison.holds]⟩
    case ne => exact absurd rfl exact
    case lt =>
      split_ifs at hx
      · simp at hx
      · exact side hx highest fun _ _ => by simp only [Comparison.holds, decide_eq_true_eq]; omega
    case le =>
      exact side hx highest fun _ _ => by simp only [Comparison.holds, decide_eq_true_eq]; omega
    case gt =>
      split_ifs at hx
      · simp at hx
      · exact side hx lowest fun _ _ => by simp only [Comparison.holds, decide_eq_true_eq]; omega
    case ge =>
      exact side hx lowest fun _ _ => by simp only [Comparison.holds, decide_eq_true_eq]; omega
  · simp at hx

theorem refine_isSubset {a : Interval} (ha : a.Normal) (c : Comparison) (b : Interval) :
    (a.refine c b).isSubset a := by
  unfold refine
  split
  · cases c <;> dsimp only
    case eq => exact meet_isSubset ha _
    case ne =>
      split
      · exact isSubset_of_contains (normal_without ha _) (by simp)
          fun _ hx => contains_of_contains_without hx
      · exact isSubset_refl a
    case lt =>
      split_ifs
      · exact bottom_isSubset rfl
      · exact meet_isSubset ha _
    case le => exact meet_isSubset ha _
    case gt =>
      split_ifs
      · exact bottom_isSubset rfl
      · exact meet_isSubset ha _
    case ge => exact meet_isSubset ha _
  · exact bottom_isSubset rfl

/-- The only value of an interval is the only one of every interval in it that has any. -/
theorem value?_of_isSubset {a b : Interval} (ha : a.Normal) (full : a.isBottom = false)
    (h : a.isSubset b) {value : Int} (single : b.value? = some value) : a.value? = some value := by
  cases bounds : a.bounds? with
  | none => simp [bounds?_eq_none_iff.1 bounds] at full
  | some pair =>
    obtain ⟨lo', hi', bounds', lower, upper⟩ := (isSubset_iff.1 h).2 pair.1 pair.2 bounds
    have ordered := (ha.bounds bounds).2.1
    rw [value?, bounds'] at single
    dsimp only at single
    split_ifs at single with same
    cases single
    rw [value?, bounds]
    dsimp only
    rw [if_pos (by omega), Option.some.injEq]
    omega

theorem refine_mono {a b a' b' : Interval} (ha : a.Normal) (hb : b.Normal) (same : a.bits = b.bits)
    (hab : a.isSubset a') (hbb : b.isSubset b') (c : Comparison) :
    (a.refine c b).isSubset (a'.refine c b') := by
  have bits := bits_eq_of_isSubset hab
  by_cases apart : c = .ne
  · subst apart
    cases abounds : a.bounds? with
    | none =>
      rw [refine, abounds]
      exact bottom_isSubset (by rw [bits_refine, bits])
    | some pair =>
      cases bbounds : b.bounds? with
      | none =>
        rw [refine, abounds, bbounds]
        exact bottom_isSubset (by rw [bits_refine, bits])
      | some other =>
        obtain ⟨alo, ahi, abounds', -⟩ := (isSubset_iff.1 hab).2 pair.1 pair.2 abounds
        obtain ⟨blo, bhi, bbounds', -⟩ := (isSubset_iff.1 hbb).2 other.1 other.2 bbounds
        cases single : b'.value? with
        | none =>
          have whole : a'.refine .ne b' = a' := by
            rw [refine, abounds', bbounds']
            simp only [single]
          rw [whole]
          exact isSubset_trans (refine_isSubset ha _ _) hab
        | some value =>
          have full : b.isBottom = false := by
            rw [Bool.eq_false_iff, ne_eq, ← bounds?_eq_none_iff, bbounds]
            exact Option.some_ne_none _
          have inner : a.refine .ne b = a.without value := by
            rw [refine, abounds, bbounds]
            simp only [value?_of_isSubset hb full hbb single]
          have outer : a'.refine .ne b' = a'.without value := by
            rw [refine, abounds', bbounds']
            simp only [single]
          rw [inner, outer]
          exact without_mono ha hab value
  · refine isSubset_of_contains (normal_refine ha c b) (by simpa using bits) fun x hx => ?_
    obtain ⟨old, y, hy, holds⟩ := exists_holds_of_contains_refine hb same apart hx
    exact contains_refine (contains_of_isSubset hab old) (contains_of_isSubset hbb hy)
      (bits ▸ ha.holds old) holds

end RangeFlow.Interval
