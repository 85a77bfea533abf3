import RangeFlow.Interval.Basic
import RangeFlow.Proofs.Width

/-!
# What intervals hold

The values of the intervals that the constructors and the lattice operations give
(`contains_between`, `contains_ofExact`, `contains_join_left`, …). An interval is normal
(`Interval.Normal`) if it could have come from `Interval.between`, canonical (`Interval.Canonical`) if
it could have come from there on a valid width, inside its width (`Interval.Inside`) if its bounds
are in order and inside the width, and representable (`Interval.Representable`) if they are integers of
64 bits.
-/

namespace RangeFlow.Interval

open Width (Holds)

/-! ## Membership -/

theorem contains_iff {i : Interval} {x : Int} :
    i.contains x = true ↔ ∃ lo hi, i.bounds? = some (lo, hi) ∧ lo ≤ x ∧ x ≤ hi := by
  unfold contains
  cases i.bounds? with
  | none => simp
  | some bounds => simp [Prod.ext_iff]

theorem contains_iff_of_bounds {i : Interval} {lo hi x : Int} (bounds : i.bounds? = some (lo, hi)) :
    i.contains x = true ↔ lo ≤ x ∧ x ≤ hi := by
  simp [contains, bounds]

@[simp]
theorem contains_bottom (bits : Nat) (x : Int) : (bottom bits).contains x = false := rfl

@[simp]
theorem contains_range {bits : Nat} {lo hi x : Int} :
    (range bits lo hi).contains x = true ↔ lo ≤ x ∧ x ≤ hi := by
  simp [contains, bounds?]

@[simp]
theorem contains_top {bits : Nat} {x : Int} : (top bits).contains x = true ↔ Holds bits x := by
  simp [contains, bounds?, Holds]

theorem isBottom_eq_false {i : Interval} {x : Int} (h : i.contains x) : i.isBottom = false := by
  cases i with
  | bottom => simp at h
  | range => rfl
  | top => rfl

theorem bounds?_eq_none_iff {i : Interval} : i.bounds? = none ↔ i.isBottom = true := by
  cases i <;> simp [bounds?, isBottom]

/-! ## Constructors -/

@[simp]
theorem bits_bottom (bits : Nat) : (bottom bits).bits = bits := rfl

@[simp]
theorem bits_range (bits : Nat) (lo hi : Int) : (range bits lo hi).bits = bits := rfl

@[simp]
theorem bits_top (bits : Nat) : (top bits).bits = bits := rfl

@[simp]
theorem bits_between (bits : Nat) (lo hi : Int) : (between bits lo hi).bits = bits := by
  unfold between
  dsimp only
  split_ifs <;> rfl

@[simp]
theorem bits_constant (bits : Nat) (value : Int) : (constant bits value).bits = bits :=
  bits_between _ _ _

@[simp]
theorem bits_ofExact (bits : Nat) (lo hi : Int) : (ofExact bits lo hi).bits = bits := by
  unfold ofExact
  dsimp only
  split_ifs <;> simp

@[simp]
theorem contains_between {bits : Nat} {lo hi x : Int} :
    (between bits lo hi).contains x = true ↔ lo ≤ x ∧ x ≤ hi ∧ Holds bits x := by
  unfold between Holds
  dsimp only
  split_ifs with empty full
  · simp only [contains_bottom, Bool.false_eq_true, false_iff]
    omega
  · simp only [contains_top, Holds]
    omega
  · simp only [contains_range]
    omega

theorem contains_constant {bits : Nat} (valid : Width.isValid bits) {value x : Int} :
    (constant bits value).contains x = true ↔ x = Width.wrap value bits := by
  have held := Width.holds_wrap valid value
  simp only [constant, contains_between]
  constructor
  · rintro ⟨lower, upper, -⟩
    omega
  · rintro rfl
    exact ⟨le_rfl, le_rfl, held⟩

/-- Fewer integers than the width has, with wrapped bounds in order, wrap by one multiple. -/
theorem exists_wrap_eq_of_ordered {bits : Nat} (valid : Width.isValid bits) {lo hi : Int}
    (full : lo ≤ hi) (narrow : hi - lo < Width.twoPow bits)
    (ordered : Width.wrap lo bits ≤ Width.wrap hi bits) :
    ∃ m : Int, ∀ x, lo ≤ x → x ≤ hi → Width.wrap x bits = x - m * Width.twoPow bits := by
  obtain ⟨k, hk⟩ := Width.exists_wrap_eq_sub valid lo
  obtain ⟨m, hm⟩ := Width.exists_wrap_eq_sub valid hi
  have loHeld := Width.holds_wrap valid lo
  have hiHeld := Width.holds_wrap valid hi
  have count : Width.twoPow bits = 2 * 2 ^ (bits - 1) := by
    rw [Width.twoPow_eq, Width.twoPow_eq_two_mul valid]
  rw [Holds, Width.minValue_of_isValid valid, Width.maxValue_of_isValid valid] at loHeld hiHeld
  -- The two bounds are moved by the same multiple, since their distance fits into the width.
  have same : m = k := by
    have positive := Width.twoPow_pos bits
    have below : (m - k) * Width.twoPow bits < 1 * Width.twoPow bits := by
      rw [sub_mul]
      omega
    have above : -1 * Width.twoPow bits < (m - k) * Width.twoPow bits := by
      rw [sub_mul]
      omega
    have := lt_of_mul_lt_mul_right below positive.le
    have := lt_of_mul_lt_mul_right above positive.le
    omega
  subst same
  refine ⟨m, fun x lower upper => ?_⟩
  have held : Holds bits (x - m * Width.twoPow bits) := by
    rw [Holds, Width.minValue_of_isValid valid, Width.maxValue_of_isValid valid]
    omega
  rw [← Width.wrap_of_holds valid held, Width.wrap_eq_bmod valid, Width.wrap_eq_bmod valid,
    Width.twoPow_eq]
  push_cast [sub_eq_add_neg, ← neg_mul]
  exact (Int.add_mul_bmod_self_right x (-m) (2 ^ bits)).symm

/-- The interval of an exact range holds what every integer of the range wraps to. -/
theorem contains_ofExact {bits : Nat} (valid : Width.isValid bits) {lo hi x : Int}
    (lower : lo ≤ x) (upper : x ≤ hi) : (ofExact bits lo hi).contains (Width.wrap x bits) := by
  have held := Width.holds_wrap valid x
  unfold ofExact
  dsimp only
  split_ifs with empty wide ordered
  · omega
  · exact contains_top.2 held
  · push Not at wide
    obtain ⟨m, moved⟩ := exists_wrap_eq_of_ordered valid (lower.trans upper) wide.2 ordered
    have first := moved lo le_rfl (by omega)
    have last := moved hi (by omega) le_rfl
    rw [moved x lower upper] at held ⊢
    exact contains_between.2 ⟨by omega, by omega, held⟩
  · exact contains_top.2 held

/-! ## Lattice -/

@[simp]
theorem bits_join (a b : Interval) : (a.join b).bits = a.bits := by
  unfold join
  split_ifs with same
  · rfl
  · push Not at same
    split <;> simp [same]

@[simp]
theorem bits_meet (a b : Interval) : (a.meet b).bits = a.bits := by
  unfold meet
  split_ifs
  · rfl
  · split <;> simp

@[simp]
theorem bits_widen (a b : Interval) : (a.widen b).bits = a.bits := by
  unfold widen
  split_ifs with same
  · rfl
  · push Not at same
    split <;> simp [same]

theorem contains_join_left {a b : Interval} {x : Int} (h : a.contains x) (held : Holds a.bits x) :
    (a.join b).contains x := by
  obtain ⟨lo, hi, bounds, lower, upper⟩ := contains_iff.1 h
  unfold join
  split_ifs
  · exact contains_top.2 held
  · rw [bounds]
    cases b.bounds? with
    | none => exact h
    | some other => exact contains_between.2 ⟨by omega, by omega, held⟩

theorem contains_join_right {a b : Interval} {x : Int} (h : b.contains x) (held : Holds a.bits x) :
    (a.join b).contains x := by
  obtain ⟨lo, hi, bounds, lower, upper⟩ := contains_iff.1 h
  unfold join
  split_ifs
  · exact contains_top.2 held
  · rw [bounds]
    cases a.bounds? with
    | none => exact h
    | some other => exact contains_between.2 ⟨by omega, by omega, held⟩

theorem contains_widen_left {a b : Interval} {x : Int} (h : a.contains x) (held : Holds a.bits x) :
    (a.widen b).contains x := by
  obtain ⟨lo, hi, bounds, lower, upper⟩ := contains_iff.1 h
  unfold widen
  split_ifs
  · exact contains_top.2 held
  · rw [bounds]
    cases b.bounds? with
    | none => exact h
    | some other =>
      refine contains_between.2 ⟨?_, ?_, held⟩
      · have := held.1
        split_ifs <;> omega
      · have := held.2
        split_ifs <;> omega

theorem contains_widen_right {a b : Interval} {x : Int} (h : b.contains x)
    (held : Holds a.bits x) : (a.widen b).contains x := by
  obtain ⟨lo, hi, bounds, lower, upper⟩ := contains_iff.1 h
  unfold widen
  split_ifs
  · exact contains_top.2 held
  · rw [bounds]
    cases a.bounds? with
    | none => exact h
    | some other =>
      refine contains_between.2 ⟨?_, ?_, held⟩
      · have := held.1
        split_ifs <;> omega
      · have := held.2
        split_ifs <;> omega

theorem contains_meet {a b : Interval} {x : Int} (ha : a.contains x) (hb : b.contains x)
    (held : Holds a.bits x) : (a.meet b).contains x := by
  obtain ⟨lo, hi, bounds, lower, upper⟩ := contains_iff.1 ha
  obtain ⟨lo', hi', bounds', lower', upper'⟩ := contains_iff.1 hb
  unfold meet
  split_ifs
  · exact ha
  · rw [bounds, bounds']
    exact contains_between.2 ⟨by omega, by omega, held⟩

theorem meet_of_bits_ne {a b : Interval} (h : a.bits ≠ b.bits) : a.meet b = a := by
  rw [meet, if_pos h]

/-- On one width the meet is the intersection. -/
theorem contains_meet_iff {a b : Interval} (same : a.bits = b.bits) {x : Int} :
    (a.meet b).contains x = true ↔
      a.contains x = true ∧ b.contains x = true ∧ Holds a.bits x := by
  constructor
  · intro h
    unfold meet at h
    rw [if_neg (not_not.2 same)] at h
    split at h
    · rename_i alo ahi blo bhi ha hb
      rw [contains_between] at h
      refine ⟨contains_iff.2 ⟨alo, ahi, ha, by omega, by omega⟩,
        contains_iff.2 ⟨blo, bhi, hb, by omega, by omega⟩, h.2.2⟩
    · simp at h
  · rintro ⟨ha, hb, held⟩
    exact contains_meet ha hb held

/-! ## Normal intervals -/

/-- An interval as `between` gives it: the bounds are in order and inside the width, and it is `top`
if it covers the width. -/
def Normal : Interval → Prop
  | bottom _ | top _ => True
  | range bits lo hi =>
      Width.minValue bits ≤ lo ∧ lo ≤ hi ∧ hi ≤ Width.maxValue bits ∧
        ¬(lo = Width.minValue bits ∧ hi = Width.maxValue bits)

instance (i : Interval) : Decidable i.Normal :=
  match i with
  | bottom _ | top _ => isTrue trivial
  | range _ _ _ => inferInstanceAs (Decidable (_ ∧ _))

theorem normal_between (bits : Nat) (lo hi : Int) : (between bits lo hi).Normal := by
  unfold between
  dsimp only
  split_ifs with empty full
  · trivial
  · trivial
  · exact ⟨le_max_right _ _, by omega, min_le_right _ _, full⟩

/-- A normal interval with a value has bounds that are values of it. -/
theorem Normal.bounds {i : Interval} (h : i.Normal) {lo hi : Int}
    (bounds : i.bounds? = some (lo, hi)) :
    Width.minValue i.bits ≤ lo ∧ lo ≤ hi ∧ hi ≤ Width.maxValue i.bits := by
  cases i with
  | bottom => simp [bounds?] at bounds
  | range bits alo ahi =>
    simp only [bounds?, Option.some.injEq, Prod.mk.injEq] at bounds
    obtain ⟨rfl, rfl⟩ := bounds
    exact ⟨h.1, h.2.1, h.2.2.1⟩
  | top bits =>
    simp only [bounds?, Option.some.injEq, Prod.mk.injEq] at bounds
    obtain ⟨rfl, rfl⟩ := bounds
    exact ⟨le_rfl, Width.minValue_le_maxValue _, le_rfl⟩

/-- An interval whose bounds are in order and inside its width. Unlike a normal one it may be a range
that covers the width. -/
def Inside (i : Interval) : Prop :=
  ∀ lo hi, i.bounds? = some (lo, hi) →
    Width.minValue i.bits ≤ lo ∧ lo ≤ hi ∧ hi ≤ Width.maxValue i.bits

theorem Normal.inside {i : Interval} (h : i.Normal) : i.Inside := fun _ _ => h.bounds

theorem Inside.holds {i : Interval} (h : i.Inside) {x : Int} (hx : i.contains x) :
    Holds i.bits x := by
  obtain ⟨lo, hi, bounds, lower, upper⟩ := contains_iff.1 hx
  obtain ⟨least, -, greatest⟩ := h lo hi bounds
  exact ⟨least.trans lower, upper.trans greatest⟩

theorem Normal.holds {i : Interval} (h : i.Normal) {x : Int} (hx : i.contains x) :
    Holds i.bits x :=
  h.inside.holds hx

theorem Normal.exists_contains {i : Interval} (h : i.Normal) (full : i.isBottom = false) :
    ∃ x, i.contains x := by
  cases bounds : i.bounds? with
  | none => simp [bounds?_eq_none_iff.1 bounds] at full
  | some b => exact ⟨b.1, contains_iff.2 ⟨b.1, b.2, bounds, le_rfl, (h.bounds bounds).2.1⟩⟩

/-- A normal interval is the one between its bounds. -/
theorem Normal.eq_between {i : Interval} (h : i.Normal) {lo hi : Int}
    (bounds : i.bounds? = some (lo, hi)) : i = between i.bits lo hi := by
  have inside := h.bounds bounds
  unfold between
  dsimp only
  cases i with
  | bottom => simp [bounds?] at bounds
  | range bits alo ahi =>
    simp only [bounds?, Option.some.injEq, Prod.mk.injEq] at bounds
    obtain ⟨rfl, rfl⟩ := bounds
    rw [bits_range] at inside ⊢
    rw [max_eq_left inside.1, min_eq_left inside.2.2, if_neg (by omega), if_neg h.2.2.2]
  | top bits =>
    simp only [bounds?, Option.some.injEq, Prod.mk.injEq] at bounds
    obtain ⟨rfl, rfl⟩ := bounds
    rw [bits_top] at inside ⊢
    rw [max_self, min_self, if_neg (by omega), if_pos ⟨rfl, rfl⟩]

/-- A normal interval is determined by its width and what it holds. -/
theorem Normal.ext {a b : Interval} (ha : a.Normal) (hb : b.Normal) (bits : a.bits = b.bits)
    (h : ∀ x, a.contains x = true ↔ b.contains x = true) : a = b := by
  cases abounds : a.bounds? with
  | none =>
    cases bbounds : b.bounds? with
    | none =>
      have empty := bounds?_eq_none_iff.1 abounds
      have empty' := bounds?_eq_none_iff.1 bbounds
      cases a <;> cases b <;> simp_all [isBottom]
    | some pair =>
      obtain ⟨lo, hi, bounds, -⟩ := contains_iff.1 ((h pair.1).2
        (contains_iff.2 ⟨_, _, bbounds, le_rfl, (hb.bounds bbounds).2.1⟩))
      rw [abounds] at bounds
      cases bounds
  | some pair =>
    have first : b.contains pair.1 :=
      (h _).1 (contains_iff.2 ⟨_, _, abounds, le_rfl, (ha.bounds abounds).2.1⟩)
    have last : b.contains pair.2 :=
      (h _).1 (contains_iff.2 ⟨_, _, abounds, (ha.bounds abounds).2.1, le_rfl⟩)
    obtain ⟨lo, hi, bbounds, lower, -⟩ := contains_iff.1 first
    obtain ⟨lo', hi', bbounds', -, upper⟩ := contains_iff.1 last
    cases bbounds.symm.trans bbounds'
    -- The bounds of `b` are values of `a` in turn.
    have ordered := (hb.bounds bbounds).2.1
    obtain ⟨_, _, abounds', least, -⟩ :=
      contains_iff.1 ((h lo).2 (contains_iff.2 ⟨_, _, bbounds, le_rfl, ordered⟩))
    obtain ⟨_, _, abounds'', -, greatest⟩ :=
      contains_iff.1 ((h hi).2 (contains_iff.2 ⟨_, _, bbounds, ordered, le_rfl⟩))
    cases abounds.symm.trans abounds'
    cases abounds.symm.trans abounds''
    rw [ha.eq_between abounds, hb.eq_between bbounds, bits, le_antisymm lower least,
      le_antisymm greatest upper]

theorem normal_join {a b : Interval} (ha : a.Normal) (hb : b.Normal) : (a.join b).Normal := by
  unfold join
  split_ifs
  · trivial
  · split
    · exact hb
    · exact ha
    · exact normal_between _ _ _

theorem normal_widen {a b : Interval} (ha : a.Normal) (hb : b.Normal) : (a.widen b).Normal := by
  unfold widen
  split_ifs
  · trivial
  · split
    · exact hb
    · exact ha
    · exact normal_between _ _ _

theorem normal_meet {a : Interval} (ha : a.Normal) (b : Interval) : (a.meet b).Normal := by
  unfold meet
  split_ifs
  · exact ha
  · split
    · exact normal_between _ _ _
    · trivial

theorem inside_meet {a : Interval} (ha : a.Inside) (b : Interval) : (a.meet b).Inside := by
  unfold meet
  split_ifs
  · exact ha
  · split
    · exact (normal_between _ _ _).inside
    · exact Normal.inside trivial

/-! ## Canonical intervals -/

/-- An interval of a valid width whose bounds are in order and inside the width, and that is `top`
if it covers the width. -/
def Canonical : Interval → Prop
  | bottom bits | top bits => Width.isValid bits
  | range bits lo hi =>
      Width.isValid bits ∧ Width.minValue bits ≤ lo ∧ lo ≤ hi ∧ hi ≤ Width.maxValue bits ∧
        ¬(lo = Width.minValue bits ∧ hi = Width.maxValue bits)

instance (i : Interval) : Decidable i.Canonical :=
  match i with
  | bottom bits | top bits => inferInstanceAs (Decidable (Width.isValid bits = true))
  | range _ _ _ => inferInstanceAs (Decidable (_ ∧ _))

/-- An interval whose bounds are integers of 64 bits. -/
def Representable (i : Interval) : Prop :=
  ∀ lo hi, i.bounds? = some (lo, hi) → Holds 64 lo ∧ Holds 64 hi

theorem canonical_iff {i : Interval} : i.Canonical ↔ Width.isValid i.bits ∧ i.Normal := by
  cases i with
  | bottom => exact (and_iff_left trivial).symm
  | range => exact Iff.rfl
  | top => exact (and_iff_left trivial).symm

theorem Canonical.isValid {i : Interval} (h : i.Canonical) : Width.isValid i.bits :=
  (canonical_iff.1 h).1

theorem Canonical.normal {i : Interval} (h : i.Canonical) : i.Normal := (canonical_iff.1 h).2

theorem canonical_between {bits : Nat} (valid : Width.isValid bits) (lo hi : Int) :
    (between bits lo hi).Canonical :=
  canonical_iff.2 ⟨by simpa using valid, normal_between bits lo hi⟩

theorem canonical_constant {bits : Nat} (valid : Width.isValid bits) (value : Int) :
    (constant bits value).Canonical :=
  canonical_between valid _ _

theorem canonical_ofExact {bits : Nat} (valid : Width.isValid bits) (lo hi : Int) :
    (ofExact bits lo hi).Canonical := by
  unfold ofExact
  dsimp only
  split_ifs
  · exact valid
  · exact valid
  · exact canonical_between valid _ _
  · exact valid

/-- A canonical interval with a value has bounds that are values of it. -/
theorem Canonical.bounds {i : Interval} (h : i.Canonical) {lo hi : Int}
    (bounds : i.bounds? = some (lo, hi)) :
    Width.minValue i.bits ≤ lo ∧ lo ≤ hi ∧ hi ≤ Width.maxValue i.bits :=
  h.normal.bounds bounds

theorem Canonical.holds {i : Interval} (h : i.Canonical) {x : Int} (hx : i.contains x) :
    Holds i.bits x :=
  h.normal.holds hx

theorem Canonical.exists_contains {i : Interval} (h : i.Canonical) (full : i.isBottom = false) :
    ∃ x, i.contains x :=
  h.normal.exists_contains full

theorem Inside.representable {i : Interval} (h : i.Inside) : i.Representable := by
  intro lo hi bounds
  have inside := h lo hi bounds
  have lowest := Width.minValue_64_le i.bits
  have highest := Width.maxValue_le_64 i.bits
  exact ⟨⟨by omega, by omega⟩, ⟨by omega, by omega⟩⟩

theorem Canonical.representable {i : Interval} (h : i.Canonical) : i.Representable :=
  h.normal.inside.representable

theorem canonical_join {a b : Interval} (ha : a.Canonical) (hb : b.Canonical) :
    (a.join b).Canonical :=
  canonical_iff.2 ⟨by simpa using ha.isValid, normal_join ha.normal hb.normal⟩

theorem canonical_widen {a b : Interval} (ha : a.Canonical) (hb : b.Canonical) :
    (a.widen b).Canonical :=
  canonical_iff.2 ⟨by simpa using ha.isValid, normal_widen ha.normal hb.normal⟩

theorem canonical_meet {a : Interval} (ha : a.Canonical) (b : Interval) :
    (a.meet b).Canonical :=
  canonical_iff.2 ⟨by simpa using ha.isValid, normal_meet ha.normal b⟩

end RangeFlow.Interval
