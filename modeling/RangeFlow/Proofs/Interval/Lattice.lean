import RangeFlow.Proofs.Codec.Facts
import RangeFlow.Proofs.Facts.Join

/-!
# The lattice of canonical intervals

The canonical intervals of a width (`Interval.CanonicalOf`) are told apart by the integers that they
hold (`Interval.values`), and are ordered by inclusion of these. `join` is the least upper bound and
`meet` the greatest lower bound, so they form a lattice (`Lattice (OfWidth w)`), and `compare?` reports
its order (`CanonicalOf.compare?_eq_lt_iff` and its like). Constructors, operators and narrowing do not
lead out of it.

Loading accepts a valid width with bounds in order and inside the width (`Interval.Admissible`), and
gives the canonical interval of the same integers (`check_eq_ok_iff`, `ofJson_eq_ok_iff`).

Main statement: `canonical_lattice`.
-/

namespace RangeFlow.Interval

variable {a b c i j : Interval} {w : Nat}

/-- The integers that an interval holds. -/
def values (i : Interval) : Set Int := {x | i.contains x}

/-- A canonical interval of a width. -/
structure CanonicalOf (i : Interval) (w : Nat) : Prop where
  width : i.bits = w
  canonical : i.Canonical

/-! ## Results of operations -/

section Results

variable (ha : a.CanonicalOf w)
include ha

theorem CanonicalOf.isValid : Width.isValid w := ha.width ▸ ha.canonical.isValid

theorem CanonicalOf.normal : a.Normal := ha.canonical.normal

theorem CanonicalOf.same (hb : b.CanonicalOf w) : a.bits = b.bits := ha.width.trans hb.width.symm

theorem CanonicalOf.join (hb : b.CanonicalOf w) : (a.join b).CanonicalOf w :=
  ⟨(bits_join a b).trans ha.width, canonical_join ha.canonical hb.canonical⟩

theorem CanonicalOf.meet (b : Interval) : (a.meet b).CanonicalOf w :=
  ⟨(bits_meet a b).trans ha.width, canonical_meet ha.canonical b⟩

theorem CanonicalOf.widen (hb : b.CanonicalOf w) : (a.widen b).CanonicalOf w :=
  ⟨(bits_widen a b).trans ha.width, canonical_widen ha.canonical hb.canonical⟩

theorem CanonicalOf.unary (operator : UnaryOperator) : (unary operator a).CanonicalOf w :=
  ⟨(bits_unary operator a).trans ha.width, canonical_unary ha.canonical.isValid operator⟩

theorem CanonicalOf.binary (operator : BinaryOperator) (b : Interval) :
    (binary operator a b).CanonicalOf w := by
  refine ⟨(bits_binary operator a b).trans ha.width, ?_⟩
  rcases canonical_binary_or_eq ha.canonical.isValid operator b with canonical | same
  · exact canonical
  · rw [same]
    exact ha.canonical

theorem CanonicalOf.refine (comparison : Comparison) (b : Interval) :
    (a.refine comparison b).CanonicalOf w :=
  ⟨(bits_refine a comparison b).trans ha.width, canonical_refine ha.canonical comparison b⟩

end Results

theorem canonicalOf_between (valid : Width.isValid w) (lo hi : Int) :
    (between w lo hi).CanonicalOf w :=
  ⟨bits_between w lo hi, canonical_between valid lo hi⟩

theorem canonicalOf_ofExact (valid : Width.isValid w) (lo hi : Int) :
    (ofExact w lo hi).CanonicalOf w :=
  ⟨bits_ofExact w lo hi, canonical_ofExact valid lo hi⟩

theorem canonicalOf_cast (valid : Width.isValid w) (a : Interval) : (a.cast w).CanonicalOf w :=
  ⟨bits_cast a w, canonical_cast valid a⟩

/-! ## The order -/

/-- There is one canonical interval of a width for a set of integers. -/
theorem CanonicalOf.ext (ha : a.CanonicalOf w) (hb : b.CanonicalOf w) (same : a.values = b.values) :
    a = b :=
  ha.normal.ext hb.normal (ha.same hb) fun x => Set.ext_iff.1 same x

theorem CanonicalOf.isSubset_iff_values_subset (ha : a.CanonicalOf w) (hb : b.CanonicalOf w) :
    a.isSubset b = true ↔ a.values ⊆ b.values :=
  ⟨fun h _ => contains_of_isSubset h, isSubset_of_contains ha.normal (ha.same hb)⟩

theorem CanonicalOf.values_meet (ha : a.CanonicalOf w) (hb : b.CanonicalOf w) :
    (a.meet b).values = a.values ∩ b.values := by
  ext x
  exact (contains_meet_iff (ha.same hb)).trans
    ⟨fun h => ⟨h.1, h.2.1⟩, fun h => ⟨h.1, h.2, ha.normal.holds h.1⟩⟩

/-- The canonical intervals of a width. -/
abbrev OfWidth (w : Nat) : Type := {i : Interval // i.CanonicalOf w}

instance (w : Nat) : Lattice (OfWidth w) where
  le a b := a.1.isSubset b.1
  le_refl a := isSubset_refl a.1
  le_trans _ _ _ := isSubset_trans
  le_antisymm a b hab hba := Subtype.ext (isSubset_antisymm a.2.normal b.2.normal hab hba)
  sup a b := ⟨a.1.join b.1, a.2.join b.2⟩
  le_sup_left a _ := isSubset_join a.2.normal
  le_sup_right a b := isSubset_join_right b.2.normal (a.2.same b.2)
  sup_le _ _ _ := join_isSubset
  inf a b := ⟨a.1.meet b.1, a.2.meet b.1⟩
  inf_le_left a b := meet_isSubset a.2.normal b.1
  inf_le_right a b := meet_isSubset_right a.2.normal (a.2.same b.2)
  le_inf a _ _ := isSubset_meet a.2.normal

/-- What holds the integers of two intervals holds those of their join. -/
theorem CanonicalOf.values_join_subset_iff (ha : a.CanonicalOf w) (hb : b.CanonicalOf w)
    (hc : c.CanonicalOf w) :
    (a.join b).values ⊆ c.values ↔ a.values ⊆ c.values ∧ b.values ⊆ c.values := by
  rw [← (ha.join hb).isSubset_iff_values_subset hc, ← ha.isSubset_iff_values_subset hc,
    ← hb.isSubset_iff_values_subset hc]
  exact sup_le_iff (a := (⟨a, ha⟩ : OfWidth w)) (b := ⟨b, hb⟩) (c := ⟨c, hc⟩)

theorem CanonicalOf.values_join_subset_widen (ha : a.CanonicalOf w) (hb : b.CanonicalOf w) :
    (a.join b).values ⊆ (a.widen b).values := by
  have wide := ha.widen hb
  refine (ha.values_join_subset_iff hb wide).2 ⟨?_, ?_⟩
  · exact (ha.isSubset_iff_values_subset wide).1 (isSubset_widen ha.normal)
  · exact (hb.isSubset_iff_values_subset wide).1 (isSubset_widen_right hb.normal (ha.same hb))

/-! ## Comparison -/

/-- Different intervals of a width are compared by inclusion, one way and then the other. -/
theorem compare?_of_ne (same : a.bits = b.bits) (unequal : a ≠ b) :
    a.compare? b =
      if a.isSubset b then some .lt else if b.isSubset a then some .gt else none := by
  rcases abounds : a.bounds? with _ | ⟨alo, ahi⟩
  · simp [compare?, isSubset_iff, same, unequal, abounds]
  · rcases bbounds : b.bounds? with _ | ⟨blo, bhi⟩
    · simp [compare?, isSubset_iff, same, unequal, abounds, bbounds]
    · simp [compare?, isSubset_iff, same, unequal, abounds, bbounds]

section Comparison

variable (ha : a.CanonicalOf w) (hb : b.CanonicalOf w)
include ha hb

theorem CanonicalOf.compare?_eq_eq_iff : a.compare? b = some .eq ↔ a.values = b.values := by
  by_cases equal : a = b
  · simp [compare?, equal]
  · rw [compare?_of_ne (ha.same hb) equal]
    have differ : a.values ≠ b.values := fun same => equal (ha.ext hb same)
    split_ifs <;> simp [differ]

theorem CanonicalOf.compare?_eq_lt_iff : a.compare? b = some .lt ↔ a.values ⊂ b.values := by
  by_cases equal : a = b
  · simp [compare?, equal]
  · rw [compare?_of_ne (ha.same hb) equal, Set.ssubset_iff_subset_ne,
      ← ha.isSubset_iff_values_subset hb]
    have differ : a.values ≠ b.values := fun same => equal (ha.ext hb same)
    split_ifs with below above <;> simp [below, differ]

theorem CanonicalOf.compare?_eq_gt_iff : a.compare? b = some .gt ↔ b.values ⊂ a.values := by
  by_cases equal : a = b
  · simp [compare?, equal]
  · rw [compare?_of_ne (ha.same hb) equal, Set.ssubset_iff_subset_ne,
      ← hb.isSubset_iff_values_subset ha]
    have differ : b.values ≠ a.values := fun same => equal (ha.ext hb same.symm)
    split_ifs with below above
    · -- Intervals that are below each other are equal.
      have notAbove : ¬b.isSubset a := fun above =>
        equal (isSubset_antisymm ha.normal hb.normal below above)
      simp [notAbove]
    · simp [above, differ]
    · simp [above]

theorem CanonicalOf.compare?_eq_none_iff :
    a.compare? b = none ↔ ¬a.values ⊆ b.values ∧ ¬b.values ⊆ a.values := by
  by_cases equal : a = b
  · simp [compare?, equal]
  · rw [compare?_of_ne (ha.same hb) equal, ← ha.isSubset_iff_values_subset hb,
      ← hb.isSubset_iff_values_subset ha]
    split_ifs with below above
    · simp [below]
    · simp [above]
    · simp [below, above]

end Comparison

/-! ## Loading -/

/-- What loading accepts: a valid width, with bounds in order and inside the width. -/
def Admissible : Interval → Prop
  | bottom bits | top bits => Width.isValid bits
  | range bits lo hi =>
      Width.isValid bits ∧ Width.minValue bits ≤ lo ∧ lo ≤ hi ∧ hi ≤ Width.maxValue bits

theorem Admissible.isValid (h : i.Admissible) : Width.isValid i.bits := by
  cases i with
  | bottom | top => exact h
  | range => exact h.1

theorem Admissible.representable (h : i.Admissible) : i.Representable := by
  cases i with
  | bottom bits => exact fun _ _ bounds => by cases bounds
  | top bits => exact Canonical.representable (i := top bits) h
  | range bits lo hi =>
    rintro lo hi ⟨⟩
    obtain ⟨-, lower, ordered, upper⟩ := h
    have lowest := Width.minValue_64_le bits
    have highest := Width.maxValue_le_64 bits
    exact ⟨⟨by omega, by omega⟩, ⟨by omega, by omega⟩⟩

theorem admissible_of_check (h : i.check = .ok j) : i.Admissible := by
  unfold check at h
  split_ifs at h with invalid
  have valid : Width.isValid i.bits := by simpa using invalid
  cases i with
  | bottom bits => exact valid
  | top bits => exact valid
  | range bits lo hi =>
    dsimp only at h
    split_ifs at h with outside
    push Not at outside
    exact ⟨valid, outside.2.1, outside.1, outside.2.2⟩

/-- The check turns what it accepts into the canonical interval of the same integers. -/
theorem Admissible.exists_check (h : i.Admissible) :
    ∃ j, i.check = .ok j ∧ j.CanonicalOf i.bits ∧ j.values = i.values := by
  have valid := h.isValid
  cases i with
  | bottom bits => exact ⟨bottom bits, if_neg (by simpa using valid), ⟨rfl, h⟩, rfl⟩
  | top bits => exact ⟨top bits, if_neg (by simpa using valid), ⟨rfl, h⟩, rfl⟩
  | range bits lo hi =>
    obtain ⟨-, lower, ordered, upper⟩ := h
    have accepted : ¬(hi < lo ∨ lo < Width.minValue bits ∨ Width.maxValue bits < hi) := by omega
    rw [bits_range] at valid
    refine ⟨between bits lo hi, by simp [check, valid, accepted], canonicalOf_between valid lo hi, ?_⟩
    ext x
    show (between bits lo hi).contains x = true ↔ (range bits lo hi).contains x = true
    rw [contains_between, contains_range, Width.Holds]
    exact ⟨fun inside => ⟨inside.1, inside.2.1⟩, fun inside => by omega⟩

theorem check_eq_ok_iff :
    i.check = .ok j ↔ i.Admissible ∧ j.CanonicalOf i.bits ∧ j.values = i.values := by
  constructor
  · intro h
    obtain ⟨j', accepted, canonical, same⟩ := (admissible_of_check h).exists_check
    obtain rfl := Except.ok.inj (accepted.symm.trans h)
    exact ⟨admissible_of_check h, canonical, same⟩
  · rintro ⟨admissible, canonical, same⟩
    obtain ⟨j', accepted, canonical', same'⟩ := admissible.exists_check
    rw [accepted, canonical.ext canonical' (same.trans same'.symm)]

variable {source : Json.Source} {json : Json}

/-- A tree is loaded if it is read as something that passes the check. -/
theorem ofJson_eq_ok_iff : ofJson source json = .ok j ↔
    ∃ i, ofJsonUnchecked source json = .ok i ∧ i.check = .ok j := by
  rw [ofJson, bind_eq_ok_iff]
  refine exists_congr fun i => and_congr_right fun _ => ?_
  cases i.check with
  | ok j' => exact Iff.rfl
  | error e => simp [Json.accept, Except.mapError]

/-- What is written is read as nothing else. -/
theorem eq_of_ofJsonUnchecked_toJson (h : ofJsonUnchecked source i.toJson = .ok j) : j = i := by
  cases i with
  | bottom bits =>
    simp only [toJson, ofJsonUnchecked, Json.toVariant_variant, ok_bind, Json.filled] at h
    obtain ⟨bits', read, rfl⟩ := exists_of_map_eq_ok h
    rw [Json.eq_of_toNat_nat read]
  | top bits =>
    simp only [toJson, ofJsonUnchecked, Json.toVariant_variant, ok_bind, Json.filled] at h
    obtain ⟨bits', read, rfl⟩ := exists_of_map_eq_ok h
    rw [Json.eq_of_toNat_nat read]
  | range bits lo hi =>
    have fields : ofJsonUnchecked source (range bits lo hi).toJson = (do
        let bits' ← (Json.nat bits).toNat
        let lo' ← (Json.int lo).toInt
        let hi' ← (Json.int hi).toInt
        return range bits' lo' hi') := by
      simp [toJson, ofJsonUnchecked, Json.filledFields_record]
    rw [fields] at h
    simp only [bind_eq_ok_iff, pure_eq_ok, Except.ok.injEq] at h
    obtain ⟨bits', readBits, lo', readLo, hi', readHi, rfl⟩ := h
    rw [Json.eq_of_toNat_nat readBits, Json.eq_of_toInt_int readLo, Json.eq_of_toInt_int readHi]

/-- An interval that is written without a check is loaded exactly if it is admissible. -/
theorem ofJson_toJson_eq_ok_iff : ofJson source i.toJson = .ok j ↔ i.check = .ok j := by
  rw [ofJson_eq_ok_iff]
  constructor
  · rintro ⟨i', read, checked⟩
    rwa [← eq_of_ofJsonUnchecked_toJson read]
  · intro checked
    have admissible := admissible_of_check checked
    have width := Width.lt_of_isValid admissible.isValid
    exact ⟨i, ofJsonUnchecked_toJson width admissible.representable source, checked⟩

/-- The constructors, the lattice operations, the operators, narrowing and loading give canonical
intervals. Those of one width are equal exactly if they hold the same integers, comparing them decides
inclusion, `join` is the least upper bound, `meet` the intersection, and `widen` is above `join`.
Loading accepts exactly the admissible intervals, and a canonical one is loaded as it was written. -/
theorem canonical_lattice (ha : a.CanonicalOf w) (hb : b.CanonicalOf w) :
    -- Canonical results.
    ((∀ lo hi, (between w lo hi).CanonicalOf w) ∧ (∀ value, (constant w value).CanonicalOf w) ∧
      (∀ lo hi, (ofExact w lo hi).CanonicalOf w) ∧
      (a.join b).CanonicalOf w ∧ (a.meet b).CanonicalOf w ∧ (a.widen b).CanonicalOf w ∧
      (∀ operator : UnaryOperator, (unary operator a).CanonicalOf w) ∧
      (∀ (operator : BinaryOperator) (c : Interval), c.Canonical → operator.isShift ∨ c.bits = w →
        (binary operator a c).CanonicalOf w) ∧
      (∀ bits, Width.isValid bits → (a.cast bits).CanonicalOf bits) ∧
      ∀ comparison : Comparison, (a.refine comparison b).CanonicalOf w) ∧
    -- Order.
    ((a = b ↔ a.values = b.values) ∧
      (a.compare? b = some .eq ↔ a.values = b.values) ∧
      (a.compare? b = some .lt ↔ a.values ⊂ b.values) ∧
      (a.compare? b = some .gt ↔ b.values ⊂ a.values) ∧
      (a.compare? b = none ↔ ¬a.values ⊆ b.values ∧ ¬b.values ⊆ a.values)) ∧
    -- Lattice operations.
    ((∀ c : Interval, c.CanonicalOf w →
        ((a.join b).values ⊆ c.values ↔ a.values ⊆ c.values ∧ b.values ⊆ c.values)) ∧
      (a.meet b).values = a.values ∩ b.values ∧
      (a.join b).values ⊆ (a.widen b).values) ∧
    -- Loading.
    ((∀ (source : Json.Source) (json : Json) (j : Interval), ofJson source json = .ok j ↔
        ∃ i, ofJsonUnchecked source json = .ok i ∧ i.Admissible ∧ j.CanonicalOf i.bits ∧
          j.values = i.values) ∧
      (∀ (source : Json.Source) (i : Interval),
        (∃ j, ofJson source i.toJson = .ok j) ↔ i.Admissible) ∧
      (∀ source : Json.Source, ofJson source a.toJson = .ok a) ∧
      Json.readText (ofJson .text) a.toJson.render = .ok a) := by
  have valid := ha.isValid
  have loaded (source : Json.Source) : Json.Survives toJson (ofJson source) a :=
    survives_iff.2 ha.canonical
  refine ⟨⟨canonicalOf_between valid, fun value => canonicalOf_between valid _ _,
    canonicalOf_ofExact valid, ha.join hb, ha.meet b, ha.widen hb, ha.unary,
    fun operator c _ _ => ha.binary operator c, fun bits target => canonicalOf_cast target a,
    fun comparison => ha.refine comparison b⟩,
    ⟨⟨fun same => same ▸ rfl, ha.ext hb⟩, ha.compare?_eq_eq_iff hb, ha.compare?_eq_lt_iff hb,
      ha.compare?_eq_gt_iff hb, ha.compare?_eq_none_iff hb⟩,
    ⟨fun c hc => ha.values_join_subset_iff hb hc, ha.values_meet hb, ha.values_join_subset_widen hb⟩,
    ⟨fun source json j => ?_, fun source i => ?_, fun source => (loaded source).read, ?_⟩⟩
  · rw [ofJson_eq_ok_iff]
    exact exists_congr fun i => and_congr_right fun _ => check_eq_ok_iff
  · simp only [ofJson_toJson_eq_ok_iff]
    exact ⟨fun ⟨j, checked⟩ => admissible_of_check checked,
      fun admissible => admissible.exists_check.imp fun j accepted => accepted.1⟩
  · rw [Json.readText_render (loaded .text).written]
    exact (loaded .text).read

/-- At width one, zero and minus one are the integers: their join covers the width, and bounds that
cover it are loaded as `top`. -/
theorem canonical_lattice_one_bit :
    (constant 1 0).CanonicalOf 1 ∧ (constant 1 1).CanonicalOf 1 ∧
      (constant 1 0).join (constant 1 1) = top 1 ∧
      (∀ c : Interval, c.CanonicalOf 1 → ((top 1).values ⊆ c.values ↔
        (constant 1 0).values ⊆ c.values ∧ (constant 1 1).values ⊆ c.values)) ∧
      (bottom 1).values = (constant 1 0).values ∩ (constant 1 1).values ∧
      (¬(constant 1 0).values ⊆ (constant 1 1).values ∧
        ¬(constant 1 1).values ⊆ (constant 1 0).values) ∧
      (range 1 (-1) 0).check = .ok (top 1) ∧
      ∃ j, ofJson .text (range 1 (-1) 0).toJson = .ok j := by
  have zero : (constant 1 0).CanonicalOf 1 := ⟨by decide, by decide⟩
  have minusOne : (constant 1 1).CanonicalOf 1 := ⟨by decide, by decide⟩
  have joined : (constant 1 0).join (constant 1 1) = top 1 := by decide
  have met : (constant 1 0).meet (constant 1 1) = bottom 1 := by decide
  have admissible : (range 1 (-1) 0).Admissible := by
    refine ⟨?_, ?_, ?_, ?_⟩ <;> decide
  obtain ⟨-, ⟨-, -, -, -, unrelated⟩, ⟨least, intersection, -⟩, -, loads, -⟩ :=
    canonical_lattice zero minusOne
  rw [joined] at least
  rw [met] at intersection
  exact ⟨zero, minusOne, joined, least, intersection, unrelated.1 (by decide), by decide,
    (loads .text _).2 admissible⟩

end RangeFlow.Interval
