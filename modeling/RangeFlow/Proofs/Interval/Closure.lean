import RangeFlow.Proofs.Interval.Bitwise

/-!
# Properties that the operators keep

An interval is proper (`Interval.Proper`) if it is canonical and holds a value. `Interval.Closed`
collects what a property of intervals has to satisfy for states to keep it: every proper interval has
it, and the operators and the lattice operations pass it on. Being proper is such a property
(`closed_proper`), and so is whatever every canonical interval has (`closed_of_canonical`), such as
bounds inside the width (`closed_inside`).
-/

namespace RangeFlow.Interval

open Width (Holds)

/-! ## Widths of results -/

@[simp]
theorem bits_lift (f : Int × Int → Int × Int) (a : Interval) : (lift f a).bits = a.bits := by
  unfold lift
  split <;> simp

@[simp]
theorem bits_lift₂ (f : Int × Int → Int × Int → Int × Int) (a b : Interval) :
    (lift₂ f a b).bits = a.bits := by
  unfold lift₂
  split <;> simp

@[simp]
theorem bits_liftNonzero (f : Int × Int → List (Int × Int) → Int × Int) (a b : Interval) :
    (liftNonzero f a b).bits = a.bits := by
  unfold liftNonzero
  split
  · split <;> simp
  · rfl

@[simp]
theorem bits_cast (a : Interval) (bits : Nat) : (a.cast bits).bits = bits := by
  unfold cast
  split <;> simp

@[simp]
theorem bits_shr (a b : Interval) : (a.shr b).bits = a.bits := by
  unfold shr
  split_ifs
  · rfl
  · split
    · simp
    · split_ifs <;> simp
    · rfl

@[simp]
theorem bits_unary (operator : UnaryOperator) (a : Interval) :
    (unary operator a).bits = a.bits := by
  cases operator <;> simp [unary, neg, not]

@[simp]
theorem bits_binary (operator : BinaryOperator) (a b : Interval) :
    (binary operator a b).bits = a.bits := by
  cases operator <;> simp only [binary]
  case add => exact bits_lift₂ _ a b
  case sub => exact bits_lift₂ _ a b
  case mul => exact bits_lift₂ _ a b
  case div => exact bits_liftNonzero _ a b
  case rem => exact bits_liftNonzero _ a b
  case and =>
    unfold and
    split
    · split_ifs <;> simp
    · rfl
  case or =>
    unfold or
    split
    · split_ifs <;> simp
    · rfl
  case xor =>
    unfold xor
    split
    · split_ifs <;> simp
    · rfl
  case shl =>
    unfold shl
    split_ifs
    · rfl
    · split <;> simp
  case shr => exact bits_shr a b
  case ushr =>
    unfold ushr
    split_ifs
    · rfl
    · split
      · rfl
      · split_ifs <;> simp
      · rfl

/-! ## Canonical results -/

theorem canonical_lift {a : Interval} (valid : Width.isValid a.bits)
    (f : Int × Int → Int × Int) : (lift f a).Canonical := by
  unfold lift
  split
  · exact canonical_ofExact valid _ _
  · exact valid

theorem canonical_lift₂ {a : Interval} (valid : Width.isValid a.bits)
    (f : Int × Int → Int × Int → Int × Int) (b : Interval) : (lift₂ f a b).Canonical := by
  unfold lift₂
  split
  · exact canonical_ofExact valid _ _
  · exact valid

theorem canonical_liftNonzero {a : Interval} (valid : Width.isValid a.bits)
    (f : Int × Int → List (Int × Int) → Int × Int) (b : Interval) :
    (liftNonzero f a b).Canonical := by
  unfold liftNonzero
  split
  · split
    · exact valid
    · exact canonical_ofExact valid _ _
  · exact valid

theorem canonical_cast {bits : Nat} (valid : Width.isValid bits) (a : Interval) :
    (a.cast bits).Canonical := by
  unfold cast
  split
  · exact canonical_ofExact valid _ _
  · exact valid

theorem canonical_unary {a : Interval} (valid : Width.isValid a.bits) (operator : UnaryOperator) :
    (unary operator a).Canonical := by
  cases operator with
  | neg => exact canonical_lift valid _
  | not => exact canonical_lift valid _

theorem canonical_shr {a : Interval} (valid : Width.isValid a.bits) (b : Interval) :
    (a.shr b).Canonical := by
  unfold shr
  split_ifs
  · exact valid
  · split
    · exact canonical_between valid _ _
    · split_ifs
      · exact canonical_between valid _ _
      · exact valid
    · exact valid

/-- Only a logical shift by nothing gives back an interval that may not be canonical. -/
theorem canonical_binary_or_eq {a : Interval} (valid : Width.isValid a.bits)
    (operator : BinaryOperator) (b : Interval) :
    (binary operator a b).Canonical ∨ binary operator a b = a := by
  cases operator <;> simp only [binary]
  case add => exact .inl (canonical_lift₂ valid _ _)
  case sub => exact .inl (canonical_lift₂ valid _ _)
  case mul => exact .inl (canonical_lift₂ valid _ _)
  case div => exact .inl (canonical_liftNonzero valid _ _)
  case rem => exact .inl (canonical_liftNonzero valid _ _)
  case and =>
    left
    unfold and
    split
    · split_ifs
      · exact canonical_between valid _ _
      · exact canonical_between valid _ _
      · exact canonical_between valid _ _
      · exact valid
    · exact valid
  case or =>
    left
    unfold or
    split
    · split_ifs
      · exact canonical_between valid _ _
      · exact valid
    · exact valid
  case xor =>
    left
    unfold xor
    split
    · split_ifs
      · exact canonical_between valid _ _
      · exact valid
    · exact valid
  case shl =>
    left
    unfold shl
    split_ifs
    · exact valid
    · split
      · exact canonical_lift valid _
      · exact valid
  case shr => exact .inl (canonical_shr valid b)
  case ushr =>
    unfold ushr
    split_ifs
    · exact .inl valid
    · split
      · exact .inr rfl
      · split_ifs
        · exact .inl (canonical_shr valid b)
        · exact .inl valid
      · exact .inl valid

/-! ## Proper intervals -/

/-- A canonical interval that holds a value. -/
def Proper (i : Interval) : Prop := i.Canonical ∧ i.isBottom = false

/-- A member of a canonical interval is the integer of a word. -/
theorem Canonical.exists_word {i : Interval} (h : i.Canonical) {x : Int} (hx : i.contains x) :
    ∃ word : BitVec i.bits, word.toInt = x :=
  ⟨BitVec.ofInt i.bits x,
    by rw [Width.toInt_ofInt h.isValid, Width.wrap_of_holds h.isValid (h.holds hx)]⟩

theorem Proper.exists_bounds {i : Interval} (h : i.Proper) :
    ∃ lo hi, i.bounds? = some (lo, hi) ∧ Width.minValue i.bits ≤ lo ∧ lo ≤ hi ∧
      hi ≤ Width.maxValue i.bits := by
  obtain ⟨x, hx⟩ := h.1.exists_contains h.2
  obtain ⟨lo, hi, bounds, -⟩ := contains_iff.1 hx
  exact ⟨lo, hi, bounds, h.1.bounds bounds⟩

theorem Proper.exists_word {i : Interval} (h : i.Proper) :
    ∃ x : BitVec i.bits, i.contains x.toInt := by
  obtain ⟨x, hx⟩ := h.1.exists_contains h.2
  obtain ⟨word, rfl⟩ := h.1.exists_word hx
  exact ⟨word, hx⟩

theorem Proper.exists_lo {i : Interval} (h : i.Proper) : ∃ lo, i.lo? = some lo ∧ i.contains lo := by
  cases bounds : i.bounds? with
  | none => exact absurd (bounds?_eq_none_iff.1 bounds) (Bool.eq_false_iff.1 h.2)
  | some pair =>
    refine ⟨pair.1, by rw [lo?, bounds, Option.map_some], ?_⟩
    exact contains_iff.2 ⟨_, _, bounds, le_rfl, (h.1.bounds bounds).2.1⟩

theorem proper_top {bits : Nat} (valid : Width.isValid bits) : (top bits).Proper := ⟨valid, rfl⟩

theorem proper_constant {bits : Nat} (valid : Width.isValid bits) (value : Int) :
    (constant bits value).Proper :=
  ⟨canonical_constant valid value, isBottom_eq_false ((contains_constant valid).2 rfl)⟩

theorem proper_ofExact {bits : Nat} (valid : Width.isValid bits) {lo hi : Int} (h : lo ≤ hi) :
    (ofExact bits lo hi).Proper :=
  ⟨canonical_ofExact valid lo hi, isBottom_eq_false (contains_ofExact valid le_rfl h)⟩

theorem Proper.unary {a : Interval} (ha : a.Proper) (operator : UnaryOperator) :
    (unary operator a).Proper := by
  obtain ⟨x, hx⟩ := ha.exists_word
  exact ⟨canonical_unary ha.1.isValid operator,
    isBottom_eq_false (contains_unary ha.1.isValid operator rfl hx)⟩

theorem Proper.cast {a : Interval} (ha : a.Proper) {bits : Nat} (valid : Width.isValid bits) :
    (a.cast bits).Proper := by
  obtain ⟨x, hx⟩ := ha.exists_word
  exact ⟨canonical_cast valid a, isBottom_eq_false (contains_cast valid hx)⟩

/-- A divisor without a value other than zero leaves every value possible. -/
theorem liftNonzero_eq_top {f : Int × Int → List (Int × Int) → Int × Int} {a b : Interval}
    (ha : a.isBottom = false) (hb : b.Proper) (zero : ∀ y, b.contains y → y = 0) :
    liftNonzero f a b = top a.bits := by
  cases abounds : a.bounds? with
  | none => simp [bounds?_eq_none_iff.1 abounds] at ha
  | some dividend =>
    cases bbounds : b.bounds? with
    | none => simp [bounds?_eq_none_iff.1 bbounds, Proper] at hb
    | some divisor =>
      have ordered := (hb.1.bounds bbounds).2.1
      have lower := zero divisor.1 (contains_iff.2 ⟨_, _, bbounds, le_rfl, ordered⟩)
      have upper := zero divisor.2 (contains_iff.2 ⟨_, _, bbounds, ordered, le_rfl⟩)
      have none : nonzeroParts divisor = [] := by
        rw [show divisor = (0, 0) from Prod.ext lower upper]
        rfl
      rw [liftNonzero, abounds, bbounds]
      simp [none]

theorem Proper.binary {a b : Interval} (ha : a.Proper) (hb : b.Proper) (operator : BinaryOperator)
    (sorts : operator.isShift ∨ a.bits = b.bits) : (binary operator a b).Proper := by
  have valid := ha.1.isValid
  refine ⟨(canonical_binary_or_eq valid operator b).elim id fun same => by rw [same]; exact ha.1,
    ?_⟩
  obtain ⟨x, hx⟩ := ha.exists_word
  -- The words of the operands give a word of the result, unless only a division by zero is left.
  have inhabited (y : BitVec b.bits) (hy : b.contains y.toInt) (r : BitVec a.bits)
      (result : operator.onWords x y = some r) : (Interval.binary operator a b).isBottom = false :=
    isBottom_eq_false
      (contains_binary valid operator sorts rfl ha.1.representable hx hy result)
  have nonzero (f : Int × Int → List (Int × Int) → Int × Int)
      (onto : ∀ y : BitVec b.bits, b.contains y.toInt → y.toInt ≠ 0 →
        (liftNonzero f a b).isBottom = false) : (liftNonzero f a b).isBottom = false := by
    by_cases zero : ∀ y, b.contains y → y = 0
    · rw [liftNonzero_eq_top ha.2 hb zero]
      rfl
    · push Not at zero
      obtain ⟨y, hy, hne⟩ := zero
      obtain ⟨word, rfl⟩ := hb.1.exists_word hy
      exact onto word hy hne
  obtain ⟨y, hy⟩ := hb.exists_word
  cases operator with
  | div => exact nonzero _ fun y hy hne => inhabited y hy _ (if_neg hne)
  | rem => exact nonzero _ fun y hy hne => inhabited y hy _ (if_neg hne)
  | _ => exact inhabited y hy _ rfl

theorem Proper.join {a b : Interval} (ha : a.Proper) (hb : b.Proper) : (a.join b).Proper := by
  obtain ⟨x, hx⟩ := ha.1.exists_contains ha.2
  exact ⟨canonical_join ha.1 hb.1,
    isBottom_eq_false (contains_join_left hx (ha.1.holds hx))⟩

theorem Proper.widen {a b : Interval} (ha : a.Proper) (hb : b.Proper) : (a.widen b).Proper := by
  obtain ⟨x, hx⟩ := ha.1.exists_contains ha.2
  exact ⟨canonical_widen ha.1 hb.1,
    isBottom_eq_false (contains_widen_left hx (ha.1.holds hx))⟩

/-! ## Closed properties -/

/-- A property that proper intervals have and that the operations on intervals pass on. -/
structure Closed (P : Interval → Prop) : Prop where
  proper : ∀ {i : Interval}, i.Proper → P i
  unary : ∀ (operator : UnaryOperator) {a : Interval}, Width.isValid a.bits → P a →
    P (Interval.unary operator a)
  binary : ∀ (operator : BinaryOperator) {a b : Interval}, Width.isValid a.bits →
    (operator.isShift ∨ a.bits = b.bits) → P a → P b → P (Interval.binary operator a b)
  cast : ∀ {a : Interval} {bits : Nat}, Width.isValid bits → P a → P (a.cast bits)
  join : ∀ {a b : Interval}, Width.isValid a.bits → P a → P b → P (a.join b)
  widen : ∀ {a b : Interval}, Width.isValid a.bits → P a → P b → P (a.widen b)
  meet : ∀ {a b : Interval}, Width.isValid a.bits → P a → (a.meet b).isBottom = false →
    P (a.meet b)

theorem closed_proper : Closed Proper where
  proper h := h
  unary operator _ _ ha := ha.unary operator
  binary operator _ _ _ sorts ha hb := ha.binary hb operator sorts
  cast valid ha := ha.cast valid
  join _ ha hb := ha.join hb
  widen _ ha hb := ha.widen hb
  meet _ ha hne := ⟨canonical_meet ha.1 _, hne⟩

/-- Every operation gives a canonical interval or one of its arguments. -/
theorem closed_of_canonical {P : Interval → Prop} (canonical : ∀ {i : Interval}, i.Canonical → P i) :
    Closed P where
  proper h := canonical h.1
  unary operator _ valid _ := canonical (canonical_unary valid operator)
  binary operator _ b valid _ ha _ :=
    (canonical_binary_or_eq valid operator b).elim canonical fun same => by rw [same]; exact ha
  cast valid _ := canonical (canonical_cast valid _)
  join {a b} valid ha hb := by
    unfold Interval.join
    split_ifs
    · exact canonical valid
    · split
      · exact hb
      · exact ha
      · exact canonical (canonical_between valid _ _)
  widen {a b} valid ha hb := by
    unfold Interval.widen
    split_ifs
    · exact canonical valid
    · split
      · exact hb
      · exact ha
      · exact canonical (canonical_between valid _ _)
  meet {a b} valid ha _ := by
    unfold Interval.meet
    split_ifs
    · exact ha
    · split
      · exact canonical (canonical_between valid _ _)
      · exact canonical valid

theorem closed_inside : Closed Inside := closed_of_canonical fun h => h.normal.inside

end RangeFlow.Interval
