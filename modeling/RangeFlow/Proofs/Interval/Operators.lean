import RangeFlow.Proofs.Interval.Closure

/-!
# Operators on integers

What the operators compute, said of the integers that words stand for: the exact result, reduced once
to the width (`UnaryOperator.onInt`, `BinaryOperator.onInts`). On the integers of two words this is
the integer of the word that the operator computes (`onInt_toInt`, `onInts_toInt`).

Main statement: `Interval.contains_operators`, no operator on intervals loses such a result, and none
is empty unless an operand is.
-/

namespace RangeFlow

/-- The signed integer of a width `w` that is left of the exact result. -/
def UnaryOperator.onInt (w : Nat) : UnaryOperator → Int → Int
  | neg, x => (-x).bmod (2 ^ w)
  | not, x => (-x - 1).bmod (2 ^ w)

/-- The signed integer of a width `w` that an operator gives. Quotients truncate toward zero, a shift
counts its amount modulo the width, and a logical shift moves the unsigned integer of the same bits. A
division by zero gives nothing. -/
def BinaryOperator.onInts (w : Nat) (operator : BinaryOperator) (x y : Int) : Option Int :=
  match operator with
  | add => some ((x + y).bmod (2 ^ w))
  | sub => some ((x - y).bmod (2 ^ w))
  | mul => some ((x * y).bmod (2 ^ w))
  | div => if y = 0 then none else some ((x.tdiv y).bmod (2 ^ w))
  | rem => if y = 0 then none else some (x.tmod y)
  | and => some (BitVec.ofInt w x &&& BitVec.ofInt w y).toInt
  | or => some (BitVec.ofInt w x ||| BitVec.ofInt w y).toInt
  | xor => some (BitVec.ofInt w x ^^^ BitVec.ofInt w y).toInt
  | shl => some ((x * 2 ^ (y % w).toNat).bmod (2 ^ w))
  | shr => some (x / 2 ^ (y % w).toNat)
  | ushr => some ((x % 2 ^ w / 2 ^ (y % w).toNat).bmod (2 ^ w))

/-- The least integer divided by minus one is itself. -/
example : BinaryOperator.div.onInts 8 (-128) (-1) = some (-128) := by decide

/-- Only a division by zero has no result. -/
theorem BinaryOperator.exists_onInts (w : Nat) (operator : BinaryOperator) {x y : Int}
    (divides : operator = div ∨ operator = rem → y ≠ 0) : ∃ z, operator.onInts w x y = some z := by
  cases operator <;> simp_all [onInts]

/-! ## Agreement with the words -/

theorem UnaryOperator.onInt_toInt {w : Nat} (valid : Width.isValid w) (operator : UnaryOperator)
    (x : BitVec w) : operator.onInt w x.toInt = (operator.onWord x).toInt := by
  cases operator with
  | neg => exact BitVec.toInt_neg.symm
  | not => rw [onInt, onWord, Interval.toInt_not_eq_wrap valid, Width.wrap_eq_bmod valid]

theorem toInt_ushiftRight_eq_bmod {w : Nat} (x : BitVec w) (n : Nat) :
    (x >>> n).toInt = (x.toInt % 2 ^ w / 2 ^ n).bmod (2 ^ w) := by
  have pattern : x.toInt % 2 ^ w = x.toNat := by
    have modulus : (2 : Int) ^ w = ((2 ^ w : Nat) : Int) := by push_cast; rfl
    rw [BitVec.toInt_eq_toNat_bmod, modulus, Int.bmod_emod, ← Int.natCast_emod,
      Nat.mod_eq_of_lt x.isLt]
  rw [pattern, BitVec.toInt_eq_toNat_bmod, BitVec.toNat_ushiftRight, Nat.shiftRight_eq_div_pow]
  push_cast
  rfl

theorem BinaryOperator.onInts_toInt {w v : Nat} (valid : Width.isValid w)
    (operator : BinaryOperator) (sorts : operator.isShift ∨ w = v) (x : BitVec w) (y : BitVec v) :
    operator.onInts w x.toInt y.toInt = (operator.onWords x y).map BitVec.toInt := by
  cases shift : operator.isShift with
  | true =>
    cases operator <;> simp only [isShift, Bool.false_eq_true] at shift
    case shl =>
      simp only [onInts, onWords, Option.map_some, Interval.toInt_shiftLeft_eq_wrap valid,
        Width.wrap_eq_bmod valid, Width.twoPow_eq, shiftDistance]
    case shr =>
      simp only [onInts, onWords, Option.map_some, Interval.toInt_sshiftRight_eq_ediv,
        shiftDistance]
    case ushr =>
      simp only [onInts, onWords, Option.map_some, toInt_ushiftRight_eq_bmod, shiftDistance]
  | false =>
    obtain rfl : w = v := by simpa [shift] using sorts
    cases operator <;> simp only [isShift, Bool.true_eq_false] at shift <;>
      simp only [onInts, onWords, BitVec.signExtend_eq, Option.map_some, BitVec.ofInt_toInt]
    case add => rw [BitVec.toInt_add]
    case sub => rw [BitVec.toInt_sub]
    case mul => rw [BitVec.toInt_mul]
    case div => split_ifs <;> simp [BitVec.toInt_sdiv]
    case rem => split_ifs <;> simp [BitVec.toInt_srem]

namespace Interval

theorem contains_onInt {a : Interval} (ha : a.Canonical) (operator : UnaryOperator) {x : Int}
    (hx : a.contains x) : (unary operator a).contains (operator.onInt a.bits x) := by
  obtain ⟨word, rfl⟩ := ha.exists_word hx
  rw [operator.onInt_toInt ha.isValid]
  exact contains_unary ha.isValid operator rfl hx

theorem contains_onInts {a b : Interval} (ha : a.Canonical) (hb : b.Canonical)
    {operator : BinaryOperator} (sorts : operator.isShift ∨ a.bits = b.bits) {x y z : Int}
    (hx : a.contains x) (hy : b.contains y) (result : operator.onInts a.bits x y = some z) :
    (binary operator a b).contains z := by
  obtain ⟨left, rfl⟩ := ha.exists_word hx
  obtain ⟨right, rfl⟩ := hb.exists_word hy
  rw [operator.onInts_toInt ha.isValid sorts] at result
  obtain ⟨word, computed, rfl⟩ := Option.map_eq_some_iff.1 result
  exact contains_binary ha.isValid operator sorts rfl ha.representable hx hy computed

/-- Every operator on canonical intervals holds what the operator gives on their members, and is empty
only if an operand is. -/
theorem contains_operators {a b : Interval} (ha : a.Canonical) (hb : b.Canonical) :
    (∀ operator : UnaryOperator,
      (∀ x, a.contains x → (unary operator a).contains (operator.onInt a.bits x)) ∧
      ((unary operator a).isBottom → a.isBottom)) ∧
    (∀ bits, Width.isValid bits →
      (∀ x, a.contains x → (a.cast bits).contains (x.bmod (2 ^ bits))) ∧
      ((a.cast bits).isBottom → a.isBottom)) ∧
    ∀ operator : BinaryOperator, operator.isShift ∨ a.bits = b.bits →
      (∀ x y, a.contains x → b.contains y →
        (operator = .div ∨ operator = .rem → y ≠ 0) →
        ∃ z, operator.onInts a.bits x y = some z ∧ (binary operator a b).contains z) ∧
      ((binary operator a b).isBottom → a.isBottom ∨ b.isBottom) := by
  refine ⟨fun operator => ⟨fun x hx => contains_onInt ha operator hx, fun empty => ?_⟩,
    fun bits valid => ⟨fun x hx => ?_, fun empty => ?_⟩,
    fun operator sorts => ⟨fun x y hx hy divides => ?_, fun empty => ?_⟩⟩
  · by_contra inhabited
    have proper : a.Proper := ⟨ha, Bool.eq_false_iff.2 inhabited⟩
    simp [(proper.unary operator).2] at empty
  · rw [← Width.wrap_eq_bmod valid]
    exact contains_cast valid hx
  · by_contra inhabited
    have proper : a.Proper := ⟨ha, Bool.eq_false_iff.2 inhabited⟩
    simp [(proper.cast valid).2] at empty
  · obtain ⟨z, result⟩ := operator.exists_onInts a.bits divides
    exact ⟨z, result, contains_onInts ha hb sorts hx hy result⟩
  · by_contra inhabited
    obtain ⟨left, right⟩ := not_or.1 inhabited
    have properLeft : a.Proper := ⟨ha, Bool.eq_false_iff.2 left⟩
    have properRight : b.Proper := ⟨hb, Bool.eq_false_iff.2 right⟩
    simp [(properLeft.binary properRight operator sorts).2] at empty

/-- The quotient of the least integer by minus one, and a logical shift of a negative one by an amount
of another width. -/
theorem contains_operators_wrapping :
    (between 8 (-128) (-100)).Canonical ∧ (between 8 (-1) 3).Canonical ∧
      (between 4 (-7) (-6)).Canonical ∧
      (∃ z, BinaryOperator.div.onInts 8 (-128) (-1) = some z ∧
        (binary .div (between 8 (-128) (-100)) (between 8 (-1) 3)).contains z) ∧
      ∃ z, BinaryOperator.ushr.onInts 8 (-128) (-7) = some z ∧
        (binary .ushr (between 8 (-128) (-100)) (between 4 (-7) (-6))).contains z := by
  have least : (between 8 (-128) (-100)).Canonical := canonical_between rfl _ _
  have divisor : (between 8 (-1) 3).Canonical := canonical_between rfl _ _
  have amount : (between 4 (-7) (-6)).Canonical := canonical_between rfl _ _
  refine ⟨least, divisor, amount, ?_, ?_⟩
  · exact ((contains_operators least divisor).2.2 .div (.inr rfl)).1 _ _ rfl rfl fun _ => by decide
  · exact ((contains_operators least amount).2.2 .ushr (.inl rfl)).1 _ _ rfl rfl (by decide)

end Interval

end RangeFlow
