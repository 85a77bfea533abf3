import RangeFlow.Proofs.Interval.Arithmetic
import RangeFlow.Proofs.Semantics.Word

/-!
# Bitwise operators and shifts on what intervals hold

The operators that look at the bits of a word. Words that are not negative agree with their bit
patterns, which is the only case in which the bitwise operators say more than `top`. The last section
puts all operators together: `contains_unary` and `contains_binary` say that the interval of an
operator holds the word it computes.
-/

namespace RangeFlow.Interval

open Width (Holds)

/-! ## Words that are not negative -/

theorem toInt_eq_toNat {w : Nat} {x : BitVec w} (h : 0 ≤ x.toInt) : x.toInt = x.toNat := by
  apply BitVec.toInt_eq_toNat_of_msb
  rw [BitVec.msb_eq_toInt, decide_eq_false_iff_not]
  omega

theorem toInt_nonneg_iff {w : Nat} {x : BitVec w} : 0 ≤ x.toInt ↔ x.msb = false := by
  rw [BitVec.msb_eq_toInt, decide_eq_false_iff_not, not_lt]

theorem toInt_and_of_nonneg {w : Nat} {x y : BitVec w} (h : 0 ≤ x.toInt ∨ 0 ≤ y.toInt) :
    (x &&& y).toInt = ((x.toNat &&& y.toNat : Nat) : Int) := by
  have sign : 0 ≤ (x &&& y).toInt := by
    rw [toInt_nonneg_iff, BitVec.msb_and]
    rcases h with h | h <;> simp [toInt_nonneg_iff.1 h]
  rw [toInt_eq_toNat sign, BitVec.toNat_and]

theorem toInt_or_of_nonneg {w : Nat} {x y : BitVec w} (hx : 0 ≤ x.toInt) (hy : 0 ≤ y.toInt) :
    (x ||| y).toInt = ((x.toNat ||| y.toNat : Nat) : Int) := by
  have sign : 0 ≤ (x ||| y).toInt := by
    rw [toInt_nonneg_iff, BitVec.msb_or, toInt_nonneg_iff.1 hx, toInt_nonneg_iff.1 hy]
    rfl
  rw [toInt_eq_toNat sign, BitVec.toNat_or]

theorem toInt_xor_of_nonneg {w : Nat} {x y : BitVec w} (hx : 0 ≤ x.toInt) (hy : 0 ≤ y.toInt) :
    (x ^^^ y).toInt = ((x.toNat ^^^ y.toNat : Nat) : Int) := by
  have sign : 0 ≤ (x ^^^ y).toInt := by
    rw [toInt_nonneg_iff, BitVec.msb_xor, toInt_nonneg_iff.1 hx, toInt_nonneg_iff.1 hy]
    rfl
  rw [toInt_eq_toNat sign, BitVec.toNat_xor]

/-- The mask above a bound is all ones, and every smaller number has only bits of the mask. -/
theorem exists_onesAbove_eq (value : Int) :
    ∃ k : Nat, onesAbove value = ((2 ^ k : Nat) : Int) - 1 ∧
      ∀ n : Nat, (n : Int) ≤ value → n < 2 ^ k := by
  unfold onesAbove
  split_ifs with h
  · exact ⟨0, by simp, fun n hn => by simp; omega⟩
  · refine ⟨value.toNat.log2 + 1, by rw [Width.twoPow_eq]; push_cast; rfl, fun n hn => ?_⟩
    calc n ≤ value.toNat := by omega
      _ < 2 ^ (value.toNat.log2 + 1) := Nat.lt_log2_self

/-! ## And, or, xor -/

section Bitwise

variable {w : Nat} {x y : BitVec w} {a b : Interval}

theorem contains_and (valid : Width.isValid w) (width : a.bits = w) (hx : a.contains x.toInt)
    (hy : b.contains y.toInt) : (a.and b).contains (x &&& y).toInt := by
  obtain ⟨alo, ahi, abounds, alower, aupper⟩ := contains_iff.1 hx
  obtain ⟨blo, bhi, bbounds, blower, bupper⟩ := contains_iff.1 hy
  have held := Holds.of_toInt valid (x &&& y)
  have left : x.toNat &&& y.toNat ≤ x.toNat := Nat.and_le_left
  have right : x.toNat &&& y.toNat ≤ y.toNat := Nat.and_le_right
  rw [and, abounds, bbounds, width]
  dsimp only
  split_ifs with both onlyLeft onlyRight
  · have nx := toInt_eq_toNat (both.1.trans alower)
    have ny := toInt_eq_toNat (both.2.trans blower)
    rw [toInt_and_of_nonneg (.inl (both.1.trans alower))] at held ⊢
    exact contains_between.2 ⟨by omega, by omega, held⟩
  · have nx := toInt_eq_toNat (onlyLeft.trans alower)
    rw [toInt_and_of_nonneg (.inl (onlyLeft.trans alower))] at held ⊢
    exact contains_between.2 ⟨by omega, by omega, held⟩
  · have ny := toInt_eq_toNat (onlyRight.trans blower)
    rw [toInt_and_of_nonneg (.inr (onlyRight.trans blower))] at held ⊢
    exact contains_between.2 ⟨by omega, by omega, held⟩
  · exact contains_top.2 held

theorem contains_or (valid : Width.isValid w) (width : a.bits = w) (hx : a.contains x.toInt)
    (hy : b.contains y.toInt) : (a.or b).contains (x ||| y).toInt := by
  obtain ⟨alo, ahi, abounds, alower, aupper⟩ := contains_iff.1 hx
  obtain ⟨blo, bhi, bbounds, blower, bupper⟩ := contains_iff.1 hy
  have held := Holds.of_toInt valid (x ||| y)
  rw [or, abounds, bbounds, width]
  dsimp only
  split_ifs with both
  · have nx := toInt_eq_toNat (both.1.trans alower)
    have ny := toInt_eq_toNat (both.2.trans blower)
    have left : x.toNat ≤ x.toNat ||| y.toNat := Nat.left_le_or
    have right : y.toNat ≤ x.toNat ||| y.toNat := Nat.right_le_or
    obtain ⟨k, mask, small⟩ := exists_onesAbove_eq (max ahi bhi)
    have below := Nat.or_lt_two_pow (small x.toNat (by omega)) (small y.toNat (by omega))
    rw [toInt_or_of_nonneg (both.1.trans alower) (both.2.trans blower)] at held ⊢
    exact contains_between.2 ⟨by omega, by omega, held⟩
  · exact contains_top.2 held

theorem contains_xor (valid : Width.isValid w) (width : a.bits = w) (hx : a.contains x.toInt)
    (hy : b.contains y.toInt) : (a.xor b).contains (x ^^^ y).toInt := by
  obtain ⟨alo, ahi, abounds, alower, aupper⟩ := contains_iff.1 hx
  obtain ⟨blo, bhi, bbounds, blower, bupper⟩ := contains_iff.1 hy
  have held := Holds.of_toInt valid (x ^^^ y)
  rw [xor, abounds, bbounds, width]
  dsimp only
  split_ifs with both
  · have nx := toInt_eq_toNat (both.1.trans alower)
    have ny := toInt_eq_toNat (both.2.trans blower)
    obtain ⟨k, mask, small⟩ := exists_onesAbove_eq (max ahi bhi)
    have below := Nat.xor_lt_two_pow (small x.toNat (by omega)) (small y.toNat (by omega))
    rw [toInt_xor_of_nonneg (both.1.trans alower) (both.2.trans blower)] at held ⊢
    exact contains_between.2 ⟨by omega, by omega, held⟩
  · exact contains_top.2 held

end Bitwise

/-! ## Shifts -/

theorem eq_of_value?_eq_some {i : Interval} {v x : Int} (h : i.value? = some v)
    (hx : i.contains x) : x = v := by
  obtain ⟨lo, hi, bounds, lower, upper⟩ := contains_iff.1 hx
  rw [value?, bounds] at h
  dsimp only at h
  split_ifs at h with single
  cases h
  omega

/-- A single value is an amount to shift by, modulo the width. -/
theorem shiftAmount?_of_value? {a b : Interval} (valid : Width.isValid a.bits) {value : Int}
    (single : b.value? = some value) : a.shiftAmount? b = some (value % a.bits).toNat := by
  rw [Width.isValid_iff] at valid
  have whole : Width.low64 (Int.ofNat a.bits) = a.bits :=
    Int.bmod_eq_of_le (by norm_num) (by norm_num; omega)
  have nonneg : 0 ≤ value % (a.bits : Int) := Int.emod_nonneg _ (by omega)
  have below : value % (a.bits : Int) < a.bits := Int.emod_lt_of_pos _ (by omega)
  rw [shiftAmount?, single, Option.map_some, whole, Option.some.injEq]
  exact Nat.mod_eq_of_lt (by norm_num; omega)

/-- A known amount is the distance by which words are shifted. -/
theorem shiftAmount?_eq_distance {w v : Nat} (valid : Width.isValid w) {a b : Interval}
    (width : a.bits = w) {y : BitVec v} (hy : b.contains y.toInt) {amount : Nat}
    (known : a.shiftAmount? b = some amount) : amount = shiftDistance w y := by
  subst width
  obtain ⟨value, single, -⟩ := Option.map_eq_some_iff.1 known
  rw [shiftAmount?_of_value? valid single] at known
  rw [shiftDistance, eq_of_value?_eq_some single hy]
  exact (Option.some.inj known).symm

theorem shiftDistance_lt {w v : Nat} (valid : Width.isValid w) (y : BitVec v) :
    shiftDistance w y < 64 := by
  rw [Width.isValid_iff] at valid
  have nonneg : 0 ≤ y.toInt % (w : Int) := Int.emod_nonneg _ (by omega)
  have below : y.toInt % (w : Int) < w := Int.emod_lt_of_pos _ (by omega)
  unfold shiftDistance
  omega

theorem toInt_shiftLeft_eq_wrap {w : Nat} (valid : Width.isValid w) (x : BitVec w) (n : Nat) :
    (x <<< n).toInt = Width.wrap (x.toInt * Width.twoPow n) w := by
  rw [BitVec.toInt_shiftLeft, Width.wrap_eq_bmod valid, Width.twoPow_eq, Nat.shiftLeft_eq,
    BitVec.toInt_eq_toNat_bmod x, Int.bmod_mul_bmod]
  push_cast
  rfl

theorem toInt_sshiftRight_eq_ediv {w : Nat} (x : BitVec w) (n : Nat) :
    (x.sshiftRight n).toInt = x.toInt / 2 ^ n := by
  rw [BitVec.toInt_sshiftRight, Int.shiftRight_eq_div_pow]
  push_cast
  rfl

/-- Bounds of 64 bits that are shifted by less than 64 places fit into 128 bits. -/
theorem low128_shifted {x : Int} (held : Holds 64 x) {n : Nat} (small : n < 64) :
    Width.low128 (x * Width.twoPow n) = x * Width.twoPow n := by
  rw [Holds, Width.minValue_64, Width.maxValue_64] at held
  have positive := Width.twoPow_pos n
  have limit : Width.twoPow n ≤ 2 ^ 63 := by
    rw [Width.twoPow_eq]
    exact pow_le_pow_right₀ (by norm_num) (by omega)
  have lower : -2 ^ 63 * 2 ^ 63 ≤ x * Width.twoPow n := by nlinarith
  have upper : x * Width.twoPow n ≤ 2 ^ 63 * 2 ^ 63 := by nlinarith
  exact Int.bmod_eq_of_le (by norm_num at lower ⊢; omega) (by norm_num at upper ⊢; omega)

section Shifts

variable {w v : Nat} {x : BitVec w} {y : BitVec v} {a b : Interval}

theorem contains_shl (valid : Width.isValid w) (width : a.bits = w) (fits : a.Representable)
    (hx : a.contains x.toInt) (hy : b.contains y.toInt) :
    (a.shl b).contains (x <<< shiftDistance w y).toInt := by
  subst width
  rw [shl, isBottom_eq_false hx, isBottom_eq_false hy]
  simp only [Bool.or_self, Bool.false_eq_true, ↓reduceIte]
  split
  · rename_i amount known
    obtain ⟨lo, hi, bounds, lower, upper⟩ := contains_iff.1 hx
    have small := shiftDistance_lt valid y
    have inside := fits lo hi bounds
    have positive := (Width.twoPow_pos (shiftDistance a.bits y)).le
    rw [shiftAmount?_eq_distance valid rfl hy known, toInt_shiftLeft_eq_wrap valid, lift, bounds]
    simp only [shiftedBounds, held, low128_shifted inside.1 small, low128_shifted inside.2 small]
    exact contains_ofExact valid (mul_le_mul_of_nonneg_right lower positive)
      (mul_le_mul_of_nonneg_right upper positive)
  · exact contains_top.2 (Holds.of_toInt valid _)

theorem contains_shr (valid : Width.isValid w) (width : a.bits = w) (hx : a.contains x.toInt)
    (hy : b.contains y.toInt) :
    (a.shr b).contains (x.sshiftRight (shiftDistance w y)).toInt := by
  have held := Holds.of_toInt valid (x.sshiftRight (shiftDistance w y))
  obtain ⟨lo, hi, bounds, lower, upper⟩ := contains_iff.1 hx
  rw [shr, isBottom_eq_false hx, isBottom_eq_false hy, bounds, width]
  simp only [Bool.or_self, Bool.false_eq_true, ↓reduceIte]
  rw [BitVec.toInt_sshiftRight, Int.shiftRight_eq_div_pow] at held ⊢
  split
  · rename_i amount same known
    cases same
    rw [shiftAmount?_eq_distance valid width hy known, Width.twoPow_eq]
    refine contains_between.2 ⟨?_, ?_, held⟩
    · exact_mod_cast Int.ediv_le_ediv (by positivity) lower
    · exact_mod_cast Int.ediv_le_ediv (by positivity) upper
  · rename_i same _
    cases same
    split_ifs with nonneg
    · have shrinks := Int.ediv_le_self (2 ^ shiftDistance w y : Nat) (nonneg.trans lower)
      have sign := Int.ediv_nonneg (nonneg.trans lower)
        (Int.natCast_nonneg (2 ^ shiftDistance w y))
      exact contains_between.2 ⟨sign, by omega, held⟩
    · exact contains_top.2 held
  · exact contains_top.2 held

theorem contains_ushr (valid : Width.isValid w) (width : a.bits = w) (hx : a.contains x.toInt)
    (hy : b.contains y.toInt) : (a.ushr b).contains (x >>> shiftDistance w y).toInt := by
  have held := Holds.of_toInt valid (x >>> shiftDistance w y)
  obtain ⟨lo, hi, bounds, lower, upper⟩ := contains_iff.1 hx
  rw [ushr, isBottom_eq_false hx, isBottom_eq_false hy, bounds]
  simp only [Bool.or_self, Bool.false_eq_true, ↓reduceIte]
  split
  · rename_i known
    rw [← shiftAmount?_eq_distance valid width hy known, BitVec.ushiftRight_zero]
    exact hx
  · rename_i same _
    cases same
    split_ifs with nonneg
    · rw [← BitVec.sshiftRight_eq_of_msb_false (toInt_nonneg_iff.1 (nonneg.trans lower))]
      exact contains_shr valid width hx hy
    · rw [width]
      exact contains_top.2 held
  · rw [width]
    exact contains_top.2 held

end Shifts

/-! ## Operators by name -/

theorem toInt_not_eq_wrap {w : Nat} (valid : Width.isValid w) (x : BitVec w) :
    (~~~x).toInt = Width.wrap (-x.toInt - 1) w := by
  have shifted : (2 ^ w - 1 - x.toNat : Int) = -1 - x.toNat + (2 ^ w : Nat) := by
    push_cast
    ring
  rw [BitVec.toInt_not, Width.wrap_eq_bmod valid, BitVec.toInt_eq_toNat_bmod, shifted,
    Int.add_bmod_right, sub_eq_add_neg (-Int.bmod _ _), add_comm (-Int.bmod _ _),
    ← sub_eq_add_neg, Int.sub_bmod_bmod]

theorem contains_unary {w : Nat} (valid : Width.isValid w) (operator : UnaryOperator)
    {x : BitVec w} {a : Interval} (width : a.bits = w) (hx : a.contains x.toInt) :
    (unary operator a).contains (operator.onWord x).toInt := by
  subst width
  cases operator with
  | neg =>
    rw [UnaryOperator.onWord, BitVec.toInt_neg, ← Width.wrap_eq_bmod valid]
    exact contains_neg valid hx
  | not =>
    rw [UnaryOperator.onWord, toInt_not_eq_wrap valid]
    exact contains_not valid hx

/-- The interval of an operator on words of one width holds the word that the operator computes. -/
theorem contains_binary_of_eq {w : Nat} (valid : Width.isValid w) (operator : BinaryOperator)
    (straight : operator.isShift = false) {x y r : BitVec w} {a b : Interval} (width : a.bits = w)
    (hx : a.contains x.toInt) (hy : b.contains y.toInt) (result : operator.onWords x y = some r) :
    (binary operator a b).contains r.toInt := by
  subst width
  cases operator <;> simp only [BinaryOperator.isShift, Bool.true_eq_false] at straight <;>
    simp only [BinaryOperator.onWords, BitVec.signExtend_eq] at result
  case add =>
    cases result
    rw [BitVec.toInt_add, ← Width.wrap_eq_bmod valid]
    exact contains_add valid hx hy
  case sub =>
    cases result
    rw [BitVec.toInt_sub, ← Width.wrap_eq_bmod valid]
    exact contains_sub valid hx hy
  case mul =>
    cases result
    rw [BitVec.toInt_mul, ← Width.wrap_eq_bmod valid]
    exact contains_mul valid hx hy
  case div =>
    split_ifs at result with nonzero
    cases result
    rw [BitVec.toInt_sdiv, ← Width.wrap_eq_bmod valid]
    exact contains_div valid hx hy nonzero
  case rem =>
    split_ifs at result with nonzero
    cases result
    rw [← Width.wrap_of_holds valid (Holds.of_toInt valid (x.srem y)), BitVec.toInt_srem]
    exact contains_rem valid hx hy nonzero
  case and =>
    cases result
    exact contains_and valid rfl hx hy
  case or =>
    cases result
    exact contains_or valid rfl hx hy
  case xor =>
    cases result
    exact contains_xor valid rfl hx hy

/-- The interval of an operator holds the word that the operator computes. -/
theorem contains_binary {w v : Nat} (valid : Width.isValid w) (operator : BinaryOperator)
    (sorts : operator.isShift ∨ w = v) {x r : BitVec w} {y : BitVec v} {a b : Interval}
    (width : a.bits = w) (fits : a.Representable) (hx : a.contains x.toInt)
    (hy : b.contains y.toInt) (result : operator.onWords x y = some r) :
    (binary operator a b).contains r.toInt := by
  cases shift : operator.isShift with
  | true =>
    cases operator <;> simp only [BinaryOperator.isShift, Bool.false_eq_true] at shift
    case shl =>
      cases result
      exact contains_shl valid width fits hx hy
    case shr =>
      cases result
      exact contains_shr valid width hx hy
    case ushr =>
      cases result
      exact contains_ushr valid width hx hy
  | false =>
    obtain rfl : w = v := by simpa [shift] using sorts
    exact contains_binary_of_eq valid operator shift width hx hy result

end RangeFlow.Interval
