import Mathlib
import RangeFlow.Width

/-!
# Widths and wrapping

The integers that a width holds (`Width.Holds`), and `Width.wrap` as the signed value of the word
that an integer leaves: on a valid width it is the balanced remainder modulo `2 ^ bits`, it gives an
integer of the width, and it changes no integer of the width.
-/

namespace RangeFlow.Width

/-- An integer of a width. -/
def Holds (bits : Nat) (x : Int) : Prop := minValue bits ≤ x ∧ x ≤ maxValue bits

theorem isValid_iff {bits : Nat} : isValid bits = true ↔ 1 ≤ bits ∧ bits ≤ 64 := by
  simp [isValid]

/-- The values of a valid width can be counted. -/
theorem not_maxCounted_lt {bits : Nat} (valid : isValid bits) : ¬maxCounted < bits := by
  rw [isValid_iff] at valid
  unfold maxCounted
  omega

theorem twoPow_eq (n : Nat) : twoPow n = 2 ^ n := by
  simp [twoPow]

theorem twoPow_pos (n : Nat) : 0 < twoPow n := by
  rw [twoPow_eq]
  positivity

theorem minValue_le_maxValue (bits : Nat) : minValue bits ≤ maxValue bits := by
  have := twoPow_pos (min bits 64 - 1)
  unfold minValue maxValue
  omega

theorem minValue_of_isValid {bits : Nat} (valid : isValid bits) :
    minValue bits = -2 ^ (bits - 1) := by
  rw [isValid_iff] at valid
  rw [minValue, twoPow_eq, min_eq_left valid.2]

theorem maxValue_of_isValid {bits : Nat} (valid : isValid bits) :
    maxValue bits = 2 ^ (bits - 1) - 1 := by
  rw [isValid_iff] at valid
  rw [maxValue, twoPow_eq, min_eq_left valid.2]

theorem twoPow_mono {m n : Nat} (le : m ≤ n) : twoPow m ≤ twoPow n := by
  rw [twoPow_eq, twoPow_eq]
  exact pow_le_pow_right₀ (by norm_num) le

/-- Every width lies inside the integers of 64 bits. -/
theorem twoPow_le_64 (bits : Nat) : twoPow (min bits 64 - 1) ≤ twoPow (min 64 64 - 1) :=
  twoPow_mono (by omega)

theorem minValue_64_le (bits : Nat) : minValue 64 ≤ minValue bits := by
  have := twoPow_le_64 bits
  unfold minValue
  omega

theorem maxValue_le_64 (bits : Nat) : maxValue bits ≤ maxValue 64 := by
  have := twoPow_le_64 bits
  unfold maxValue
  omega

theorem minValue_64 : minValue 64 = -2 ^ 63 := by decide

theorem maxValue_64 : maxValue 64 = 2 ^ 63 - 1 := by decide

/-- A valid width has twice as many integers as there are below zero. -/
theorem twoPow_eq_two_mul {bits : Nat} (valid : isValid bits) :
    (2 : Int) ^ bits = 2 * 2 ^ (bits - 1) := by
  rw [isValid_iff] at valid
  rw [← pow_succ', Nat.sub_add_cancel valid.1]

theorem Holds.mono {bits wider : Nat} {x : Int} (h : Holds bits x) (le : bits ≤ wider) :
    Holds wider x := by
  have grows : twoPow (min bits 64 - 1) ≤ twoPow (min wider 64 - 1) := twoPow_mono (by omega)
  unfold Holds minValue maxValue at *
  omega

theorem Holds.of_toInt {bits : Nat} (valid : isValid bits) (x : BitVec bits) :
    Holds bits x.toInt := by
  rw [Holds, minValue_of_isValid valid, maxValue_of_isValid valid]
  have lower := BitVec.le_toInt x
  have upper := BitVec.toInt_lt (x := x)
  omega

/-! ## Wrapping -/

theorem low64_of_holds {bits : Nat} {x : Int} (h : Holds bits x) : low64 x = x := by
  have lower := (minValue_64_le bits).trans h.1
  have upper := h.2.trans (maxValue_le_64 bits)
  rw [minValue_64] at lower
  rw [maxValue_64] at upper
  exact Int.bmod_eq_of_le (by norm_num; omega) (by norm_num; omega)

theorem signed_eq_bmod {bits : Nat} (valid : isValid bits) (value : Int) :
    signed value bits = value.bmod (2 ^ bits) := by
  have half : ((2 ^ bits : Nat) : Int) = 2 * 2 ^ (bits - 1) := by
    push_cast
    exact twoPow_eq_two_mul valid
  have middle : (((2 ^ bits : Nat) : Int) + 1) / 2 = 2 ^ (bits - 1) := by omega
  have modulus : twoPow bits = ((2 ^ bits : Nat) : Int) := by
    rw [twoPow_eq]
    push_cast
    rfl
  rw [signed, residue, modulus, Int.bmod, middle, maxValue_of_isValid valid]
  split_ifs <;> omega

theorem holds_bmod {bits : Nat} (valid : isValid bits) (value : Int) :
    Holds bits (value.bmod (2 ^ bits)) := by
  rw [← BitVec.toInt_ofInt]
  exact Holds.of_toInt valid _

theorem wrap_eq_bmod {bits : Nat} (valid : isValid bits) (value : Int) :
    wrap value bits = value.bmod (2 ^ bits) := by
  rw [wrap, signed_eq_bmod valid]
  exact low64_of_holds (holds_bmod valid value)

/-- Wrapping is what a word remembers of an integer. -/
theorem toInt_ofInt {bits : Nat} (valid : isValid bits) (value : Int) :
    (BitVec.ofInt bits value).toInt = wrap value bits := by
  rw [BitVec.toInt_ofInt, wrap_eq_bmod valid]

theorem holds_wrap {bits : Nat} (valid : isValid bits) (value : Int) :
    Holds bits (wrap value bits) := by
  rw [wrap_eq_bmod valid]
  exact holds_bmod valid value

theorem wrap_of_holds {bits : Nat} (valid : isValid bits) {x : Int} (h : Holds bits x) :
    wrap x bits = x := by
  rw [Holds, minValue_of_isValid valid, maxValue_of_isValid valid] at h
  have double : ((2 ^ bits : Nat) : Int) = 2 * 2 ^ (bits - 1) := by
    push_cast
    exact twoPow_eq_two_mul valid
  rw [wrap_eq_bmod valid]
  exact Int.bmod_eq_of_le (by omega) (by omega)

/-- Wrapping moves an integer by a multiple of the number of words. -/
theorem exists_wrap_eq_sub {bits : Nat} (valid : isValid bits) (value : Int) :
    ∃ k : Int, wrap value bits = value - k * twoPow bits := by
  refine ⟨value.bdiv (2 ^ bits), ?_⟩
  rw [wrap_eq_bmod valid, twoPow_eq]
  have := Int.bdiv_add_bmod value (2 ^ bits)
  push_cast at this
  linarith

/-- The integers of a valid width, and one more, run from its smallest to its smallest again. -/
theorem maxValue_add_one {bits : Nat} (valid : isValid bits) :
    maxValue bits + 1 = minValue bits + twoPow bits := by
  rw [minValue_of_isValid valid, maxValue_of_isValid valid, twoPow_eq, twoPow_eq_two_mul valid]
  omega

/-- Wrapping gives the only integer of the width that is congruent to an integer. -/
theorem wrap_eq_iff {bits : Nat} (valid : isValid bits) {value x : Int} :
    wrap value bits = x ↔ Holds bits x ∧ x ≡ value [ZMOD 2 ^ bits] := by
  have modulus : (2 : Int) ^ bits = ((2 ^ bits : Nat) : Int) := by
    push_cast
    rfl
  rw [Int.ModEq, modulus]
  constructor
  · rintro rfl
    refine ⟨holds_wrap valid value, ?_⟩
    rw [wrap_eq_bmod valid, Int.bmod_emod]
  · rintro ⟨held, same⟩
    rw [← wrap_of_holds valid held, wrap_eq_bmod valid, wrap_eq_bmod valid, ← Int.emod_bmod value,
      ← same, Int.emod_bmod]

theorem wrap_add_mul {bits : Nat} (valid : isValid bits) {x : Int} (held : Holds bits x) (k : Int) :
    wrap (x + k * twoPow bits) bits = x := by
  rw [wrap_eq_iff valid, twoPow_eq]
  exact ⟨held, (Int.add_mul_emod_self_right x k (2 ^ bits)).symm⟩

end RangeFlow.Width
