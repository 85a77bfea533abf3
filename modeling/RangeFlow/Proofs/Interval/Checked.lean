import Mathlib
import RangeFlow.Interval.Arithmetic
import RangeFlow.Interval.Refine

/-!
# Operators on machine words

The operators on intervals as a machine computes them, one word at a time. Bounds are signed words of 64
bits, and exact bounds are signed words of 128 bits. A step has no result if its value does not fit into
its word, if it divides by zero, or if it shifts a word by as many places as it has (`Checked.fit`,
`Checked.quotient`, `Checked.shiftLeft`), and then the whole computation has none.

What a machine does without arithmetic, comparing and choosing bounds, is taken from the operators
themselves.
-/

namespace RangeFlow.Checked

open RangeFlow.Interval (bottom range top hull nonzeroParts)

/-! ## Words -/

/-- An integer that signed words of some size hold. -/
def Fits (size : Nat) (x : Int) : Prop := -2 ^ (size - 1) ≤ x ∧ x ≤ 2 ^ (size - 1) - 1

instance (size : Nat) (x : Int) : Decidable (Fits size x) := inferInstanceAs (Decidable (_ ∧ _))

/-- The word of an integer, if there is one. -/
def fit (size : Nat) (x : Int) : Option Int := if Fits size x then some x else none

def sum (size : Nat) (x y : Int) : Option Int := fit size (x + y)

def difference (size : Nat) (x y : Int) : Option Int := fit size (x - y)

def product (size : Nat) (x y : Int) : Option Int := fit size (x * y)

def opposite (size : Nat) (x : Int) : Option Int := fit size (-x)

/-- The distance from zero. -/
def distance (size : Nat) (x : Int) : Option Int := fit size x.natAbs

/-- The quotient truncating toward zero. -/
def quotient (size : Nat) (x y : Int) : Option Int := if y = 0 then none else fit size (x.tdiv y)

/-- The remainder that is not negative. It has no result where the quotient has none. -/
def remainder (size : Nat) (x y : Int) : Option Int := do
  let _ ← quotient size x y
  fit size (x % y)

def shiftLeft (size : Nat) (x : Int) (count : Nat) : Option Int :=
  if count < size then fit size (x * 2 ^ count) else none

def shiftRight (size : Nat) (x : Int) (count : Nat) : Option Int :=
  if count < size then fit size (x / 2 ^ count) else none

/-! ## Widths -/

/-- The number of integers of a width below zero, for a width of less than 64 bits. -/
def half (bits : Nat) : Option Int := if bits = 0 then none else shiftLeft 64 1 (bits - 1)

def minValue (bits : Nat) : Option Int :=
  if 64 ≤ bits then some (-2 ^ 63) else do opposite 64 (← half bits)

def maxValue (bits : Nat) : Option Int :=
  if 64 ≤ bits then some (2 ^ 63 - 1) else do difference 64 (← half bits) 1

def wrap (value : Int) (bits : Nat) : Option Int := do
  let modulus ← shiftLeft 128 1 bits
  let residue ← remainder 128 value modulus
  if (← maxValue bits) < residue then
    fit 64 (← difference 128 residue modulus)
  else
    fit 64 residue

/-! ## Constructors -/

def between (bits : Nat) (lo hi : Int) : Option Interval := do
  let least ← minValue bits
  let greatest ← maxValue bits
  let lo := max lo least
  let hi := min hi greatest
  if hi < lo then
    return bottom bits
  else if lo = least ∧ hi = greatest then
    return top bits
  else
    return range bits lo hi

def constant (bits : Nat) (value : Int) : Option Interval := do
  let wrapped ← wrap value bits
  between bits wrapped wrapped

def ofExact (bits : Nat) (lo hi : Int) : Option Interval :=
  if hi < lo then
    return bottom bits
  else do
    let span ← difference 128 hi lo
    let count ← shiftLeft 128 1 bits
    if count ≤ span then
      return top bits
    else
      let lo ← wrap lo bits
      let hi ← wrap hi bits
      if lo ≤ hi then between bits lo hi else return top bits

/-! ## Sums, products and complements -/

/-- Takes the bounds of an interval to exact bounds, and wraps these. -/
def lift (f : Int × Int → Option (Int × Int)) (a : Interval) : Option Interval :=
  match a.bounds? with
  | some aBounds => do
      let exact ← f aBounds
      ofExact a.bits exact.1 exact.2
  | none => return bottom a.bits

/-- Combines the bounds of two intervals into exact bounds, and wraps these. -/
def lift₂ (f : Int × Int → Int × Int → Option (Int × Int)) (a b : Interval) : Option Interval :=
  match a.bounds?, b.bounds? with
  | some aBounds, some bBounds => do
      let exact ← f aBounds bBounds
      ofExact a.bits exact.1 exact.2
  | _, _ => return bottom a.bits

def sumBounds (p q : Int × Int) : Option (Int × Int) := do
  return (← sum 128 p.1 q.1, ← sum 128 p.2 q.2)

def differenceBounds (p q : Int × Int) : Option (Int × Int) := do
  return (← difference 128 p.1 q.2, ← difference 128 p.2 q.1)

def productBounds (p q : Int × Int) : Option (Int × Int) := do
  let corners ← [p.1, p.2].mapM fun x => do return [← product 128 x q.1, ← product 128 x q.2]
  return hull corners.flatten

def negatedBounds (p : Int × Int) : Option (Int × Int) := do
  return (← opposite 128 p.2, ← opposite 128 p.1)

def complementBounds (p : Int × Int) : Option (Int × Int) := do
  let negated ← negatedBounds p
  return (← difference 128 negated.1 1, ← difference 128 negated.2 1)

/-! ## Quotients and remainders -/

/-- Applies a function of the dividend and of the parts of the divisor that are not zero. -/
def liftNonzero (f : Int × Int → List (Int × Int) → Option (Int × Int)) (a b : Interval) :
    Option Interval :=
  match a.bounds?, b.bounds? with
  | some dividend, some divisor =>
      match nonzeroParts divisor with
      | [] => return top a.bits
      | parts => do
          let exact ← f dividend parts
          ofExact a.bits exact.1 exact.2
  | _, _ => return bottom a.bits

def quotientBounds (dividend : Int × Int) (parts : List (Int × Int)) : Option (Int × Int) := do
  let corners ← parts.mapM fun part => do
    return [← quotient 128 dividend.1 part.1, ← quotient 128 dividend.1 part.2,
      ← quotient 128 dividend.2 part.1, ← quotient 128 dividend.2 part.2]
  return hull corners.flatten

/-- The largest magnitude among the bounds of some ranges. -/
def magnitude (parts : List (Int × Int)) : Option Int := do
  let reaches ← parts.mapM fun part => do
    return max (← distance 128 part.1) (← distance 128 part.2)
  return reaches.max?.getD 1

def remainderBounds (dividend : Int × Int) (parts : List (Int × Int)) : Option (Int × Int) := do
  let limit ← difference 128 (← magnitude parts) 1
  let opposed ← opposite 128 limit
  return (if 0 ≤ dividend.1 then 0 else max dividend.1 opposed,
    if dividend.2 ≤ 0 then 0 else min dividend.2 limit)

def cast (a : Interval) (bits : Nat) : Option Interval :=
  match a.bounds? with
  | some (lo, hi) => ofExact bits lo hi
  | none => return bottom bits

/-! ## Bitwise operators -/

theorem shiftLeft_or_one (n : Nat) : n <<< 1 ||| 1 = 2 * n + 1 := by
  rw [← Nat.shiftLeft_add_eq_or_of_lt (by decide : 1 < 2 ^ 1), Nat.shiftLeft_eq, pow_one, mul_comm]

/-- Appends ones to the bits of `ones` while it is below a value. -/
def appendOnes (value : Int) (ones : Nat) : Option Int :=
  if (ones : Int) < value then
    match fit 64 (ones <<< 1 ||| 1 : Nat) with
    | some _ => appendOnes value (ones <<< 1 ||| 1)
    | none => none
  else
    some ones
termination_by (value - ones).toNat
decreasing_by
  rw [shiftLeft_or_one]
  omega

def and (a b : Interval) : Option Interval :=
  match a.bounds?, b.bounds? with
  | some (alo, ahi), some (blo, bhi) =>
      if 0 ≤ alo ∧ 0 ≤ blo then between a.bits 0 (min ahi bhi)
      else if 0 ≤ alo then between a.bits 0 ahi
      else if 0 ≤ blo then between a.bits 0 bhi
      else return top a.bits
  | _, _ => return bottom a.bits

def or (a b : Interval) : Option Interval :=
  match a.bounds?, b.bounds? with
  | some (alo, ahi), some (blo, bhi) =>
      if 0 ≤ alo ∧ 0 ≤ blo then do between a.bits (max alo blo) (← appendOnes (max ahi bhi) 0)
      else return top a.bits
  | _, _ => return bottom a.bits

def xor (a b : Interval) : Option Interval :=
  match a.bounds?, b.bounds? with
  | some (alo, ahi), some (blo, bhi) =>
      if 0 ≤ alo ∧ 0 ≤ blo then do between a.bits 0 (← appendOnes (max ahi bhi) 0)
      else return top a.bits
  | _, _ => return bottom a.bits

/-! ## Shifts -/

/-- The amount to shift by, if it is known. -/
def shiftAmount (a amount : Interval) : Option (Option Nat) :=
  match amount.value? with
  | some value => do return some (← remainder 64 value (← fit 64 a.bits)).toNat
  | none => return none

def shl (a b : Interval) : Option Interval :=
  if a.isBottom || b.isBottom then
    return bottom a.bits
  else do
    match ← shiftAmount a b with
    | some amount =>
        lift (fun p => do return (← shiftLeft 128 p.1 amount, ← shiftLeft 128 p.2 amount)) a
    | none => return top a.bits

def shr (a b : Interval) : Option Interval :=
  if a.isBottom || b.isBottom then
    return bottom a.bits
  else do
    match a.bounds?, ← shiftAmount a b with
    | some (lo, hi), some amount =>
        between a.bits (← shiftRight 64 lo amount) (← shiftRight 64 hi amount)
    | some (lo, hi), none => if 0 ≤ lo then between a.bits 0 hi else return top a.bits
    | none, _ => return top a.bits

def ushr (a b : Interval) : Option Interval :=
  if a.isBottom || b.isBottom then
    return bottom a.bits
  else do
    match a.bounds?, ← shiftAmount a b with
    | some _, some 0 => return a
    | some (lo, _), _ => if 0 ≤ lo then shr a b else return top a.bits
    | none, _ => return top a.bits

/-! ## Operators by name -/

def unary : UnaryOperator → Interval → Option Interval
  | .neg => lift negatedBounds
  | .not => lift complementBounds

def binary : BinaryOperator → Interval → Interval → Option Interval
  | .add => lift₂ sumBounds
  | .sub => lift₂ differenceBounds
  | .mul => lift₂ productBounds
  | .div => liftNonzero quotientBounds
  | .rem => liftNonzero remainderBounds
  | .and => and
  | .or => or
  | .xor => xor
  | .shl => shl
  | .shr => shr
  | .ushr => ushr

/-! ## Narrowing -/

def meet (a b : Interval) : Option Interval :=
  if a.bits ≠ b.bits then
    return a
  else
    match a.bounds?, b.bounds? with
    | some (alo, ahi), some (blo, bhi) => between a.bits (max alo blo) (min ahi bhi)
    | _, _ => return bottom a.bits

def without (a : Interval) (value : Int) : Option Interval :=
  match a.bounds? with
  | none => return a
  | some (lo, hi) =>
      if lo = value ∧ hi = value then return bottom a.bits
      else if lo = value then do between a.bits (← sum 64 lo 1) hi
      else if hi = value then do between a.bits lo (← difference 64 hi 1)
      else return a

def refine (a : Interval) (c : Comparison) (b : Interval) : Option Interval :=
  match a.bounds?, b.bounds? with
  | some _, some (lo, hi) => do
      let least ← minValue a.bits
      let greatest ← maxValue a.bits
      match c with
      | .eq => meet a b
      | .ne =>
          match b.value? with
          | some value => without a value
          | none => return a
      | .lt =>
          if hi = least then return bottom a.bits
          else meet a (← between a.bits least (← difference 64 hi 1))
      | .le => meet a (← between a.bits least hi)
      | .gt =>
          if lo = greatest then return bottom a.bits
          else meet a (← between a.bits (← sum 64 lo 1) greatest)
      | .ge => meet a (← between a.bits lo greatest)
  | _, _ => return bottom a.bits

end RangeFlow.Checked
