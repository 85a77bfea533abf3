import RangeFlow.Interval.Basic
import RangeFlow.Program.Operation

/-!
# Arithmetic on intervals

Every operator computes exact bounds over the integers and wraps them into the width once, at the
end. The width of a result is that of the left operand. The exact bounds and the corner values that
they are taken from have names of their own.
-/

namespace RangeFlow.Interval

/-! ## Sums, products and complements -/

/-- Takes the bounds of an interval to exact bounds, and wraps these. -/
def lift (f : Int × Int → Int × Int) (a : Interval) : Interval :=
  match a.bounds? with
  | some aBounds => ofExact a.bits (f aBounds).1 (f aBounds).2
  | none => bottom a.bits

/-- Combines the bounds of two intervals into exact bounds, and wraps these. -/
def lift₂ (f : Int × Int → Int × Int → Int × Int) (a b : Interval) : Interval :=
  match a.bounds?, b.bounds? with
  | some aBounds, some bBounds => ofExact a.bits (f aBounds bBounds).1 (f aBounds bBounds).2
  | _, _ => bottom a.bits

/-- The least and the greatest sum. -/
def sumBounds : Int × Int → Int × Int → Int × Int
  | (alo, ahi), (blo, bhi) => (alo + blo, ahi + bhi)

def add (a b : Interval) : Interval := lift₂ sumBounds a b

/-- The least and the greatest difference. -/
def differenceBounds : Int × Int → Int × Int → Int × Int
  | (alo, ahi), (blo, bhi) => (alo - bhi, ahi - blo)

def sub (a b : Interval) : Interval := lift₂ differenceBounds a b

/-- The least and the greatest of some integers. -/
def hull (corners : List Int) : Int × Int := (corners.min?.getD 0, corners.max?.getD 0)

/-- The products of the bounds. -/
def productCorners : Int × Int → Int × Int → List Int
  | (alo, ahi), (blo, bhi) => [alo * blo, alo * bhi, ahi * blo, ahi * bhi]

/-- The least and the greatest product. -/
def productBounds (aBounds bBounds : Int × Int) : Int × Int :=
  hull (productCorners aBounds bBounds)

def mul (a b : Interval) : Interval := lift₂ productBounds a b

/-- The least and the greatest negated value. -/
def negatedBounds : Int × Int → Int × Int
  | (lo, hi) => (-hi, -lo)

def neg (a : Interval) : Interval := lift negatedBounds a

/-- The least and the greatest complement. -/
def complementBounds : Int × Int → Int × Int
  | (lo, hi) => (-hi - 1, -lo - 1)

/-- Bitwise complement, `-x - 1`. -/
def not (a : Interval) : Interval := lift complementBounds a

/-! ## Quotients and remainders -/

/-- The bounds of the values below zero and of those above it. -/
def nonzeroParts : Int × Int → List (Int × Int)
  | (lo, hi) =>
      (if lo ≤ -1 then [(lo, min hi (-1))] else []) ++ (if 1 ≤ hi then [(max lo 1, hi)] else [])

/-- The truncated quotients of the bounds, for each part of the divisor. -/
def quotientCorners (dividend : Int × Int) (parts : List (Int × Int)) : List Int :=
  parts.flatMap fun (dlo, dhi) =>
    [dividend.1.tdiv dlo, dividend.1.tdiv dhi, dividend.2.tdiv dlo, dividend.2.tdiv dhi]

/-- Applies a function of the dividend and of the parts of the divisor that are not zero. A divisor
that can only be zero leaves every value possible. -/
def liftNonzero (f : Int × Int → List (Int × Int) → Int × Int) (a b : Interval) : Interval :=
  match a.bounds?, b.bounds? with
  | some dividend, some divisor =>
      match nonzeroParts divisor with
      | [] => top a.bits
      | parts => ofExact a.bits (f dividend parts).1 (f dividend parts).2
  | _, _ => bottom a.bits

/-- The least and the greatest truncated quotient. -/
def quotientBounds (dividend : Int × Int) (parts : List (Int × Int)) : Int × Int :=
  hull (quotientCorners dividend parts)

/-- Division truncating toward zero. -/
def div (a b : Interval) : Interval := liftNonzero quotientBounds a b

/-- The largest magnitude among the bounds of some ranges. -/
def magnitude (parts : List (Int × Int)) : Int :=
  ((parts.map fun (lo, hi) => max (Int.ofNat lo.natAbs) (Int.ofNat hi.natAbs)).max?).getD 1

/-- A remainder has the sign of the dividend and is smaller in magnitude than the divisor. -/
def remainderBounds (dividend : Int × Int) (parts : List (Int × Int)) : Int × Int :=
  let limit := magnitude parts - 1
  (if 0 ≤ dividend.1 then 0 else max dividend.1 (-limit),
    if dividend.2 ≤ 0 then 0 else min dividend.2 limit)

/-- The remainder of a division truncating toward zero. -/
def rem (a b : Interval) : Interval := liftNonzero remainderBounds a b

/-- Truncation or sign extension to another width. -/
def cast (a : Interval) (bits : Nat) : Interval :=
  match a.bounds? with
  | some (lo, hi) => ofExact bits lo hi
  | none => bottom bits

/-! ## Bitwise operators -/

/-- The smallest `2 ^ n - 1` that is not below a natural number. -/
def onesAbove (value : Int) : Int :=
  if value ≤ 0 then 0 else Width.twoPow (value.toNat.log2 + 1) - 1

def and (a b : Interval) : Interval :=
  match a.bounds?, b.bounds? with
  | some (alo, ahi), some (blo, bhi) =>
      if 0 ≤ alo ∧ 0 ≤ blo then between a.bits 0 (min ahi bhi)
      else if 0 ≤ alo then between a.bits 0 ahi
      else if 0 ≤ blo then between a.bits 0 bhi
      else top a.bits
  | _, _ => bottom a.bits

def or (a b : Interval) : Interval :=
  match a.bounds?, b.bounds? with
  | some (alo, ahi), some (blo, bhi) =>
      if 0 ≤ alo ∧ 0 ≤ blo then between a.bits (max alo blo) (onesAbove (max ahi bhi))
      else top a.bits
  | _, _ => bottom a.bits

def xor (a b : Interval) : Interval :=
  match a.bounds?, b.bounds? with
  | some (alo, ahi), some (blo, bhi) =>
      if 0 ≤ alo ∧ 0 ≤ blo then between a.bits 0 (onesAbove (max ahi bhi))
      else top a.bits
  | _, _ => bottom a.bits

/-! ## Shifts -/

/-- The amount to shift by, if it is known. Amounts count modulo the width of the shifted value.

The width is taken as a signed integer of 64 bits and the amount in its low 32 bits, which matters
only beyond a valid width. -/
def shiftAmount? (a amount : Interval) : Option Nat :=
  amount.value?.map fun value => (value % Width.low64 (Int.ofNat a.bits)).toNat % Nat.pow 2 32

/-- The bounds shifted to the left. -/
def shiftedBounds (amount : Nat) : Int × Int → Int × Int
  | (lo, hi) => (lo * Width.twoPow amount, hi * Width.twoPow amount)

/-- What 128 bits hold of two bounds. Shifted bounds of a valid width are held as they are. -/
def held : Int × Int → Int × Int
  | (lo, hi) => (Width.low128 lo, Width.low128 hi)

def shl (a b : Interval) : Interval :=
  if a.isBottom || b.isBottom then
    bottom a.bits
  else
    match a.shiftAmount? b with
    | some amount => lift (fun bounds => held (shiftedBounds amount bounds)) a
    | none => top a.bits

/-- Arithmetic shift to the right. -/
def shr (a b : Interval) : Interval :=
  if a.isBottom || b.isBottom then
    bottom a.bits
  else
    match a.bounds?, a.shiftAmount? b with
    | some (lo, hi), some amount =>
        between a.bits (lo / Width.twoPow amount) (hi / Width.twoPow amount)
    | some (lo, hi), none => if 0 ≤ lo then between a.bits 0 hi else top a.bits
    | none, _ => top a.bits

/-- Logical shift to the right. -/
def ushr (a b : Interval) : Interval :=
  if a.isBottom || b.isBottom then
    bottom a.bits
  else
    match a.bounds?, a.shiftAmount? b with
    | some _, some 0 => a
    | some (lo, _), _ => if 0 ≤ lo then a.shr b else top a.bits
    | none, _ => top a.bits

/-! ## Operators by name -/

def unary : UnaryOperator → Interval → Interval
  | .neg => neg
  | .not => not

def binary : BinaryOperator → Interval → Interval → Interval
  | .add => add
  | .sub => sub
  | .mul => mul
  | .div => div
  | .rem => rem
  | .and => and
  | .or => or
  | .xor => xor
  | .shl => shl
  | .shr => shr
  | .ushr => ushr

end RangeFlow.Interval
