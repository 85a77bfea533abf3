/-!
# Two's complement widths

A word of `bits` bits holds the integers from `minValue bits` to `maxValue bits`. `wrap` brings
any integer into that range by dropping high bits. A width is valid from 1 to 64; wider ones are
not words of the analysed programs, and the functions below give them the range of 64 bits.
-/

namespace RangeFlow.Width

/-- Two to the power `n`. -/
def twoPow (n : Nat) : Int := Int.ofNat (Nat.pow 2 n)

/-- The smallest integer of a width. -/
def minValue (bits : Nat) : Int := -twoPow (min bits 64 - 1)

/-- The largest integer of a width. -/
def maxValue (bits : Nat) : Int := twoPow (min bits 64 - 1) - 1

/-- Words have between 1 and 64 bits. -/
def isValid (bits : Nat) : Bool := 1 ≤ bits && bits ≤ 64

/-- The widest words whose values can be counted in signed integers of 128 bits, which is what exact
bounds are. -/
def maxCounted : Nat := 126

/-- The signed integer that a number leaves in its low 64 bits. -/
def low64 (value : Int) : Int := value.bmod (Nat.pow 2 64)

/-- The signed integer that a number leaves in its low 128 bits. -/
def low128 (value : Int) : Int := value.bmod (Nat.pow 2 128)

/-- The low `bits` bits of `value`, as a natural number. -/
def residue (value : Int) (bits : Nat) : Int := value % twoPow bits

/-- The low `bits` bits of `value`, with the highest of them as the sign. -/
def signed (value : Int) (bits : Nat) : Int :=
  if maxValue bits < residue value bits then residue value bits - twoPow bits
  else residue value bits

/-- The integer of a width that agrees with `value` in the low `bits` bits.

The final reduction to 64 bits matters only beyond a valid width. -/
def wrap (value : Int) (bits : Nat) : Int := low64 (signed value bits)

end RangeFlow.Width
