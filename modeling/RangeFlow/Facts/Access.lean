import RangeFlow.Interval.Basic

/-!
# Array accesses

When the interval of an index does not keep it inside an array.
-/

namespace RangeFlow

/-- Why an access may be out of range. -/
inductive AccessFault where
  | unconstrained
  | negative
  /-- The index may be as large as the smallest length. -/
  | reachesLength (length : Int)
  /-- The length is unknown and so is any upper bound of the index. -/
  | unbounded
deriving DecidableEq

namespace AccessFault

/-- The fault of an access, if there is one: the index is to be constrained and not negative, and
below the smallest length or, where none is known, below the end of its width. -/
def of? (index : Interval) (length : Option Interval) : Option AccessFault :=
  match index.bounds? with
  | none => none
  | some (lo, hi) =>
      if index.isTop then some unconstrained
      else if lo < 0 then some negative
      else
        match length.bind Interval.lo? with
        | some length => if length ≤ hi then some (reachesLength length) else none
        | none => if hi = Width.maxValue index.bits then some unbounded else none

/-- The wording of a fault of an index. -/
def describe (index : Interval) : AccessFault → String
  | unconstrained => s!"index {index.render} is unconstrained"
  | negative => s!"index {index.render} may be negative"
  | reachesLength length => s!"index {index.render} may reach the array length {length}"
  | unbounded => s!"index {index.render} has no upper bound"

end AccessFault

end RangeFlow
