import RangeFlow.Width

/-!
# Intervals

An interval describes a set of signed integers of one width: none, those between two bounds, or
all of them. `Interval.between` is the constructor that keeps the description canonical: an empty
range is `bottom` and a range that covers the width is `top`, so that two canonical intervals are
equal exactly when they hold the same values. `Interval.ofExact` goes from a range of unbounded
integers to the values that it leaves after wrapping.
-/

namespace RangeFlow

/-- A set of integers of a width. -/
inductive Interval where
  /-- No value. -/
  | bottom (bits : Nat)
  /-- Every value from `lo` to `hi`, both included. -/
  | range (bits : Nat) (lo hi : Int)
  /-- Every value of the width. -/
  | top (bits : Nat)
deriving DecidableEq, Inhabited

namespace Interval

/-! ## Constructors -/

/-- The values of a width from `lo` to `hi`. -/
def between (bits : Nat) (lo hi : Int) : Interval :=
  let lo := max lo (Width.minValue bits)
  let hi := min hi (Width.maxValue bits)
  if hi < lo then
    bottom bits
  else if lo = Width.minValue bits ∧ hi = Width.maxValue bits then
    top bits
  else
    range bits lo hi

/-- The single value that `value` wraps to. -/
def constant (bits : Nat) (value : Int) : Interval :=
  let wrapped := Width.wrap value bits
  between bits wrapped wrapped

/-- The values that the integers from `lo` to `hi` wrap to.

There is one range of them if there are fewer integers than the width has values and the wrapped
bounds keep their order. Otherwise they spread over both ends of the width. Nothing is said about
the values of a width that has too many to be counted. -/
def ofExact (bits : Nat) (lo hi : Int) : Interval :=
  if hi < lo then
    bottom bits
  else if Width.maxCounted < bits ∨ Width.twoPow bits ≤ hi - lo then
    top bits
  else
    let lo := Width.wrap lo bits
    let hi := Width.wrap hi bits
    if lo ≤ hi then between bits lo hi else top bits

/-! ## Contents -/

def bits : Interval → Nat
  | bottom bits | range bits _ _ | top bits => bits

/-- The smallest and the largest value, if there is any. -/
def bounds? : Interval → Option (Int × Int)
  | bottom _ => none
  | range _ lo hi => some (lo, hi)
  | top bits => some (Width.minValue bits, Width.maxValue bits)

/-- The smallest value, if there is any. -/
def lo? (i : Interval) : Option Int := i.bounds?.map Prod.fst

def isBottom : Interval → Bool
  | bottom _ => true
  | _ => false

def isTop : Interval → Bool
  | top _ => true
  | _ => false

/-- The value of an interval that holds exactly one. -/
def value? (i : Interval) : Option Int :=
  match i.bounds? with
  | some (lo, hi) => if lo = hi then some lo else none
  | none => none

def contains (i : Interval) (value : Int) : Bool :=
  match i.bounds? with
  | some (lo, hi) => lo ≤ value && value ≤ hi
  | none => false

/-! ## Lattice -/

/-- The smallest interval that holds the values of both. Without a common width nothing is known. -/
def join (a b : Interval) : Interval :=
  if a.bits ≠ b.bits then
    top a.bits
  else
    match a.bounds?, b.bounds? with
    | none, _ => b
    | _, none => a
    | some (alo, ahi), some (blo, bhi) => between a.bits (min alo blo) (max ahi bhi)

/-- The values of `a` that are also in `b`. An interval of another width says nothing about `a`. -/
def meet (a b : Interval) : Interval :=
  if a.bits ≠ b.bits then
    a
  else
    match a.bounds?, b.bounds? with
    | some (alo, ahi), some (blo, bhi) => between a.bits (max alo blo) (min ahi bhi)
    | _, _ => bottom a.bits

/-- Extends `old` to hold the values of `new`, moving every bound that grew to the end of the
width. -/
def widen (old new : Interval) : Interval :=
  if old.bits ≠ new.bits then
    top old.bits
  else
    match old.bounds?, new.bounds? with
    | none, _ => new
    | _, none => old
    | some (oldLo, oldHi), some (newLo, newHi) =>
        between old.bits
          (if newLo < oldLo then Width.minValue old.bits else oldLo)
          (if oldHi < newHi then Width.maxValue old.bits else oldHi)

/-- How two intervals of one width are related by inclusion, if they are. -/
def compare? (a b : Interval) : Option Ordering :=
  if a.bits ≠ b.bits then
    none
  else if a = b then
    some .eq
  else
    match a.bounds?, b.bounds? with
    | none, _ => some .lt
    | _, none => some .gt
    | some (alo, ahi), some (blo, bhi) =>
        if blo ≤ alo ∧ ahi ≤ bhi then some .lt
        else if alo ≤ blo ∧ bhi ≤ ahi then some .gt
        else none

/-- Whether an interval is included in another. -/
def isSubset (a b : Interval) : Bool :=
  match a.compare? b with
  | some .lt | some .eq => true
  | _ => false

def render : Interval → String
  | bottom bits => s!"bottom:{bits}"
  | range bits lo hi => s!"[{lo}, {hi}]:{bits}"
  | top bits => s!"top:{bits}"

end Interval

end RangeFlow
