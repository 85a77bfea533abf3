/-!
# Comparisons

The six ways in which a branch compares two signed integers. `Comparison.holds` gives their
meaning.
-/

namespace RangeFlow

/-- A comparison of signed integers. -/
inductive Comparison where
  | eq
  | ne
  | lt
  | le
  | gt
  | ge
deriving DecidableEq, Ord, Inhabited

namespace Comparison

/-- The comparison that holds exactly when this one does not. -/
def negate : Comparison → Comparison
  | eq => ne
  | ne => eq
  | lt => ge
  | le => gt
  | gt => le
  | ge => lt

/-- The comparison with its two sides exchanged. -/
def swap : Comparison → Comparison
  | eq => eq
  | ne => ne
  | lt => gt
  | le => ge
  | gt => lt
  | ge => le

/-- Whether every value stands in this relation to itself. -/
def isReflexive : Comparison → Bool
  | eq | le | ge => true
  | ne | lt | gt => false

/-- Whether the comparison is true of two values. -/
def holds : Comparison → Int → Int → Bool
  | eq, a, b => decide (a = b)
  | ne, a, b => decide (a ≠ b)
  | lt, a, b => decide (a < b)
  | le, a, b => decide (a ≤ b)
  | gt, a, b => decide (a > b)
  | ge, a, b => decide (a ≥ b)

/-- The sign that stands for a comparison. -/
def render : Comparison → String
  | eq => "=="
  | ne => "!="
  | lt => "<"
  | le => "<="
  | gt => ">"
  | ge => ">="

end Comparison

end RangeFlow
