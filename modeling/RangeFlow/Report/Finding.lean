import RangeFlow.Sort
import RangeFlow.Text

/-!
# Findings

How an analysis ended, and the facts about single points that it reports.
-/

namespace RangeFlow

/-- How the analysis of a procedure ended. -/
inductive Outcome where
  /-- No state changes any more. -/
  | converged
  /-- The budget of iterations was spent. -/
  | diverged
  /-- The deadline passed. -/
  | deadlineExceeded
deriving DecidableEq, Inhabited

def Outcome.render : Outcome → String
  | converged => "converged"
  | diverged => "diverged"
  | deadlineExceeded => "deadline exceeded"

inductive FindingKind where
  /-- The edge to a point is never taken. -/
  | infeasibleEdge (tail : Nat)
  /-- An array index may lie outside the array. -/
  | possibleOutOfRange
  /-- The analysis gave up. -/
  | divergence
deriving DecidableEq, Ord, Inhabited

def FindingKind.render : FindingKind → String
  | infeasibleEdge tail => s!"infeasible edge to {tail}"
  | possibleOutOfRange => "possible out of range access"
  | divergence => "divergence"

/-- A fact about one point. Findings compare by point, then kind, then detail. -/
structure Finding where
  point : Nat
  kind : FindingKind
  detail : String
deriving DecidableEq, Ord, Inhabited

namespace Finding

/-- Puts findings in order. -/
def sort (findings : List Finding) : List Finding :=
  sortStable (fun a b => (compare a b).isLE) findings

def render (finding : Finding) : String :=
  s!"0x{Text.hex finding.point}: {finding.kind.render}: {finding.detail}"

end Finding

end RangeFlow
