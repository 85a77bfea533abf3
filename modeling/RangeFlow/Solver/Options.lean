import RangeFlow.Facts.Summary
import RangeFlow.Report.Finding

/-!
# Options

How much work an analysis may do and how much time it may take, and when it widens.
-/

namespace RangeFlow

/-- The milliseconds that have passed since the start of a run, by the number of evaluations that the
run has made. -/
abbrev Clock := Nat → Nat

structure Options where
  /-- How many evaluations of points a procedure may take. -/
  maxIterations : Nat := 10000
  /-- The milliseconds that a procedure may take. -/
  deadline : Option Nat := none
  /-- What the deadline is read off. How fast it runs is no choice but part of the run. -/
  clock : Clock := fun _ => 0
  /-- How many merges into a loop header are joined before they are widened. -/
  wideningDelay : Nat := 0
  /-- How many descending passes follow the ascent. -/
  narrowingPasses : Nat := 1
  summaries : Summaries := ∅
deriving Inhabited

namespace Options

/-- Whether the deadline is reached after some iterations. -/
def isExpired (options : Options) (iterations : Nat) : Bool :=
  match options.deadline with
  | some deadline => deadline ≤ options.clock iterations
  | none => false

/-- Whether the budget is spent or the deadline reached after some iterations. -/
def isSpent (options : Options) (iterations : Nat) : Bool :=
  options.maxIterations ≤ iterations || options.isExpired iterations

end Options

end RangeFlow
