import RangeFlow.Error
import RangeFlow.Interval.Basic
import RangeFlow.Order

/-!
# Call summaries

One procedure is analysed at a time. What a call returns is known only from the summary of its
target, if there is one.
-/

namespace RangeFlow

/-- What a call is known to return. -/
inductive CallSummary where
  /-- A value between two bounds. -/
  | returns (lo hi : Int)
  /-- The argument at a position. -/
  | returnsArgument (position : Nat)
deriving DecidableEq, Inhabited

namespace CallSummary

/-- The interval of the returned value, if the summary gives one. No call returns nothing, so an
empty range says nothing. -/
def returnedInterval? (bits : Nat) : CallSummary → Option Interval
  | returns lo hi => some (if hi < lo then .top bits else .ofExact bits lo hi)
  | returnsArgument _ => none

/-- Checks that the summary allows some value. -/
def validate (summary : CallSummary) (target : String) : Except Error Unit :=
  match summary with
  | returns lo hi =>
      if hi < lo then
        .error (.analysis s!"summary of {target} returns the empty range [{lo}, {hi}]")
      else
        .ok ()
  | returnsArgument _ => .ok ()

end CallSummary

/-- The known summaries by call target. -/
abbrev Summaries := Std.ExtTreeMap String CallSummary

/-- Checks the summaries in the order of their targets. -/
def Summaries.validate (summaries : Summaries) : Except Error Unit :=
  summaries.toList.forM fun (target, summary) => summary.validate target

end RangeFlow
