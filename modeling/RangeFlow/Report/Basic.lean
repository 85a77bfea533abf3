import RangeFlow.Digraph.Basic
import RangeFlow.Facts.State
import RangeFlow.Report.Finding

/-!
# Reports

The result of the analysis of one procedure: the state in front of every point that can be reached,
the findings, and what the return points return.
-/

namespace RangeFlow

structure Report where
  procedure : String
  outcome : Outcome
  iterations : Nat
  /-- The states in front of the points that can be reached. -/
  states : Std.ExtTreeMap Nat State
  findings : List Finding
  /-- The values at the return points that return one. -/
  returns : Std.ExtTreeMap Nat Interval
  unreachable : IndexSet
deriving DecidableEq

namespace Report

/-- The interval of a slot in front of a point, empty where nothing gets to. -/
def value (report : Report) (point : Nat) (slot : Slot) : Interval :=
  match report.states[point]? with
  | some s => s.value slot
  | none => .bottom slot.bits

def isReachable (report : Report) (point : Nat) : Bool := report.states.contains point

/-- The join of the returned values, in the order of their points. -/
def returnValue? (report : Report) : Option Interval :=
  match report.returns.values with
  | [] => none
  | first :: rest => some (rest.foldl Interval.join first)

/-- The edges that are never taken. -/
def infeasibleEdges (report : Report) : Std.ExtTreeSet Link :=
  Std.ExtTreeSet.ofList <| report.findings.filterMap fun finding =>
    match finding.kind with
    | .infeasibleEdge tail => some (Link.mk finding.point tail)
    | _ => none

def render (report : Report) : String :=
  let states := report.states.toList.map fun (point, s) =>
    s!"  0x{Text.hex point}: {s.render}\n"
  let findings := report.findings.map fun finding => s!"  {finding.render}\n"
  s!"{report.procedure}: {report.outcome.render} after {report.iterations} iterations\n" ++
    String.join states ++ String.join findings

end Report

end RangeFlow
