import RangeFlow.Facts.Access
import RangeFlow.Journal.Noted
import RangeFlow.Report.Basic
import RangeFlow.Solver.Solution

/-!
# From solutions to reports

Looks at every point in its state: which of the edges out of a branch or a switch are never taken,
and whether an array access may be out of range.
-/

namespace RangeFlow

/-- What was found at one point. -/
structure Examination where
  /-- The edges that are never taken. -/
  neverTaken : List Edge
  findings : List Finding

namespace Procedure

/-- What decides which edge of a point is taken, if anything does. -/
def decision? : Operation → Option String
  | .branch condition => some condition.render
  | .switch scrutinee => some s!"switch on {scrutinee.render}"
  | _ => none

/-- The finding for an edge that is never taken. -/
def infeasibleFinding (decision : String) (edge : Edge) : Finding where
  point := edge.head
  kind := .infeasibleEdge edge.tail
  detail := s!"{edge.kind.render} edge of {decision} is never taken"

/-- The finding for an array access, if it may be out of range. -/
def accessFinding? (index : Nat) (operation : Operation) (s : State) : Option Finding :=
  let check (position : Operand) (length : Option Operand) : Option Finding :=
    let value := s.eval position
    (AccessFault.of? value (length.map s.eval)).map fun fault =>
      ⟨index, .possibleOutOfRange, fault.describe value⟩
  match operation with
  | .arrayLoad _ position length | .arrayStore position _ length => check position length
  | _ => none

/-- Examines a point in its state. Branches and switches leave the state as it is, so it is also
the state behind them. -/
def examine (p : Procedure) (index : Nat) (s : State) : Except Error Examination := do
  let operation := (← p.graph.point index).operation
  match decision? operation with
  | some decision =>
      let leaving ← p.graph.edgeStates index s
      let neverTaken := leaving.filterMap fun (edge, state) =>
        if state.isNone then some edge else none
      return ⟨neverTaken, neverTaken.map (infeasibleFinding decision)⟩
  | none => return ⟨[], (accessFinding? index operation s).toList⟩

/-- Examines the points that have a state, if the solution is a fixed point. -/
def examineAll (p : Procedure) (solution : Solution) : Except Error (List Examination) := do
  if solution.outcome = .converged then
    solution.states.toList.mapM fun (index, s) => p.examine index s
  else
    let detail := s!"{solution.outcome.render} after {solution.iterations} iterations"
    return [⟨[], [⟨← p.graph.entryIndex, .divergence, detail⟩]⟩]

/-- The value that is returned at a point, if there is one. -/
def returned? (p : Procedure) (index : Nat) (s : State) :
    Except Error (Option (Nat × Interval)) := do
  match (← p.graph.point index).operation with
  | .ret (some value) => return some (index, s.eval value)
  | _ => return none

/-- The values that are returned, by point. -/
def returns (p : Procedure) (states : Std.ExtTreeMap Nat State) :
    Except Error (Std.ExtTreeMap Nat Interval) := do
  let entries ← states.toList.mapM fun (index, s) => p.returned? index s
  return .ofList (entries.filterMap id)

/-- The points without a state. -/
def unreached (p : Procedure) (states : Std.ExtTreeMap Nat State) : IndexSet :=
  .ofList (p.graph.graph.vertices.keys.filter fun index => index ∉ states)

/-- Makes the report of a solution. -/
def report (p : Procedure) (solution : Solution) : Noted Report := do
  let examinations ← p.examineAll solution
  Noted.note ((examinations.flatMap Examination.neverTaken).map Event.infeasible)
  let findings := Finding.sort (examinations.flatMap Examination.findings)
  let returns ← p.returns solution.states
  let unreachable := p.unreached solution.states
  Noted.note [.reported p.name findings.length unreachable.size]
  return {
    procedure := p.name
    outcome := solution.outcome
    iterations := solution.iterations
    states := solution.states
    findings, returns, unreachable }

end Procedure

end RangeFlow
