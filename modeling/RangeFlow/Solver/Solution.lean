import RangeFlow.Journal.Noted
import RangeFlow.Solver.Ascent
import RangeFlow.Solver.Descent

/-!
# Solutions

`Problem.solve` ascends from the initial state at the entry to states that no edge changes any more,
and then descends. When the ascent runs out of budget or time, every point gets the state that knows
nothing.
-/

namespace RangeFlow

/-- The states in front of the points that can be reached, and how they were found. -/
structure Solution where
  states : Std.ExtTreeMap Nat State
  outcome : Outcome
  iterations : Nat
deriving DecidableEq

namespace Problem

/-- The state that knows nothing, at every point of the graph. -/
def unconstrainedStates (p : Problem) : Std.ExtTreeMap Nat State :=
  p.procedure.graph.graph.vertices.map fun _ _ => .unconstrained

/-- What is noted behind a completed ascent. -/
def ascentEvents (p : Problem) (run : Run) : List Event :=
  let name := p.procedure.name
  let missed := p.order.countP fun index => index ∉ run.states
  (if 0 < missed then [.neverReached name missed] else []) ++ [.ascended name run.iterations]

/-- Solves a problem from the state at the entry, with the log of the run. -/
def solveLogged (p : Problem) (options : Options) (initial : State) :
    Except Error (Solution × Array Event) := do
  let run ← Run.start p initial
  match ← p.ascend options options.maxIterations run with
  | (some outcome, run) =>
      let run := run.note [.gaveUp p.procedure.name run.iterations outcome]
      return (⟨p.unconstrainedStates, outcome, run.iterations⟩, run.log)
  | (none, run) =>
      let run ← p.descend options initial options.narrowingPasses 0 (run.note (p.ascentEvents run))
      return (⟨run.states, .converged, run.iterations⟩, run.log)

/-- Solves a problem from the state at the entry. -/
def solve (p : Problem) (options : Options) (initial : State) : Noted Solution :=
  match p.solveLogged options initial with
  | .ok (solution, log) => ⟨log.toList, .ok solution⟩
  | .error e => ⟨[], .error e⟩

end Problem

/-- Checks a procedure and solves it from the state at its entry. -/
def Procedure.solve (procedure : Procedure) (options : Options) (initial : State) :
    Noted Solution := do
  procedure.validateNoted
  let problem ← Problem.ofValid procedure
  problem.solve options initial

end RangeFlow
