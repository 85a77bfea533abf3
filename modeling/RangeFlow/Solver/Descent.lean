import RangeFlow.Solver.Run

/-!
# The descent

A descending pass goes through the points in reverse post order and computes the state of each
again from the current states of its predecessors, without widening. A state that got smaller is
kept, and a point that no edge leads to any more loses its state.
-/

namespace RangeFlow.Problem

/-- A state that comes along an edge into a point. -/
structure Inflow where
  edge : Edge
  /-- The operation at the head of the edge. -/
  operation : Operation
  state : Option State

/-- What comes along an edge, if its head has a state. -/
def inflow? (p : Problem) (options : Options) (states : Std.ExtTreeMap Nat State) (edge : Edge) :
    Except Error (Option Inflow) :=
  match states[edge.head]? with
  | none => .ok none
  | some pre => do
      let operation := (← p.procedure.graph.point edge.head).operation
      let state ← p.procedure.graph.edgeState edge (operation.apply options.summaries pre)
      return some ⟨edge, operation, state⟩

/-- What comes along the edges into a point. -/
def inflows (p : Problem) (options : Options) (states : Std.ExtTreeMap Nat State) (index : Nat) :
    Except Error (List Inflow) := do
  let edges ← p.procedure.graph.edgesIn index
  return (← edges.mapM (p.inflow? options states)).filterMap id

/-- What is noted when the state of a point is computed again. -/
def Inflow.events (summaries : Summaries) (inflow : Inflow) : List Event :=
  inflow.operation.events summaries ++ inflow.edge.events inflow.state

/-- Joins a state to what came before it, if anything did. -/
def joinTo (before : Option State) (state : State) : State :=
  match before with
  | some before => before.join state
  | none => state

/-- The state in front of a point, from what comes into it. The entry also has the initial state. -/
def recompute (p : Problem) (initial : State) (index : Nat) (inflows : List Inflow) :
    Option State :=
  (inflows.filterMap Inflow.state).foldl (fun before state => some (joinTo before state))
    (if index = p.entry then some initial else none)

/-- Computes the state of a point again. Says whether it changed. -/
def descendStep (p : Problem) (options : Options) (initial : State) (run : Run) (index : Nat) :
    Except Error (Bool × Run) :=
  let run := run.tick
  match run.states[index]? with
  | none => .ok (false, run)
  | some current => do
      let inflows ← p.inflows options run.states index
      let run := run.note (inflows.flatMap (Inflow.events options.summaries))
      match p.recompute initial index inflows with
      | some state =>
          if state ≠ current ∧ state.isSubset current then
            let run := run.note [.narrowed index state]
            return (true, { run with states := run.states.insert index state })
          else
            return (false, run)
      | none =>
          let run := run.note [.becameUnreachable index]
          return (true, { run with states := run.states.erase index })

/-- Goes through some points. The answer is whether any state changed, or `none` if the budget was
spent on the way. -/
def descendPass (p : Problem) (options : Options) (initial : State) :
    List Nat → Bool → Run → Except Error (Option Bool × Run)
  | [], changed, run => .ok (some changed, run)
  | index :: rest, changed, run =>
      if options.isSpent run.iterations then
        .ok (none, run)
      else
        match p.descendStep options initial run index with
        | .ok (changedHere, run) => p.descendPass options initial rest (changed || changedHere) run
        | .error e => .error e

/-- Makes at most `passes` more passes, as long as states change. -/
def descend (p : Problem) (options : Options) (initial : State) :
    (passes pass : Nat) → Run → Except Error Run
  | 0, _, run => .ok run
  | passes + 1, pass, run =>
      match p.descendPass options initial p.order false run with
      | .ok (none, run) => .ok (run.note [.budgetSpent p.procedure.name pass])
      | .ok (some changed, run) =>
          let run := run.note [.passDone p.procedure.name pass changed]
          if changed then p.descend options initial passes (pass + 1) run else .ok run
      | .error e => .error e

end RangeFlow.Problem
