import RangeFlow.Solver.Run

/-!
# The ascent

Evaluates the due points, first in reverse post order, and merges the states along the edges that
leave them into the states of their tails, until no point is due. Merges into a loop header are
widened once there were more of them than the options allow to be joined.
-/

namespace RangeFlow.Problem

/-- Whether the merge that makes `count` of them at a point is widened. -/
def widens (p : Problem) (options : Options) (point count : Nat) : Bool :=
  p.headers.contains point && options.wideningDelay < count

/-- Merges a state into the one in front of a point. -/
def mergeState (p : Problem) (options : Options) (point count : Nat) (old new : State) : State :=
  let joined := old.join new
  if p.widens options point count then old.widen joined else joined

/-- What is noted when the state in front of `tail` becomes `state` by a merge from `head`. -/
def mergeEvents (p : Problem) (options : Options) (head tail count : Nat) (state : State) :
    List Event :=
  (if p.widens options tail count then [.widened tail state] else []) ++ [.merged head tail state]

/-- Gives a point a state of its own or a changed one, and makes it due. -/
def schedule (p : Problem) (run : Run) (point : Nat) (state : State) : Except Error Run := do
  let rank ← p.rankOf point
  return { run with
    states := run.states.insert point state
    due := run.due.insert ⟨rank, point⟩ }

/-- Takes the state along an edge to the tail of the edge. -/
def follow (p : Problem) (options : Options) (run : Run) (edge : Edge) (state : State) :
    Except Error Run :=
  match run.states[edge.tail]? with
  | none => p.schedule (run.note [.merged edge.head edge.tail state]) edge.tail state
  | some old =>
      let count := run.merges.getD edge.tail 0 + 1
      let run := { run with merges := run.merges.insert edge.tail count }
      let new := p.mergeState options edge.tail count old state
      if new = old then
        .ok run
      else
        p.schedule (run.note (p.mergeEvents options edge.head edge.tail count new)) edge.tail new

/-- Takes the states along some edges to their tails, leaving out the edges that have none. -/
def followAll (p : Problem) (options : Options) (run : Run) (leaving : List (Edge × Option State)) :
    Except Error Run :=
  leaving.foldlM (fun run (edge, state) =>
    match state with
    | some state => p.follow options run edge state
    | none => .ok run) run

/-- Evaluates a point in its state. -/
def visit (p : Problem) (options : Options) (run : Run) (index : Nat) : Except Error Run :=
  match run.states[index]? with
  | none => .ok run
  | some pre => do
      let graph := p.procedure.graph
      let point ← graph.point index
      let post := point.operation.apply options.summaries pre
      let leaving ← graph.edgeStates index post
      let events := point.operation.events options.summaries ++
        .evaluated point post :: leaving.flatMap fun (edge, state) => edge.events state
      p.followAll options (run.note events) leaving

/-- Evaluates the first due point. -/
def ascendStep (p : Problem) (options : Options) (run : Run) (turn : Turn) : Except Error Run :=
  p.visit options { run.tick with due := run.due.erase turn } turn.point

/-- Evaluates due points until there are none, or until `budget` is spent or the deadline reached,
which is then the outcome. -/
def ascend (p : Problem) (options : Options) : Nat → Run → Except Error (Option Outcome × Run)
  | 0, run => .ok (if run.due.isEmpty then none else some .diverged, run)
  | budget + 1, run =>
      match run.next? with
      | none => .ok (none, run)
      | some turn =>
          if options.isExpired run.iterations then
            .ok (some .deadlineExceeded, run)
          else
            match p.ascendStep options run turn with
            | .ok next => p.ascend options budget next
            | .error e => .error e

end RangeFlow.Problem
