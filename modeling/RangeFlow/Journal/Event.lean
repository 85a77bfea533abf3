import RangeFlow.Facts.Summary
import RangeFlow.Facts.Transfer
import RangeFlow.FlowGraph.Procedure
import RangeFlow.Report.Finding

/-!
# Events

What is noted while procedures are checked and analysed. An event is data; `Event.level` and
`Event.text` give the line that it is shown as.
-/

namespace RangeFlow

/-- How much attention an event asks for. -/
inductive Level where
  | trace
  | debug
  | info
  | warn
deriving DecidableEq, Inhabited

def Level.render : Level → String
  | trace => "TRACE"
  | debug => "DEBUG"
  | info => "INFO"
  | warn => "WARN"

/-- Something that happened on the way to a result. -/
inductive Event where
  /-- A valid graph has points that control cannot reach. -/
  | unreachablePoints (entry : Nat) (points : List Nat)
  /-- An operation outside the known set was passed. -/
  | unsupported (mnemonic : String) (writes : Nat)
  /-- A summary names an argument that a call does not pass. -/
  | argumentMissing (target : String) (position passed : Nat)
  | infeasible (edge : Edge)
  /-- The state behind a point. -/
  | evaluated (point : Point) (post : State)
  | widened (point : Nat) (state : State)
  /-- The state in front of `tail` changed. -/
  | merged (head tail : Nat) (state : State)
  | neverReached (procedure : String) (count : Nat)
  | ascended (procedure : String) (iterations : Nat)
  | gaveUp (procedure : String) (iterations : Nat) (outcome : Outcome)
  | narrowed (point : Nat) (state : State)
  | becameUnreachable (point : Nat)
  | budgetSpent (procedure : String) (pass : Nat)
  | passDone (procedure : String) (pass : Nat) (changed : Bool)
  | reported (procedure : String) (findings unreachable : Nat)
  | analysed (procedure : String) (outcome : Outcome) (iterations findings : Nat)
  /-- A procedure of a batch was refused. -/
  | failed (procedure : String) (error : Error)
  | batchDone (reports failures : Nat)
deriving DecidableEq

namespace Event

def level : Event → Level
  | evaluated _ _ | merged _ _ _ | narrowed _ _ | becameUnreachable _ => .trace
  | analysed _ _ _ _ | batchDone _ _ => .info
  | unsupported _ _ | gaveUp _ _ _ | failed _ _ => .warn
  | _ => .debug

def text : Event → String
  | unreachablePoints entry points =>
      let listed := Text.commaSeparated (points.map toString)
      s!"points unreachable from entry {entry}: [{listed}]"
  | unsupported mnemonic writes =>
      s!"unsupported operation {mnemonic}, forgetting {writes} slots"
  | argumentMissing target position passed =>
      s!"summary of {target} returns argument {position}, but the call passes {passed}"
  | infeasible edge => s!"edge {edge.render} is infeasible"
  | evaluated point post => s!"{point.render}: {post.render}"
  | widened point state => s!"widening at {point}: {state.render}"
  | merged head tail state => s!"{head} -> {tail}: {state.render}"
  | neverReached procedure count => s!"{procedure}: {count} points never reached"
  | ascended procedure iterations => s!"{procedure}: ascended in {iterations} iterations"
  | gaveUp procedure iterations outcome =>
      s!"{procedure}: gave up after {iterations} iterations ({outcome.render})"
  | narrowed point state => s!"narrowed {point}: {state.render}"
  | becameUnreachable point => s!"{point} is unreachable"
  | budgetSpent procedure pass => s!"{procedure}: budget spent in descending pass {pass}"
  | passDone procedure pass changed =>
      s!"{procedure}: descending pass {pass} done, changed: {changed}"
  | reported procedure findings unreachable =>
      s!"{procedure}: {findings} findings, {unreachable} unreachable points"
  | analysed procedure outcome iterations findings =>
      s!"{procedure}: {outcome.render} in {iterations} iterations, {findings} findings"
  | failed procedure error => s!"{procedure}: {error.message}"
  | batchDone reports failures => s!"analyzed {reports} procedures, {failures} failed"

end Event

/-! ## Events of single steps -/

/-- What is noted when an operation is evaluated. -/
def Operation.events (summaries : Summaries) : Operation → List Event
  | unsupported mnemonic writes => [.unsupported mnemonic writes.length]
  | call (some _) target arguments =>
      match summaries[target]? with
      | some (.returnsArgument position) =>
          if position < arguments.length then []
          else [.argumentMissing target position arguments.length]
      | _ => []
  | _ => []

/-- What is noted when a state is taken along an edge. -/
def Edge.events (edge : Edge) (state : Option State) : List Event :=
  if state.isNone then [.infeasible edge] else []

/-- What is noted when a valid graph was checked. -/
def FlowGraph.events (g : FlowGraph) : List Event :=
  match g.entry, g.unreachable with
  | some entry, .ok (point :: more) => [.unreachablePoints entry (point :: more)]
  | _, _ => []

end RangeFlow
