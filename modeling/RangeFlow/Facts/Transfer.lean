import RangeFlow.Facts.Guard
import RangeFlow.Facts.Summary
import RangeFlow.FlowGraph.Basic
import RangeFlow.Interval.Arithmetic

/-!
# Transfer functions

`Operation.apply` takes the state in front of a point to the state behind its operation, and
`FlowGraph.edgeState` narrows that state along an edge out of the point. An edge without a state
cannot be taken.
-/

namespace RangeFlow

/-! ## Operations -/

namespace State

/-- Forgets what is known about a slot. -/
def forget (s : State) (slot : Slot) : State := s.set slot (.top slot.bits)

/-- Writes the result of a call. An argument that is returned as it is becomes an alias. -/
def setResult (s : State) (summary : Option CallSummary) (dst : Slot)
    (arguments : List Operand) : State :=
  match summary with
  | some (.returnsArgument position) =>
      match arguments[position]? with
      | some (.slot argument) =>
          if argument.bits = dst.bits then s.copy dst argument
          else s.set dst ((s.value argument).cast dst.bits)
      | some argument => s.set dst ((s.eval argument).cast dst.bits)
      | none => s.forget dst
  | some summary => s.set dst ((summary.returnedInterval? dst.bits).getD (.top dst.bits))
  | none => s.forget dst

end State

namespace Operation

/-- The state behind an operation. -/
def apply (summaries : Summaries) (operation : Operation) (s : State) : State :=
  match operation with
  | const dst constant => s.set dst (.constant constant.bits constant.value)
  | copy dst src => s.copy dst src
  | unary dst operator operand => s.set dst (.unary operator (s.eval operand))
  | binary dst operator lhs rhs => s.set dst (.binary operator (s.eval lhs) (s.eval rhs))
  | cast dst src => s.set dst ((s.eval src).cast dst.bits)
  | arrayLoad dst _ _ => s.forget dst
  | call (some dst) target arguments => s.setResult summaries[target]? dst arguments
  | unsupported _ writes => writes.foldl State.forget s
  | call none _ _ | branch _ | switch _ | arrayStore _ _ _ | ret _ | nop => s

end Operation

/-! ## Edges -/

namespace FlowGraph

/-- The values of the case edges among some edges. -/
def caseValues (edges : List Edge) : CaseSet :=
  edges.foldl (fun values edge =>
    match edge.kind with
    | .switchCase more => values ∪ more
    | _ => values) ∅

/-- The state along an edge, from the state behind the operation at its head. -/
def edgeState (g : FlowGraph) (edge : Edge) (post : State) : Except Error (Option State) := do
  let point ← g.point edge.head
  match point.operation, edge.kind with
  | .branch condition, .branchTrue => return post.assume condition
  | .branch condition, .branchFalse => return post.assume condition.negate
  | .switch scrutinee, .switchCase values => return post.assumeCase scrutinee values
  | .switch scrutinee, .switchDefault =>
      return post.assumeDefault scrutinee (caseValues (← g.edgesOut edge.head))
  | _, _ => return some post

/-- The edges that leave a point, each with the state along it. -/
def edgeStates (g : FlowGraph) (index : Nat) (post : State) :
    Except Error (List (Edge × Option State)) := do
  (← g.edgesOut index).mapM fun edge => do return (edge, ← g.edgeState edge post)

end FlowGraph

end RangeFlow
