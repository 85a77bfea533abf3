import RangeFlow.FlowGraph.Procedure

/-!
# Problems

A valid procedure with what the solver needs to know about the shape of its graph.
-/

namespace RangeFlow

/-- A procedure that is ready to be solved. -/
structure Problem where
  procedure : Procedure
  entry : Nat
  /-- The points that control can reach, in reverse post order. -/
  order : List Nat
  /-- The position of each point in the order. -/
  rank : Std.ExtTreeMap Nat Nat
  /-- The points at which merges are widened. -/
  headers : IndexSet

namespace Problem

/-- The shape of the graph of a valid procedure. -/
def ofValid (procedure : Procedure) : Except Error Problem := do
  let order ← procedure.graph.reversePostOrder
  let entry ← procedure.graph.entryIndex
  let headers ← procedure.graph.loopHeaders
  return { procedure, entry, order, headers, rank := .ofList order.zipIdx }

/-- The position of a point in the order. -/
def rankOf (p : Problem) (index : Nat) : Except Error Nat :=
  match p.rank[index]? with
  | some rank => .ok rank
  | none => .error (.analysis s!"point {index} is not reachable")

end Problem

end RangeFlow
