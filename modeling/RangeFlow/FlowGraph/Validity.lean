import RangeFlow.FlowGraph.Basic

/-!
# Validity of flow graphs

A flow graph is analysed only if it has an entry, its operations are well sorted, and the edges
that leave a point suit its operation. `FlowGraph.validate` checks this point by point and reports
the first fault.
-/

namespace RangeFlow

/-- The error for an edge that does not suit the operation at its head. -/
def Edge.misfit (edge : Edge) (reason : String) : Error := .invalidEdge edge.head edge.tail reason

namespace Operation

/-- Switches leave through case edges and at most one default edge. -/
def checkSwitchEdges (hasDefault : Bool) : List Edge → Except Error Unit
  | [] => .ok ()
  | edge :: rest =>
      match edge.kind with
      | .switchCase _ => checkSwitchEdges hasDefault rest
      | .switchDefault =>
          if hasDefault then
            .error (edge.misfit "a switch has one default edge")
          else
            checkSwitchEdges true rest
      | _ => .error (edge.misfit "a switch leaves through case edges")

/-- The kinds of edge that leave a branch; a merged pair of them is unconditional. -/
def isBranchEdge (edge : Edge) : Bool :=
  match edge.kind with
  | .branchTrue | .branchFalse | .unconditional => true
  | _ => false

/-- Checks the edges that leave a point against its operation. -/
def checkEdges (operation : Operation) (edges : List Edge) : Except Error Unit :=
  match operation with
  | ret _ =>
      match edges with
      | [] => .ok ()
      | edge :: _ => .error (edge.misfit "a return has no successors")
  | branch _ =>
      match edges.find? fun edge => !isBranchEdge edge with
      | some edge => .error (edge.misfit "a branch leaves through branch edges")
      | none => .ok ()
  | switch _ => checkSwitchEdges false edges
  | _ =>
      match edges.find? fun edge => !edge.kind.isFallThrough, edges with
      | some edge, _ => .error (edge.misfit "straight-line operations do not branch")
      | none, _ :: edge :: _ => .error (edge.misfit "straight-line operations have one successor")
      | none, _ => .ok ()

end Operation

namespace FlowGraph

/-- Checks the sorts of a point and the edges that leave it. -/
def checkPoint (g : FlowGraph) (point : Point) : Except Error Unit := do
  point.operation.checkSorts point.index
  point.operation.checkEdges (← g.edgesOut point.index)

/-- Checks that the graph can be analysed. -/
def validate (g : FlowGraph) : Except Error Unit := do
  let entry ← g.entryIndex
  if entry ∉ g.graph.vertices then
    throw (.vertexMissing entry)
  g.points.forM g.checkPoint

/-- The points that control can reach from the entry, in reverse post order. -/
def reversePostOrder (g : FlowGraph) : Except Error (List Nat) := do
  g.graph.reversePostOrder (← g.entryIndex)

/-- The points that control cannot reach from the entry. -/
def unreachable (g : FlowGraph) : Except Error (List Nat) := do
  g.graph.unreachable (← g.entryIndex)

/-- The tails of the edges that are marked as closing a loop. -/
def loopBackTails (g : FlowGraph) : List Nat :=
  (g.edges.filter fun edge => edge.kind = .loopBack).map Edge.tail

/-- The loop headers: where an edge of the depth-first walk from the entry retreats to, or an edge
marked as closing a loop leads. -/
def loopHeaders (g : FlowGraph) : Except Error IndexSet := do
  let walk ← g.graph.depthFirst (← g.entryIndex)
  return (Std.ExtTreeSet.ofList (walk.retreating.toList.map Link.tail)).insertMany g.loopBackTails

end FlowGraph

end RangeFlow
