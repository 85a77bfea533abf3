import RangeFlow.Digraph.Walk
import RangeFlow.Program.Edge

/-!
# Control flow graphs

A flow graph is a directed graph of program points with an entry. Points get fresh indices from
`FlowGraph.newPoint` or chosen ones from `FlowGraph.insertPoint`. A second edge between the same
two points is merged into the first.
-/

namespace RangeFlow

instance : Vertex Point where
  index := Point.index

instance : Arc Edge where
  head := Edge.head
  tail := Edge.tail

/-- A directed graph of points and edges in which execution starts at the entry. -/
structure FlowGraph where
  graph : Digraph Point Edge
  /-- The index that the next new point gets. -/
  nextIndex : Nat
  entry : Option Nat
deriving DecidableEq

namespace FlowGraph

/-- The graph without points. -/
def empty : FlowGraph := ⟨.empty, 0, none⟩

instance : Inhabited FlowGraph := ⟨empty⟩

/-! ## Construction -/

/-- Adds a point under a chosen index. -/
def insertPoint (g : FlowGraph) (index : Nat) (operation : Operation) :
    Except Error FlowGraph := do
  let graph ← g.graph.insertVertex ⟨index, operation, none⟩
  return { g with graph, nextIndex := max g.nextIndex (index + 1) }

/-- Adds a point under a fresh index, and returns that index. -/
def newPoint (g : FlowGraph) (operation : Operation) : Except Error (Nat × FlowGraph) := do
  let extended ← g.insertPoint g.nextIndex operation
  return (g.nextIndex, extended)

/-- Makes a point the entry. -/
def setEntry (g : FlowGraph) (index : Nat) : Except Error FlowGraph :=
  if g.graph.hasVertex index then
    .ok { g with entry := some index }
  else
    .error (.vertexMissing index)

/-- Puts a comment on a point. -/
def setComment (g : FlowGraph) (index : Nat) (comment : String) : Except Error FlowGraph := do
  let graph ← g.graph.modifyVertex index fun point => { point with comment := some comment }
  return { g with graph }

/-- Adds an edge, merging its kind with the one that is already there. -/
def insertEdge (g : FlowGraph) (head tail : Nat) (kind : EdgeKind) : Except Error FlowGraph :=
  match g.graph.edges[(⟨head, tail⟩ : Link)]? with
  | none => do
      let graph ← g.graph.insertEdge ⟨head, tail, kind⟩
      return { g with graph }
  | some present =>
      match present.kind.merge? kind with
      | some merged => do
          let graph ← g.graph.modifyEdge head tail fun edge => { edge with kind := merged }
          return { g with graph }
      | none =>
          .error (.invalidEdge head tail
            s!"cannot merge {present.kind.render} with {kind.render}")

def sequentialEdge (g : FlowGraph) (head tail : Nat) : Except Error FlowGraph :=
  g.insertEdge head tail .sequential

def unconditionalEdge (g : FlowGraph) (head tail : Nat) : Except Error FlowGraph :=
  g.insertEdge head tail .unconditional

def loopBackEdge (g : FlowGraph) (head tail : Nat) : Except Error FlowGraph :=
  g.insertEdge head tail .loopBack

/-- The edge that a branch takes when its condition is `taken`. -/
def branchEdge (g : FlowGraph) (head tail : Nat) (taken : Bool) : Except Error FlowGraph :=
  g.insertEdge head tail (if taken then .branchTrue else .branchFalse)

/-- The edge that a switch takes on one value. -/
def caseEdge (g : FlowGraph) (head tail : Nat) (value : Int) : Except Error FlowGraph :=
  g.insertEdge head tail (.switchCase {value})

def defaultEdge (g : FlowGraph) (head tail : Nat) : Except Error FlowGraph :=
  g.insertEdge head tail .switchDefault

/-! ## Look-up -/

def entryIndex (g : FlowGraph) : Except Error Nat :=
  match g.entry with
  | some entry => .ok entry
  | none => .error .entryMissing

/-- The points by increasing index. -/
def points (g : FlowGraph) : List Point := g.graph.vertices.values

/-- The edges by increasing head, then tail. -/
def edges (g : FlowGraph) : List Edge := g.graph.edges.values

def point (g : FlowGraph) (index : Nat) : Except Error Point := g.graph.vertex index

def edge (g : FlowGraph) (head tail : Nat) : Except Error Edge := g.graph.edge head tail

def edgesOut (g : FlowGraph) (index : Nat) : Except Error (List Edge) := g.graph.edgesOut index

def edgesIn (g : FlowGraph) (index : Nat) : Except Error (List Edge) := g.graph.edgesIn index

def render (g : FlowGraph) : String :=
  String.join (g.points.map fun point => s!"{point.render}\n") ++
    String.join (g.edges.map fun edge => s!"edge {edge.render}\n")

end FlowGraph

end RangeFlow
