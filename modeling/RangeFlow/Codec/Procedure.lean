import RangeFlow.Codec.Program
import RangeFlow.Journal.Noted

/-!
# Flow graphs and procedures as value trees

A graph is written as its entry, its points and its edges. Reading builds it up again step by step
and checks it, so that a graph that could not be built or is not valid is refused.
-/

namespace RangeFlow

namespace FlowGraph

/-- Adds a point with its comment. -/
def addPoint (g : FlowGraph) (point : Point) : Except Error FlowGraph := do
  let g ← g.insertPoint point.index point.operation
  match point.comment with
  | some comment => g.setComment point.index comment
  | none => return g

/-- Adds an edge. -/
def addEdge (g : FlowGraph) (edge : Edge) : Except Error FlowGraph :=
  g.insertEdge edge.head edge.tail edge.kind

/-- Builds a graph from its parts, without checking it. -/
def assemble (entry : Option Nat) (points : List Point) (edges : List Edge) :
    Except Error FlowGraph := do
  let g ← points.foldlM addPoint empty
  let g ← edges.foldlM addEdge g
  match entry with
  | some entry => g.setEntry entry
  | none => .error .entryMissing

/-- Builds a valid graph from its parts. -/
def ofParts (entry : Option Nat) (points : List Point) (edges : List Edge) :
    Except Error FlowGraph := do
  let g ← assemble entry points edges
  g.validate
  return g

/-- The fields that a graph is written as. -/
def fields (g : FlowGraph) : List (String × Json) :=
  [("entry", .ofOption Json.nat g.entry), ("points", .ofList Point.toJson g.points),
    ("edges", .ofList Edge.toJson g.edges)]

def toJson (g : FlowGraph) : Json := .record g.fields

def ofJson (source : Json.Source) (json : Json) : Except Error FlowGraph := do
  let fields ← json.toFields ["entry", "points", "edges"] []
  let entry ← fields.get? "entry" Json.toNat
  let points ← fields.get "points" (Json.toList (Point.ofJson source))
  let edges ← fields.get "edges" (Json.toList Edge.ofJson)
  Json.accept (ofParts entry points edges)

/-- Reads a graph and notes the points that control cannot reach. -/
def read (source : Json.Source) (json : Json) : Noted FlowGraph := do
  let g ← ofJson source json
  Noted.note g.events
  return g

end FlowGraph

namespace Procedure

def toJson (p : Procedure) : Json :=
  .record [("name", .text p.name), ("parameters", .ofList Slot.toJson p.parameters),
    ("control_flow_graph", p.graph.toJson)]

/-- Reads a field of a procedure. -/
def readField (source : Json.Source) (p : Procedure) (name : String) (json : Json) :
    Noted Procedure := do
  match name with
  | "name" => return { p with name := ← json.toText }
  | "parameters" => return { p with parameters := ← json.toList Slot.ofJson }
  | "control_flow_graph" => return { p with graph := ← FlowGraph.read source json }
  | _ => return p

/-- Reads a procedure and notes the points that control cannot reach. -/
def read (source : Json.Source) (json : Json) : Noted Procedure :=
  json.visitRecord ["name", "parameters", "control_flow_graph"] (readField source)
    { name := "", parameters := [], graph := .empty }

def ofJson (source : Json.Source) (json : Json) : Except Error Procedure :=
  (read source json).result

end Procedure

end RangeFlow
