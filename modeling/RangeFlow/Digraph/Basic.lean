import RangeFlow.Error
import RangeFlow.Order

/-!
# Directed graphs

A graph keeps its vertices and edges in sorted maps under their own indices, and beside them the
successors and predecessors of every vertex. Insertion checks for duplicates and missing ends and
changes nothing when it refuses.
-/

namespace RangeFlow

/-- Values that can be vertices: each names its own index. -/
class Vertex (ν : Type) where
  index : ν → Nat

/-- Values that can be edges: each names its own ends. -/
class Arc (ε : Type) where
  head : ε → Nat
  tail : ε → Nat

/-- A finite set of vertex indices. -/
abbrev IndexSet := Std.ExtTreeSet Nat

/-- A directed graph with at most one edge from one vertex to another. -/
structure Digraph (ν ε : Type) where
  vertices : Std.ExtTreeMap Nat ν
  edges : Std.ExtTreeMap Link ε
  successors : Std.ExtTreeMap Nat IndexSet
  predecessors : Std.ExtTreeMap Nat IndexSet
deriving DecidableEq

namespace Digraph

variable {ν ε : Type}

/-- The graph without vertices. -/
def empty : Digraph ν ε := ⟨∅, ∅, ∅, ∅⟩

instance : Inhabited (Digraph ν ε) := ⟨empty⟩

/-! ## Insertion -/

/-- Adds a vertex without edges. -/
def insertVertex [Vertex ν] (g : Digraph ν ε) (v : ν) : Except Error (Digraph ν ε) :=
  let index := Vertex.index v
  if index ∈ g.vertices then
    .error (.duplicateVertex index)
  else
    .ok { g with
      vertices := g.vertices.insert index v
      successors := g.successors.insert index ∅
      predecessors := g.predecessors.insert index ∅ }

/-- Adds `index` to the set that is kept for `owner`. -/
def addTo (sets : Std.ExtTreeMap Nat IndexSet) (owner index : Nat) :
    Std.ExtTreeMap Nat IndexSet :=
  sets.insert owner ((sets.getD owner ∅).insert index)

/-- Adds an edge between two vertices of the graph. -/
def insertEdge [Arc ε] (g : Digraph ν ε) (e : ε) : Except Error (Digraph ν ε) :=
  let head := Arc.head e
  let tail := Arc.tail e
  if ⟨head, tail⟩ ∈ g.edges then
    .error (.duplicateEdge head tail)
  else if head ∉ g.vertices then
    .error (.vertexMissing head)
  else if tail ∉ g.vertices then
    .error (.vertexMissing tail)
  else
    .ok { g with
      edges := g.edges.insert ⟨head, tail⟩ e
      successors := addTo g.successors head tail
      predecessors := addTo g.predecessors tail head }

/-! ## Look-up -/

def hasVertex (g : Digraph ν ε) (index : Nat) : Bool := g.vertices.contains index

def hasEdge (g : Digraph ν ε) (head tail : Nat) : Bool := g.edges.contains ⟨head, tail⟩

def vertex (g : Digraph ν ε) (index : Nat) : Except Error ν :=
  match g.vertices[index]? with
  | some v => .ok v
  | none => .error (.vertexMissing index)

def edge (g : Digraph ν ε) (head tail : Nat) : Except Error ε :=
  match g.edges[(⟨head, tail⟩ : Link)]? with
  | some e => .ok e
  | none => .error (.edgeMissing head tail)

/-- Replaces the label of a vertex; `f` is to keep its index. -/
def modifyVertex (g : Digraph ν ε) (index : Nat) (f : ν → ν) : Except Error (Digraph ν ε) := do
  let v ← g.vertex index
  return { g with vertices := g.vertices.insert index (f v) }

/-- Replaces the label of an edge; `f` is to keep its ends. -/
def modifyEdge (g : Digraph ν ε) (head tail : Nat) (f : ε → ε) : Except Error (Digraph ν ε) := do
  let e ← g.edge head tail
  return { g with edges := g.edges.insert ⟨head, tail⟩ (f e) }

/-- The vertices an edge leads to from a vertex, in increasing order. -/
def successorsOf (g : Digraph ν ε) (index : Nat) : Except Error (List Nat) :=
  match g.successors[index]? with
  | some tails => .ok tails.toList
  | none => .error (.vertexMissing index)

/-- The vertices an edge comes from to a vertex, in increasing order. -/
def predecessorsOf (g : Digraph ν ε) (index : Nat) : Except Error (List Nat) :=
  match g.predecessors[index]? with
  | some heads => .ok heads.toList
  | none => .error (.vertexMissing index)

/-- The edges that leave a vertex, by increasing tail. -/
def edgesOut (g : Digraph ν ε) (index : Nat) : Except Error (List ε) := do
  let tails ← g.successorsOf index
  return tails.filterMap fun tail => g.edges[(⟨index, tail⟩ : Link)]?

/-- The edges that enter a vertex, by increasing head. -/
def edgesIn (g : Digraph ν ε) (index : Nat) : Except Error (List ε) := do
  let heads ← g.predecessorsOf index
  return heads.filterMap fun head => g.edges[(⟨head, index⟩ : Link)]?

end Digraph

end RangeFlow
