import RangeFlow.Digraph.Basic

/-!
# Depth-first walks

A walk from a root keeps its own stack of open vertices, each with the successors it has not yet
followed, in increasing order. `Digraph.depthFirst` collects the vertices in the order in which
they are left, and the retreating edges: those that lead to a vertex that is still open.
`Digraph.reachable` collects the vertices that a path leads to.
-/

namespace RangeFlow

/-- What a completed depth-first walk has seen. -/
structure DepthFirst where
  /-- The visited vertices, the one left last first. -/
  reversePostOrder : List Nat
  /-- The edges that led to an open vertex. -/
  retreating : Std.ExtTreeSet Link
deriving DecidableEq

/-- The visited vertices in the order in which they were left. -/
def DepthFirst.postOrder (walk : DepthFirst) : List Nat := walk.reversePostOrder.reverse

/-- A depth-first walk under way. -/
structure Walk where
  /-- The open vertices, innermost first, with the successors still to follow. -/
  stack : List (Nat × List Nat)
  /-- The vertices on the stack. -/
  active : IndexSet
  visited : IndexSet
  /-- The vertices that were left, the latest first. -/
  finished : List Nat
  retreating : Std.ExtTreeSet Link

namespace Walk

variable {ν ε : Type}

/-- The walk that has just entered its root. -/
def start (root : Nat) (successors : List Nat) : Walk where
  stack := [(root, successors)]
  active := {root}
  visited := {root}
  finished := []
  retreating := ∅

/-- Follows one edge out of the innermost open vertex, or leaves that vertex when none is left. -/
def step (g : Digraph ν ε) (walk : Walk) : Except Error Walk :=
  match walk.stack with
  | [] => .ok walk
  | (vertex, []) :: rest =>
      .ok { walk with
        stack := rest
        active := walk.active.erase vertex
        finished := vertex :: walk.finished }
  | (vertex, next :: pending) :: rest =>
      if next ∈ walk.active then
        .ok { walk with
          stack := (vertex, pending) :: rest
          retreating := walk.retreating.insert ⟨vertex, next⟩ }
      else if next ∈ walk.visited then
        .ok { walk with stack := (vertex, pending) :: rest }
      else do
        let successors ← g.successorsOf next
        return { walk with
          stack := (next, successors) :: (vertex, pending) :: rest
          active := walk.active.insert next
          visited := walk.visited.insert next }

/-- Takes at most `fuel` steps, until no vertex is open. -/
def run (g : Digraph ν ε) : Nat → Walk → Except Error Walk
  | 0, walk => .ok walk
  | fuel + 1, walk =>
      if walk.stack.isEmpty then
        .ok walk
      else
        match step g walk with
        | .ok next => run g fuel next
        | .error e => .error e

end Walk

namespace Digraph

variable {ν ε : Type}

/-- Every vertex is left once and every edge is followed at most once. -/
def walkLength (g : Digraph ν ε) : Nat := g.vertices.size + g.edges.size

/-- Walks the graph depth-first from a root. -/
def depthFirst (g : Digraph ν ε) (root : Nat) : Except Error DepthFirst := do
  if root ∉ g.vertices then
    throw (.vertexMissing root)
  let successors ← g.successorsOf root
  let walk ← Walk.run g g.walkLength (Walk.start root successors)
  return ⟨walk.finished, walk.retreating⟩

/-- The vertices that a path from the root leads to, in post order. -/
def postOrder (g : Digraph ν ε) (root : Nat) : Except Error (List Nat) :=
  DepthFirst.postOrder <$> g.depthFirst root

/-- The vertices that a path from the root leads to, in reverse post order. -/
def reversePostOrder (g : Digraph ν ε) (root : Nat) : Except Error (List Nat) :=
  DepthFirst.reversePostOrder <$> g.depthFirst root

/-! ## Reachability -/

/-- Explores from the vertices of `frontier`, at most `fuel` of them. Every vertex of `seen` is in
`frontier` or was explored. -/
def explore (g : Digraph ν ε) : Nat → List Nat → IndexSet → IndexSet
  | fuel + 1, vertex :: frontier, seen =>
      let fresh := (g.successors.getD vertex ∅).toList.filter fun next => next ∉ seen
      explore g fuel (fresh ++ frontier) (seen.insertMany fresh)
  | _, _, seen => seen

/-- The vertices that a path from `root` leads to. -/
def reachable (g : Digraph ν ε) (root : Nat) : Except Error IndexSet :=
  if root ∈ g.vertices then
    .ok (explore g g.vertices.size [root] {root})
  else
    .error (.vertexMissing root)

/-- The vertices that no path from `root` leads to. -/
def unreachable (g : Digraph ν ε) (root : Nat) : Except Error (List Nat) := do
  let reached ← g.reachable root
  return g.vertices.keys.filter fun vertex => vertex ∉ reached

end Digraph

end RangeFlow
