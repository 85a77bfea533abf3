import RangeFlow.Order
import RangeFlow.Text
import RangeFlow.Program.Operation

/-!
# Points and edges

A point holds one operation. An edge says by its kind when control leaves its head along it. Two
edges between the same points are merged into one kind (`EdgeKind.merge?`) that is taken whenever
either was.
-/

namespace RangeFlow

/-- A finite set of case values. -/
abbrev CaseSet := Std.ExtTreeSet Int

/-- When control leaves a point along an edge. -/
inductive EdgeKind where
  /-- Fall through to the next point. -/
  | sequential
  /-- Jump always. -/
  | unconditional
  /-- Jump always, back to a loop header. -/
  | loopBack
  /-- The condition of the branch holds. -/
  | branchTrue
  /-- The condition of the branch fails. -/
  | branchFalse
  /-- The scrutinee is one of the values. -/
  | switchCase (values : CaseSet)
  /-- The scrutinee is a value of no case. -/
  | switchDefault
deriving DecidableEq, Ord, Inhabited

namespace EdgeKind

/-- One kind for two edges between the same points, if they can share an edge. -/
def merge? : EdgeKind → EdgeKind → Option EdgeKind
  | switchCase a, switchCase b => some (switchCase (a ∪ b))
  | switchCase _, switchDefault | switchDefault, switchCase _ => some switchDefault
  | branchTrue, branchFalse | branchFalse, branchTrue
  | unconditional, branchTrue | unconditional, branchFalse
  | branchTrue, unconditional | branchFalse, unconditional => some unconditional
  | loopBack, sequential | loopBack, unconditional
  | sequential, loopBack | unconditional, loopBack => some loopBack
  | sequential, unconditional | unconditional, sequential => some unconditional
  | a, b => if a = b then some a else none

/-- The kinds that can leave a straight-line operation. -/
def isFallThrough : EdgeKind → Bool
  | sequential | unconditional | loopBack => true
  | _ => false

def render : EdgeKind → String
  | sequential => "sequential"
  | unconditional => "unconditional"
  | loopBack => "loop-back"
  | branchTrue => "true"
  | branchFalse => "false"
  | switchCase values =>
      let listed := Text.commaSeparated (values.toList.map toString)
      s!"case {listed}"
  | switchDefault => "default"

end EdgeKind

/-- A directed edge between two points. -/
structure Edge where
  head : Nat
  tail : Nat
  kind : EdgeKind
deriving DecidableEq, Ord, Inhabited

namespace Edge

/-- The two ends of an edge. -/
def link (edge : Edge) : Link := ⟨edge.head, edge.tail⟩

def render (edge : Edge) : String :=
  s!"({Text.twoDigits edge.head}->{Text.twoDigits edge.tail}) {edge.kind.render}"

end Edge

/-- A program point: one operation, under an index. -/
structure Point where
  index : Nat
  operation : Operation
  comment : Option String
deriving DecidableEq, Inhabited

namespace Point

def render (point : Point) : String :=
  let remark := match point.comment with
    | some comment => s!"// {comment}\n"
    | none => ""
  s!"{remark}[{Text.twoDigits point.index}] {point.operation.render}"

end Point

end RangeFlow
