import RangeFlow.FlowGraph.Validity

/-!
# Procedures

A procedure is a named flow graph with the slots that hold its arguments on entry.
-/

namespace RangeFlow

structure Procedure where
  name : String
  parameters : List Slot
  graph : FlowGraph
deriving DecidableEq, Inhabited

namespace Procedure

/-- Checks the widths of the parameters. -/
def checkParameters (p : Procedure) : Except Error Unit :=
  match p.parameters.find? fun slot => !Width.isValid slot.bits with
  | some slot => .error (.invalidBits slot.bits)
  | none => .ok ()

/-- Checks that the procedure can be analysed. -/
def validate (p : Procedure) : Except Error Unit := do
  p.checkParameters
  p.graph.validate

def render (p : Procedure) : String :=
  let parameters := Text.commaSeparated (p.parameters.map Slot.render)
  s!"procedure {p.name}({parameters})\n" ++ p.graph.render

end Procedure

end RangeFlow
