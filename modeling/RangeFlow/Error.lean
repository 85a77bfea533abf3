/-!
# Errors

Everything that can go wrong while a program is built, read or analysed, as one type of causes.
`Error.message` is the only place that words them.
-/

namespace RangeFlow

/-- Why a construction, a check or an analysis was refused. -/
inductive Error where
  /-- The analysis cannot work with what it was given. -/
  | analysis (reason : String)
  /-- A flow graph has no entry point. -/
  | entryMissing
  /-- A width outside 1 to 64 bits. -/
  | invalidBits (bits : Nat)
  /-- An edge that does not suit the operation it leaves. -/
  | invalidEdge (head tail : Nat) (reason : String)
  | duplicateEdge (head tail : Nat)
  | duplicateVertex (index : Nat)
  | edgeMissing (head tail : Nat)
  | vertexMissing (index : Nat)
  /-- A text or a value tree that does not have the expected form. -/
  | malformed
  /-- A well-formed value that was refused by a check; `reason` is that check's message. -/
  | refused (reason : String)
  /-- Operands of different widths at a point. -/
  | sortMismatch (point : Nat)
  /-- Anything else, in its own words. -/
  | other (text : String)
deriving DecidableEq, Inhabited

/-- The wording of an error. -/
def Error.message : Error → String
  | analysis reason => s!"Analysis error: {reason}"
  | entryMissing => "The control flow graph has no entry point"
  | invalidBits bits => s!"Invalid bit width: {bits}"
  | invalidEdge head tail reason =>
      s!"Edge {head} -> {tail} does not fit the operation at {head}: {reason}"
  | duplicateEdge head tail => s!"Graph duplicate edge: {head} -> {tail}"
  | duplicateVertex index => s!"Graph duplicate vertex: {index}"
  | edgeMissing head tail => s!"Graph edge not found: {head} -> {tail}"
  | vertexMissing index => s!"Graph vertex not found: {index}"
  | malformed => "Json error: malformed"
  | refused reason => s!"Json error: {reason}"
  | sortMismatch point =>
      s!"Sort error, invalid bitness between operands at point {point}"
  | other text => text

end RangeFlow
