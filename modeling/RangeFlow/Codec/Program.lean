import RangeFlow.Json.Reader
import RangeFlow.Program.Edge

/-!
# Programs as value trees

Writing and reading of the parts of a program. Constants are read as they are, whether or not they
fit their width.
-/

namespace RangeFlow

/-! ## Operands -/

namespace Slot

def toJson (slot : Slot) : Json := .record [("name", .text slot.name), ("bits", .nat slot.bits)]

def ofJson (json : Json) : Except Error Slot := do
  let fields ← json.toFields ["name", "bits"] []
  return ⟨← fields.get "name" Json.toText, ← fields.get "bits" Json.toNat⟩

end Slot

namespace Constant

def toJson (constant : Constant) : Json :=
  .record [("value", .int constant.value), ("bits", .nat constant.bits)]

def ofJson (json : Json) : Except Error Constant := do
  let fields ← json.toFields ["value", "bits"] []
  return ⟨← fields.get "value" Json.toInt, ← fields.get "bits" Json.toNat⟩

end Constant

namespace Operand

def toJson : Operand → Json
  | slot s => .variant "Slot" s.toJson
  | constant c => .variant "Constant" c.toJson

def ofJson (json : Json) : Except Error Operand := do
  match ← json.toVariant with
  | ("Slot", contents) => slot <$> Json.filled contents Slot.ofJson
  | ("Constant", contents) => constant <$> Json.filled contents Constant.ofJson
  | _ => .error .malformed

end Operand

/-! ## Conditions -/

namespace Comparison

def toJson : Comparison → Json
  | eq => .text "Eq"
  | ne => .text "Ne"
  | lt => .text "Lt"
  | le => .text "Le"
  | gt => .text "Gt"
  | ge => .text "Ge"

def ofJson (json : Json) : Except Error Comparison := do
  match ← json.toVariant with
  | ("Eq", contents) => Json.bare contents eq
  | ("Ne", contents) => Json.bare contents ne
  | ("Lt", contents) => Json.bare contents lt
  | ("Le", contents) => Json.bare contents le
  | ("Gt", contents) => Json.bare contents gt
  | ("Ge", contents) => Json.bare contents ge
  | _ => .error .malformed

end Comparison

namespace Condition

def toJson (condition : Condition) : Json :=
  .record [("comparison", condition.comparison.toJson), ("lhs", condition.lhs.toJson),
    ("rhs", condition.rhs.toJson)]

def ofJson (json : Json) : Except Error Condition := do
  let fields ← json.toFields ["comparison", "lhs", "rhs"] []
  return ⟨← fields.get "comparison" Comparison.ofJson, ← fields.get "lhs" Operand.ofJson,
    ← fields.get "rhs" Operand.ofJson⟩

end Condition

/-! ## Operations -/

namespace UnaryOperator

def toJson : UnaryOperator → Json
  | neg => .text "Neg"
  | not => .text "Not"

def ofJson (json : Json) : Except Error UnaryOperator := do
  match ← json.toVariant with
  | ("Neg", contents) => Json.bare contents neg
  | ("Not", contents) => Json.bare contents not
  | _ => .error .malformed

end UnaryOperator

namespace BinaryOperator

def toJson : BinaryOperator → Json
  | add => .text "Add"
  | sub => .text "Sub"
  | mul => .text "Mul"
  | div => .text "Div"
  | rem => .text "Rem"
  | and => .text "And"
  | or => .text "Or"
  | xor => .text "Xor"
  | shl => .text "Shl"
  | shr => .text "Shr"
  | ushr => .text "Ushr"

def ofJson (json : Json) : Except Error BinaryOperator := do
  match ← json.toVariant with
  | ("Add", contents) => Json.bare contents add
  | ("Sub", contents) => Json.bare contents sub
  | ("Mul", contents) => Json.bare contents mul
  | ("Div", contents) => Json.bare contents div
  | ("Rem", contents) => Json.bare contents rem
  | ("And", contents) => Json.bare contents and
  | ("Or", contents) => Json.bare contents or
  | ("Xor", contents) => Json.bare contents xor
  | ("Shl", contents) => Json.bare contents shl
  | ("Shr", contents) => Json.bare contents shr
  | ("Ushr", contents) => Json.bare contents ushr
  | _ => .error .malformed

end BinaryOperator

namespace Operation

def toJson : Operation → Json
  | const dst constant =>
      .variant "Const" (.record [("dst", dst.toJson), ("constant", constant.toJson)])
  | copy dst src => .variant "Copy" (.record [("dst", dst.toJson), ("src", src.toJson)])
  | unary dst operator operand =>
      .variant "Unary" (.record [("dst", dst.toJson), ("operator", operator.toJson),
        ("operand", operand.toJson)])
  | binary dst operator lhs rhs =>
      .variant "Binary" (.record [("dst", dst.toJson), ("operator", operator.toJson),
        ("lhs", lhs.toJson), ("rhs", rhs.toJson)])
  | cast dst src => .variant "Cast" (.record [("dst", dst.toJson), ("src", src.toJson)])
  | branch condition => .variant "Branch" (.record [("condition", condition.toJson)])
  | switch scrutinee => .variant "Switch" (.record [("scrutinee", scrutinee.toJson)])
  | arrayLoad dst index length =>
      .variant "ArrayLoad" (.record [("dst", dst.toJson), ("index", index.toJson),
        ("length", .ofOption Operand.toJson length)])
  | arrayStore index value length =>
      .variant "ArrayStore" (.record [("index", index.toJson), ("value", value.toJson),
        ("length", .ofOption Operand.toJson length)])
  | call dst target arguments =>
      .variant "Call" (.record [("dst", .ofOption Slot.toJson dst), ("target", .text target),
        ("arguments", .ofList Operand.toJson arguments)])
  | ret value => .variant "Return" (.record [("value", .ofOption Operand.toJson value)])
  | nop => .text "Nop"
  | unsupported mnemonic writes =>
      .variant "Unsupported" (.record [("mnemonic", .text mnemonic),
        ("writes", .ofList Slot.toJson writes)])

def ofJson (source : Json.Source) (json : Json) : Except Error Operation := do
  match ← json.toVariant with
  | ("Const", contents) =>
      let fields ← Json.filledFields source contents ["dst", "constant"]
      return const (← fields.get "dst" Slot.ofJson) (← fields.get "constant" Constant.ofJson)
  | ("Copy", contents) =>
      let fields ← Json.filledFields source contents ["dst", "src"]
      return copy (← fields.get "dst" Slot.ofJson) (← fields.get "src" Slot.ofJson)
  | ("Unary", contents) =>
      let fields ← Json.filledFields source contents ["dst", "operator", "operand"]
      return unary (← fields.get "dst" Slot.ofJson) (← fields.get "operator" UnaryOperator.ofJson)
        (← fields.get "operand" Operand.ofJson)
  | ("Binary", contents) =>
      let fields ← Json.filledFields source contents ["dst", "operator", "lhs", "rhs"]
      return binary (← fields.get "dst" Slot.ofJson)
        (← fields.get "operator" BinaryOperator.ofJson)
        (← fields.get "lhs" Operand.ofJson) (← fields.get "rhs" Operand.ofJson)
  | ("Cast", contents) =>
      let fields ← Json.filledFields source contents ["dst", "src"]
      return cast (← fields.get "dst" Slot.ofJson) (← fields.get "src" Operand.ofJson)
  | ("Branch", contents) =>
      let fields ← Json.filledFields source contents ["condition"]
      return branch (← fields.get "condition" Condition.ofJson)
  | ("Switch", contents) =>
      let fields ← Json.filledFields source contents ["scrutinee"]
      return switch (← fields.get "scrutinee" Operand.ofJson)
  | ("ArrayLoad", contents) =>
      let fields ← Json.filledFields source contents ["dst", "index", "length"]
      return arrayLoad (← fields.get "dst" Slot.ofJson) (← fields.get "index" Operand.ofJson)
        (← fields.get? "length" Operand.ofJson)
  | ("ArrayStore", contents) =>
      let fields ← Json.filledFields source contents ["index", "value", "length"]
      return arrayStore (← fields.get "index" Operand.ofJson) (← fields.get "value" Operand.ofJson)
        (← fields.get? "length" Operand.ofJson)
  | ("Call", contents) =>
      let fields ← Json.filledFields source contents ["dst", "target", "arguments"]
      return call (← fields.get? "dst" Slot.ofJson) (← fields.get "target" Json.toText)
        (← fields.get "arguments" (Json.toList Operand.ofJson))
  | ("Return", contents) =>
      let fields ← Json.filledFields source contents ["value"]
      return ret (← fields.get? "value" Operand.ofJson)
  | ("Nop", contents) => Json.bare contents nop
  | ("Unsupported", contents) =>
      let fields ← Json.filledFields source contents ["mnemonic", "writes"]
      return unsupported (← fields.get "mnemonic" Json.toText)
        (← fields.get "writes" (Json.toList Slot.ofJson))
  | _ => .error .malformed

end Operation

/-! ## Edges and points -/

namespace EdgeKind

def toJson : EdgeKind → Json
  | sequential => .text "Sequential"
  | unconditional => .text "Unconditional"
  | loopBack => .text "LoopBack"
  | branchTrue => .text "BranchTrue"
  | branchFalse => .text "BranchFalse"
  | switchCase values => .variant "SwitchCase" (.ofList Json.int values.toList)
  | switchDefault => .text "SwitchDefault"

def ofJson (json : Json) : Except Error EdgeKind := do
  match ← json.toVariant with
  | ("Sequential", contents) => Json.bare contents sequential
  | ("Unconditional", contents) => Json.bare contents unconditional
  | ("LoopBack", contents) => Json.bare contents loopBack
  | ("BranchTrue", contents) => Json.bare contents branchTrue
  | ("BranchFalse", contents) => Json.bare contents branchFalse
  | ("SwitchCase", contents) =>
      return switchCase (.ofList (← Json.filled contents (Json.toList Json.toInt)))
  | ("SwitchDefault", contents) => Json.bare contents switchDefault
  | _ => .error .malformed

end EdgeKind

namespace Edge

def toJson (edge : Edge) : Json :=
  .record [("head", .nat edge.head), ("tail", .nat edge.tail), ("kind", edge.kind.toJson)]

def ofJson (json : Json) : Except Error Edge := do
  let fields ← json.toFields ["head", "tail", "kind"] []
  return ⟨← fields.get "head" Json.toNat, ← fields.get "tail" Json.toNat,
    ← fields.get "kind" EdgeKind.ofJson⟩

end Edge

namespace Point

def toJson (point : Point) : Json :=
  .record [("index", .nat point.index), ("operation", point.operation.toJson),
    ("comment", .ofOption Json.text point.comment)]

def ofJson (source : Json.Source) (json : Json) : Except Error Point := do
  let fields ← json.toFields ["index", "operation"] ["comment"]
  return ⟨← fields.get "index" Json.toNat, ← fields.get "operation" (Operation.ofJson source),
    ← fields.get? "comment" Json.toText⟩

end Point

end RangeFlow
