import RangeFlow.Error
import RangeFlow.Text
import RangeFlow.Program.Operand

/-!
# Operations

The closed set of effects that a program point can have, which slots each one writes and which
operands it reads, and the check that its widths fit together (`Operation.checkSorts`).
-/

namespace RangeFlow

inductive UnaryOperator where
  /-- Two's complement negation. -/
  | neg
  /-- Bitwise complement. -/
  | not
deriving DecidableEq, Ord, Inhabited

def UnaryOperator.render : UnaryOperator → String
  | neg => "-"
  | not => "~"

inductive BinaryOperator where
  | add
  | sub
  | mul
  /-- Signed division, truncating toward zero. -/
  | div
  /-- Signed remainder, with the sign of the dividend. -/
  | rem
  | and
  | or
  | xor
  | shl
  /-- Arithmetic shift to the right. -/
  | shr
  /-- Logical shift to the right. -/
  | ushr
deriving DecidableEq, Ord, Inhabited

namespace BinaryOperator

/-- The operators whose right operand may have a width of its own. -/
def isShift : BinaryOperator → Bool
  | shl | shr | ushr => true
  | _ => false

def render : BinaryOperator → String
  | add => "+"
  | sub => "-"
  | mul => "*"
  | div => "/"
  | rem => "%"
  | and => "&"
  | or => "|"
  | xor => "^"
  | shl => "<<"
  | shr => ">>"
  | ushr => ">>>"

end BinaryOperator

/-- The effect of one program point. -/
inductive Operation where
  /-- Load a constant. -/
  | const (dst : Slot) (constant : Constant)
  /-- Copy one slot into another. -/
  | copy (dst src : Slot)
  | unary (dst : Slot) (operator : UnaryOperator) (operand : Operand)
  | binary (dst : Slot) (operator : BinaryOperator) (lhs rhs : Operand)
  /-- Truncate or sign-extend to the width of `dst`. -/
  | cast (dst : Slot) (src : Operand)
  /-- Leave through a true or a false edge. -/
  | branch (condition : Condition)
  /-- Leave through the edge of a matching case, or the default edge. -/
  | switch (scrutinee : Operand)
  /-- Read an element of an array, of `length` elements if that is known. -/
  | arrayLoad (dst : Slot) (index : Operand) (length : Option Operand)
  /-- Write an element of an array, of `length` elements if that is known. -/
  | arrayStore (index value : Operand) (length : Option Operand)
  | call (dst : Option Slot) (target : String) (arguments : List Operand)
  | ret (value : Option Operand)
  | nop
  /-- An effect outside this set, of which only the written slots are known. -/
  | unsupported (mnemonic : String) (writes : List Slot)
deriving DecidableEq, Ord, Inhabited

namespace Operation

/-- The slots that an operation writes. -/
def slotsWritten : Operation → List Slot
  | const dst _ | copy dst _ | unary dst _ _ | binary dst _ _ _ | cast dst _
  | arrayLoad dst _ _ => [dst]
  | call dst _ _ => dst.toList
  | unsupported _ writes => writes
  | branch _ | switch _ | arrayStore _ _ _ | ret _ | nop => []

/-- The operands that an operation reads. The source of a copy is a slot and not among them. -/
def operandsRead : Operation → List Operand
  | const _ _ | copy _ _ | nop | unsupported _ _ => []
  | unary _ _ operand => [operand]
  | binary _ _ lhs rhs => [lhs, rhs]
  | cast _ src => [src]
  | branch condition => [condition.lhs, condition.rhs]
  | switch scrutinee => [scrutinee]
  | arrayLoad _ index length => index :: length.toList
  | arrayStore index value length => index :: value :: length.toList
  | call _ _ arguments => arguments
  | ret value => value.toList

/-- The widths of an operation in the order in which they are checked: written slots, operands,
and the source of a copy. -/
def widths (operation : Operation) : List Nat :=
  operation.slotsWritten.map Slot.bits ++ operation.operandsRead.map Operand.bits ++
    match operation with
    | copy _ src => [src.bits]
    | _ => []

/-- Operands that are combined with each other have one width. The amount of a shift is free. -/
def sortsAgree : Operation → Bool
  | const dst constant => dst.bits = constant.bits
  | copy dst src => dst.bits = src.bits
  | unary dst _ operand => dst.bits = operand.bits
  | binary dst operator lhs rhs =>
      dst.bits = lhs.bits && (operator.isShift || lhs.bits = rhs.bits)
  | branch condition => condition.lhs.bits = condition.rhs.bits
  | _ => true

/-- Checks that every width is valid and that combined operands agree in theirs. -/
def checkSorts (operation : Operation) (point : Nat) : Except Error Unit :=
  match operation.widths.find? fun bits => !Width.isValid bits with
  | some bits => .error (.invalidBits bits)
  | none => if operation.sortsAgree then .ok () else .error (.sortMismatch point)

def render : Operation → String
  | const dst constant => s!"{dst.render} = {constant.render}"
  | copy dst src => s!"{dst.render} = {src.render}"
  | unary dst operator operand => s!"{dst.render} = {operator.render}{operand.render}"
  | binary dst operator lhs rhs =>
      s!"{dst.render} = {lhs.render} {operator.render} {rhs.render}"
  | cast dst src => s!"{dst.render} = cast({src.render})"
  | branch condition => s!"branch {condition.render}"
  | switch scrutinee => s!"switch {scrutinee.render}"
  | arrayLoad dst index (some length) =>
      s!"{dst.render} = array[{index.render}; {length.render}]"
  | arrayLoad dst index none => s!"{dst.render} = array[{index.render}]"
  | arrayStore index value (some length) =>
      s!"array[{index.render}; {length.render}] = {value.render}"
  | arrayStore index value none => s!"array[{index.render}] = {value.render}"
  | call dst target arguments =>
      let assigned := match dst with
        | some dst => s!"{dst.render} = "
        | none => ""
      let passed := Text.commaSeparated (arguments.map Operand.render)
      s!"{assigned}{target}({passed})"
  | ret (some value) => s!"return {value.render}"
  | ret none => "return"
  | nop => "nop"
  | unsupported mnemonic writes =>
      let written := Text.commaSeparated (writes.map Slot.render)
      s!"unsupported {mnemonic} [{written}]"

end Operation

end RangeFlow
