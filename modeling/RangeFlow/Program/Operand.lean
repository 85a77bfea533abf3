import RangeFlow.Order
import RangeFlow.Width
import RangeFlow.Program.Comparison

/-!
# Slots, constants and operands

The terminals of the analysed programs: named variable slots and literal constants, each of a
fixed width in bits, and conditions that compare two of them.
-/

namespace RangeFlow

/-- A named variable of a fixed width. Slots of one name and different widths are different. -/
structure Slot where
  name : String
  bits : Nat
deriving DecidableEq, Inhabited

/-- Slots compare by name, then by width. -/
instance : Ord Slot where
  compare := compareLex (compareOn Slot.name) (compareOn Slot.bits)

instance : Std.TransOrd Slot :=
  inferInstanceAs (Std.TransCmp (compareLex (compareOn Slot.name) (compareOn Slot.bits)))

instance : Std.LawfulEqOrd Slot :=
  lawfulEqCmp_compareLex fun a b h₁ h₂ => by cases a; cases b; simp_all

/-- A finite set of slots. -/
abbrev SlotSet := Std.ExtTreeSet Slot

def Slot.render (slot : Slot) : String := s!"{slot.name}:{slot.bits}"

/-- A literal integer of a fixed width.

A constant that was read rather than made may hold a value outside its width. -/
structure Constant where
  value : Int
  bits : Nat
deriving DecidableEq, Ord, Inhabited

namespace Constant

/-- The constant of a width that agrees with `value`; a width that is not valid keeps it. -/
def ofInt (value : Int) (bits : Nat) : Constant :=
  ⟨if Width.isValid bits then Width.wrap value bits else value, bits⟩

def render (constant : Constant) : String := s!"{constant.value}:{constant.bits}"

end Constant

/-- What an operation reads: the value of a slot, or a constant. -/
inductive Operand where
  | slot (slot : Slot)
  | constant (constant : Constant)
deriving DecidableEq, Ord, Inhabited

namespace Operand

def bits : Operand → Nat
  | slot s => s.bits
  | constant c => c.bits

/-- The slot that is read, if any. -/
def slot? : Operand → Option Slot
  | slot s => some s
  | constant _ => none

/-- The constant that is read, if any. -/
def constant? : Operand → Option Constant
  | slot _ => none
  | constant c => some c

def render : Operand → String
  | slot s => s.render
  | constant c => c.render

end Operand

/-- A comparison of two operands. -/
structure Condition where
  comparison : Comparison
  lhs : Operand
  rhs : Operand
deriving DecidableEq, Ord, Inhabited

namespace Condition

/-- The condition that holds exactly when this one does not. -/
def negate (condition : Condition) : Condition :=
  { condition with comparison := condition.comparison.negate }

def render (condition : Condition) : String :=
  s!"{condition.lhs.render} {condition.comparison.render} {condition.rhs.render}"

end Condition

end RangeFlow
