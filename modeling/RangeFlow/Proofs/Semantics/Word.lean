import Mathlib
import RangeFlow.Program.Operation

/-!
# Words

What the operators of the analysed programs compute on two's complement words. Nothing here speaks
of intervals: `UnaryOperator.onWord` and `BinaryOperator.onWords` are the meaning that the analysis
has to cover.
-/

namespace RangeFlow

/-- The word that a constant stands for. -/
def Constant.word (constant : Constant) : BitVec constant.bits :=
  BitVec.ofInt constant.bits constant.value

def UnaryOperator.onWord {w : Nat} : UnaryOperator → BitVec w → BitVec w
  | neg, x => -x
  | not, x => ~~~x

/-- How far a shift by `y` moves a word of width `w`: the signed amount modulo the width. -/
def shiftDistance (w : Nat) {v : Nat} (y : BitVec v) : Nat := (y.toInt % w).toNat

/-- The result of an operator on two words. Only the amount of a shift may have another width than
the left operand. A division by zero has no result. -/
def BinaryOperator.onWords {w v : Nat} (operator : BinaryOperator) (x : BitVec w) (y : BitVec v) :
    Option (BitVec w) :=
  match operator with
  | add => some (x + y.signExtend w)
  | sub => some (x - y.signExtend w)
  | mul => some (x * y.signExtend w)
  | div => if y.toInt = 0 then none else some (x.sdiv (y.signExtend w))
  | rem => if y.toInt = 0 then none else some (x.srem (y.signExtend w))
  | and => some (x &&& y.signExtend w)
  | or => some (x ||| y.signExtend w)
  | xor => some (x ^^^ y.signExtend w)
  | shl => some (x <<< shiftDistance w y)
  | shr => some (x.sshiftRight (shiftDistance w y))
  | ushr => some (x >>> shiftDistance w y)

end RangeFlow
