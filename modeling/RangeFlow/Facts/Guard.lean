import RangeFlow.Facts.State
import RangeFlow.Interval.Refine
import RangeFlow.Program.Edge

/-!
# Guards

Narrowing a state to the stores that pass a test: a condition, one of the cases of a switch, or
none of them. The answer is `none` when no store passes.
-/

namespace RangeFlow.State

/-! ## Operands -/

/-- Narrows the slot of an operand, if it has one. -/
def narrow? (s : State) (operand : Operand) (i : Interval) : Option State :=
  match operand with
  | .slot slot =>
      match s.narrow slot i with
      | (true, s) => some s
      | (false, _) => none
  | .constant _ => some s

/-- Records that two operands are equal, if both are slots. -/
def equate? (s : State) (lhs rhs : Operand) : Option State :=
  match lhs, rhs with
  | .slot lhs, .slot rhs =>
      match s.equate lhs rhs with
      | (true, s) => some s
      | (false, _) => none
  | _, _ => some s

/-- Whether two operands are slots that are known to be equal. -/
def areAliased (s : State) (lhs rhs : Operand) : Bool :=
  match lhs, rhs with
  | .slot lhs, .slot rhs => s.aliases.areAliased lhs rhs
  | _, _ => false

/-! ## Conditions -/

/-- The stores in which a condition holds.

Equal slots settle the condition, whatever their value is. Otherwise each side is narrowed by the
other. -/
def assume (s : State) (condition : Condition) : Option State :=
  let comparison := condition.comparison
  if s.areAliased condition.lhs condition.rhs then
    if comparison.isReflexive then some s else none
  else
    let lhs := (s.eval condition.lhs).refine comparison (s.eval condition.rhs)
    let rhs := (s.eval condition.rhs).refine comparison.swap lhs
    if lhs.isBottom || rhs.isBottom then
      none
    else do
      let s ← s.narrow? condition.lhs lhs
      let s ← s.narrow? condition.rhs rhs
      if comparison = .eq then s.equate? condition.lhs condition.rhs else some s

/-! ## Switches -/

/-- The stores in which the scrutinee is one of some values. -/
def assumeCase (s : State) (scrutinee : Operand) (values : CaseSet) : Option State :=
  let value := s.eval scrutinee
  match values.toList.filter value.contains with
  | [] => none
  | lo :: rest => s.narrow? scrutinee (value.meet (.between value.bits lo (rest.getLast?.getD lo)))

/-- One turn of trimming leaves out an end of the interval that is one of the values, the lower end
first. There is no turn when neither end is. -/
def trimTurn? (values : CaseSet) (i : Interval) : Option Interval :=
  match i.bounds? with
  | none => none
  | some (lo, hi) =>
      if lo ∈ values then some (i.refine .ne (.constant i.bits lo))
      else if hi ∈ values then some (i.refine .ne (.constant i.bits hi))
      else none

theorem extent_trimTurn?_lt {values : CaseSet} {i j : Interval} (turn : trimTurn? values i = some j)
    (moved : j ≠ i) : j.extent < i.extent := by
  unfold trimTurn? at turn
  split at turn
  · cases turn
  · rename_i bounds
    split at turn
    · cases turn
      exact Interval.extent_refine_ne_lt bounds moved
    · split at turn
      · cases turn
        exact Interval.extent_refine_ne_lt bounds moved
      · cases turn

/-- Takes turns until neither end is one of the values. A turn leaves out the value of the width that
the end wraps to, and one that gives the interval back would do so for ever: it ends the trimming
here. -/
def trim (values : CaseSet) (i : Interval) : Interval :=
  match turn : trimTurn? values i with
  | none => i
  | some j =>
      if moved : j = i then
        i
      else
        have := extent_trimTurn?_lt turn moved
        trim values j
termination_by i.extent

/-- The stores in which the scrutinee is none of some values. -/
def assumeDefault (s : State) (scrutinee : Operand) (values : CaseSet) : Option State :=
  let value := trim values (s.eval scrutinee)
  if value.isBottom then none else s.narrow? scrutinee value

end RangeFlow.State
