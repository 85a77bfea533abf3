import RangeFlow.Facts.Alias
import RangeFlow.Interval.Basic
import RangeFlow.Text

/-!
# Abstract states

A state describes the stores that can occur at a program point: the interval of each slot, and the
slots that hold equal values. A slot without an entry is unconstrained, so the empty state describes
every store. A point that no store reaches has no state at all.
-/

namespace RangeFlow

/-- What is known about the values of slots at a program point. -/
structure State where
  values : Std.ExtTreeMap Slot Interval
  aliases : AliasClasses

namespace State

/-- Decided by contents, as for alias classes. -/
instance : DecidableEq State := fun s t =>
  decidable_of_decidable_of_iff (p := s.values = t.values ∧ s.aliases = t.aliases)
    (by cases s; cases t; simp)

/-- Nothing is known. -/
def unconstrained : State := ⟨∅, .empty⟩

instance : Inhabited State := ⟨unconstrained⟩

/-- The interval of a slot. -/
def value (s : State) (slot : Slot) : Interval := s.values.getD slot (.top slot.bits)

/-- The interval of an operand. -/
def eval (s : State) : Operand → Interval
  | .slot slot => s.value slot
  | .constant constant => .constant constant.bits constant.value

/-! ## Writing -/

/-- An interval that says something about a slot: it has the width of the slot and leaves out some
value. -/
def informative? (slot : Slot) (i : Interval) : Option Interval :=
  if i.isTop || i.bits ≠ slot.bits then none else some i

/-- Keeps an interval for a slot if it says something about it. -/
def store (s : State) (slot : Slot) (i : Interval) : State :=
  match informative? slot i with
  | some i => { s with values := s.values.insert slot i }
  | none => { s with values := s.values.erase slot }

/-- Overwrites a slot. It leaves its alias class. -/
def set (s : State) (slot : Slot) (i : Interval) : State :=
  { s with aliases := s.aliases.invalidate slot }.store slot i

/-- Overwrites a slot with the value of another, and records that they are equal. -/
def copy (s : State) (dst src : Slot) : State :=
  { s with aliases := s.aliases.copy dst src }.store dst (s.value src)

/-! ## Narrowing -/

/-- Constrains some slots, one after the other, to an interval. Stops with `false` in front of the
first slot that would have no value left. -/
def narrowAll (i : Interval) : List Slot → State → Bool × State
  | [], s => (true, s)
  | slot :: rest, s =>
      let narrowed := (s.value slot).meet i
      if narrowed.isBottom then (false, s) else narrowAll i rest (s.store slot narrowed)

/-- Constrains a slot and its aliases to an interval. The answer is `false` if that leaves no
store, and the state is then of no use. -/
def narrow (s : State) (slot : Slot) (i : Interval) : Bool × State :=
  narrowAll i (s.aliases.classOf slot).toList s

/-- Records that two slots are equal, with the same answer as `narrow`. -/
def equate (s : State) (lhs rhs : Slot) : Bool × State :=
  let common := (s.value lhs).meet (s.value rhs)
  match s.narrow lhs common with
  | (false, s) => (false, s)
  | (true, s) =>
      match s.narrow rhs common with
      | (false, s) => (false, s)
      | (true, s) =>
          if lhs.bits = rhs.bits then
            (true, { s with aliases := s.aliases.union lhs rhs })
          else
            (true, s)

/-! ## Merging -/

/-- Combines the intervals of the slots that both states constrain, and keeps the equalities that
both know. -/
def combine (f : Interval → Interval → Interval) (s t : State) : State where
  values := s.values.filterMap fun slot i =>
    match t.values[slot]? with
    | some j => informative? slot (f i j)
    | none => none
  aliases := s.aliases.intersect t.aliases

/-- The state that describes the stores of both. -/
def join (s t : State) : State := combine Interval.join s t

/-- Extends `old` to describe the stores of `new`, moving every bound that grew to the end of its
width. -/
def widen (old new : State) : State := combine Interval.widen old new

/-- Whether every fact of `t` also holds in `s`. -/
def isSubset (s t : State) : Bool :=
  (t.values.toList.all fun (slot, i) => (s.value slot).isSubset i) && s.aliases.refines t.aliases

/-- How two states are related by inclusion, if they are. -/
def compare? (s t : State) : Option Ordering :=
  if s = t then some .eq
  else if s.isSubset t then some .lt
  else if t.isSubset s then some .gt
  else none

def render (s : State) : String :=
  let values := s.values.toList.map fun (slot, i) => slot.render ++ " = " ++ i.render
  let aliases := if s.aliases.isEmpty then "" else " aliases " ++ s.aliases.render
  "\x7b" ++ Text.commaSeparated values ++ "\x7d" ++ aliases

end State

end RangeFlow
