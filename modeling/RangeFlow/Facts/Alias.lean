import RangeFlow.Program.Operand

/-!
# Alias classes

Slots that are known to hold the same value are kept in classes. The operations below keep classes
disjoint and leave out those of fewer than two slots; classes that were read from outside may be
anything, and every operation then works on the first class that holds a slot.
-/

namespace RangeFlow

/-- Sets of slots that hold one value each. A slot in no class is only known to equal itself. -/
structure AliasClasses where
  classes : Std.ExtTreeSet SlotSet

namespace AliasClasses

/-- Decided by contents, so that it evaluates whatever trees hold them. -/
instance : DecidableEq AliasClasses := fun a b =>
  decidable_of_decidable_of_iff (p := a.classes = b.classes) ⟨congrArg mk, congrArg classes⟩

/-- No two slots are known to be equal. -/
def empty : AliasClasses := ⟨∅⟩

instance : Inhabited AliasClasses := ⟨empty⟩

def isEmpty (a : AliasClasses) : Bool := a.classes.isEmpty

/-- The first class that holds a slot. -/
def find? (a : AliasClasses) (slot : Slot) : Option SlotSet :=
  a.classes.toList.find? fun c => c.contains slot

/-- The slots that are known to equal a slot, with the slot itself. -/
def classOf (a : AliasClasses) (slot : Slot) : SlotSet := (a.find? slot).getD {slot}

/-- Whether two slots are known to be equal. -/
def areAliased (a : AliasClasses) (lhs rhs : Slot) : Bool :=
  lhs = rhs || (a.find? lhs).any fun c => c.contains rhs

/-- Takes a slot out of its class, because it was overwritten. -/
def invalidate (a : AliasClasses) (slot : Slot) : AliasClasses :=
  match a.find? slot with
  | none => a
  | some c =>
      let others := a.classes.erase c
      let remaining := c.erase slot
      if 1 < remaining.size then ⟨others.insert remaining⟩ else ⟨others⟩

/-- Makes one class of the classes of two slots, because they were found equal. -/
def union (a : AliasClasses) (lhs rhs : Slot) : AliasClasses :=
  if a.areAliased lhs rhs then
    a
  else
    let lhsClass := a.classOf lhs
    let rhsClass := a.classOf rhs
    ⟨((a.classes.erase lhsClass).erase rhsClass).insert (lhsClass ∪ rhsClass)⟩

/-- Moves `dst` into the class of `src`, because it was overwritten with its value. -/
def copy (a : AliasClasses) (dst src : Slot) : AliasClasses :=
  if dst = src then a else (a.invalidate dst).union dst src

/-- The equalities that hold in both. -/
def intersect (a b : AliasClasses) : AliasClasses :=
  let common := a.classes.toList.flatMap fun c => b.classes.toList.map fun d => c ∩ d
  ⟨Std.ExtTreeSet.ofList (common.filter fun c => 1 < c.size)⟩

/-- Whether every equality of `b` also holds in `a`. -/
def refines (a b : AliasClasses) : Bool :=
  b.classes.toList.all fun d =>
    a.classes.toList.any fun c => d.toList.all fun slot => c.contains slot

/-- Lists every class as a chain of equalities. -/
def render (a : AliasClasses) : String :=
  " ".intercalate <| a.classes.toList.map fun c =>
    "\x7b" ++ " = ".intercalate (c.toList.map Slot.render) ++ "\x7d"

end AliasClasses

end RangeFlow
