import RangeFlow.Codec.Program
import RangeFlow.Facts.State
import RangeFlow.Facts.Summary

/-!
# Facts as value trees

Writing and reading of intervals, alias classes, states and call summaries. An interval that is read
is checked and made canonical. Alias classes and the values of a state are read as they are.
-/

namespace RangeFlow

namespace Interval

def toJson : Interval → Json
  | bottom bits => .variant "Bottom" (.nat bits)
  | range bits lo hi =>
      .variant "Range" (.record [("bits", .nat bits), ("lo", .int lo), ("hi", .int hi)])
  | top bits => .variant "Top" (.nat bits)

/-- Accepts an interval of a valid width with bounds in order and inside the width. -/
def check (i : Interval) : Except Error Interval :=
  if !Width.isValid i.bits then
    .error (.invalidBits i.bits)
  else
    match i with
    | range bits lo hi =>
        if hi < lo ∨ lo < Width.minValue bits ∨ Width.maxValue bits < hi then
          .error (.analysis s!"[{lo}, {hi}] is not an interval of {bits} bits")
        else
          .ok (between bits lo hi)
    | i => .ok i

/-- Reads an interval without checking it. -/
def ofJsonUnchecked (source : Json.Source) (json : Json) : Except Error Interval := do
  match ← json.toVariant with
  | ("Bottom", contents) => bottom <$> Json.filled contents Json.toNat
  | ("Range", contents) =>
      let fields ← Json.filledFields source contents ["bits", "lo", "hi"]
      return range (← fields.get "bits" Json.toNat) (← fields.get "lo" Json.toInt)
        (← fields.get "hi" Json.toInt)
  | ("Top", contents) => top <$> Json.filled contents Json.toNat
  | _ => .error .malformed

def ofJson (source : Json.Source) (json : Json) : Except Error Interval := do
  Json.accept (check (← ofJsonUnchecked source json))

end Interval

namespace AliasClasses

def toJson (a : AliasClasses) : Json :=
  .record [("classes", .ofList (fun c => .ofList Slot.toJson c.toList) a.classes.toList)]

def ofJson (json : Json) : Except Error AliasClasses := do
  let fields ← json.toFields ["classes"] []
  let classes ← fields.get "classes" (Json.toList (Json.toList Slot.ofJson))
  return ⟨.ofList (classes.map fun slots => (Std.ExtTreeSet.ofList slots : SlotSet))⟩

end AliasClasses

namespace State

def toJson (s : State) : Json :=
  .record [("values", .ofList (fun (slot, i) => .arr [slot.toJson, i.toJson]) s.values.toList),
    ("aliases", s.aliases.toJson)]

/-- Reads a field of a state. Of two values of one slot the later remains. -/
def readField (source : Json.Source) (s : State) (name : String) (json : Json) :
    Except Error State := do
  match name with
  | "values" =>
      let values ← json.toList (Json.toPair Slot.ofJson (Interval.ofJson source))
      return { s with values := .ofList values }
  | "aliases" => return { s with aliases := ← AliasClasses.ofJson json }
  | _ => return s

def ofJson (source : Json.Source) (json : Json) : Except Error State :=
  json.visitRecord ["values", "aliases"] (readField source) .unconstrained

end State

namespace CallSummary

def toJson : CallSummary → Json
  | returns lo hi => .variant "Returns" (.record [("lo", .int lo), ("hi", .int hi)])
  | returnsArgument position => .variant "ReturnsArgument" (.nat position)

def ofJson (source : Json.Source) (json : Json) : Except Error CallSummary := do
  match ← json.toVariant with
  | ("Returns", contents) =>
      let fields ← Json.filledFields source contents ["lo", "hi"]
      return returns (← fields.get "lo" Json.toInt) (← fields.get "hi" Json.toInt)
  | ("ReturnsArgument", contents) => returnsArgument <$> Json.filled contents Json.toNat
  | _ => .error .malformed

end CallSummary

namespace Summaries

def toJson (summaries : Summaries) : Json :=
  .record [("summaries",
    .record (summaries.toList.map fun (target, summary) => (target, summary.toJson)))]

/-- Reads summaries. Of two for one target the later remains. -/
def ofJson (source : Json.Source) (json : Json) : Except Error Summaries := do
  let fields ← json.toFields ["summaries"] []
  let members ← fields.get "summaries" Json.toMembers
  let entries ← members.mapM fun (target, json) => do
    return (← Json.toPlain target, ← CallSummary.ofJson source json)
  return .ofList entries

end Summaries

end RangeFlow
