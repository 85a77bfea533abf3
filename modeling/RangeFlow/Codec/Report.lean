import RangeFlow.Batch
import RangeFlow.Codec.Facts
import RangeFlow.Json.Printer

/-!
# Reports as value trees

Writing and reading of findings and reports, and the text of a batch report. Maps by point are
objects whose names are the decimal numbers of the points.
-/

namespace RangeFlow

/-! ## Maps by point -/

/-- A map from points, in their order. -/
def Json.ofPointMap {α : Type} (f : α → Json) (map : Std.ExtTreeMap Nat α) : Json :=
  .obj (map.toList.map fun (point, a) => (toString point, f a))

/-- Reads a map from points. Of two values of one point the later remains. -/
def Json.toPointMap {α : Type} (read : Json → Except Error α) (json : Json) :
    Except Error (Std.ExtTreeMap Nat α) := do
  let entries ← (← json.toMembers).mapM fun (name, json) => do
    return (← Json.toIndex name, ← read json)
  return .ofList entries

/-! ## Findings -/

namespace Outcome

def toJson : Outcome → Json
  | converged => .text "Converged"
  | diverged => .text "Diverged"
  | deadlineExceeded => .text "DeadlineExceeded"

def ofJson (json : Json) : Except Error Outcome := do
  match ← json.toVariant with
  | ("Converged", contents) => Json.bare contents converged
  | ("Diverged", contents) => Json.bare contents diverged
  | ("DeadlineExceeded", contents) => Json.bare contents deadlineExceeded
  | _ => .error .malformed

end Outcome

namespace FindingKind

def toJson : FindingKind → Json
  | infeasibleEdge tail => .variant "InfeasibleEdge" (.record [("tail", .nat tail)])
  | possibleOutOfRange => .text "PossibleOutOfRange"
  | divergence => .text "Divergence"

def ofJson (source : Json.Source) (json : Json) : Except Error FindingKind := do
  match ← json.toVariant with
  | ("InfeasibleEdge", contents) =>
      let fields ← Json.filledFields source contents ["tail"]
      return infeasibleEdge (← fields.get "tail" Json.toNat)
  | ("PossibleOutOfRange", contents) => Json.bare contents possibleOutOfRange
  | ("Divergence", contents) => Json.bare contents divergence
  | _ => .error .malformed

end FindingKind

namespace Finding

def toJson (finding : Finding) : Json :=
  .record [("point", .nat finding.point), ("kind", finding.kind.toJson),
    ("detail", .text finding.detail)]

def ofJson (source : Json.Source) (json : Json) : Except Error Finding := do
  let fields ← json.toFields ["point", "kind", "detail"] []
  return ⟨← fields.get "point" Json.toNat, ← fields.get "kind" (FindingKind.ofJson source),
    ← fields.get "detail" Json.toText⟩

end Finding

/-! ## Reports -/

namespace Report

/-- The fields that a report is written as. -/
def fields (report : Report) : List (String × Json) :=
  [("procedure", .text report.procedure), ("outcome", report.outcome.toJson),
    ("iterations", .nat report.iterations), ("states", .ofPointMap State.toJson report.states),
    ("findings", .ofList Finding.toJson report.findings),
    ("returns", .ofPointMap Interval.toJson report.returns),
    ("unreachable", .ofList Json.nat report.unreachable.toList)]

def toJson (report : Report) : Json := .record report.fields

/-- Reads a field of a report. -/
def readField (source : Json.Source) (report : Report) (name : String) (json : Json) :
    Except Error Report := do
  match name with
  | "procedure" => return { report with procedure := ← json.toText }
  | "outcome" => return { report with outcome := ← Outcome.ofJson json }
  | "iterations" => return { report with iterations := ← json.toNat }
  | "states" => return { report with states := ← json.toPointMap (State.ofJson source) }
  | "findings" => return { report with findings := ← json.toList (Finding.ofJson source) }
  | "returns" => return { report with returns := ← json.toPointMap (Interval.ofJson source) }
  | "unreachable" => return { report with unreachable := .ofList (← json.toList Json.toNat) }
  | _ => return report

def ofJson (source : Json.Source) (json : Json) : Except Error Report :=
  json.visitRecord
    ["procedure", "outcome", "iterations", "states", "findings", "returns", "unreachable"]
    (readField source)
    { procedure := "", outcome := .converged, iterations := 0, states := ∅, findings := [],
      returns := ∅, unreachable := ∅ }

end Report

namespace BatchReport

/-- The tree of a batch report, with the members of every object sorted by name. -/
def toJson (batch : BatchReport) : Json :=
  Json.sorted <| .record [
    ("reports", .ofList Report.toJson batch.reports),
    ("failures", .ofList (fun failure : Failure =>
      .record [("procedure", .text failure.procedure), ("error", .text failure.error.message)])
      batch.failures)]

end BatchReport

end RangeFlow
