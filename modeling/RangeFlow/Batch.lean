import RangeFlow.Analysis
import RangeFlow.Sort

/-!
# Batches

Analyses many procedures, each on its own. A procedure that is refused does not disturb the others.
Reports and failures are sorted by the name of the procedure; equal names keep their order.
-/

namespace RangeFlow

/-- A procedure and the facts at its entry, with the clock of its run. -/
structure BatchUnit where
  procedure : Procedure
  initial : State
  clock : Clock := fun _ => 0
deriving Inhabited

/-- A procedure that was refused. -/
structure Failure where
  procedure : String
  error : Error
deriving DecidableEq

/-- The results of a batch. -/
structure BatchReport where
  reports : List Report
  failures : List Failure
deriving DecidableEq

namespace BatchReport

/-- The first report on a procedure of some name. -/
def report? (batch : BatchReport) (name : String) : Option Report :=
  batch.reports.find? fun report => report.procedure = name

end BatchReport

/-- Analyses a unit on its own, timed by its own clock. -/
def BatchUnit.analyze (unit : BatchUnit) (options : Options) : String × Except Error Report :=
  (unit.procedure.name, unit.procedure.analyze unit.initial { options with clock := unit.clock })

end RangeFlow
