import RangeFlow.Report.Examination

/-!
# Analysis of a procedure

Checks what is given, solves the procedure and reports on the solution. Running out of budget is no
error but an outcome of the report.
-/

namespace RangeFlow.Procedure

/-- Checks a fact at the entry: it is to say that a slot of a valid width has some value of that
width. -/
def checkFact (p : Procedure) (slot : Slot) (i : Interval) : Except Error Unit :=
  if !Width.isValid slot.bits then
    .error (.invalidBits slot.bits)
  else if i.bits ≠ slot.bits then
    .error (.analysis s!"initial value of {slot.render} in {p.name} has {i.bits} bits")
  else if i.isBottom then
    .error (.analysis s!"initial value of {slot.render} in {p.name} is bottom")
  else
    .ok ()

/-- Checks the facts at the entry in the order of their slots. -/
def checkInitial (p : Procedure) (initial : State) : Except Error Unit :=
  initial.values.toList.forM fun (slot, i) => p.checkFact slot i

/-- Analyses a procedure from the facts at its entry, with the events on the way. -/
def analyzeNoted (p : Procedure) (initial : State) (options : Options) : Noted Report := do
  options.summaries.validate
  p.checkInitial initial
  let solution ← p.solve options initial
  let report ← p.report solution
  Noted.note
    [.analysed report.procedure report.outcome report.iterations report.findings.length]
  return report

/-- Analyses a procedure from the facts at its entry. -/
def analyze (p : Procedure) (initial : State) (options : Options) : Except Error Report :=
  (p.analyzeNoted initial options).result

end RangeFlow.Procedure
