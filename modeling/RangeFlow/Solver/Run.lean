import RangeFlow.Journal.Event
import RangeFlow.Solver.Options
import RangeFlow.Solver.Problem

/-!
# Runs of the solver

What the solver holds between two steps: the states found so far, the points to evaluate next, and
the work done. A point is due when its state has changed since it was evaluated.
-/

namespace RangeFlow

/-- A point that is due, under its position in reverse post order. -/
structure Turn where
  rank : Nat
  point : Nat
deriving DecidableEq, Inhabited

/-- Turns compare by rank, then by point. -/
instance : Ord Turn where
  compare := compareLex (compareOn Turn.rank) (compareOn Turn.point)

instance : Std.TransOrd Turn :=
  inferInstanceAs (Std.TransCmp (compareLex (compareOn Turn.rank) (compareOn Turn.point)))

instance : Std.LawfulEqOrd Turn :=
  lawfulEqCmp_compareLex fun a b h₁ h₂ => by cases a; cases b; simp_all

/-- The solver between two steps. -/
structure Run where
  /-- The states in front of the points that were reached. -/
  states : Std.ExtTreeMap Nat State
  due : Std.ExtTreeSet Turn
  /-- How often a state was merged into the one of a point. -/
  merges : Std.ExtTreeMap Nat Nat
  iterations : Nat
  log : Array Event

namespace Run

/-- The run in which only the entry has a state, and is due. -/
def start (p : Problem) (initial : State) : Except Error Run := do
  let rank ← p.rankOf p.entry
  return {
    states := {(p.entry, initial)}
    due := {⟨rank, p.entry⟩}
    merges := ∅
    iterations := 0
    log := #[] }

/-- The due point that comes first. -/
def next? (run : Run) : Option Turn := run.due.toList.head?

/-- Adds events to the log. -/
def note (run : Run) (events : List Event) : Run := { run with log := run.log ++ events.toArray }

/-- Counts an iteration. -/
def tick (run : Run) : Run := { run with iterations := run.iterations + 1 }

end Run

end RangeFlow
