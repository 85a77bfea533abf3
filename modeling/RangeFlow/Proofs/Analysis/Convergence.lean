import RangeFlow.Proofs.Analysis.Soundness
import RangeFlow.Proofs.Solver.Convergence

/-!
# Convergence of an analysis

Widening makes every analysis converge within a number of evaluations that depends on the points of the
procedure, the slots it speaks of and the delay of widening, but neither on widths nor on constants nor
on which edges are marked as loops.
-/

namespace RangeFlow

namespace Procedure

variable {p : Procedure} {initial : State} {options : Options} {report : Report}

/-- The slots that the operations of a procedure speak of. -/
def slots (p : Procedure) : List Slot :=
  p.graph.graph.vertices.values.flatMap fun point => point.operation.slots

theorem mem_slots {index : Nat} {point : Point}
    (located : p.graph.graph.vertices[index]? = some point) {slot : Slot}
    (mem : slot ∈ point.operation.slots) : slot ∈ p.slots :=
  List.mem_flatMap.2 ⟨point, mem_values_of_getElem? located, mem⟩

/-- The number of different slots in the operations of a procedure or in the state at its entry. -/
def slotCount (p : Procedure) (initial : State) : Nat := (p.slots ++ initial.slots).toFinset.card

/-- An analysis with enough budget and no deadline converges. -/
theorem Analysed.converged (analysed : p.Analysed initial options report) (regular : initial.Regular)
    (unhurried : options.deadline = none)
    (enough : (options.wideningDelay + 3 * p.slotCount initial + 2) *
      2 ^ p.graph.graph.vertices.size ≤ options.maxIterations) : report.outcome = .converged := by
  obtain @⟨problem, solution, -, rfl, ready, solves, outcome, -, -, -, -⟩ := analysed
  have budget : 2 ^ problem.order.length *
      (options.wideningDelay + 3 * problem.procedure.slotCount initial + 1) ≤
        options.maxIterations := by
    refine le_trans ?_ enough
    rw [mul_comm]
    exact Nat.mul_le_mul (Nat.le_succ _) (Nat.pow_le_pow_right (by omega) ready.length_order_le)
  obtain ⟨run, last, started, ascended⟩ := Problem.exists_ascend_eq_none ready
    (fun located slot mem => List.mem_append_left _ (mem_slots located mem))
    (regular.obeys_slots fun slot mem => List.mem_append_right _ mem)
    (Options.isExpired_eq_false unhurried) budget
  rw [outcome]
  exact solves.converged started ascended

/-- Widening makes the ascent converge: a valid procedure with `n` points is solved, and reported on as
converged, within `(d + 3 * S + 2) * 2 ^ n` evaluations, where `d` is the delay of widening and `S` the
number of slots. -/
theorem solve_converges_within_budget (built : p.graph.Built) (valid : p.validate = .ok ())
    (accepted : p.checkInitial initial = .ok ()) (regular : initial.Regular)
    (unhurried : options.deadline = none)
    (enough : (options.wideningDelay + 3 * p.slotCount initial + 2) *
      2 ^ p.graph.graph.vertices.size ≤ options.maxIterations) :
    (∃ solution, (p.solve options initial).result = .ok solution ∧
      solution.outcome = .converged) ∧
    (options.summaries.validate = .ok () →
      ∃ report, p.analyze initial options = .ok report ∧ report.outcome = .converged) := by
  obtain ⟨solution, report, solved, reported, outcome, analysed⟩ :=
    exists_solve_report built valid options initial
  have converged := analysed.converged regular unhurried enough
  refine ⟨⟨solution, solved, outcome ▸ converged⟩, fun summaries => ⟨report, ?_, converged⟩⟩
  rw [analyze_of_checks summaries accepted solved, reported]

/-- The counting loop has seven points and four slots, and its analysis converges. -/
theorem solve_counter_converges :
    (4 * 3 + 2) * 2 ^ 7 ≤ ({} : Options).maxIterations ∧
    ∃ solution, (counter.solve {} counterFacts).result = .ok solution ∧
      solution.outcome = .converged := by
  obtain ⟨-, facts, valid⟩ := checks_counter
  refine ⟨by decide, (solve_converges_within_budget built_counter valid facts counterFacts_regular
    rfl ?_).1⟩
  have points : counter.graph.graph.vertices.size = 7 := by decide
  have slots : counter.slotCount counterFacts = 4 := by decide
  rw [points, slots]
  decide

end Procedure

end RangeFlow
