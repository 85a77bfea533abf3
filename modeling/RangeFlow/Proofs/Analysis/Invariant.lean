import RangeFlow.Proofs.Analysis.Monotone
import RangeFlow.Proofs.Solver.Stages

/-!
# The invariant of states

An analysis that starts from a tidy state holds tidy states only, between any two steps. Operations on
states, made in any order, keep them tidy as well.
-/

namespace RangeFlow.Procedure

variable {p : Procedure} {initial : State}

/-- Accepted facts speak of valid widths, so an orderly state of them is regular. -/
theorem regular_of_checkInitial (accepted : p.checkInitial initial = .ok ())
    (orderly : initial.Orderly) : initial.Regular where
  toOrderly := orderly
  valid entry := (checkFact_eq_ok (checkFact_of_checkInitial accepted entry)).1

/-- States stay tidy. At every stage of an analysis from a tidy state, all states that are held are
tidy with canonical intervals, and the report is read off such a stage. Every sequence of operations on
states takes tidy states to tidy ones. -/
theorem states_stay_tidy :
    (∀ {p : Procedure} {initial : State} {options : Options} {report : Report},
      p.graph.Built → initial.Tidy → p.analyze initial options = .ok report →
      ∃ problem, Problem.ofValid p = .ok problem ∧
        (∀ stage, Stage.Reached problem options initial stage → ∀ s, stage.Holds s →
          s.Tidy ∧ ∀ (slot : Slot) (i : Interval), s.values[slot]? = some i → i.Canonical) ∧
        ∃ last, Stage.Reached problem options initial ⟨last, []⟩ ∧
          report.iterations = last.iterations ∧
          (report.outcome = .converged → report.states = last.states)) ∧
    ∀ {given : State → Prop}, (∀ s, given s → s.Tidy) → ∀ s, State.Made given s → s.Tidy := by
  refine ⟨fun {p initial options report} built tidy analysed => ?_,
    fun start _ => State.Made.tidy start⟩
  have regular := regular_of_checkInitial (checks_of_analyze analysed).2.1 tidy.toOrderly
  obtain @⟨problem, solution, shaped, -, ready, solves, outcome, iterations, states, -, -⟩ :=
    analysed_of_analyze built analysed
  refine ⟨problem, shaped, fun stage reached s held => ?_, ?_⟩
  · have derived := reached.derives ready held
    have kept := derived.obeys ready (Discipline.lawful_regular _) (fun _ _ _ => trivial)
      regular.obeys_all
    exact ⟨derived.tidy ready tidy, fun slot i entry => kept.regular.canonical entry⟩
  · rw [outcome, iterations, states]
    exact Stage.exists_reached_of_solved ready solves.solved

/-- The counting loop holds tidy states throughout, also where it converged, and two slots that may be
equal are tidy once they are equated. -/
theorem counter_states_tidy :
    (∃ problem report, Problem.ofValid counter = .ok problem ∧
      counter.analyze counterFacts {} = .ok report ∧ report.outcome = .converged ∧
      (∀ stage, Stage.Reached problem {} counterFacts stage → ∀ s, stage.Holds s → s.Tidy) ∧
      ∃ s, report.states[1]? = some s ∧ s.Tidy) ∧
    ∃ s, looseFacts.equate ⟨"a", 32⟩ ⟨"b", 32⟩ = (true, s) ∧ s.Tidy := by
  constructor
  · obtain ⟨report, analysed, converged, -, -, known, -⟩ := exists_analyze_counter
    obtain ⟨s, found, -⟩ := Option.map_eq_some_iff.1 known
    obtain ⟨problem, shaped, held, last, final, -, states⟩ := states_stay_tidy.1 built_counter
      counterFacts_tidy analysed
    refine ⟨problem, report, shaped, analysed, converged,
      fun stage here s holds => (held stage here s holds).1, s, found, ?_⟩
    exact (held _ final s (.inl ⟨1, states converged ▸ found⟩)).1
  · have equated : looseFacts.equate ⟨"a", 32⟩ ⟨"b", 32⟩ =
        (true, (looseFacts.equate ⟨"a", 32⟩ ⟨"b", 32⟩).2) := Prod.ext (by decide) rfl
    have made : State.Made (fun _ => False) looseFacts :=
      .set _ (.set _ .unconstrained (by decide) rfl) (by decide) rfl
    exact ⟨_, equated, states_stay_tidy.2 (fun _ => False.elim) _ (made.equate equated)⟩

end RangeFlow.Procedure
