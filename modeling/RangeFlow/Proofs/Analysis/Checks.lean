import RangeFlow.Analysis
import RangeFlow.Proofs.FlowGraph.Construction
import RangeFlow.Proofs.Report.Examination
import RangeFlow.Proofs.Solver.Stages

/-!
# When an analysis fails

An analysis makes three checks in front of everything else: of the summaries, of the facts at the entry
and of the procedure. Behind them nothing fails any more, so an analysis fails exactly when a check
does. `Procedure.Analysed` is what a report stands for when all of them pass. Facts that are inside the
widths of their slots moreover keep every switch from being trimmed for ever
(`Procedure.trimmable_of_checkInitial`).
-/

namespace RangeFlow.Procedure

variable {p : Procedure} {initial : State} {options : Options} {report : Report}

/-! ## The course of an analysis -/

theorem result_validateNoted (p : Procedure) : p.validateNoted.result = p.validate := by
  simp only [validateNoted, FlowGraph.validateNoted, validate, Noted.result_bind, Noted.result_lift,
    Noted.result_note]
  cases p.checkParameters with
  | error e => rfl
  | ok u => cases p.graph.validate <;> rfl

theorem result_solve (p : Procedure) (options : Options) (initial : State) :
    (p.solve options initial).result = (do
      p.validate
      let problem ← Problem.ofValid p
      (problem.solveLogged options initial).map Prod.fst) := by
  simp only [solve, Noted.result_bind, Noted.result_lift, result_validateNoted]
  refine congrArg _ (funext fun _ => congrArg _ (funext fun problem => ?_))
  unfold Problem.solve
  cases problem.solveLogged options initial <;> rfl

theorem result_solve_of_logged (valid : p.validate = .ok ()) {problem : Problem}
    (shaped : Problem.ofValid p = .ok problem) {solution : Solution} {log : Array Event}
    (logged : problem.solveLogged options initial = .ok (solution, log)) :
    (p.solve options initial).result = .ok solution := by
  rw [result_solve, valid, ok_bind, shaped, ok_bind, logged]
  rfl

theorem analyze_eq (p : Procedure) (initial : State) (options : Options) :
    p.analyze initial options = (do
      options.summaries.validate
      p.checkInitial initial
      let solution ← (p.solve options initial).result
      (p.report solution).result) := by
  simp only [analyze, analyzeNoted, Noted.result_bind, Noted.result_lift, Noted.result_note,
    Noted.result_pure]
  refine congrArg _ (funext fun _ => congrArg _ (funext fun _ => congrArg _ (funext fun solution =>
    ?_)))
  cases (p.report solution).result <;> rfl

theorem checkFact_eq_ok {slot : Slot} {i : Interval} (h : p.checkFact slot i = .ok ()) :
    Width.isValid slot.bits ∧ i.bits = slot.bits ∧ i.isBottom = false := by
  unfold checkFact at h
  split_ifs at h with invalid width bottom
  exact ⟨by simpa using invalid, not_not.1 width, by simpa using bottom⟩

theorem checkFact_of_checkInitial (h : p.checkInitial initial = .ok ()) {slot : Slot} {i : Interval}
    (entry : initial.values[slot]? = some i) : p.checkFact slot i = .ok () :=
  forM_eq_ok_iff.1 h (slot, i) (Std.ExtTreeMap.mem_toList_iff_getElem?_eq_some.2 entry)

/-- The entries of an accepted state are of valid widths, so it keeps to a discipline if its parts
do. -/
theorem obeys_of_checkInitial {D : Discipline} (accepted : p.checkInitial initial = .ok ())
    (occurs : ∀ (slot : Slot) (i : Interval), initial.values[slot]? = some i → D.Occurs slot)
    (fact : ∀ (slot : Slot) (i : Interval), initial.values[slot]? = some i → D.Fact i)
    (classes : D.Classes initial.aliases) : initial.Obeys D where
  occurs entry := occurs _ _ entry
  valid entry := (checkFact_eq_ok (checkFact_of_checkInitial accepted entry)).1
  width entry := (checkFact_eq_ok (checkFact_of_checkInitial accepted entry)).2.1
  fact entry := fact _ _ entry
  classes := classes

theorem bounded_of_checkInitial (accepted : p.checkInitial initial = .ok ())
    (inside : ∀ (slot : Slot) (i : Interval), initial.values[slot]? = some i → i.Inside) :
    initial.Obeys .bounded :=
  obeys_of_checkInitial accepted (fun _ _ _ => trivial) inside trivial

theorem admissible_of_checkInitial (accepted : p.checkInitial initial = .ok ())
    (inside : ∀ (slot : Slot) (i : Interval), initial.values[slot]? = some i → i.Inside)
    (disjoint : initial.aliases.PairwiseDisjoint) : initial.Obeys .admissible :=
  obeys_of_checkInitial accepted (fun _ _ _ => trivial) inside disjoint

/-! ## Behind the checks -/

/-- What a report on a procedure stands for: a solution of its problem, with its findings. -/
inductive Analysed (p : Procedure) (initial : State) (options : Options) (report : Report) : Prop where
  | intro {problem : Problem} {solution : Solution} :
      Problem.ofValid p = .ok problem → problem.procedure = p → problem.Ready →
      problem.Solves options initial solution → report.outcome = solution.outcome →
      report.iterations = solution.iterations → report.states = solution.states →
      report.unreachable = p.unreached solution.states →
      (solution.outcome = .converged → ∀ finding, finding ∈ report.findings ↔
        ∃ index s, solution.states[index]? = some s ∧ p.Finds index s finding) →
      Analysed p initial options report

/-- A valid procedure is solved and reported on from every initial state. -/
theorem exists_solve_report (built : p.graph.Built) (valid : p.validate = .ok ())
    (options : Options) (initial : State) :
    ∃ solution report, (p.solve options initial).result = .ok solution ∧
      (p.report solution).result = .ok report ∧ report.outcome = solution.outcome ∧
      p.Analysed initial options report := by
  obtain ⟨problem, shaped, rfl, ready⟩ := Problem.exists_ofValid built.consistent valid
  obtain ⟨solution, log, solved, solves⟩ := Problem.exists_solveLogged ready options initial
  obtain ⟨report, reported, outcome, iterations, states, unreachable, findings⟩ :=
    exists_report ready.consistent ready.valid solves.vertices
  exact ⟨solution, report, result_solve_of_logged valid shaped solved, reported, outcome,
    .intro shaped rfl ready solves outcome iterations states unreachable findings⟩

theorem analyze_of_checks (summaries : options.summaries.validate = .ok ())
    (facts : p.checkInitial initial = .ok ()) {solution : Solution}
    (solved : (p.solve options initial).result = .ok solution) :
    p.analyze initial options = (p.report solution).result := by
  rw [analyze_eq, summaries, facts, solved]
  rfl

/-- Behind the checks nothing fails. -/
theorem exists_analyze_of_checks (built : p.graph.Built)
    (summaries : options.summaries.validate = .ok ()) (facts : p.checkInitial initial = .ok ())
    (valid : p.validate = .ok ()) :
    ∃ solution report, (p.solve options initial).result = .ok solution ∧
      (p.report solution).result = .ok report ∧ p.analyze initial options = .ok report := by
  obtain ⟨solution, report, solved, reported, -, -⟩ := exists_solve_report built valid options initial
  exact ⟨solution, report, solved, reported,
    (analyze_of_checks summaries facts solved).trans reported⟩

/-- A report comes only from an analysis whose checks passed. -/
theorem checks_of_analyze (h : p.analyze initial options = .ok report) :
    options.summaries.validate = .ok () ∧ p.checkInitial initial = .ok () ∧ p.validate = .ok () := by
  rw [analyze_eq] at h
  obtain ⟨_, summaries, h⟩ := bind_eq_ok_iff.1 h
  obtain ⟨_, facts, h⟩ := bind_eq_ok_iff.1 h
  obtain ⟨solution, solved, -⟩ := bind_eq_ok_iff.1 h
  rw [result_solve] at solved
  obtain ⟨_, valid, -⟩ := bind_eq_ok_iff.1 solved
  exact ⟨summaries, facts, valid⟩

theorem analysed_of_analyze (built : p.graph.Built) (h : p.analyze initial options = .ok report) :
    p.Analysed initial options report := by
  obtain ⟨summaries, facts, valid⟩ := checks_of_analyze h
  obtain ⟨solution, report', solved, reported, -, analysed⟩ :=
    exists_solve_report built valid options initial
  rw [analyze_of_checks summaries facts solved, reported] at h
  exact Except.ok.inj h ▸ analysed

/-- A report is made of a solution of the problem. -/
theorem exists_solution_of_analyze (built : p.graph.Built)
    (h : p.analyze initial options = .ok report) :
    ∃ (problem : Problem) (solution : Solution), problem.procedure = p ∧ problem.Ready ∧
      problem.Solves options initial solution ∧ (p.report solution).result = .ok report := by
  obtain ⟨summaries, facts, valid⟩ := checks_of_analyze h
  obtain ⟨problem, shaped, rfl, ready⟩ := Problem.exists_ofValid built.consistent valid
  obtain ⟨solution, log, logged, solves⟩ := Problem.exists_solveLogged ready options initial
  refine ⟨problem, solution, rfl, ready, solves, ?_⟩
  rw [← analyze_of_checks summaries facts (result_solve_of_logged valid shaped logged)]
  exact h

/-! ## A counting loop -/

section Counter

private abbrev number (value : Int) : Operand := .constant ⟨value, 32⟩

/-- Counts `i` up to ten and reads an array at every value on the way. What stands behind the second
test is dead. -/
def counterPoints : List Point :=
  let i : Slot := ⟨"i", 32⟩
  let x : Slot := ⟨"x", 32⟩
  [⟨0, .const i ⟨0, 32⟩, none⟩, ⟨1, .branch ⟨.lt, .slot i, number 10⟩, none⟩,
    ⟨2, .arrayLoad x (.slot i) (some (number 10)), none⟩,
    ⟨3, .binary i .add (.slot i) (number 1), none⟩,
    ⟨4, .branch ⟨.gt, .slot i, number 10⟩, none⟩, ⟨5, .nop, none⟩, ⟨6, .ret (some (.slot i)), none⟩]

def counterEdges : List Edge :=
  [⟨0, 1, .sequential⟩, ⟨1, 2, .branchTrue⟩, ⟨1, 4, .branchFalse⟩, ⟨2, 3, .sequential⟩,
    ⟨3, 1, .loopBack⟩, ⟨4, 5, .branchTrue⟩, ⟨4, 6, .branchFalse⟩, ⟨5, 6, .sequential⟩]

def counter : Procedure where
  name := "counter"
  parameters := []
  graph := (FlowGraph.assemble (some 0) counterPoints counterEdges).toOption.getD .empty

/-- Two slots that the loop leaves alone hold the same small number. -/
def counterFacts : State where
  values := {(⟨"a", 32⟩, .range 32 3 5), (⟨"b", 32⟩, .range 32 3 5)}
  aliases := ⟨{{⟨"a", 32⟩, ⟨"b", 32⟩}}⟩

theorem counterFacts_entry {slot : Slot} {i : Interval} (entry : counterFacts.values[slot]? = some i) :
    i = .range 32 3 5 ∧ (slot = ⟨"a", 32⟩ ∨ slot = ⟨"b", 32⟩) := by
  have all : ∀ entry ∈ counterFacts.values.toList,
      entry.2 = .range 32 3 5 ∧ (entry.1 = ⟨"a", 32⟩ ∨ entry.1 = ⟨"b", 32⟩) := by decide
  exact all (slot, i) (Std.ExtTreeMap.mem_toList_iff_getElem?_eq_some.2 entry)

theorem counterFacts_class {c : SlotSet} (hc : c ∈ counterFacts.aliases.classes) :
    c = {⟨"a", 32⟩, ⟨"b", 32⟩} :=
  mem_singleton_iff.1 hc

theorem counterFacts_regular : counterFacts.Regular where
  entry entry := by
    obtain ⟨rfl, rfl | rfl⟩ := counterFacts_entry entry
    · decide
    · decide
  valid entry := by
    obtain ⟨-, rfl | rfl⟩ := counterFacts_entry entry
    · rfl
    · rfl
  disjoint _ hc _ hd _ _ _ := (counterFacts_class hc).trans (counterFacts_class hd).symm
  nontrivial c hc := by
    rw [counterFacts_class hc]
    decide

theorem inside_counterFacts (slot : Slot) (i : Interval) (entry : counterFacts.values[slot]? = some i) :
    i.Inside :=
  (counterFacts_regular.entry entry).1.inside

theorem built_counter : counter.graph.Built :=
  FlowGraph.built_getD_assemble (some 0) counterPoints counterEdges

theorem entry_counter : counter.graph.entry = some 0 := by decide

theorem getElem?_vertices_counter :
    ∀ point ∈ counterPoints, counter.graph.graph.vertices[point.index]? = some point := by
  decide

theorem getElem?_edges_counter :
    ∀ edge ∈ counterEdges,
      counter.graph.graph.edges[(⟨edge.head, edge.tail⟩ : Link)]? = some edge := by
  decide

/-- The loop is analysed to the end: its count is known at the test, the array is read inside its bounds,
and the edge into what is dead is found out. -/
theorem exists_analyze_counter :
    ∃ report, counter.analyze counterFacts {} = .ok report ∧ report.outcome = .converged ∧
      (∀ finding ∈ report.findings, finding.kind ≠ .possibleOutOfRange) ∧
      (⟨4, 5⟩ : Link) ∈ report.infeasibleEdges ∧
      report.states[1]?.map (State.value · ⟨"i", 32⟩) = some (.range 32 0 10) ∧
      3 ∈ report.states := by
  -- Only the kernel evaluates a whole analysis fast enough, so it does it once, for all that is asked.
  have looked : (counter.analyze counterFacts {}).map (fun report =>
      decide (report.outcome = .converged ∧
        (∀ finding ∈ report.findings, finding.kind ≠ .possibleOutOfRange) ∧
        (⟨4, 5⟩ : Link) ∈ report.infeasibleEdges ∧
        report.states[1]?.map (State.value · ⟨"i", 32⟩) = some (.range 32 0 10) ∧
        3 ∈ report.states)) = .ok true := by decide +kernel
  obtain ⟨report, analysed, seen⟩ := exists_of_map_eq_ok looked
  exact ⟨report, analysed, of_decide_eq_true seen⟩

theorem checks_counter :
    ({} : Options).summaries.validate = .ok () ∧ counter.checkInitial counterFacts = .ok () ∧
      counter.validate = .ok () := by
  obtain ⟨report, analysed, -⟩ := exists_analyze_counter
  exact checks_of_analyze analysed

end Counter

/-! ## Failure -/

/-- An accepted state whose facts are inside the widths keeps trimming from going on for ever, at every
stage of the solver and in the report. -/
theorem trimmable_of_checkInitial {problem : Problem} (ready : problem.Ready)
    (accepted : p.checkInitial initial = .ok ())
    (inside : ∀ (slot : Slot) (i : Interval), initial.values[slot]? = some i → i.Inside)
    {solution : Solution} (solves : problem.Solves options initial solution) :
    (∀ stage, Stage.Reached problem options initial stage → ∀ s, stage.Holds s → s.Trimmable) ∧
      ∀ (index : Nat) (s : State), solution.states[index]? = some s → s.Trimmable := by
  have start := bounded_of_checkInitial accepted inside
  refine ⟨fun stage reached s held => ?_, fun index s found => ?_⟩
  · exact ((reached.derives ready held).obeys ready Discipline.lawful_bounded
      (fun _ _ _ => trivial) start).trimmable
  · exact (solves.obeys ready Discipline.lawful_bounded trivial (fun _ _ _ => trivial) start
      found).trimmable

/-- An analysis fails exactly as the first of its checks that fails. If all of them pass and the facts
are inside the widths of their slots, the procedure is solved and reported on, and no switch is trimmed
for ever on the way. -/
theorem analyze_fails_iff_check_fails
    (origin : p.graph.Built ∨ ∃ source json, FlowGraph.ofJson source json = .ok p.graph)
    (initial : State) (options : Options) :
    (∀ e, p.analyze initial options = .error e ↔
      options.summaries.validate = .error e ∨
      options.summaries.validate = .ok () ∧ p.checkInitial initial = .error e ∨
      options.summaries.validate = .ok () ∧ p.checkInitial initial = .ok () ∧
        p.validate = .error e) ∧
    (options.summaries.validate = .ok () → p.checkInitial initial = .ok () → p.validate = .ok () →
      (∀ (slot : Slot) (i : Interval), initial.values[slot]? = some i → i.Inside) →
      ∃ problem solution report, Problem.ofValid p = .ok problem ∧
        (∀ stage, Stage.Reached problem options initial stage → ∀ s, stage.Holds s → s.Trimmable) ∧
        (p.solve options initial).result = .ok solution ∧
        (∀ (index : Nat) (s : State), solution.states[index]? = some s → s.Trimmable) ∧
        (p.report solution).result = .ok report ∧ p.analyze initial options = .ok report) := by
  have built : p.graph.Built := origin.elim id fun ⟨_, _, read⟩ => FlowGraph.built_ofJson read
  refine ⟨fun e => ?_, fun summaries facts valid inside => ?_⟩
  · cases summaries : options.summaries.validate with
    | error e' =>
      rw [analyze_eq, summaries]
      simp [bind, Except.bind]
    | ok _ =>
      cases facts : p.checkInitial initial with
      | error e' =>
        rw [analyze_eq, summaries, facts]
        simp [bind, Except.bind]
      | ok _ =>
        cases valid : p.validate with
        | error e' =>
          rw [analyze_eq, summaries, facts, result_solve, valid]
          simp [bind, Except.bind]
        | ok _ =>
          obtain ⟨-, report, -, -, analysed⟩ := exists_analyze_of_checks built summaries facts valid
          simp [analysed]
  · obtain ⟨problem, shaped, rfl, ready⟩ := Problem.exists_ofValid built.consistent valid
    obtain ⟨solution, log, logged, solves⟩ := Problem.exists_solveLogged ready options initial
    obtain ⟨report, reported, -⟩ := exists_report ready.consistent ready.valid solves.vertices
    have solved := result_solve_of_logged valid shaped logged
    obtain ⟨held, left⟩ := trimmable_of_checkInitial ready facts inside solves
    exact ⟨problem, solution, report, shaped, held, solved, left, reported,
      (analyze_of_checks summaries facts solved).trans reported⟩

/-- The loop is analysed from its facts, and refused with a fact about too wide a slot. -/
theorem analyze_counter_succeeds_or_fails :
    counter.graph.Built ∧ (∃ report, counter.analyze counterFacts {} = .ok report) ∧
    counter.analyze ⟨{(⟨"a", 65⟩, .range 65 3 5)}, .empty⟩ {} = .error (.invalidBits 65) := by
  obtain ⟨summaries, facts, valid⟩ := checks_counter
  refine ⟨built_counter, ?_, ?_⟩
  · obtain ⟨-, -, report, -, -, -, -, -, analysed⟩ :=
      (analyze_fails_iff_check_fails (.inl built_counter) counterFacts {}).2 summaries facts valid
        inside_counterFacts
    exact ⟨report, analysed⟩
  · exact ((analyze_fails_iff_check_fails (.inl built_counter) _ {}).1 _).2
      (.inr (.inl ⟨summaries, by decide⟩))

end RangeFlow.Procedure
