import RangeFlow.Proofs.Analysis.Verdicts
import RangeFlow.Proofs.Solver.Sweep

/-!
# Analysis without loops

A procedure whose graph has no loop headers is analysed exactly: the analysis evaluates every point
that gets a state once, in reverse post order, and the states of its report solve the dataflow equations
(`Procedure.DataflowEquations`) with equality. The equations have one solution, so what is reported does
not depend on how the options delay widening or how often they descend.
-/

namespace RangeFlow

/-! ## Dataflow equations -/

/-- The states that come along the edges into a point, in the order of their heads. An edge brings no
state if its head has none or if it is never taken. -/
def FlowGraph.arriving (g : FlowGraph) (summaries : Summaries) (states : Std.ExtTreeMap Nat State)
    (index : Nat) : Except Error (List State) := do
  let edges ← g.edgesIn index
  let carried ← edges.mapM fun edge =>
    match states[edge.head]? with
    | none => return none
    | some pre => do
        let point ← g.point edge.head
        g.edgeState edge (point.operation.apply summaries pre)
  return carried.filterMap id

/-- The dataflow equations of a procedure: the entry has the initial state, and every other point the
join of what arrives along its edges. Where nothing arrives there is no state. -/
structure Procedure.DataflowEquations (p : Procedure) (summaries : Summaries) (initial : State)
    (states : Std.ExtTreeMap Nat State) : Prop where
  vertices : ∀ {index : Nat}, index ∈ states → index ∈ p.graph.graph.vertices
  entry : ∀ {entry : Nat}, p.graph.entry = some entry → states[entry]? = some initial
  join : ∀ {index : Nat}, index ∈ p.graph.graph.vertices → p.graph.entry ≠ some index →
    ∃ arriving, p.graph.arriving summaries states index = .ok arriving ∧
      states[index]? = State.joinAll arriving

namespace Problem

variable {p : Problem} {options : Options} {initial : State}

theorem arriving_eq (options : Options) (states : Std.ExtTreeMap Nat State) (index : Nat) :
    p.procedure.graph.arriving options.summaries states index =
      List.filterMap Inflow.state <$> p.inflows options states index := by
  have carried (edge : Edge) :
      (match states[edge.head]? with
        | none => return none
        | some pre => do
            let point ← p.procedure.graph.point edge.head
            p.procedure.graph.edgeState edge (point.operation.apply options.summaries pre)) =
        (fun inflow => Option.bind inflow Inflow.state) <$> p.inflow? options states edge := by
    unfold inflow?
    cases states[edge.head]? with
    | none => rfl
    | some pre =>
      dsimp only
      cases p.procedure.graph.point edge.head with
      | error e => rfl
      | ok point =>
        simp only [ok_bind]
        cases p.procedure.graph.edgeState edge (point.operation.apply options.summaries pre) <;> rfl
  unfold FlowGraph.arriving inflows
  cases p.procedure.graph.edgesIn index with
  | error e => rfl
  | ok edges =>
    simp only [ok_bind, carried, mapM_map_eq]
    cases edges.mapM (p.inflow? options states) with
    | error e => rfl
    | ok results =>
      simp only [map_ok, ok_bind, pure_eq_ok, Except.ok.injEq, List.filterMap_map,
        List.filterMap_filterMap]
      rfl

/-- States in balance solve the dataflow equations. -/
theorem Balanced.dataflowEquations (ready : p.Ready) (start : initial.Tidy)
    {states : Std.ExtTreeMap Nat State} (balanced : Balanced p options initial states) :
    p.procedure.DataflowEquations options.summaries initial states where
  vertices mem := ready.vertices (balanced.reached (mem_iff_exists_getElem?.1 mem).choose_spec)
  entry entered := by
    obtain rfl := Option.some.inj (ready.valid.entry_eq.symm.trans entered)
    exact balanced.gathered.entry
  join {index} hv other := by
    obtain ⟨inflows, found, mem⟩ := exists_inflows ready options states hv
    refine ⟨inflows.filterMap Inflow.state, by rw [arriving_eq, found, map_ok], ?_⟩
    refine balanced.gathered.getElem?_eq_joinAll (fun here => other ?_) mem fun t ht =>
      balanced.tidy_of_arrives ready start ((mem t).1 ht)
    rw [here, ready.valid.entry_eq]

end Problem

/-! ## Evaluations of an analysis -/

section Noted

variable {α β : Type} {x : Noted α} {f : α → Noted β}

theorem evaluations_bind {a : α} (h : x.result = .ok a) :
    evaluations (x >>= f).events = evaluations x.events ++ evaluations (f a).events := by
  rw [Noted.events_bind, h, evaluations_append]

theorem evaluations_bind_eq_nil (first : evaluations x.events = [])
    (rest : ∀ a, evaluations (f a).events = []) : evaluations (x >>= f).events = [] := by
  rw [Noted.events_bind, evaluations_append, first]
  cases x.result with
  | ok a => exact rest a
  | error e => rfl

end Noted

namespace Procedure

variable {p : Procedure} {initial : State} {options : Options}

theorem evaluations_validateNoted (p : Procedure) : evaluations p.validateNoted.events = [] :=
  evaluations_bind_eq_nil rfl fun _ => evaluations_bind_eq_nil rfl fun _ => p.graph.evaluations_events

theorem evaluations_report (p : Procedure) (solution : Solution) :
    evaluations (p.report solution).events = [] := by
  refine evaluations_bind_eq_nil rfl fun examinations => evaluations_bind_eq_nil ?_ fun _ =>
    evaluations_bind_eq_nil rfl fun returns => rfl
  change evaluations (List.map Event.infeasible _) = []
  simp [evaluations, List.filterMap_map, Function.comp_def, Event.evaluated?]

section Solved

variable (valid : p.validate = .ok ()) {problem : Problem} (shaped : Problem.ofValid p = .ok problem)
  {solution : Solution} {log : Array Event}
  (logged : problem.solveLogged options initial = .ok (solution, log))
include valid shaped logged

theorem evaluations_solve : evaluations (p.solve options initial).events = evaluations log.toList := by
  have validated : p.validateNoted.result = .ok () := by rw [result_validateNoted, valid]
  unfold Procedure.solve
  rw [evaluations_bind validated, evaluations_validateNoted, List.nil_append,
    evaluations_bind (a := problem) shaped, Problem.solve, logged]
  rfl

/-- An analysis evaluates the points that its solver does. -/
theorem evaluations_analyzeNoted (summaries : options.summaries.validate = .ok ())
    (facts : p.checkInitial initial = .ok ()) :
    evaluations (p.analyzeNoted initial options).events = evaluations log.toList := by
  unfold analyzeNoted
  rw [evaluations_bind (a := ()) summaries, evaluations_bind (a := ()) facts,
    evaluations_bind (result_solve_of_logged valid shaped logged), evaluations_solve valid shaped logged,
    evaluations_bind_eq_nil (evaluations_report p solution) fun report =>
      evaluations_bind_eq_nil rfl fun _ => rfl]
  exact List.append_nil _

end Solved

/-! ## Exactness -/

/-- What is reported on a fixed point depends on its states only. -/
theorem report_congr {solution solution' : Solution} {report report' : Report}
    (h : (p.report solution).result = .ok report) (h' : (p.report solution').result = .ok report')
    (converged : solution.outcome = .converged) (converged' : solution'.outcome = .converged)
    (states : solution'.states = solution.states) :
    report'.states = report.states ∧ report'.findings = report.findings ∧
      report'.returns = report.returns ∧ report'.unreachable = report.unreachable := by
  obtain ⟨examinations, values, examined, returned, rfl⟩ := report_eq_ok h
  obtain ⟨examinations', values', examined', returned', rfl⟩ := report_eq_ok h'
  rw [examineAll, if_pos converged] at examined
  rw [examineAll, if_pos converged', states] at examined'
  rw [states] at returned'
  obtain rfl := Except.ok.inj (examined.symm.trans examined')
  obtain rfl := Except.ok.inj (returned.symm.trans returned')
  exact ⟨states, rfl, rfl, by rw [states]⟩

/-- Without loops the solver finds states in balance, and they are reported. -/
theorem exists_analyze_of_acyclic {problem : Problem} (ready : problem.Ready)
    (shaped : Problem.ofValid problem.procedure = .ok problem) (headers : problem.headers = ∅)
    (valid : problem.procedure.validate = .ok ()) (start : initial.Tidy)
    (facts : problem.procedure.checkInitial initial = .ok ())
    (summaries : options.summaries.validate = .ok ()) (unhurried : options.deadline = none)
    (enough : problem.procedure.graph.graph.vertices.size ≤ options.maxIterations) :
    ∃ solution report, solution.outcome = .converged ∧
      problem.Balanced options initial solution.states ∧
      (problem.procedure.report solution).result = .ok report ∧
      problem.procedure.analyze initial options = .ok report ∧
      report.outcome = solution.outcome ∧ report.states = solution.states ∧
      evaluations (problem.procedure.analyzeNoted initial options).events =
        problem.order.filter (· ∈ solution.states) := by
  obtain ⟨solution, log, logged, converged, balanced, evaluated⟩ :=
    Problem.exists_solveLogged_of_acyclic ready headers start
      (Options.isExpired_eq_false unhurried) (ready.length_order_le.trans enough)
  have vertices {v : Nat} {s : State} (found : solution.states[v]? = some s) :=
    ready.vertices (balanced.reached found)
  obtain ⟨report, reported, outcome, -, states, -⟩ :=
    exists_report ready.consistent ready.valid vertices
  have solved := result_solve_of_logged valid shaped logged
  refine ⟨solution, report, converged, balanced, reported,
    (analyze_of_checks summaries facts solved).trans reported, outcome, states, ?_⟩
  rw [evaluations_analyzeNoted valid shaped logged summaries facts, evaluated]

/-- Analyses without loops are exact: an accepted procedure without loop headers is analysed within as
many evaluations as it has points. Every point that gets a state is evaluated once and in reverse post
order, and the states solve the dataflow equations. What is reported does not depend on the delay of
widening or the number of descending passes. -/
theorem analyze_exact_of_acyclic (built : p.graph.Built) (valid : p.validate = .ok ())
    (acyclic : p.graph.loopHeaders = .ok ∅) (start : initial.Tidy)
    (facts : p.checkInitial initial = .ok ())
    (summaries : options.summaries.validate = .ok ()) (unhurried : options.deadline = none)
    (enough : p.graph.graph.vertices.size ≤ options.maxIterations) :
    ∃ report order, p.analyze initial options = .ok report ∧ report.outcome = .converged ∧
      p.graph.reversePostOrder = .ok order ∧ order.Nodup ∧
      evaluations (p.analyzeNoted initial options).events = order.filter (· ∈ report.states) ∧
      p.DataflowEquations options.summaries initial report.states ∧
      ∀ options' : Options, options'.summaries = options.summaries → options'.deadline = none →
        p.graph.graph.vertices.size ≤ options'.maxIterations →
        ∃ report', p.analyze initial options' = .ok report' ∧ report'.outcome = .converged ∧
          report'.states = report.states ∧ report'.findings = report.findings ∧
          report'.returns = report.returns ∧ report'.unreachable = report.unreachable := by
  obtain ⟨problem, shaped, rfl, ready⟩ := Problem.exists_ofValid built.consistent valid
  obtain ⟨ordered, headed⟩ := Problem.ofValid_eq_ok shaped
  have headers : problem.headers = ∅ := Except.ok.inj (headed.symm.trans acyclic)
  obtain ⟨solution, report, converged, balanced, reported, analyzed, outcome, states, evaluated⟩ :=
    exists_analyze_of_acyclic ready shaped headers valid start facts summaries unhurried enough
  refine ⟨report, problem.order, analyzed, outcome.trans converged, ordered, ready.nodup,
    states ▸ evaluated, states ▸ balanced.dataflowEquations ready start,
    fun options' same unhurried' enough' => ?_⟩
  obtain ⟨solution', report', converged', balanced', reported', analyzed', outcome', -, -⟩ :=
    exists_analyze_of_acyclic ready shaped headers valid start facts (same ▸ summaries) unhurried'
      enough'
  exact ⟨report', analyzed', outcome'.trans converged',
    report_congr reported reported' converged converged'
      (balanced'.unique ready headers balanced same)⟩

/-! ## A diamond -/

section Diamond

private abbrev word (value : Int) : Operand := .constant ⟨value, 32⟩

/-- Gives `x` one of two values, neither of which passes the second test. Nothing leads to the last
point. -/
def diamondPoints : List Point :=
  let a : Slot := ⟨"a", 32⟩
  let x : Slot := ⟨"x", 32⟩
  [⟨0, .branch ⟨.lt, .slot a, word 4⟩, none⟩, ⟨1, .const x ⟨1, 32⟩, none⟩,
    ⟨2, .const x ⟨9, 32⟩, none⟩, ⟨3, .branch ⟨.gt, .slot x, word 20⟩, none⟩, ⟨4, .nop, none⟩,
    ⟨5, .ret (some (.slot x)), none⟩, ⟨6, .nop, none⟩]

def diamondEdges : List Edge :=
  [⟨0, 1, .branchTrue⟩, ⟨0, 2, .branchFalse⟩, ⟨1, 3, .sequential⟩, ⟨2, 3, .sequential⟩,
    ⟨3, 4, .branchTrue⟩, ⟨3, 5, .branchFalse⟩, ⟨4, 5, .sequential⟩, ⟨6, 3, .sequential⟩]

def diamond : Procedure where
  name := "diamond"
  parameters := []
  graph := (FlowGraph.assemble (some 0) diamondPoints diamondEdges).toOption.getD .empty

theorem built_diamond : diamond.graph.Built :=
  FlowGraph.built_getD_assemble (some 0) diamondPoints diamondEdges

/-- Five of the points are evaluated, the two ways through the diamond are joined, and the same is
reported with late widening and no descent. -/
theorem analyze_diamond_exact :
    diamond.graph.loopHeaders = .ok ∅ ∧
    ∃ report, diamond.analyze counterFacts {} = .ok report ∧
      evaluations (diamond.analyzeNoted counterFacts {}).events = [0, 2, 1, 3, 5] ∧
      (∃ s t, diamond.graph.arriving ∅ report.states 3 = .ok [s, t] ∧
        report.states[3]? = some (s.join t)) ∧
      ∃ report', diamond.analyze counterFacts { wideningDelay := 5, narrowingPasses := 0 } =
        .ok report' ∧ report'.states = report.states ∧ report'.findings = report.findings := by
  have acyclic : diamond.graph.loopHeaders = .ok ∅ := by decide
  have points : diamond.graph.graph.vertices.size = 7 := by decide
  have looked : (diamond.analyze counterFacts {}).map (fun report =>
      ([0, 2, 1, 3, 4, 5].filter (· ∈ report.states),
        (diamond.graph.arriving ∅ report.states 3).toOption.map List.length)) =
      .ok ([0, 2, 1, 3, 5], some 2) := by decide +kernel
  obtain ⟨report, order, analyzed, -, ordered, -, evaluated, equations, same⟩ :=
    analyze_exact_of_acyclic built_diamond (by decide) acyclic counterFacts_tidy
      (by decide) (by decide) (rfl : ({} : Options).deadline = none)
      (by rw [points]; decide)
  have first : diamond.graph.reversePostOrder = .ok [0, 2, 1, 3, 4, 5] := by decide
  obtain rfl := Except.ok.inj (first.symm.trans ordered)
  obtain ⟨report', analyzed', seen⟩ := exists_of_map_eq_ok looked
  obtain rfl := Except.ok.inj (analyzed.symm.trans analyzed')
  obtain ⟨reached, two⟩ := Prod.mk.inj seen
  have behind : 3 ∈ diamond.graph.graph.vertices :=
    mem_iff_exists_getElem?.2 ⟨diamondPoints[3], by decide⟩
  obtain ⟨arriving, arrived, joined⟩ := equations.join behind (by decide)
  rw [arrived] at two
  obtain ⟨s, t, rfl⟩ := List.length_eq_two.1 (Option.some.inj two)
  obtain ⟨late, analyzed'', -, states, findings, -⟩ :=
    same { wideningDelay := 5, narrowingPasses := 0 } rfl rfl (by rw [points]; decide)
  exact ⟨acyclic, report, analyzed, evaluated.trans reached, ⟨s, t, arrived, joined⟩, late, analyzed'',
    states, findings⟩

end Diamond

end Procedure

end RangeFlow
