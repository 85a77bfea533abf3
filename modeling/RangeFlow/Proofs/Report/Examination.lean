import RangeFlow.Proofs.Digraph.Basic
import RangeFlow.Proofs.FlowGraph.Edges
import RangeFlow.Proofs.Journal.Noted
import RangeFlow.Proofs.Sort
import RangeFlow.Report.Examination

/-!
# What a report says

Over a consistent graph every point with a state can be examined, so a report is made of every
solution (`Procedure.exists_report`). The findings of a report on a converged solution are those of
its points in their states (`Procedure.Finds`), and none is lost by sorting them.
-/

namespace RangeFlow

/-! ## Examinations -/

namespace Procedure

/-- A finding about a point in a state: an edge of a decision that is never taken, or an access that
may be out of range. -/
inductive Finds (p : Procedure) (index : Nat) (s : State) (finding : Finding) : Prop where
  | edge {point : Point} {decision : String} {edge : Edge} :
      p.graph.graph.vertices[index]? = some point →
      decision? point.operation = some decision →
      p.graph.graph.edges[(⟨index, edge.tail⟩ : Link)]? = some edge →
      p.graph.along point.operation edge s = none →
      finding = infeasibleFinding decision edge → Finds p index s finding
  | access {point : Point} :
      p.graph.graph.vertices[index]? = some point →
      decision? point.operation = none →
      accessFinding? index point.operation s = some finding → Finds p index s finding

variable {p : Procedure}

theorem exists_examine (c : p.graph.graph.Consistent) {index : Nat}
    (hv : index ∈ p.graph.graph.vertices) (s : State) :
    ∃ examination, p.examine index s = .ok examination ∧
      ∀ finding, finding ∈ examination.findings ↔ p.Finds index s finding := by
  obtain ⟨point, located⟩ := mem_iff_exists_getElem?.1 hv
  have pointed := FlowGraph.point_eq_ok.2 located
  unfold examine
  simp only [pointed, bind, Except.bind]
  cases decided : decision? point.operation with
  | none =>
    refine ⟨_, rfl, fun finding => ?_⟩
    rw [Option.mem_toList]
    constructor
    · exact fun found => .access located decided found
    · rintro (⟨located', decided', -⟩ | ⟨located', -, found⟩)
      · obtain rfl := Option.some.inj (located.symm.trans located')
        rw [decided] at decided'
        cases decided'
      · obtain rfl := Option.some.inj (located.symm.trans located')
        exact found
  | some decision =>
    obtain ⟨edges, -, leaving, opened⟩ := FlowGraph.exists_edgeStates c located s
    simp only [opened]
    refine ⟨_, rfl, fun finding => ?_⟩
    simp only [List.mem_map, List.mem_filterMap, Option.ite_none_right_eq_some, Option.some.injEq,
      Option.isNone_iff_eq_none, Prod.exists, Prod.mk.injEq]
    constructor
    · rintro ⟨edge, ⟨_, _, ⟨_, mem, rfl, rfl⟩, infeasible, rfl⟩, rfl⟩
      obtain ⟨tail, joined⟩ := (leaving _).1 mem
      obtain rfl := (c.ends joined).2
      exact .edge located decided joined infeasible rfl
    · rintro (⟨located', decided', joined, infeasible, rfl⟩ | ⟨located', decided', -⟩)
      · obtain rfl := Option.some.inj (located.symm.trans located')
        obtain rfl := Option.some.inj (decided.symm.trans decided')
        exact ⟨_, ⟨_, _, ⟨_, (leaving _).2 ⟨_, joined⟩, rfl, rfl⟩, infeasible, rfl⟩, rfl⟩
      · obtain rfl := Option.some.inj (located.symm.trans located')
        rw [decided] at decided'
        cases decided'

/-! ## Reports -/

section Reports

variable (c : p.graph.graph.Consistent)
include c

/-- The findings of a converged solution are those of its points in their states. -/
theorem exists_examineAll_of_converged {solution : Solution}
    (vertices : ∀ {v : Nat} {s : State}, solution.states[v]? = some s → v ∈ p.graph.graph.vertices)
    (converged : solution.outcome = .converged) :
    ∃ examinations, p.examineAll solution = .ok examinations ∧ ∀ finding,
      finding ∈ examinations.flatMap Examination.findings ↔
        ∃ index s, solution.states[index]? = some s ∧ p.Finds index s finding := by
  have examined (entry : Nat × State) (mem : entry ∈ solution.states.toList) :
      ∃ examination, p.examine entry.1 entry.2 = .ok examination ∧
        ∀ finding, finding ∈ examination.findings ↔ p.Finds entry.1 entry.2 finding :=
    exists_examine c (vertices (Std.ExtTreeMap.mem_toList_iff_getElem?_eq_some.1 mem)) entry.2
  obtain ⟨examinations, all, mem⟩ := exists_mapM_eq_ok (l := solution.states.toList)
    (f := fun entry => p.examine entry.1 entry.2)
    fun entry he => (examined entry he).imp fun _ done => done.1
  refine ⟨examinations, by rw [examineAll, if_pos converged]; exact all, fun finding => ?_⟩
  rw [List.mem_flatMap]
  constructor
  · rintro ⟨examination, he, found⟩
    obtain ⟨entry, hs, done⟩ := (mem examination).1 he
    obtain ⟨examination', done', findings⟩ := examined entry hs
    obtain rfl := Except.ok.inj (done.symm.trans done')
    exact ⟨entry.1, entry.2, Std.ExtTreeMap.mem_toList_iff_getElem?_eq_some.1 hs,
      (findings finding).1 found⟩
  · rintro ⟨index, s, hs, found⟩
    have hs := Std.ExtTreeMap.mem_toList_iff_getElem?_eq_some.2 hs
    obtain ⟨examination, done, findings⟩ := examined (index, s) hs
    exact ⟨examination, (mem examination).2 ⟨(index, s), hs, done⟩, (findings finding).2 found⟩

omit c in
theorem exists_returns {states : Std.ExtTreeMap Nat State}
    (vertices : ∀ {v : Nat} {s : State}, states[v]? = some s → v ∈ p.graph.graph.vertices) :
    ∃ values, p.returns states = .ok values := by
  have each (entry : Nat × State) (he : entry ∈ states.toList) :
      ∃ value, p.returned? entry.1 entry.2 = .ok value := by
    obtain ⟨point, located⟩ := mem_iff_exists_getElem?.1
      (vertices (Std.ExtTreeMap.mem_toList_iff_getElem?_eq_some.1 he))
    have pointed := FlowGraph.point_eq_ok.2 located
    simp only [returned?, pointed, bind, Except.bind]
    split
    · exact ⟨_, rfl⟩
    · exact ⟨_, rfl⟩
  obtain ⟨entries, all, -⟩ := exists_mapM_eq_ok each
  refine ⟨.ofList (entries.filterMap id), ?_⟩
  change (states.toList.mapM (fun entry => p.returned? entry.1 entry.2) >>= _) = _
  rw [all]
  rfl

/-- A report is made of every solution whose states are at points of the graph. -/
theorem exists_report {entry : Nat} (valid : p.graph.Valid entry) {solution : Solution}
    (vertices : ∀ {v : Nat} {s : State}, solution.states[v]? = some s → v ∈ p.graph.graph.vertices) :
    ∃ report, (p.report solution).result = .ok report ∧ report.outcome = solution.outcome ∧
      report.iterations = solution.iterations ∧ report.states = solution.states ∧
      report.unreachable = p.unreached solution.states ∧
      (solution.outcome = .converged → ∀ finding, finding ∈ report.findings ↔
        ∃ index s, solution.states[index]? = some s ∧ p.Finds index s finding) := by
  obtain ⟨values, returned⟩ := exists_returns vertices
  -- The report follows from the examinations.
  have reported {examinations : List Examination} (all : p.examineAll solution = .ok examinations) :
      (p.report solution).result = .ok ⟨p.name, solution.outcome, solution.iterations,
        solution.states, Finding.sort (examinations.flatMap Examination.findings), values,
        p.unreached solution.states⟩ := by
    simp only [report, Noted.result_bind, Noted.result_lift, Noted.result_note, Noted.result_pure, all,
      returned]
    rfl
  by_cases converged : solution.outcome = .converged
  · obtain ⟨examinations, all, findings⟩ := exists_examineAll_of_converged c vertices converged
    refine ⟨_, reported all, rfl, rfl, rfl, rfl, fun _ finding => ?_⟩
    rw [Finding.sort, mem_sortStable]
    exact findings finding
  · have entered := FlowGraph.entryIndex_eq_ok.2 valid.entry_eq
    obtain ⟨examinations, all⟩ : ∃ examinations, p.examineAll solution = .ok examinations := by
      simp only [examineAll, if_neg converged, entered, bind, Except.bind]
      exact ⟨_, rfl⟩
    exact ⟨_, reported all, rfl, rfl, rfl, rfl, fun converged' => absurd converged' converged⟩

end Reports

/-! ## What is in a report -/

variable {solution : Solution}

theorem report_eq_ok {report : Report} (h : (p.report solution).result = .ok report) :
    ∃ examinations values, p.examineAll solution = .ok examinations ∧
      p.returns solution.states = .ok values ∧
      report = ⟨p.name, solution.outcome, solution.iterations, solution.states,
        Finding.sort (examinations.flatMap Examination.findings), values,
        p.unreached solution.states⟩ := by
  simp only [Procedure.report, Noted.result_bind, Noted.result_lift, Noted.result_note,
    Noted.result_pure] at h
  obtain ⟨examinations, examined, h⟩ := bind_eq_ok_iff.1 h
  obtain ⟨_, -, h⟩ := bind_eq_ok_iff.1 h
  obtain ⟨values, returned, h⟩ := bind_eq_ok_iff.1 h
  obtain ⟨_, -, h⟩ := bind_eq_ok_iff.1 h
  exact ⟨examinations, values, examined, returned, (Except.ok.inj h).symm⟩

/-- A finding is about a point in its state, or says at the entry that the analysis did not converge. -/
theorem finds_of_examineAll (c : p.graph.graph.Consistent)
    (vertices : ∀ {v : Nat} {s : State}, solution.states[v]? = some s → v ∈ p.graph.graph.vertices)
    {examinations : List Examination} (h : p.examineAll solution = .ok examinations)
    {finding : Finding} (mem : finding ∈ examinations.flatMap Examination.findings) :
    (∃ index s, solution.states[index]? = some s ∧ p.Finds index s finding) ∨
      p.graph.entry = some finding.point ∧ finding.kind = .divergence := by
  by_cases converged : solution.outcome = .converged
  · obtain ⟨examinations', h', findings⟩ := exists_examineAll_of_converged c vertices converged
    obtain rfl := Except.ok.inj (h.symm.trans h')
    exact .inl ((findings finding).1 mem)
  · rw [examineAll, if_neg converged] at h
    obtain ⟨entry, entered, h⟩ := bind_eq_ok_iff.1 h
    obtain rfl := Except.ok.inj h
    obtain rfl : finding = _ := by simpa using mem
    exact .inr ⟨FlowGraph.entryIndex_eq_ok.1 entered, rfl⟩

/-- A returned value is what the operand of a return has in the state there. -/
theorem exists_of_returns {states : Std.ExtTreeMap Nat State} {values : Std.ExtTreeMap Nat Interval}
    (h : p.returns states = .ok values) {index : Nat} {i : Interval}
    (found : values[index]? = some i) :
    ∃ (s : State) (point : Point) (value : Operand), states[index]? = some s ∧
      p.graph.graph.vertices[index]? = some point ∧ point.operation = .ret (some value) ∧ i = s.eval value := by
  obtain ⟨entries, each, h⟩ := bind_eq_ok_iff.1 h
  obtain rfl := Except.ok.inj h
  obtain ⟨entry, mem, rfl⟩ := List.mem_filterMap.1 (mem_of_getElem?_ofList found)
  obtain ⟨⟨index', s⟩, here, returned⟩ := exists_of_mem_mapM each mem
  obtain ⟨point, pointed, returned⟩ := bind_eq_ok_iff.1 returned
  split at returned
  · rename_i value operation
    obtain ⟨rfl, rfl⟩ := Prod.mk.inj (Option.some.inj (Except.ok.inj returned))
    exact ⟨s, point, value, Std.ExtTreeMap.mem_toList_iff_getElem?_eq_some.1 here,
      FlowGraph.point_eq_ok.1 pointed, operation, rfl⟩
  · cases returned

end Procedure

end RangeFlow
