import RangeFlow.Proofs.Analysis.Soundness
import RangeFlow.Proofs.Facts.Exact

/-!
# The verdicts of a converged analysis

What a converged report says about single points: no execution gets to a point that it calls
unreachable, takes an edge that it calls infeasible or leaves an array where it sees no possible access
out of range. Of infeasible edges it says as much as its states do: an edge out of a decision is
reported exactly when no described store takes it (`Procedure.Analysed.mem_infeasibleEdges_iff`).
-/

namespace RangeFlow

/-! ## Accesses -/

/-- The array access of an operation, if it makes one, stays inside the array as far as its length is
given. -/
def Operation.InRange (operation : Operation) (σ : Store) : Prop :=
  match operation with
  | arrayLoad _ index length | arrayStore index _ length =>
      0 ≤ (index.read σ).toInt ∧
        ∀ bound, length = some bound → (index.read σ).toInt < (bound.read σ).toInt
  | _ => True

/-- An index without a fault is not negative and below every possible length. -/
theorem AccessFault.inRange_of_of?_eq_none {index : Interval} {length : Option Interval}
    (faultless : of? index length = none) {x : Int} (hx : index.contains x) :
    0 ≤ x ∧ ∀ i y, length = some i → i.contains y → x < y := by
  obtain ⟨lo, hi, bounds, lower, upper⟩ := Interval.contains_iff.1 hx
  unfold of? at faultless
  rw [bounds] at faultless
  dsimp only at faultless
  have proper : ¬index.isTop = true := fun top => by
    rw [if_pos top] at faultless
    cases faultless
  rw [if_neg proper] at faultless
  have least : ¬lo < 0 := fun negative => by
    rw [if_pos negative] at faultless
    cases faultless
  rw [if_neg least] at faultless
  refine ⟨by omega, fun i y here hy => ?_⟩
  obtain ⟨least, greatest, bounds', lower', -⟩ := Interval.contains_iff.1 hy
  have smallest : length.bind Interval.lo? = some least := by
    rw [here, Option.bind_some, Interval.lo?, bounds', Option.map_some]
  rw [smallest] at faultless
  dsimp only at faultless
  split_ifs at faultless with reaches
  omega

namespace Procedure

theorem accessFinding?_eq_some {index : Nat} {operation : Operation} {s : State} {finding : Finding}
    (h : accessFinding? index operation s = some finding) :
    finding.point = index ∧ finding.kind = .possibleOutOfRange ∧ decision? operation = none := by
  unfold accessFinding? at h
  dsimp only at h
  split at h
  all_goals first
    | cases h
    | obtain ⟨fault, -, rfl⟩ := Option.map_eq_some_iff.1 h
      exact ⟨rfl, rfl, rfl⟩

theorem inRange_of_accessFinding?_eq_none {index : Nat} {operation : Operation}
    (sorted : operation.WellSorted) {s : State} {σ : Store} (described : s.Describes σ)
    (h : accessFinding? index operation s = none) : operation.InRange σ := by
  have inside {position : Operand} {length : Option Operand}
      (valid : Width.isValid position.bits)
      (validLength : ∀ bound, length = some bound → Width.isValid bound.bits)
      (faultless : AccessFault.of? (s.eval position) (length.map s.eval) = none) :
      0 ≤ (position.read σ).toInt ∧
        ∀ bound, length = some bound → (position.read σ).toInt < (bound.read σ).toInt := by
    obtain ⟨least, below⟩ :=
      AccessFault.inRange_of_of?_eq_none faultless (described.eval valid)
    refine ⟨least, fun bound here => ?_⟩
    exact below (s.eval bound) _ (by rw [here, Option.map_some])
      (described.eval (validLength bound here))
  unfold accessFinding? at h
  dsimp only at h
  cases operation with
  | arrayLoad dst position length =>
    exact inside (sorted.read (by simp [Operation.operandsRead]))
      (fun bound here => sorted.read (by simp [Operation.operandsRead, here]))
      (Option.map_eq_none_iff.1 h)
  | arrayStore position value length =>
    exact inside (sorted.read (by simp [Operation.operandsRead]))
      (fun bound here => sorted.read (by simp [Operation.operandsRead, here]))
      (Option.map_eq_none_iff.1 h)
  | _ => trivial

theorem decision?_ne_none_iff {operation : Operation} :
    decision? operation ≠ none ↔
      (∃ condition, operation = .branch condition) ∨ ∃ scrutinee, operation = .switch scrutinee := by
  cases operation <;> simp [decision?]

/-- A decision leaves the store alone. -/
theorem eq_of_step_of_decision {summaries : Summaries} {operation : Operation} {decision : String}
    (decided : decision? operation = some decision) {σ σ' : Store}
    (step : operation.Step summaries σ σ') : σ' = σ := by
  cases operation <;> first | exact step | cases decided

/-! ## Verdicts -/

variable {p : Procedure} {initial : State} {options : Options} {report : Report}

theorem mem_infeasibleEdges {head tail : Nat} :
    (⟨head, tail⟩ : Link) ∈ report.infeasibleEdges ↔
      ∃ finding ∈ report.findings, finding.point = head ∧ finding.kind = .infeasibleEdge tail := by
  rw [Report.infeasibleEdges, mem_ofList_iff, List.mem_filterMap]
  refine exists_congr fun finding => and_congr_right fun _ => ?_
  cases kind : finding.kind <;> simp

theorem mem_unreached {states : Std.ExtTreeMap Nat State} {index : Nat} :
    index ∈ p.unreached states ↔ index ∈ p.graph.graph.vertices ∧ index ∉ states := by
  rw [unreached, mem_ofList_iff, List.mem_filter, Std.ExtTreeMap.mem_keys, decide_eq_true_eq]

theorem Analysed.notMem_unreachable (analysed : p.Analysed initial options report) {index : Nat}
    {s : State} (found : report.states[index]? = some s) : index ∉ report.unreachable := by
  obtain ⟨-, -, -, -, -, -, states, unreachable, -⟩ := analysed
  rw [unreachable, mem_unreached, ← states]
  exact fun ⟨_, absent⟩ => absent (mem_iff_exists_getElem?.2 ⟨s, found⟩)

section Converged

variable (analysed : p.Analysed initial options report) (converged : report.outcome = .converged)
  (start : initial.Tidy)
include analysed converged start

/-- An edge has no state in front of its point exactly when no described store takes it. -/
theorem Analysed.along_eq_none_iff {head tail : Nat} {point : Point} {edge : Edge} {s : State}
    (located : p.graph.graph.vertices[head]? = some point)
    (joined : p.graph.graph.edges[(⟨head, tail⟩ : Link)]? = some edge)
    (found : report.states[head]? = some s) :
    p.graph.along point.operation edge s = none ↔
      ∀ σ, s.Describes σ → ¬p.graph.Takes point.operation edge σ := by
  obtain @⟨problem, solution, -, rfl, ready, solves, outcome, -, states, -, -⟩ := analysed
  rw [outcome] at converged
  rw [states] at found
  have derived := (solves.settled converged).derived found
  obtain rfl : edge.head = head := (ready.consistent.ends joined).1
  have head := mem_iff_exists_getElem?.2 ⟨point, located⟩
  exact FlowGraph.along_eq_none_iff ready.consistent (ready.valid.sorted located) head
    (derived.tidy ready start)

/-- The edges that are reported are those of decisions that no described store takes. -/
theorem Analysed.mem_infeasibleEdges_iff {head tail : Nat} :
    (⟨head, tail⟩ : Link) ∈ report.infeasibleEdges ↔
      ∃ point edge s, p.graph.graph.vertices[head]? = some point ∧
        ((∃ condition, point.operation = .branch condition) ∨
          ∃ scrutinee, point.operation = .switch scrutinee) ∧
        p.graph.graph.edges[(⟨head, tail⟩ : Link)]? = some edge ∧
        report.states[head]? = some s ∧
        ∀ σ, s.Describes σ → ¬p.graph.Takes point.operation edge σ := by
  have report_of := analysed
  obtain ⟨-, rfl, ready, solves, outcome, -, states, -, findings⟩ := report_of
  have settled := outcome ▸ converged
  rw [mem_infeasibleEdges]
  constructor
  · rintro ⟨finding, mem, rfl, kind⟩
    obtain ⟨index, s, found, finds⟩ := (findings settled finding).1 mem
    rw [← states] at found
    cases finds with
    | @edge point decision edge located decided joined infeasible reported =>
      subst reported
      obtain rfl : edge.tail = tail := FindingKind.infeasibleEdge.inj kind
      obtain rfl : edge.head = index := (ready.consistent.ends joined).1
      exact ⟨point, edge, s, located, decision?_ne_none_iff.1 (by rw [decided]; exact nofun), joined,
        found, (analysed.along_eq_none_iff converged start located joined found).1 infeasible⟩
    | access located undecided reported =>
      rw [(accessFinding?_eq_some reported).2.1] at kind
      cases kind
  · rintro ⟨point, edge, s, located, decides, joined, found, never⟩
    obtain ⟨decision, decided⟩ := Option.ne_none_iff_exists'.1 (decision?_ne_none_iff.2 decides)
    obtain ⟨rfl, rfl⟩ := ready.consistent.ends joined
    have infeasible := (analysed.along_eq_none_iff converged start located joined found).2 never
    exact ⟨infeasibleFinding decision edge, (findings settled _).2 ⟨edge.head, s, states ▸ found,
      .edge located decided joined infeasible rfl⟩, rfl, rfl⟩

variable {before after : Configuration} {s : State} (found : report.states[before.point]? = some s)
  (described : s.Describes before.store)
include found described

/-- An infeasible edge is not taken from a described store. -/
theorem Analysed.notMem_infeasibleEdges (step : p.Step options.summaries before after) :
    (⟨before.point, after.point⟩ : Link) ∉ report.infeasibleEdges := by
  intro mem
  obtain ⟨point, edge, s', located, decides, joined, found', never⟩ :=
    (analysed.mem_infeasibleEdges_iff converged start).1 mem
  obtain ⟨point', edge', located', done, joined', taken⟩ := step
  obtain rfl := Option.some.inj (located.symm.trans located')
  obtain rfl := Option.some.inj (joined.symm.trans joined')
  obtain rfl := Option.some.inj (found.symm.trans found')
  obtain ⟨decision, decided⟩ := Option.ne_none_iff_exists'.1 (decision?_ne_none_iff.2 decides)
  rw [eq_of_step_of_decision decided done] at taken
  exact never _ described taken

omit start in
/-- An access that is not reported stays inside its array. -/
theorem Analysed.inRange {point : Point}
    (located : p.graph.graph.vertices[before.point]? = some point)
    (silent : ∀ finding ∈ report.findings, finding.point = before.point →
      finding.kind ≠ .possibleOutOfRange) : point.operation.InRange before.store := by
  obtain ⟨-, rfl, ready, solves, outcome, -, states, -, findings⟩ := analysed
  rw [outcome] at converged
  have unreported : accessFinding? before.point point.operation s = none := by
    refine Option.eq_none_iff_forall_ne_some.2 fun finding reported => ?_
    obtain ⟨here, kind, undecided⟩ := accessFinding?_eq_some reported
    exact silent finding ((findings converged finding).2
      ⟨before.point, s, states ▸ found, .access located undecided reported⟩) here kind
  exact inRange_of_accessFinding?_eq_none (ready.valid.sorted located) described unreported

end Converged

/-! ## Verdicts on the counting loop -/

theorem counterFacts_tidy : counterFacts.Tidy where
  toOrderly := counterFacts_regular.toOrderly
  uniform := by
    have alike {slot : Slot} {c : SlotSet} (hc : c ∈ counterFacts.aliases.classes) (mem : slot ∈ c) :
        slot.bits = 32 ∧ counterFacts.values[slot]? = some (.range 32 3 5) := by
      rw [counterFacts_class hc] at mem
      rcases mem_insert_iff.1 mem with rfl | mem
      · decide
      · rw [mem_singleton_iff.1 mem]
        decide
    rintro x y (rfl | ⟨c, hc, hx, hy⟩)
    · exact ⟨rfl, rfl⟩
    · rw [(alike hc hx).1, (alike hc hy).1, (alike hc hx).2, (alike hc hy).2]
      exact ⟨rfl, rfl⟩

/-! ## Soundness and exactness -/

/-- The verdicts of a converged report are sound, and exact for infeasible edges: no execution gets to
an unreachable point, takes an infeasible edge or leaves an array where nothing is reported, and an edge
of a decision is infeasible exactly when no store that the state at its head describes takes it. -/
theorem converged_verdicts_sound_and_exact (built : p.graph.Built) (start : initial.Tidy)
    (analysed : p.analyze initial options = .ok report)
    (converged : report.outcome = .converged) :
    (∀ (entry : Nat) (σ : Store) (last : Configuration), p.graph.entry = some entry →
      initial.Describes σ → p.Reaches options.summaries ⟨entry, σ⟩ last →
      last.point ∉ report.unreachable ∧
      (∀ next, p.Step options.summaries last next →
        (⟨last.point, next.point⟩ : Link) ∉ report.infeasibleEdges) ∧
      ∀ point, p.graph.graph.vertices[last.point]? = some point →
        (∀ finding ∈ report.findings, finding.point = last.point →
          finding.kind ≠ .possibleOutOfRange) →
        point.operation.InRange last.store) ∧
    ∀ head tail, (⟨head, tail⟩ : Link) ∈ report.infeasibleEdges ↔
      ∃ point edge s, p.graph.graph.vertices[head]? = some point ∧
        ((∃ condition, point.operation = .branch condition) ∨
          ∃ scrutinee, point.operation = .switch scrutinee) ∧
        p.graph.graph.edges[(⟨head, tail⟩ : Link)]? = some edge ∧
        report.states[head]? = some s ∧
        ∀ σ, s.Describes σ → ¬p.graph.Takes point.operation edge σ := by
  obtain ⟨-, accepted, -⟩ := checks_of_analyze analysed
  have admissible : initial.Obeys .admissible :=
    admissible_of_checkInitial accepted (fun _ _ entry => (start.entry entry).1.inside) start.disjoint
  have analysed := analysed_of_analyze built analysed
  refine ⟨fun entry σ last entered described reached => ?_,
    fun head tail => analysed.mem_infeasibleEdges_iff converged start⟩
  obtain ⟨s, found, here⟩ := analysed.covers admissible entered described reached
  refine ⟨analysed.notMem_unreachable found,
    fun next step => analysed.notMem_infeasibleEdges converged start found here step,
    fun point located silent => analysed.inRange converged found here located silent⟩

/-- The counting loop converges, reads its array inside its bounds and never takes the edge that is
reported. -/
theorem counter_verdicts :
    ∃ report, counter.analyze counterFacts {} = .ok report ∧ report.outcome = .converged ∧
      2 ∉ report.unreachable ∧
      (Operation.arrayLoad ⟨"x", 32⟩ (.slot ⟨"i", 32⟩) (some (.constant ⟨10, 32⟩))).InRange
        (counterStore 1) ∧
      ∃ point edge s, counter.graph.graph.vertices[4]? = some point ∧
        counter.graph.graph.edges[(⟨4, 5⟩ : Link)]? = some edge ∧ report.states[4]? = some s ∧
        ∀ σ, s.Describes σ → ¬counter.graph.Takes point.operation edge σ := by
  obtain ⟨report, analysed, converged, silent, infeasible, -⟩ := exists_analyze_counter
  obtain ⟨runs, edges⟩ := converged_verdicts_sound_and_exact built_counter counterFacts_tidy
    analysed converged
  have reached : counter.Reaches ∅ ⟨0, counterStore 7⟩ ⟨2, counterStore 1⟩ :=
    .trans (.single (counter_enters 7))
      (.tail (counter_laps (by decide)) (counter_tests (by decide)))
  obtain ⟨alive, -, inside⟩ := runs 0 _ _ entry_counter (counterFacts_describes 7) reached
  obtain ⟨point, edge, s, located, -, joined, found, never⟩ := (edges 4 5).1 infeasible
  have loads := getElem?_vertices_counter
    ⟨2, .arrayLoad ⟨"x", 32⟩ (.slot ⟨"i", 32⟩) (some (.constant ⟨10, 32⟩)), none⟩
    (by simp [counterPoints])
  exact ⟨report, analysed, converged, alive, inside _ loads fun finding mem _ => silent finding mem,
    point, edge, s, located, joined, found, never⟩

end Procedure

end RangeFlow
