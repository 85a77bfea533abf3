import RangeFlow.Proofs.Analysis.Monotone
import RangeFlow.Proofs.Solver.PostFixedPoint

/-!
# Converged reports are post-fixed points

Reading the states of a converged report through the graph: the initial state is below the one at the
entry, and no edge leads out of the states.
-/

namespace RangeFlow.Procedure

variable {p : Procedure} {initial : State} {options : Options} {report : Report}

/-- The states of a converged report are a post-fixed point, if the procedure divides nothing or no
descending pass is asked for: the initial state is below the state at the entry, and along every edge
out of a point with a state, what the edge lets through is below the state at its tail. -/
theorem converged_states_postFixed (built : p.graph.Built) (tidy : initial.Tidy)
    (analysed : p.analyze initial options = .ok report) (converged : report.outcome = .converged)
    (monotone : options.narrowingPasses = 0 ∨
      ∀ (index : Nat) (point : Point), p.graph.graph.vertices[index]? = some point →
        point.operation.divisor? = none) :
    (∃ entry s, p.graph.entry = some entry ∧ report.states[entry]? = some s ∧ initial.isSubset s) ∧
    ∀ index pre, report.states[index]? = some pre →
      ∃ point edges, p.graph.graph.vertices[index]? = some point ∧
        p.graph.edgesOut index = .ok edges ∧
        ∀ edge ∈ edges, ∀ s,
          p.graph.edgeState edge (point.operation.apply options.summaries pre) = .ok (some s) →
          ∃ t, report.states[edge.tail]? = some t ∧ s.isSubset t := by
  obtain ⟨-, rfl, ready, solves, outcome, -, states, -, -⟩ := analysed_of_analyze built analysed
  rw [states]
  rw [outcome] at converged
  have postFixed := solves.solved.postFixed ready tidy (monotone.imp_right fun h => h _ _) converged
  have settled := solves.settled converged
  refine ⟨?_, fun index pre found => ?_⟩
  · obtain ⟨s, found, below⟩ := postFixed.entry
    exact ⟨_, s, ready.valid.entry_eq, found,
      below.isSubset_of_tidy tidy ((settled.derived found).tidy ready tidy)⟩
  · have vertex := solves.vertices found
    obtain ⟨point, located⟩ := mem_iff_exists_getElem?.1 vertex
    obtain ⟨edges, out, -, mem⟩ := ready.consistent.exists_edgesOut vertex
    refine ⟨point, edges, located, out, fun edge he s result => ?_⟩
    obtain ⟨tail, joined⟩ := (mem edge).1 he
    obtain ⟨rfl, rfl⟩ := ready.consistent.ends joined
    rw [FlowGraph.edgeState_eq ready.consistent located, Except.ok.injEq] at result
    have arrives : Problem.Arrives _ options _ edge.tail s :=
      ⟨edge.head, point, edge, pre, located, joined, found, result⟩
    obtain ⟨t, ht, below⟩ := postFixed.arrives arrives
    exact ⟨t, ht, below.isSubset_of_tidy ((arrives.derives settled.derived).tidy ready tidy)
      ((settled.derived ht).tidy ready tidy)⟩

/-- The operation that counts. -/
private abbrev increment : Operation :=
  .binary ⟨"i", 32⟩ .add (.slot ⟨"i", 32⟩) (.constant ⟨1, 32⟩)

/-- The counting loop takes its counter back to the test, below what is known there. -/
theorem counter_states_postFixed :
    ∃ report, counter.analyze counterFacts {} = .ok report ∧ report.outcome = .converged ∧
      (∃ s, report.states[0]? = some s ∧ counterFacts.isSubset s) ∧
      ∃ pre t, report.states[3]? = some pre ∧ report.states[1]? = some t ∧
        (increment.apply ∅ pre).isSubset t := by
  obtain ⟨report, analysed, converged, -, -, -, reached⟩ := exists_analyze_counter
  obtain ⟨pre, found⟩ := mem_iff_exists_getElem?.1 reached
  have undivided : ∀ entry ∈ counter.graph.graph.vertices.toList,
      entry.2.operation.divisor? = none := by decide
  obtain ⟨⟨entry, s, entered, begins, above⟩, flows⟩ := converged_states_postFixed built_counter
    counterFacts_tidy analysed converged
    (.inr fun index point located =>
      undivided (index, point) (Std.ExtTreeMap.mem_toList_iff_getElem?_eq_some.2 located))
  obtain rfl := Option.some.inj (entry_counter.symm.trans entered)
  obtain ⟨point, edges, located, out, below⟩ := flows 3 pre found
  have here := getElem?_vertices_counter ⟨3, increment, none⟩ (by simp [counterPoints])
  have back : counter.graph.edgesOut 3 = .ok [⟨3, 1, .loopBack⟩] := by decide
  obtain rfl := Option.some.inj (here.symm.trans located)
  obtain rfl := Except.ok.inj (back.symm.trans out)
  have passed : counter.graph.edgeState ⟨3, 1, .loopBack⟩ (increment.apply ∅ pre) =
      .ok (some (increment.apply ∅ pre)) := by
    rw [FlowGraph.edgeState_eq built_counter.consistent here]
    rfl
  obtain ⟨t, ht, smaller⟩ := below _ (List.mem_singleton_self _) _ passed
  exact ⟨report, analysed, converged, ⟨s, begins, above⟩, pre, t, found, ht, smaller⟩

end RangeFlow.Procedure
