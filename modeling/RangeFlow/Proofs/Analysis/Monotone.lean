import RangeFlow.Proofs.Analysis.Verdicts
import RangeFlow.Proofs.Facts.Monotone

/-!
# Monotone transfer functions of a graph

What is proved of operations and edges one at a time, put together for the points of a graph that
passes its validity check: behind every point and along every edge out of it, a larger state gives a
larger state. The order is the one that the analysis decides.
-/

namespace RangeFlow

theorem State.Le.isSubset_of_tidy {s t : State} (h : s.Le t) (hs : s.Tidy) (ht : t.Tidy) :
    s.isSubset t :=
  h.isSubset hs.disjoint ht.nontrivial

/-- An edge that has a state for a smaller state has a larger one for a larger state. -/
theorem FlowGraph.exists_edgeState_of_le {g : FlowGraph} (c : g.graph.Consistent) {edge : Edge}
    {point : Point} (located : g.graph.vertices[edge.head]? = some point)
    (sorted : point.operation.WellSorted) {s t s' : State} (h : s.Le t) (hs : s.Tidy) (ht : t.Tidy)
    (result : g.edgeState edge s = .ok (some s')) :
    ∃ t', g.edgeState edge t = .ok (some t') ∧ s'.isSubset t' := by
  rw [edgeState_eq c located, Except.ok.injEq] at result
  obtain ⟨t', result', h'⟩ := g.exists_along_of_le sorted h hs ht result
  refine ⟨t', by rw [edgeState_eq c located, result'], ?_⟩
  exact h'.isSubset_of_tidy (g.tidy_along hs result) (g.tidy_along ht result')

/-- Transfer functions are monotone: at every point of a valid graph, a larger state gives a larger
state behind the operation and along every edge that the smaller state can take. The exception is a
division whose divisor is known to be zero. -/
theorem FlowGraph.transfer_monotone {g : FlowGraph} (built : g.Built) (valid : g.validate = .ok ())
    (summaries : Summaries) {s t : State} (hs : s.Tidy) (ht : t.Tidy) (included : s.isSubset t)
    {index : Nat} {point : Point} (located : g.graph.vertices[index]? = some point)
    (nonzero : ∀ divisor, point.operation.divisor? = some divisor →
      (s.eval divisor).bounds? ≠ some (0, 0)) :
    (point.operation.apply summaries s).isSubset (point.operation.apply summaries t) ∧
    ∃ edges, g.edgesOut index = .ok edges ∧ ∀ edge ∈ edges,
      (∀ s', g.edgeState edge s = .ok (some s') →
        ∃ t', g.edgeState edge t = .ok (some t') ∧ s'.isSubset t') ∧
      ∀ s', g.edgeState edge (point.operation.apply summaries s) = .ok (some s') →
        ∃ t', g.edgeState edge (point.operation.apply summaries t) = .ok (some t') ∧
          s'.isSubset t' := by
  have c := built.consistent
  obtain ⟨entry, valid⟩ := exists_valid_of_validate valid
  have sorted := valid.sorted located
  have below := hs.le_of_isSubset included
  have below' := Operation.apply_le summaries sorted below hs ht nonzero
  have hs' := Operation.tidy_apply summaries sorted hs
  have ht' := Operation.tidy_apply summaries sorted ht
  refine ⟨below'.isSubset_of_tidy hs' ht', ?_⟩
  obtain ⟨edges, found, -, mem⟩ := c.exists_edgesOut (mem_iff_exists_getElem?.2 ⟨point, located⟩)
  refine ⟨edges, found, fun edge he => ?_⟩
  obtain ⟨tail, joined⟩ := (mem edge).1 he
  obtain rfl : edge.head = index := (c.ends joined).1
  exact ⟨fun s' => exists_edgeState_of_le c located sorted below hs ht,
    fun s' => exists_edgeState_of_le c located sorted below' hs' ht'⟩

section Comparison

/-- Two slots, tested against each other. -/
private abbrev comparison : Operation := .branch ⟨.ge, .slot ⟨"a", 32⟩, .slot ⟨"b", 32⟩⟩

private abbrev comparisonPoints : List Point :=
  [⟨0, comparison, none⟩, ⟨1, .nop, none⟩, ⟨2, .ret none, none⟩]

private abbrev comparisonEdges : List Edge :=
  [⟨0, 1, .branchTrue⟩, ⟨0, 2, .branchFalse⟩, ⟨1, 2, .sequential⟩]

def comparisonGraph : FlowGraph :=
  (FlowGraph.assemble (some 0) comparisonPoints comparisonEdges).toOption.getD .empty

/-- Two slots that may be equal or not. -/
def looseFacts : State :=
  (State.unconstrained.set ⟨"a", 32⟩ (.range 32 0 9)).set ⟨"b", 32⟩ (.range 32 2 20)

theorem looseFacts_tidy : looseFacts.Tidy :=
  (State.tidy_unconstrained.set _ (by decide) rfl).set _ (by decide) rfl

theorem built_comparisonGraph : comparisonGraph.Built :=
  FlowGraph.built_getD_assemble (some 0) comparisonPoints comparisonEdges

/-- Slots that are known to be equal pass the test as they are, and stay below the slots that the test
narrows. -/
theorem FlowGraph.comparisonGraph_monotone :
    comparisonGraph.edgeState ⟨0, 1, .branchTrue⟩ Procedure.counterFacts =
      .ok (some Procedure.counterFacts) ∧
    ∃ t', comparisonGraph.edgeState ⟨0, 1, .branchTrue⟩ looseFacts = .ok (some t') ∧
      Procedure.counterFacts.isSubset t' := by
  have tidy := Procedure.counterFacts_tidy
  have located : comparisonGraph.graph.vertices[0]? = some ⟨0, comparison, none⟩ := by decide
  have passed : comparisonGraph.edgeState ⟨0, 1, .branchTrue⟩ Procedure.counterFacts =
      .ok (some Procedure.counterFacts) := by decide
  have out : comparisonGraph.edgesOut 0 = .ok [⟨0, 1, .branchTrue⟩, ⟨0, 2, .branchFalse⟩] := by
    decide
  obtain ⟨-, edges, found, along⟩ := transfer_monotone built_comparisonGraph (by decide) ∅
    tidy looseFacts_tidy (by decide) located fun divisor h => by cases h
  obtain rfl := Except.ok.inj (out.symm.trans found)
  exact ⟨passed, (along _ List.mem_cons_self).1 _ passed⟩

end Comparison

end RangeFlow
