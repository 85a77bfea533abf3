import RangeFlow.Proofs.Analysis.Verdicts
import RangeFlow.Proofs.Facts.Best

/-!
# Edges leave the best state

Main statement: `FlowGraph.edgeState_best`, along every edge of a validated graph a tidy state
becomes the best abstraction of the described stores that take the edge.
-/

namespace RangeFlow

/-- An edge of a validated graph leaves nothing of a tidy state exactly when no described store
takes the edge. Otherwise it leaves the state that is best for those that do, and changes nothing about
slots that are not equal to an operand of the test. -/
theorem FlowGraph.edgeState_best {g : FlowGraph} (built : g.Built) (valid : g.validate = .ok ())
    {head tail : Nat} {edge : Edge} (present : g.graph.edges[(⟨head, tail⟩ : Link)]? = some edge)
    {post : State} (tidy : post.Tidy) :
    ∃ point result, g.point head = .ok point ∧ g.edgeState edge post = .ok result ∧
      (result = none ↔ ∀ σ, post.Describes σ → ¬g.Takes point.operation edge σ) ∧
      ∀ s, result = some s →
        s.BestFor {σ | post.Describes σ ∧ g.Takes point.operation edge σ} ∧
        ∀ slot, (∀ operand ∈ point.operation.operandsRead,
          post.areAliased operand (.slot slot) = false) → s.value slot = post.value slot := by
  have c := built.consistent
  obtain ⟨entry, valid⟩ := exists_valid_of_validate valid
  obtain rfl : edge.head = head := (c.ends present).1
  have mem : edge.head ∈ g.graph.vertices :=
    c.head_mem (mem_iff_exists_getElem?.2 ⟨edge, present⟩)
  obtain ⟨point, located⟩ := mem_iff_exists_getElem?.1 mem
  have sorted := valid.sorted located
  exact ⟨point, _, point_eq_ok.2 located, edgeState_eq c located post,
    along_eq_none_iff c sorted mem tidy, fun s result => ⟨bestFor_along c sorted mem tidy result,
      fun slot apart => value_along_of_apart tidy result apart⟩⟩

section Selection

/-- A slot is looked up among some values. -/
private abbrev selectionPoints : List Point :=
  [⟨0, .switch (.slot ⟨"a", 32⟩), none⟩, ⟨1, .ret none, none⟩, ⟨2, .ret none, none⟩]

private abbrev selectionEdges : List Edge :=
  [⟨0, 1, .switchCase {3, 20}⟩, ⟨0, 2, .switchDefault⟩]

def selectionGraph : FlowGraph :=
  (FlowGraph.assemble (some 0) selectionPoints selectionEdges).toOption.getD .empty

theorem built_selectionGraph : selectionGraph.Built :=
  FlowGraph.built_getD_assemble (some 0) selectionPoints selectionEdges

/-- What is left outside the cases: the slot and its alias lose their lower end. -/
def unselectedFacts : State where
  values := {(⟨"a", 32⟩, .range 32 4 5), (⟨"b", 32⟩, .range 32 4 5)}
  aliases := Procedure.counterFacts.aliases

theorem FlowGraph.edgeState_best_selection :
    selectionGraph.edgeState ⟨0, 2, .switchDefault⟩ Procedure.counterFacts =
        .ok (some unselectedFacts) ∧
      unselectedFacts.BestFor {σ | Procedure.counterFacts.Describes σ ∧
        selectionGraph.Takes (.switch (.slot ⟨"a", 32⟩)) ⟨0, 2, .switchDefault⟩ σ} := by
  have located : selectionGraph.point 0 = .ok ⟨0, .switch (.slot ⟨"a", 32⟩), none⟩ := by decide
  have passed : selectionGraph.edgeState ⟨0, 2, .switchDefault⟩ Procedure.counterFacts =
      .ok (some unselectedFacts) := by decide +kernel
  have present : selectionGraph.graph.edges[(⟨0, 2⟩ : Link)]? = some ⟨0, 2, .switchDefault⟩ := by
    decide
  obtain ⟨point, result, found, computed, -, best⟩ := edgeState_best built_selectionGraph
    (by decide) present Procedure.counterFacts_tidy
  obtain rfl := Except.ok.inj (located.symm.trans found)
  obtain rfl := Except.ok.inj (passed.symm.trans computed)
  exact ⟨passed, (best unselectedFacts rfl).1⟩

end Selection

end RangeFlow
