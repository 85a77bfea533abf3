import RangeFlow.Facts.Transfer
import RangeFlow.FlowGraph.Validity
import RangeFlow.Proofs.Digraph.Basic
import RangeFlow.Proofs.Program.Operation
import RangeFlow.Proofs.Result

/-!
# States along edges

In a consistent graph the look-ups of `FlowGraph.edgeState` succeed, and what is left is a choice by
the operation at the head and the kind of the edge: `FlowGraph.along`. The module ends with what a
passed validity check says about the points.
-/

namespace RangeFlow.FlowGraph

variable {g : FlowGraph}

theorem point_eq_ok {index : Nat} {point : Point} :
    g.point index = .ok point ↔ g.graph.vertices[index]? = some point := by
  unfold FlowGraph.point Digraph.vertex
  cases g.graph.vertices[index]? <;> simp

theorem entryIndex_eq_ok {entry : Nat} : g.entryIndex = .ok entry ↔ g.entry = some entry := by
  unfold entryIndex
  cases g.entry <;> simp

/-- The values of all case edges out of a point. -/
def caseSet (g : FlowGraph) (head : Nat) : CaseSet :=
  match g.edgesOut head with
  | .ok edges => caseValues edges
  | .error _ => ∅

/-- The state along an edge out of a point, by the operation of the point. -/
def along (g : FlowGraph) (operation : Operation) (edge : Edge) (post : State) : Option State :=
  match operation, edge.kind with
  | .branch condition, .branchTrue => post.assume condition
  | .branch condition, .branchFalse => post.assume condition.negate
  | .switch scrutinee, .switchCase values => post.assumeCase scrutinee values
  | .switch scrutinee, .switchDefault => post.assumeDefault scrutinee (g.caseSet edge.head)
  | _, _ => some post

theorem mem_foldl_caseValues {edges : List Edge} {acc : CaseSet} {value : Int} :
    value ∈ edges.foldl (fun values edge =>
      match edge.kind with
      | .switchCase more => values ∪ more
      | _ => values) acc ↔
    value ∈ acc ∨ ∃ edge ∈ edges, ∃ values, edge.kind = .switchCase values ∧ value ∈ values := by
  induction edges generalizing acc with
  | nil => simp
  | cons edge edges ih =>
    rw [List.foldl_cons, ih, List.exists_mem_cons_iff, ← or_assoc]
    refine or_congr_left ?_
    cases kind : edge.kind with
    | switchCase values => simp
    | _ => simp

theorem mem_caseSet (c : g.graph.Consistent) {head : Nat} (hv : head ∈ g.graph.vertices)
    {value : Int} :
    value ∈ g.caseSet head ↔
      ∃ tail sibling values, g.graph.edges[(⟨head, tail⟩ : Link)]? = some sibling ∧
        sibling.kind = .switchCase values ∧ value ∈ values := by
  obtain ⟨edges, found, -, mem⟩ := c.exists_edgesOut hv
  have opened : g.caseSet head = caseValues edges := by
    rw [caseSet, edgesOut, found]
  rw [opened]
  refine mem_foldl_caseValues.trans ?_
  constructor
  · rintro (h | ⟨edge, he, values, kind, h⟩)
    · simp at h
    · obtain ⟨tail, he⟩ := (mem edge).1 he
      exact ⟨tail, edge, values, he, kind, h⟩
  · rintro ⟨tail, edge, values, he, kind, h⟩
    exact .inr ⟨edge, (mem edge).2 ⟨tail, he⟩, values, kind, h⟩

/-- The look-ups along an edge succeed. -/
theorem edgeState_eq (c : g.graph.Consistent) {edge : Edge} {point : Point}
    (hp : g.graph.vertices[edge.head]? = some point) (post : State) :
    g.edgeState edge post = .ok (g.along point.operation edge post) := by
  have hv : edge.head ∈ g.graph.vertices := mem_iff_exists_getElem?.2 ⟨point, hp⟩
  obtain ⟨edges, found, -⟩ := c.exists_edgesOut hv
  have siblings : g.edgesOut edge.head = .ok edges := found
  have opened : g.caseSet edge.head = caseValues edges := by rw [caseSet, siblings]
  have located := point_eq_ok.2 hp
  unfold edgeState along
  rw [located, opened]
  simp only [bind, Except.bind, pure, Except.pure, siblings]
  generalize point.operation = operation
  generalize edge.kind = kind
  cases operation <;> cases kind <;> rfl

/-- The edges out of a point have states, in the order of their tails. -/
theorem exists_edgeStates (c : g.graph.Consistent) {index : Nat} {point : Point}
    (hp : g.graph.vertices[index]? = some point) (post : State) :
    ∃ edges : List Edge, (edges.map Edge.tail).Nodup ∧
      (∀ edge, edge ∈ edges ↔ ∃ tail, g.graph.edges[(⟨index, tail⟩ : Link)]? = some edge) ∧
      g.edgeStates index post =
        .ok (edges.map fun edge => (edge, g.along point.operation edge post)) := by
  obtain ⟨edges, found, nodup, mem⟩ := c.exists_edgesOut (mem_iff_exists_getElem?.2 ⟨point, hp⟩)
  refine ⟨edges, nodup, mem, ?_⟩
  have each : ∀ edge ∈ edges,
      (do return (edge, ← g.edgeState edge post) : Except Error (Edge × Option State)) =
        .ok (edge, g.along point.operation edge post) := by
    intro edge he
    obtain ⟨tail, he⟩ := (mem edge).1 he
    have head : edge.head = index := (c.ends he).1
    rw [edgeState_eq c (by rwa [head])]
    rfl
  rw [edgeStates, edgesOut, found]
  exact mapM_eq_ok_map each

/-! ## Validity -/

/-- What a passed validity check says about the points. -/
structure Valid (g : FlowGraph) (entry : Nat) : Prop where
  entry_eq : g.entry = some entry
  entry_mem : entry ∈ g.graph.vertices
  sorted : ∀ {index : Nat} {point : Point}, g.graph.vertices[index]? = some point →
    point.operation.WellSorted

theorem exists_valid_of_validate (h : g.validate = .ok ()) : ∃ entry, g.Valid entry := by
  obtain ⟨entry, found, h⟩ := bind_eq_ok_iff.1 h
  have entry_eq : g.entry = some entry := by
    unfold entryIndex at found
    split at found
    · exact Except.ok.inj found ▸ ‹_›
    · cases found
  dsimp only at h
  split_ifs at h with entry_mem
  · refine ⟨entry, entry_eq, entry_mem, fun {index point} hp => ?_⟩
    obtain ⟨_, sorts, -⟩ :=
      bind_eq_ok_iff.1 (forM_eq_ok_iff.1 h point (mem_values_of_getElem? hp))
    exact Operation.checkSorts_eq_ok.1 sorts
  · cases h

end RangeFlow.FlowGraph
