import RangeFlow.Codec.Procedure
import RangeFlow.Proofs.Digraph.Basic
import RangeFlow.Proofs.Result

/-!
# Graphs that can be built

`FlowGraph.Built` says that a graph comes out of the construction functions. Such a graph is consistent
(`FlowGraph.Built.consistent`). Reading a graph from a value tree builds it (`FlowGraph.built_ofJson`).
-/

namespace RangeFlow.FlowGraph

/-- A graph that was put together by successful construction steps. -/
inductive Built : FlowGraph → Prop where
  | empty : Built empty
  | insertPoint {g g' : FlowGraph} {index : Nat} {operation : Operation} :
      Built g → g.insertPoint index operation = .ok g' → Built g'
  | newPoint {g g' : FlowGraph} {index : Nat} {operation : Operation} :
      Built g → g.newPoint operation = .ok (index, g') → Built g'
  | setEntry {g g' : FlowGraph} {index : Nat} :
      Built g → g.setEntry index = .ok g' → Built g'
  | setComment {g g' : FlowGraph} {index : Nat} {comment : String} :
      Built g → g.setComment index comment = .ok g' → Built g'
  | insertEdge {g g' : FlowGraph} {head tail : Nat} {kind : EdgeKind} :
      Built g → g.insertEdge head tail kind = .ok g' → Built g'

/-! ## Steps -/

variable {g g' : FlowGraph}

theorem insertPoint_eq_ok {index : Nat} {operation : Operation}
    (h : g.insertPoint index operation = .ok g') :
    ∃ graph, g.graph.insertVertex ⟨index, operation, none⟩ = .ok graph ∧
      g' = { g with graph, nextIndex := max g.nextIndex (index + 1) } := by
  obtain ⟨graph, inserted, h⟩ := bind_eq_ok_iff.1 h
  exact ⟨graph, inserted, (Except.ok.inj h).symm⟩

theorem newPoint_eq_ok {index : Nat} {operation : Operation}
    (h : g.newPoint operation = .ok (index, g')) :
    index = g.nextIndex ∧ g.insertPoint g.nextIndex operation = .ok g' := by
  obtain ⟨extended, inserted, h⟩ := bind_eq_ok_iff.1 h
  obtain ⟨rfl, rfl⟩ := Prod.mk.inj (Except.ok.inj h)
  exact ⟨rfl, inserted⟩

theorem setEntry_eq_ok {index : Nat} (h : g.setEntry index = .ok g') :
    index ∈ g.graph.vertices ∧ g' = { g with entry := some index } := by
  unfold FlowGraph.setEntry at h
  split_ifs at h with present
  exact ⟨Std.ExtTreeMap.contains_iff_mem.1 present, (Except.ok.inj h).symm⟩

theorem setComment_eq_ok {index : Nat} {comment : String}
    (h : g.setComment index comment = .ok g') :
    ∃ graph, g.graph.modifyVertex index (fun point => { point with comment := some comment }) =
      .ok graph ∧ g' = { g with graph } := by
  obtain ⟨graph, modified, h⟩ := bind_eq_ok_iff.1 h
  exact ⟨graph, modified, (Except.ok.inj h).symm⟩

/-- An edge is either new or merged with the one that is there. -/
theorem insertEdge_eq_ok {head tail : Nat} {kind : EdgeKind}
    (h : g.insertEdge head tail kind = .ok g') :
    (∃ graph, g.graph.edges[(⟨head, tail⟩ : Link)]? = none ∧
      g.graph.insertEdge ⟨head, tail, kind⟩ = .ok graph ∧ g' = { g with graph }) ∨
    ∃ present merged graph, g.graph.edges[(⟨head, tail⟩ : Link)]? = some present ∧
      present.kind.merge? kind = some merged ∧
      g.graph.modifyEdge head tail (fun edge => { edge with kind := merged }) = .ok graph ∧
      g' = { g with graph } := by
  unfold FlowGraph.insertEdge at h
  split at h
  · rename_i absent
    obtain ⟨graph, inserted, h⟩ := bind_eq_ok_iff.1 h
    exact .inl ⟨graph, absent, inserted, (Except.ok.inj h).symm⟩
  · rename_i present found
    split at h
    · rename_i merged merges
      obtain ⟨graph, modified, h⟩ := bind_eq_ok_iff.1 h
      exact .inr ⟨present, merged, graph, found, merges, modified, (Except.ok.inj h).symm⟩
    · cases h

/-- What an added edge does to the edges: it stands for itself, or is merged with the one that was
there. -/
theorem exists_stored_of_insertEdge {head tail : Nat} {kind : EdgeKind}
    (h : g.insertEdge head tail kind = .ok g') :
    g'.graph.vertices = g.graph.vertices ∧ ∃ edge : Edge,
      (∀ link : Link, g'.graph.edges[link]? = if link = ⟨head, tail⟩ then some edge else g.graph.edges[link]?) ∧
      ((g.graph.edges[(⟨head, tail⟩ : Link)]? = none ∧ edge.kind = kind) ∨
        ∃ present, g.graph.edges[(⟨head, tail⟩ : Link)]? = some present ∧
          present.kind.merge? kind = some edge.kind) := by
  rcases insertEdge_eq_ok h with ⟨graph, absent, inserted, rfl⟩ |
    ⟨present, merged, graph, found, merges, modified, rfl⟩
  · obtain ⟨-, -, rfl⟩ := Digraph.insertEdge_eq_ok inserted
    exact ⟨rfl, ⟨head, tail, kind⟩, fun _ => getElem?_insert_eq, .inl ⟨absent, rfl⟩⟩
  · obtain ⟨edge, found', rfl⟩ := Digraph.modifyEdge_eq_ok modified
    obtain rfl := Option.some.inj (found.symm.trans found')
    exact ⟨rfl, { present with kind := merged }, fun _ => getElem?_insert_eq,
      .inr ⟨present, found, merges⟩⟩

/-! ## Consistency -/

theorem consistent_insertPoint (c : g.graph.Consistent) {index : Nat} {operation : Operation}
    (h : g.insertPoint index operation = .ok g') : g'.graph.Consistent := by
  obtain ⟨graph, inserted, rfl⟩ := insertPoint_eq_ok h
  exact c.insertVertex inserted

theorem consistent_insertEdge (c : g.graph.Consistent) {head tail : Nat} {kind : EdgeKind}
    (h : g.insertEdge head tail kind = .ok g') : g'.graph.Consistent := by
  rcases insertEdge_eq_ok h with ⟨graph, -, inserted, rfl⟩ | ⟨_, _, graph, -, -, modified, rfl⟩
  · exact c.insertEdge inserted
  · refine c.modifyEdge ?_ ?_ modified
    · exact fun _ => rfl
    · exact fun _ => rfl

/-- Every graph that can be built is consistent. -/
theorem Built.consistent (h : g.Built) : g.graph.Consistent := by
  induction h with
  | empty => exact Digraph.consistent_empty
  | insertPoint _ step c => exact consistent_insertPoint c step
  | newPoint _ step c => exact consistent_insertPoint c (newPoint_eq_ok step).2
  | setEntry _ step c =>
    obtain ⟨-, rfl⟩ := setEntry_eq_ok step
    exact c
  | setComment _ step c =>
    obtain ⟨graph, modified, rfl⟩ := setComment_eq_ok step
    refine c.modifyVertex ?_ modified
    exact fun _ => rfl
  | insertEdge _ step c => exact consistent_insertEdge c step

/-! ## Reading -/

theorem Built.addPoint (built : g.Built) {point : Point} (h : g.addPoint point = .ok g') :
    g'.Built := by
  obtain ⟨g₁, inserted, h⟩ := bind_eq_ok_iff.1 h
  have built₁ := built.insertPoint inserted
  cases comment : point.comment with
  | none =>
    rw [comment] at h
    obtain rfl := Except.ok.inj h
    exact built₁
  | some text =>
    rw [comment] at h
    exact built₁.setComment h

theorem built_assemble {entry : Option Nat} {points : List Point} {edges : List Edge}
    (h : assemble entry points edges = .ok g) : g.Built := by
  obtain ⟨g₁, pointsAdded, h⟩ := bind_eq_ok_iff.1 h
  obtain ⟨g₂, edgesAdded, h⟩ := bind_eq_ok_iff.1 h
  have built₁ : g₁.Built :=
    foldlM_induction .empty (fun _ built step => built.addPoint step) pointsAdded
  have built₂ : g₂.Built :=
    foldlM_induction built₁ (fun _ built step => built.insertEdge step) edgesAdded
  cases entry with
  | none => cases h
  | some entry => exact built₂.setEntry h

/-- Parts that do not assemble leave the empty graph, so nothing has to be decided about the parts. -/
theorem built_getD_assemble (entry : Option Nat) (points : List Point) (edges : List Edge) :
    ((assemble entry points edges).toOption.getD .empty).Built := by
  cases assembled : assemble entry points edges with
  | error e => exact .empty
  | ok g => exact built_assemble assembled

/-- A graph that is read is made up of the parts that are read, and valid. -/
theorem ofJson_eq_ok {source : Json.Source} {json : Json} (h : ofJson source json = .ok g) :
    ∃ (fields : Json.Fields) (entry : Option Nat) (points : List Point) (edges : List Edge),
      fields.get "points" (Json.toList (Point.ofJson source)) = .ok points ∧
      fields.get "edges" (Json.toList Edge.ofJson) = .ok edges ∧
      assemble entry points edges = .ok g ∧ g.validate = .ok () := by
  obtain ⟨fields, -, h⟩ := bind_eq_ok_iff.1 h
  obtain ⟨entry, -, h⟩ := bind_eq_ok_iff.1 h
  obtain ⟨points, pointsRead, h⟩ := bind_eq_ok_iff.1 h
  obtain ⟨edges, edgesRead, h⟩ := bind_eq_ok_iff.1 h
  have accepted : ofParts entry points edges = .ok g := by
    cases parts : ofParts entry points edges with
    | ok g₁ =>
      rw [parts] at h
      exact h
    | error e =>
      rw [parts] at h
      cases h
  obtain ⟨g₁, assembled, h⟩ := bind_eq_ok_iff.1 accepted
  obtain ⟨_, valid, h⟩ := bind_eq_ok_iff.1 h
  obtain rfl := Except.ok.inj h
  exact ⟨fields, entry, points, edges, pointsRead, edgesRead, assembled, valid⟩

/-- Reading a graph builds it. -/
theorem built_ofJson {source : Json.Source} {json : Json} (h : ofJson source json = .ok g) :
    g.Built := by
  obtain ⟨_, _, _, _, -, -, assembled, -⟩ := ofJson_eq_ok h
  exact built_assemble assembled

end RangeFlow.FlowGraph
