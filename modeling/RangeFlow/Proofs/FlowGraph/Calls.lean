import RangeFlow.Proofs.FlowGraph.Construction

/-!
# Runs of construction calls

Every construction step keeps a graph intact: its maps agree, its entry is one of its points, and the
next index is one above the largest (`FlowGraph.Intact`). An intact graph is determined by its points,
its edges and its entry (`FlowGraph.Intact.ext`). A call that is refused leaves the graph as it is, so
what successful steps build is all that any run of calls leaves (`FlowGraph.built_after`).
-/

namespace RangeFlow.FlowGraph

variable {g g' : FlowGraph}

/-! ## Intact graphs -/

/-- What construction keeps. -/
structure Intact (g : FlowGraph) : Prop where
  consistent : g.graph.Consistent
  keyed : g.graph.Keyed
  entry_mem : ∀ {entry : Nat}, g.entry = some entry → entry ∈ g.graph.vertices
  lt_nextIndex : ∀ {index : Nat}, index ∈ g.graph.vertices → index < g.nextIndex
  nextIndex_eq : g.nextIndex = 0 ∨ ∃ index ∈ g.graph.vertices, g.nextIndex = index + 1

theorem intact_empty : empty.Intact where
  consistent := Digraph.consistent_empty
  keyed := Digraph.keyed_empty
  entry_mem h := by cases h
  lt_nextIndex h := by simp [empty, Digraph.empty] at h
  nextIndex_eq := .inl rfl

/-- A graph whose maps are exchanged for others with the same points is intact. -/
theorem Intact.exchange (i : g.Intact) {graph : Digraph Point Edge} (c : graph.Consistent)
    (k : graph.Keyed) (same : ∀ index, index ∈ graph.vertices ↔ index ∈ g.graph.vertices) :
    Intact { g with graph } where
  consistent := c
  keyed := k
  entry_mem h := (same _).2 (i.entry_mem h)
  lt_nextIndex h := i.lt_nextIndex ((same _).1 h)
  nextIndex_eq := i.nextIndex_eq.imp_right fun ⟨index, present, next⟩ =>
    ⟨index, (same index).2 present, next⟩

theorem Intact.insertPoint (i : g.Intact) {index : Nat} {operation : Operation}
    (h : g.insertPoint index operation = .ok g') : g'.Intact := by
  obtain ⟨graph, inserted, rfl⟩ := insertPoint_eq_ok h
  have mem {k : Nat} : k ∈ graph.vertices ↔ k = index ∨ k ∈ g.graph.vertices := by
    obtain ⟨-, rfl⟩ := Digraph.insertVertex_eq_ok inserted
    exact mem_map_insert_iff
  refine ⟨i.consistent.insertVertex inserted, i.keyed.insertVertex inserted,
    fun entered => mem.2 (.inr (i.entry_mem entered)), fun {k} present => ?_, .inr ?_⟩
  · show k < max g.nextIndex (index + 1)
    rcases mem.1 present with rfl | old
    · omega
    · have := i.lt_nextIndex old
      omega
  · show ∃ k ∈ graph.vertices, max g.nextIndex (index + 1) = k + 1
    -- The largest index is the new one or the one that was largest before.
    by_cases larger : g.nextIndex ≤ index + 1
    · exact ⟨index, mem.2 (.inl rfl), by omega⟩
    · obtain none_yet | ⟨largest, old, next⟩ := i.nextIndex_eq
      · omega
      · exact ⟨largest, mem.2 (.inr old), by omega⟩

theorem Intact.setEntry (i : g.Intact) {index : Nat} (h : g.setEntry index = .ok g') :
    g'.Intact := by
  obtain ⟨present, rfl⟩ := setEntry_eq_ok h
  exact { i with entry_mem := fun entered => Option.some.inj entered ▸ present }

theorem Intact.setComment (i : g.Intact) {index : Nat} {comment : String}
    (h : g.setComment index comment = .ok g') : g'.Intact := by
  obtain ⟨graph, modified, rfl⟩ := setComment_eq_ok h
  refine i.exchange (i.consistent.modifyVertex ?_ modified) (i.keyed.modifyVertex modified) ?_
  · exact fun _ => rfl
  · intro k
    obtain ⟨point, found, rfl⟩ := Digraph.modifyVertex_eq_ok modified
    rw [mem_map_insert_iff, or_iff_right_of_imp]
    rintro rfl
    exact mem_iff_exists_getElem?.2 ⟨point, found⟩

theorem Intact.insertEdge (i : g.Intact) {head tail : Nat} {kind : EdgeKind}
    (h : g.insertEdge head tail kind = .ok g') : g'.Intact := by
  have c := consistent_insertEdge i.consistent h
  rcases insertEdge_eq_ok h with ⟨graph, -, inserted, rfl⟩ | ⟨_, _, graph, -, -, modified, rfl⟩
  · refine i.exchange c (i.keyed.insertEdge inserted) fun k => ?_
    obtain ⟨-, -, rfl⟩ := Digraph.insertEdge_eq_ok inserted
    exact Iff.rfl
  · refine i.exchange c (i.keyed.modifyEdge modified) fun k => ?_
    obtain ⟨-, -, rfl⟩ := Digraph.modifyEdge_eq_ok modified
    exact Iff.rfl

theorem Built.intact (built : g.Built) : g.Intact := by
  induction built with
  | empty => exact intact_empty
  | insertPoint _ step i => exact i.insertPoint step
  | newPoint _ step i => exact i.insertPoint (newPoint_eq_ok step).2
  | setEntry _ step i => exact i.setEntry step
  | setComment _ step i => exact i.setComment step
  | insertEdge _ step i => exact i.insertEdge step

/-- An intact graph is determined by its points, its edges and its entry. -/
theorem Intact.ext (i : g.Intact) (i' : g'.Intact) (points : g.graph.vertices = g'.graph.vertices)
    (edges : g.graph.edges = g'.graph.edges) (entry : g.entry = g'.entry) : g = g' := by
  have graph : g.graph = g'.graph := i.consistent.ext i.keyed i'.consistent i'.keyed points edges
  have next : g.nextIndex = g'.nextIndex := by
    have le {a b : FlowGraph} (ia : a.Intact) (ib : b.Intact)
        (same : a.graph.vertices = b.graph.vertices) : a.nextIndex ≤ b.nextIndex := by
      rcases ia.nextIndex_eq with none_yet | ⟨index, present, next⟩
      · omega
      · have := ib.lt_nextIndex (same ▸ present)
        omega
    exact le_antisymm (le i i' points) (le i' i points.symm)
  cases g
  cases g'
  simp_all

/-! ## Calls -/

/-- A call of one of the construction functions. An edge of a fixed kind is added by `insertEdge`. -/
inductive Call where
  | newPoint (operation : Operation)
  | insertPoint (index : Nat) (operation : Operation)
  | setEntry (index : Nat)
  | setComment (index : Nat) (comment : String)
  | insertEdge (head tail : Nat) (kind : EdgeKind)

/-- The graph that a call returns. -/
def Call.run (g : FlowGraph) : Call → Except Error FlowGraph
  | .newPoint operation => (g.newPoint operation).map Prod.snd
  | .insertPoint index operation => g.insertPoint index operation
  | .setEntry index => g.setEntry index
  | .setComment index comment => g.setComment index comment
  | .insertEdge head tail kind => g.insertEdge head tail kind

/-- What there is after a call: what it returns, or the graph as it was where the call fails. -/
def Call.leave (g : FlowGraph) (call : Call) : FlowGraph := (call.run g).toOption.getD g

/-- The graph that a run of calls leaves, the first of them made on the empty graph. -/
def after (calls : List Call) : FlowGraph := calls.foldl Call.leave empty

theorem Call.leave_eq (g : FlowGraph) (call : Call) :
    call.leave g = g ∨ call.run g = .ok (call.leave g) := by
  unfold Call.leave
  cases call.run g with
  | ok g' => exact .inr rfl
  | error e => exact .inl rfl

theorem Built.run (built : g.Built) {call : Call} (h : call.run g = .ok g') : g'.Built := by
  cases call with
  | newPoint operation =>
    obtain ⟨⟨index, extended⟩, step, rfl⟩ := exists_of_map_eq_ok h
    exact built.newPoint step
  | insertPoint index operation => exact built.insertPoint h
  | setEntry index => exact built.setEntry h
  | setComment index comment => exact built.setComment h
  | insertEdge head tail kind => exact built.insertEdge h

/-- What holds of the empty graph and is kept by every successful call that is made holds of the graph
that the calls leave. -/
theorem after_induction {P : FlowGraph → Prop} {calls : List Call} (start : P empty)
    (step : ∀ {g g'} {call : Call}, call ∈ calls → P g → call.run g = .ok g' → P g') :
    P (after calls) := by
  unfold after
  refine List.foldlRecOn calls _ start fun g kept call made => ?_
  rcases call.leave_eq g with refused | done
  · rwa [refused]
  · exact step made kept done

/-- A run of calls builds the graph that it leaves. -/
theorem built_after (calls : List Call) : (after calls).Built :=
  after_induction .empty fun _ built done => built.run done

end RangeFlow.FlowGraph
