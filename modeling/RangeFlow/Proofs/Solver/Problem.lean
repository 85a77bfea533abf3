import RangeFlow.Proofs.FlowGraph.Edges
import RangeFlow.Proofs.FlowGraph.Loops
import RangeFlow.Solver.Problem

/-!
# Problems of valid procedures

`Problem.Ready` is what the solver relies on: the order lists every point that control can get to
once, its look-ups succeed, and an edge to a point that is no loop header leads forward in the order.
The problem of a valid procedure is ready.
-/

namespace RangeFlow.Problem

/-- What the solver relies on. -/
structure Ready (p : Problem) : Prop where
  consistent : p.procedure.graph.graph.Consistent
  valid : p.procedure.graph.Valid p.entry
  nodup : p.order.Nodup
  entry_mem : p.entry ∈ p.order
  vertices : ∀ {v : Nat}, v ∈ p.order → v ∈ p.procedure.graph.graph.vertices
  closed : ∀ {v t : Nat}, v ∈ p.order → (⟨v, t⟩ : Link) ∈ p.procedure.graph.graph.edges →
    t ∈ p.order
  rank : ∀ {v : Nat}, v ∈ p.order → p.rank[v]? = some (p.order.idxOf v)
  forward : ∀ {v t : Nat}, v ∈ p.order → (⟨v, t⟩ : Link) ∈ p.procedure.graph.graph.edges →
    t ∉ p.headers → p.order.idxOf v < p.order.idxOf t

theorem Ready.rankOf {p : Problem} (ready : p.Ready) {v : Nat} (hv : v ∈ p.order) :
    p.rankOf v = .ok (p.order.idxOf v) := by
  rw [Problem.rankOf, ready.rank hv]

theorem Ready.length_order_le {p : Problem} (ready : p.Ready) :
    p.order.length ≤ p.procedure.graph.graph.vertices.size := by
  rw [← Std.ExtTreeMap.length_keys]
  refine (List.subperm_of_subset ready.nodup fun v hv => ?_).length_le
  exact Std.ExtTreeMap.mem_keys.2 (ready.vertices hv)

theorem getElem?_ofList_zipIdx {order : List Nat} (nodup : order.Nodup) {v : Nat}
    (hv : v ∈ order) :
    (Std.ExtTreeMap.ofList order.zipIdx : Std.ExtTreeMap Nat Nat)[v]? = some (order.idxOf v) := by
  have keys : order.zipIdx.map Prod.fst = order := List.zipIdx_map_fst 0 order
  have distinct : order.zipIdx.Pairwise fun a b => ¬compare a.1 b.1 = .eq := by
    have := List.pairwise_map.1 (keys.symm ▸ nodup : (order.zipIdx.map Prod.fst).Nodup)
    exact this.imp fun {a b} other same => other (Std.LawfulEqOrd.compare_eq_iff_eq.1 same)
  refine Std.ExtTreeMap.getElem?_ofList_of_mem Std.ReflOrd.compare_self distinct ?_
  exact List.mem_zipIdx_iff_getElem?.2 (List.getElem?_idxOf hv)

/-- A valid procedure over a consistent graph has a problem, and that is ready. -/
theorem exists_ofValid {procedure : Procedure} (c : procedure.graph.graph.Consistent)
    (h : procedure.validate = .ok ()) :
    ∃ p, ofValid procedure = .ok p ∧ p.procedure = procedure ∧ p.Ready := by
  obtain ⟨_, -, h⟩ := bind_eq_ok_iff.1 h
  obtain ⟨entry, valid⟩ := FlowGraph.exists_valid_of_validate h
  obtain ⟨walk, walked, sound⟩ := Digraph.exists_depthFirst c valid.entry_mem
  have entered := FlowGraph.entryIndex_eq_ok.2 valid.entry_eq
  have ordered : procedure.graph.reversePostOrder = .ok walk.reversePostOrder := by
    rw [FlowGraph.reversePostOrder, entered]
    change DepthFirst.reversePostOrder <$> procedure.graph.graph.depthFirst entry = _
    rw [walked]
    rfl
  obtain ⟨headers, headed, retreats⟩ := FlowGraph.exists_loopHeaders entered walked
  refine ⟨⟨procedure, entry, walk.reversePostOrder, .ofList walk.reversePostOrder.zipIdx, headers⟩,
    ?_, rfl, ?_⟩
  · simp only [ofValid, ordered, entered, headed, bind, Except.bind, pure, Except.pure]
  · refine ⟨c, valid, sound.nodup, sound.root_mem, fun hv => sound.vertices _ hv, sound.closed,
      getElem?_ofList_zipIdx sound.nodup, fun {v t} hv edge plain => ?_⟩
    exact sound.forward hv edge fun back => plain (retreats back)

/-- The problem of a procedure has the shape of its graph. -/
theorem ofValid_eq_ok {procedure : Procedure} {p : Problem} (h : ofValid procedure = .ok p) :
    procedure.graph.reversePostOrder = .ok p.order ∧ procedure.graph.loopHeaders = .ok p.headers := by
  obtain ⟨order, ordered, h⟩ := bind_eq_ok_iff.1 h
  obtain ⟨entry, -, h⟩ := bind_eq_ok_iff.1 h
  obtain ⟨headers, headed, h⟩ := bind_eq_ok_iff.1 h
  obtain rfl := Except.ok.inj h
  exact ⟨ordered, headed⟩

end RangeFlow.Problem
