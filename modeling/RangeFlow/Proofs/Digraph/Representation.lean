import RangeFlow.Proofs.Digraph.Basic
import RangeFlow.Proofs.InPlace

/-!
# The maps of a graph agree

A graph is changed in place, one map after the other. An insertion makes all its checks before its first
write, so a refused one leaves the graph as it was (`Call.perform_eq`). Whatever calls were made, refused
ones among them, the four maps are views of one relation, and the edges at a vertex are listed without
loss.

Main statement: `representation_invariant`.
-/

namespace RangeFlow.Digraph

open RangeFlow.InPlace (atomically outcome_atomically outcome_get_bind refuseIf outcome_refuseIf_bind
  refused_atomically_iff)

variable {ν ε : Type}

/-! ## Writes -/

/-- Adds a vertex without edges. -/
def writeVertex [Vertex ν] (v : ν) : InPlace (Digraph ν ε) Unit := do
  let index := Vertex.index v
  refuseIf (index ∈ (← get).vertices) (.duplicateVertex index)
  modify fun g => { g with successors := g.successors.insert index ∅ }
  modify fun g => { g with predecessors := g.predecessors.insert index ∅ }
  modify fun g => { g with vertices := g.vertices.insert index v }

/-- Adds an edge between two vertices of the graph. -/
def writeEdge [Arc ε] (e : ε) : InPlace (Digraph ν ε) Unit := do
  let head := Arc.head e
  let tail := Arc.tail e
  refuseIf (⟨head, tail⟩ ∈ (← get).edges) (.duplicateEdge head tail)
  refuseIf (head ∉ (← get).vertices) (.vertexMissing head)
  refuseIf (tail ∉ (← get).vertices) (.vertexMissing tail)
  modify fun g => { g with edges := g.edges.insert ⟨head, tail⟩ e }
  modify fun g => { g with successors := addTo g.successors head tail }
  modify fun g => { g with predecessors := addTo g.predecessors tail head }

/-- Replaces the label of a vertex. -/
def rewriteVertex (index : Nat) (f : ν → ν) : InPlace (Digraph ν ε) Unit := do
  match (← get).vertices[index]? with
  | some v => modify fun g => { g with vertices := g.vertices.insert index (f v) }
  | none => throw (.vertexMissing index)

/-- Replaces the label of an edge. -/
def rewriteEdge (head tail : Nat) (f : ε → ε) : InPlace (Digraph ν ε) Unit := do
  match (← get).edges[(⟨head, tail⟩ : Link)]? with
  | some e => modify fun g => { g with edges := g.edges.insert ⟨head, tail⟩ (f e) }
  | none => throw (.edgeMissing head tail)

theorem writeVertex_eq [Vertex ν] (v : ν) :
    writeVertex v = atomically fun g : Digraph ν ε => g.insertVertex v := by
  refine InPlace.ext fun g => ?_
  simp only [outcome_atomically, writeVertex, outcome_get_bind, outcome_refuseIf_bind, insertVertex]
  split_ifs <;> rfl

theorem writeEdge_eq [Arc ε] (e : ε) :
    writeEdge e = atomically fun g : Digraph ν ε => g.insertEdge e := by
  refine InPlace.ext fun g => ?_
  simp only [outcome_atomically, writeEdge, outcome_get_bind, outcome_refuseIf_bind, insertEdge]
  split_ifs <;> rfl

theorem rewriteVertex_eq (index : Nat) (f : ν → ν) :
    rewriteVertex index f = atomically fun g : Digraph ν ε => g.modifyVertex index f := by
  refine InPlace.ext fun g => ?_
  simp only [outcome_atomically, rewriteVertex, outcome_get_bind, modifyVertex, vertex]
  cases g.vertices[index]? <;> rfl

theorem rewriteEdge_eq (head tail : Nat) (f : ε → ε) :
    rewriteEdge head tail f = atomically fun g : Digraph ν ε => g.modifyEdge head tail f := by
  refine InPlace.ext fun g => ?_
  simp only [outcome_atomically, rewriteEdge, outcome_get_bind, modifyEdge, edge]
  cases g.edges[(⟨head, tail⟩ : Link)]? <;> rfl

/-! ## Refusals -/

section Refusals

variable {g : Digraph ν ε}

theorem insertVertex_fails_iff [Vertex ν] {v : ν} :
    (∃ error, g.insertVertex v = .error error) ↔ Vertex.index v ∈ g.vertices := by
  rw [insertVertex]
  split_ifs with present <;> simp [present]

theorem insertEdge_fails_iff [Arc ε] {e : ε} :
    (∃ error, g.insertEdge e = .error error) ↔ (⟨Arc.head e, Arc.tail e⟩ : Link) ∈ g.edges ∨
      Arc.head e ∉ g.vertices ∨ Arc.tail e ∉ g.vertices := by
  rw [insertEdge]
  split_ifs with present head tail <;> simp_all

theorem modifyVertex_fails_iff {index : Nat} {f : ν → ν} :
    (∃ error, g.modifyVertex index f = .error error) ↔ index ∉ g.vertices := by
  rw [mem_iff_exists_getElem?, modifyVertex, vertex]
  cases g.vertices[index]? <;> simp [bind, Except.bind, pure, Except.pure]

end Refusals

/-! ## Calls -/

section Calls

variable [Vertex ν] [Arc ε]

/-- A call on a graph that is changed in place. -/
def Call.perform : Call ν ε → InPlace (Digraph ν ε) Unit
  | insertVertex v => writeVertex v
  | insertEdge e => writeEdge e
  | modifyVertex index f _ => rewriteVertex index f
  | modifyEdge head tail f _ _ => rewriteEdge head tail f

/-- A call writes all of its update or nothing. -/
theorem Call.perform_eq (call : Call ν ε) : call.perform = atomically fun g => call.run g := by
  cases call with
  | insertVertex v => exact writeVertex_eq v
  | insertEdge e => exact writeEdge_eq e
  | modifyVertex index f keeps => exact rewriteVertex_eq index f
  | modifyEdge head tail f keepsHead keepsTail => exact rewriteEdge_eq head tail f

theorem history_perform (calls : List (Call ν ε)) :
    InPlace.history Call.perform empty calls = some (after calls) := by
  rw [funext Call.perform_eq]
  exact InPlace.history_atomically Call.run empty calls

end Calls

/-! ## Edges at a vertex -/

section Edges

variable [Vertex ν] [Arc ε] {g : Digraph ν ε}

omit [Vertex ν] [Arc ε] in
theorem Keyed.edgesOut_eq_error (k : g.Keyed) {v : Nat} (absent : v ∉ g.vertices) :
    g.edgesOut v = .error (.vertexMissing v) := by
  rw [edgesOut, successorsOf, Std.ExtTreeMap.getElem?_eq_none (mt k.successors.1 absent)]
  rfl

omit [Vertex ν] [Arc ε] in
theorem Keyed.edgesIn_eq_error (k : g.Keyed) {v : Nat} (absent : v ∉ g.vertices) :
    g.edgesIn v = .error (.vertexMissing v) := by
  rw [edgesIn, predecessorsOf, Std.ExtTreeMap.getElem?_eq_none (mt k.predecessors.1 absent)]
  rfl

theorem Consistent.exists_mem_successors_iff (c : g.Consistent) (k : g.Keyed) (h t : Nat) :
    (∃ tails, g.successors[h]? = some tails ∧ t ∈ tails) ↔ (⟨h, t⟩ : Link) ∈ g.edges := by
  constructor
  · rintro ⟨tails, found, mem⟩
    have kept : h ∈ g.vertices := k.successors.1 (mem_iff_exists_getElem?.2 ⟨tails, found⟩)
    obtain ⟨tails', found', members⟩ := c.successors kept
    obtain rfl := Option.some.inj (found.symm.trans found')
    exact (members t).1 mem
  · intro joined
    obtain ⟨tails, found, members⟩ := c.successors (c.head_mem joined)
    exact ⟨tails, found, (members t).2 joined⟩

theorem Consistent.exists_mem_predecessors_iff (c : g.Consistent) (k : g.Keyed) (h t : Nat) :
    (∃ heads, g.predecessors[t]? = some heads ∧ h ∈ heads) ↔ (⟨h, t⟩ : Link) ∈ g.edges := by
  constructor
  · rintro ⟨heads, found, mem⟩
    have kept : t ∈ g.vertices := k.predecessors.1 (mem_iff_exists_getElem?.2 ⟨heads, found⟩)
    obtain ⟨heads', found', members⟩ := c.predecessors kept
    obtain rfl := Option.some.inj (found.symm.trans found')
    exact (members h).1 mem
  · intro joined
    obtain ⟨heads, found, members⟩ := c.predecessors (c.tail_mem joined)
    exact ⟨heads, found, (members h).2 joined⟩

end Edges

/-- Any run of calls on a graph that is changed in place leaves maps that agree: successors and
predecessors are kept for exactly the vertices and name exactly the edges, and each label stands under
the place it names. The edges at a vertex are listed in order and without loss. An insertion is refused
exactly for what is there already or for an end that is missing, and a call that is refused leaves the
graph as it was. -/
theorem representation_invariant [Vertex ν] [Arc ε] (calls : List (Call ν ε)) :
    ∃ g : Digraph ν ε, InPlace.history Call.perform empty calls = some g ∧ g = after calls ∧
      (∀ v, (v ∈ g.successors ↔ v ∈ g.vertices) ∧ (v ∈ g.predecessors ↔ v ∈ g.vertices)) ∧
      (∀ h t,
        ((∃ tails, g.successors[h]? = some tails ∧ t ∈ tails) ↔ (⟨h, t⟩ : Link) ∈ g.edges) ∧
        ((∃ heads, g.predecessors[t]? = some heads ∧ h ∈ heads) ↔ (⟨h, t⟩ : Link) ∈ g.edges)) ∧
      (∀ (l : Link) (e : ε), g.edges[l]? = some e →
        l = ⟨Arc.head e, Arc.tail e⟩ ∧ Arc.head e ∈ g.vertices ∧ Arc.tail e ∈ g.vertices) ∧
      (∀ (k : Nat) (v : ν), g.vertices[k]? = some v → Vertex.index v = k) ∧
      (∀ v ∈ g.vertices, (∃ es, g.edgesOut v = .ok es ∧ g.Lists Arc.head Arc.tail v es) ∧
        ∃ es, g.edgesIn v = .ok es ∧ g.Lists Arc.tail Arc.head v es) ∧
      (∀ v ∉ g.vertices, g.edgesOut v = .error (.vertexMissing v) ∧
        g.edgesIn v = .error (.vertexMissing v)) ∧
      (∀ v, (writeVertex v).Refused g ↔ Vertex.index v ∈ g.vertices) ∧
      (∀ e, (writeEdge e).Refused g ↔ (⟨Arc.head e, Arc.tail e⟩ : Link) ∈ g.edges ∨
        Arc.head e ∉ g.vertices ∨ Arc.tail e ∉ g.vertices) ∧
      ∀ call : Call ν ε, (∃ g', call.run g = .ok g' ∧ call.perform.outcome g = some (.ok (), g')) ∨
        ∃ e, call.run g = .error e ∧ call.perform.outcome g = some (.error e, g) := by
  have c : (after calls).Consistent := Built.consistent ⟨calls, rfl⟩
  have k := keyed_after calls
  refine ⟨after calls, history_perform calls, rfl, fun v => ⟨k.successors, k.predecessors⟩,
    fun h t => ⟨c.exists_mem_successors_iff k h t, c.exists_mem_predecessors_iff k h t⟩,
    fun l e he => ?_, fun _ _ => c.index, fun v hv => ⟨c.lists_edgesOut hv, c.lists_edgesIn hv⟩,
    fun v absent => ⟨k.edgesOut_eq_error absent, k.edgesIn_eq_error absent⟩,
    fun v => ?_, fun e => ?_, fun call => ?_⟩
  · obtain ⟨head, tail⟩ := c.ends he
    have present : l ∈ (after calls).edges := mem_iff_exists_getElem?.2 ⟨e, he⟩
    rw [head, tail]
    exact ⟨rfl, c.head_mem present, c.tail_mem present⟩
  · rw [writeVertex_eq, refused_atomically_iff, insertVertex_fails_iff]
  · rw [writeEdge_eq, refused_atomically_iff, insertEdge_fails_iff]
  · rw [call.perform_eq, outcome_atomically]
    cases call.run (after calls) with
    | ok g' => exact .inl ⟨g', rfl, rfl⟩
    | error e => exact .inr ⟨e, rfl, rfl⟩

end RangeFlow.Digraph
