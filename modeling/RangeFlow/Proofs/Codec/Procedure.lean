import RangeFlow.Json.Printer
import RangeFlow.Proofs.Codec.Program
import RangeFlow.Proofs.FlowGraph.Calls
import RangeFlow.Proofs.Journal.Noted

/-!
# Graphs and procedures that survive

A graph is written as its entry, its points and its edges, and reading adds them one by one again. The
keys of the points and of the edges are distinct, so nothing is refused or merged on the way, and what
comes out is the graph that was written (`FlowGraph.assemble_parts`). Reading refuses a graph for the
reason for which it is not valid.
-/

namespace RangeFlow

/-! ## Adding entries one by one -/

section Adding

variable {σ κ β : Type} [DecidableEq κ] {add : σ → β → Except Error σ} {lookup : σ → κ → Option β}
  {key : β → κ} {K : σ → Prop} {l : List β}

/-- A fold that adds values under distinct keys adds them all, if each can be added while its key is
free. -/
theorem exists_foldlM_add
    (each : ∀ {s b}, b ∈ l → K s → lookup s (key b) = none → ∃ s', add s b = .ok s' ∧ K s' ∧
      ∀ k, lookup s' k = if k = key b then some b else lookup s k)
    (nodup : (l.map key).Nodup) {s : σ} (start : K s) (free : ∀ b ∈ l, lookup s (key b) = none) :
    ∃ s', l.foldlM add s = .ok s' ∧ K s' ∧
      ∀ k b, lookup s' k = some b ↔ b ∈ l ∧ key b = k ∨ lookup s k = some b := by
  induction l generalizing s with
  | nil => exact ⟨s, rfl, start, by simp⟩
  | cons b l ih =>
    rw [List.map_cons, List.nodup_cons] at nodup
    obtain ⟨s₁, added, kept, first⟩ := each List.mem_cons_self start (free b List.mem_cons_self)
    have still : ∀ c ∈ l, lookup s₁ (key c) = none := by
      intro c mem
      rw [first, if_neg, free c (List.mem_cons_of_mem _ mem)]
      intro same
      exact nodup.1 (List.mem_map.2 ⟨c, mem, same⟩)
    obtain ⟨s₂, others, kept, rest⟩ :=
      ih (fun mem => each (List.mem_cons_of_mem _ mem)) nodup.2 kept still
    refine ⟨s₂, ?_, kept, fun k c => ?_⟩
    · rw [List.foldlM_cons, added]
      exact others
    · rw [rest, first]
      have unkept := free b List.mem_cons_self
      grind

/-- Where there is nothing at first, what is added is all there is. -/
theorem exists_foldlM_fill
    (each : ∀ {s b}, b ∈ l → K s → lookup s (key b) = none → ∃ s', add s b = .ok s' ∧ K s' ∧
      ∀ k, lookup s' k = if k = key b then some b else lookup s k)
    (nodup : (l.map key).Nodup) {s : σ} (start : K s) (bare : ∀ k, lookup s k = none) :
    ∃ s', l.foldlM add s = .ok s' ∧ K s' ∧
      ∀ k b, lookup s' k = some b ↔ b ∈ l ∧ key b = k := by
  obtain ⟨s', added, kept, found⟩ := exists_foldlM_add each nodup start fun b _ => bare (key b)
  refine ⟨s', added, kept, fun k b => ?_⟩
  rw [found, bare]
  simp

end Adding

namespace FlowGraph

variable {g g' : FlowGraph}

/-! ## Building a graph up again -/

theorem exists_insertPoint {index : Nat} (free : g.graph.vertices[index]? = none)
    (operation : Operation) :
    ∃ g', g.insertPoint index operation = .ok g' ∧ g'.graph.edges = g.graph.edges ∧
      ∀ k, g'.graph.vertices[k]? =
        if k = index then some ⟨index, operation, none⟩ else g.graph.vertices[k]? := by
  have absent : index ∉ g.graph.vertices := by
    rw [mem_iff_exists_getElem?, free]
    simp
  obtain ⟨graph, inserted⟩ : ∃ graph, g.graph.insertVertex ⟨index, operation, none⟩ = .ok graph :=
    ⟨_, if_neg absent⟩
  rw [insertPoint, inserted, ok_bind]
  obtain ⟨-, rfl⟩ := Digraph.insertVertex_eq_ok inserted
  exact ⟨_, rfl, rfl, fun k => getElem?_insert_eq⟩

theorem exists_setComment {index : Nat} {point : Point}
    (found : g.graph.vertices[index]? = some point) (comment : String) :
    ∃ g', g.setComment index comment = .ok g' ∧ g'.graph.edges = g.graph.edges ∧
      ∀ k, g'.graph.vertices[k]? =
        if k = index then some { point with comment := some comment } else g.graph.vertices[k]? := by
  rw [setComment, Digraph.modifyVertex, Digraph.vertex, found]
  exact ⟨_, rfl, rfl, fun k => getElem?_insert_eq⟩

/-- A point with its comment can be added where its index is free. -/
theorem exists_addPoint {point : Point} (free : g.graph.vertices[point.index]? = none) :
    ∃ g', g.addPoint point = .ok g' ∧ g'.graph.edges = g.graph.edges ∧
      ∀ k, g'.graph.vertices[k]? = if k = point.index then some point else g.graph.vertices[k]? := by
  obtain ⟨index, operation, comment⟩ := point
  obtain ⟨g₁, inserted, edges₁, lookup₁⟩ := exists_insertPoint free operation
  rw [addPoint, inserted, ok_bind]
  cases comment with
  | none => exact ⟨g₁, rfl, edges₁, lookup₁⟩
  | some comment =>
    have found : g₁.graph.vertices[index]? = some ⟨index, operation, none⟩ := by
      rw [lookup₁, if_pos rfl]
    obtain ⟨g₂, commented, edges₂, lookup₂⟩ := exists_setComment found comment
    refine ⟨g₂, commented, edges₂.trans edges₁, fun k => ?_⟩
    rw [lookup₂, lookup₁]
    split_ifs <;> rfl

/-- An edge can be added between points where there is none. -/
theorem exists_addEdge {edge : Edge} (head : edge.head ∈ g.graph.vertices)
    (tail : edge.tail ∈ g.graph.vertices) (free : g.graph.edges[edge.link]? = none) :
    ∃ g', g.addEdge edge = .ok g' ∧ g'.graph.vertices = g.graph.vertices ∧
      ∀ l, g'.graph.edges[l]? = if l = edge.link then some edge else g.graph.edges[l]? := by
  have absent : edge.link ∉ g.graph.edges := by
    rw [mem_iff_exists_getElem?, free]
    simp
  obtain ⟨graph, inserted⟩ : ∃ graph, g.graph.insertEdge edge = .ok graph :=
    ⟨_, (if_neg absent).trans ((if_neg (not_not.2 head)).trans (if_neg (not_not.2 tail)))⟩
  have added : g.addEdge edge = .ok { g with graph } := by
    rw [addEdge, insertEdge, show g.graph.edges[(⟨edge.head, edge.tail⟩ : Link)]? = none from free]
    exact congrArg (· >>= _) inserted
  obtain ⟨-, -, rfl⟩ := Digraph.insertEdge_eq_ok inserted
  exact ⟨_, added, rfl, fun l => getElem?_insert_eq⟩

/-- Points with distinct indices make up a graph without edges. -/
theorem exists_addPoints {points : List Point} (nodup : (points.map Point.index).Nodup) :
    ∃ g', points.foldlM addPoint empty = .ok g' ∧ (g'.Built ∧ g'.graph.edges = ∅) ∧
      ∀ k point, g'.graph.vertices[k]? = some point ↔ point ∈ points ∧ point.index = k := by
  refine exists_foldlM_fill (fun {g point} _ kept free => ?_) nodup ⟨.empty, rfl⟩ ?_
  · obtain ⟨g', added, edges, lookup⟩ := exists_addPoint free
    exact ⟨g', added, ⟨kept.1.addPoint added, edges.trans kept.2⟩, lookup⟩
  · simp [empty, Digraph.empty]

/-- Distinct edges between points are added to them. -/
theorem exists_addEdges (built : g.Built) (none_yet : g.graph.edges = ∅) {edges : List Edge}
    (nodup : (edges.map Edge.link).Nodup) (ends : ∀ edge ∈ edges,
      edge.head ∈ g.graph.vertices ∧ edge.tail ∈ g.graph.vertices) :
    ∃ g', edges.foldlM addEdge g = .ok g' ∧
      (g'.Built ∧ g'.graph.vertices = g.graph.vertices) ∧
      ∀ l edge, g'.graph.edges[l]? = some edge ↔ edge ∈ edges ∧ edge.link = l := by
  refine exists_foldlM_fill (fun {g₁ edge} mem kept free => ?_) nodup ⟨built, rfl⟩ ?_
  · obtain ⟨head, tail⟩ := ends edge mem
    obtain ⟨g₂, added, vertices, lookup⟩ :=
      exists_addEdge (kept.2 ▸ head) (kept.2 ▸ tail) free
    exact ⟨g₂, added, ⟨kept.1.insertEdge added, vertices.trans kept.2⟩, lookup⟩
  · simp [none_yet]

theorem index_eq (c : g.graph.Consistent) {k : Nat} {point : Point}
    (found : g.graph.vertices[k]? = some point) : point.index = k := c.index found

theorem link_eq (c : g.graph.Consistent) {link : Link} {edge : Edge}
    (found : g.graph.edges[link]? = some edge) : edge.link = link := by
  obtain ⟨head, tail⟩ := c.ends found
  cases link
  exact congrArg₂ Link.mk head tail

/-- The points and edges of a graph make up a graph with the same points and edges. -/
theorem exists_parts (i : g.Intact) :
    ∃ g₁ g₂, g.points.foldlM addPoint empty = .ok g₁ ∧ g.edges.foldlM addEdge g₁ = .ok g₂ ∧
      g₂.Built ∧ g₂.graph.vertices = g.graph.vertices ∧ g₂.graph.edges = g.graph.edges := by
  have c := i.consistent
  obtain ⟨g₁, pointsAdded, ⟨built₁, none_yet⟩, points⟩ := exists_addPoints (nodup_map_values (index_eq c))
  have vertices : g₁.graph.vertices = g.graph.vertices := eq_of_getElem?_iff (index_eq c) points
  have ends : ∀ edge ∈ g.edges, edge.head ∈ g₁.graph.vertices ∧ edge.tail ∈ g₁.graph.vertices := by
    intro edge mem
    have found := (mem_values_iff (link_eq c)).1 mem
    have present := mem_iff_exists_getElem?.2 ⟨edge, found⟩
    rw [vertices]
    exact ⟨c.head_mem present, c.tail_mem present⟩
  obtain ⟨g₂, edgesAdded, ⟨built₂, kept⟩, edges⟩ :=
    exists_addEdges built₁ none_yet (nodup_map_values (link_eq c)) ends
  exact ⟨g₁, g₂, pointsAdded, edgesAdded, built₂, kept.trans vertices,
    eq_of_getElem?_iff (link_eq c) edges⟩

/-- A graph is what its entry, its points and its edges make up. -/
theorem assemble_parts (i : g.Intact) {entry : Nat} (entered : g.entry = some entry) :
    assemble (some entry) g.points g.edges = .ok g := by
  obtain ⟨g₁, g₂, pointsAdded, edgesAdded, built₂, vertices, edges⟩ := exists_parts i
  have present : g₂.graph.hasVertex entry = true := by
    rw [Digraph.hasVertex, Std.ExtTreeMap.contains_iff_mem, vertices]
    exact i.entry_mem entered
  have last : g₂.setEntry entry = .ok { g₂ with entry := some entry } := if_pos present
  have same : { g₂ with entry := some entry } = g :=
    (built₂.setEntry last).intact.ext i vertices edges entered.symm
  rw [assemble, pointsAdded, ok_bind, edgesAdded, ok_bind]
  exact last.trans (congrArg _ same)

/-- Making a graph up from its parts fails only where the graph is not valid. -/
theorem ofParts_parts (i : g.Intact) :
    ofParts g.entry g.points g.edges = g.validate >>= fun _ => .ok g := by
  cases entered : g.entry with
  | some entry =>
    rw [ofParts, assemble_parts i entered]
    rfl
  | none =>
    obtain ⟨g₁, g₂, pointsAdded, edgesAdded, -⟩ := exists_parts i
    have invalid : g.validate = .error .entryMissing := by
      rw [validate, entryIndex, entered]
      rfl
    rw [ofParts, assemble, pointsAdded, ok_bind, edgesAdded, invalid]
    rfl

/-! ## What fits -/

/-- The indices, widths, constants and case values of a graph are machine numbers. -/
structure Fits (g : FlowGraph) : Prop where
  index : ∀ {k : Nat}, k ∈ g.graph.vertices → k < 2 ^ 64
  operation : ∀ {k : Nat} {point : Point}, g.graph.vertices[k]? = some point → point.operation.Fits
  kind : ∀ {l : Link} {edge : Edge}, g.graph.edges[l]? = some edge → edge.kind.Fits

theorem fits_empty : empty.Fits where
  index mem := by simp [empty, Digraph.empty] at mem
  operation found := by simp [empty, Digraph.empty] at found
  kind found := by simp [empty, Digraph.empty] at found

theorem Fits.insertPoint (fits : g.Fits) {index : Nat} {operation : Operation}
    (small : index < 2 ^ 64) (suits : operation.Fits)
    (h : g.insertPoint index operation = .ok g') : g'.Fits := by
  obtain ⟨graph, inserted, rfl⟩ := insertPoint_eq_ok h
  obtain ⟨-, rfl⟩ := Digraph.insertVertex_eq_ok inserted
  refine ⟨fun {k} mem => ?_, fun {k point} found => ?_, fits.kind⟩
  · rcases mem_map_insert_iff.1 mem with rfl | mem
    · exact small
    · exact fits.index mem
  · dsimp only at found
    rw [getElem?_insert_eq] at found
    split_ifs at found
    · exact Option.some.inj found ▸ suits
    · exact fits.operation found

theorem Fits.setEntry (fits : g.Fits) {index : Nat} (h : g.setEntry index = .ok g') : g'.Fits := by
  obtain ⟨-, rfl⟩ := setEntry_eq_ok h
  exact ⟨fits.index, fits.operation, fits.kind⟩

theorem Fits.setComment (fits : g.Fits) {index : Nat} {comment : String}
    (h : g.setComment index comment = .ok g') : g'.Fits := by
  obtain ⟨graph, modified, rfl⟩ := setComment_eq_ok h
  obtain ⟨point, here, rfl⟩ := Digraph.modifyVertex_eq_ok modified
  refine ⟨fun {k} mem => ?_, fun {k point'} found => ?_, fits.kind⟩
  · rcases mem_map_insert_iff.1 mem with rfl | mem
    · exact fits.index (mem_iff_exists_getElem?.2 ⟨point, here⟩)
    · exact fits.index mem
  · dsimp only at found
    rw [getElem?_insert_eq] at found
    split_ifs at found
    · obtain rfl := Option.some.inj found
      show point.operation.Fits
      exact fits.operation here
    · exact fits.operation found

theorem Fits.insertEdge (fits : g.Fits) {head tail : Nat} {kind : EdgeKind} (suits : kind.Fits)
    (h : g.insertEdge head tail kind = .ok g') : g'.Fits := by
  obtain ⟨vertices, edge, lookup, stored⟩ := exists_stored_of_insertEdge h
  refine ⟨fun mem => fits.index (vertices ▸ mem), fun found => fits.operation (vertices ▸ found),
    fun {l edge'} found => ?_⟩
  rw [lookup] at found
  split_ifs at found
  · obtain rfl := Option.some.inj found
    rcases stored with ⟨-, rfl⟩ | ⟨present, here, merged⟩
    · exact suits
    · exact EdgeKind.fits_merge? (fits.kind here) suits merged
  · exact fits.kind found

theorem Fits.addPoint (fits : g.Fits) {point : Point} (suits : point.Fits)
    (h : g.addPoint point = .ok g') : g'.Fits := by
  obtain ⟨g₁, inserted, h⟩ := bind_eq_ok_iff.1 h
  have fits₁ := fits.insertPoint suits.1 suits.2 inserted
  cases comment : point.comment with
  | none =>
    rw [comment] at h
    obtain rfl := Except.ok.inj h
    exact fits₁
  | some text =>
    rw [comment] at h
    exact fits₁.setComment h

/-- The operations and kinds that a call brings in are of machine numbers. -/
def Call.Fits : Call → Prop
  | .newPoint operation | .insertPoint _ operation => operation.Fits
  | .insertEdge _ _ kind => kind.Fits
  | .setEntry _ | .setComment _ _ => True

/-- Adding points only raises the next index. -/
theorem nextIndex_le_of_run {call : Call} (h : call.run g = .ok g') : g.nextIndex ≤ g'.nextIndex := by
  cases call with
  | newPoint operation =>
    obtain ⟨⟨index, extended⟩, step, rfl⟩ := exists_of_map_eq_ok h
    obtain ⟨graph, -, rfl⟩ := insertPoint_eq_ok (newPoint_eq_ok step).2
    exact le_max_left _ _
  | insertPoint index operation =>
    obtain ⟨graph, -, rfl⟩ := insertPoint_eq_ok h
    exact le_max_left _ _
  | setEntry index =>
    obtain ⟨-, rfl⟩ := setEntry_eq_ok h
    exact le_rfl
  | setComment index comment =>
    obtain ⟨graph, -, rfl⟩ := setComment_eq_ok h
    exact le_rfl
  | insertEdge head tail kind =>
    rcases insertEdge_eq_ok h with ⟨graph, -, -, rfl⟩ | ⟨_, _, graph, -, -, -, rfl⟩
    · exact le_rfl
    · exact le_rfl

/-- An added point stands below the next index. -/
theorem lt_nextIndex_of_insertPoint {index : Nat} {operation : Operation}
    (h : g.insertPoint index operation = .ok g') : index < g'.nextIndex := by
  obtain ⟨graph, -, rfl⟩ := insertPoint_eq_ok h
  exact Nat.le_max_right _ _

/-- Calls with machine numbers leave a graph of machine numbers, as long as the next index is one. -/
theorem fits_after {calls : List Call} (fits : ∀ call ∈ calls, call.Fits) :
    (after calls).nextIndex < 2 ^ 64 → (after calls).Fits := by
  refine after_induction (P := fun g => g.nextIndex < 2 ^ 64 → g.Fits) (fun _ => fits_empty)
    fun {g g' call} made kept done counted => ?_
  have before : g.Fits := kept ((nextIndex_le_of_run done).trans_lt counted)
  have suits := fits call made
  cases call with
  | newPoint operation =>
    obtain ⟨⟨index, extended⟩, step, rfl⟩ := exists_of_map_eq_ok done
    have inserted := (newPoint_eq_ok step).2
    exact before.insertPoint ((lt_nextIndex_of_insertPoint inserted).trans counted) suits inserted
  | insertPoint index operation =>
    exact before.insertPoint ((lt_nextIndex_of_insertPoint done).trans counted) suits done
  | setEntry index => exact before.setEntry done
  | setComment index comment => exact before.setComment done
  | insertEdge head tail kind => exact before.insertEdge suits done

/-- A graph that is read is of machine numbers. -/
theorem fits_ofJson {source : Json.Source} {json : Json} (h : ofJson source json = .ok g) :
    g.Fits := by
  obtain ⟨fields, entry, points, edges, pointsRead, edgesRead, assembled, -⟩ := ofJson_eq_ok h
  have pointsFit : ∀ point ∈ points, point.Fits := forall_of_get Point.fits_of_ofJson pointsRead
  have edgesFit : ∀ edge ∈ edges, edge.Fits := forall_of_get Edge.fits_of_ofJson edgesRead
  obtain ⟨g₁, pointsAdded, h⟩ := bind_eq_ok_iff.1 assembled
  obtain ⟨g₂, edgesAdded, h⟩ := bind_eq_ok_iff.1 h
  have fits₁ : g₁.Fits :=
    foldlM_induction fits_empty (fun mem fits step => fits.addPoint (pointsFit _ mem) step) pointsAdded
  have fits₂ : g₂.Fits :=
    foldlM_induction fits₁ (fun mem fits step => fits.insertEdge (edgesFit _ mem).2.2 step) edgesAdded
  cases entry with
  | none => cases h
  | some entry => exact fits₂.setEntry h

/-! ## What survives -/

section Survives

variable (i : g.Intact) (fits : g.Fits)
include i fits

theorem survives_points (source : Json.Source) :
    Json.Survives (Json.ofList Point.toJson) (Json.toList (Point.ofJson source)) g.points := by
  refine .ofList fun point mem => Point.survives ?_ source
  have found := (mem_values_iff (index_eq i.consistent)).1 mem
  exact ⟨fits.index (mem_iff_exists_getElem?.2 ⟨point, found⟩), fits.operation found⟩

theorem survives_edges :
    Json.Survives (Json.ofList Edge.toJson) (Json.toList Edge.ofJson) g.edges := by
  refine .ofList fun edge mem => Edge.survives ?_
  have found := (mem_values_iff (link_eq i.consistent)).1 mem
  have present := mem_iff_exists_getElem?.2 ⟨edge, found⟩
  exact ⟨fits.index (i.consistent.head_mem present), fits.index (i.consistent.tail_mem present),
    fits.kind found⟩

theorem survives_entry :
    Json.Survives (Json.ofOption Json.nat) (Json.toOption Json.toNat) g.entry := by
  refine .ofOption (fun n => by simp [Json.nat]) fun entry entered => ?_
  exact ⟨Json.written_nat entry, Json.toNat_nat (fits.index (i.entry_mem entered))⟩

theorem written_toJson : g.toJson.Written :=
  Json.written_record (by
    simp [fields, (survives_entry i fits).written, (survives_points i fits .text).written,
      (survives_edges i fits).written])

/-- A graph that was written is read as the graph that it was, if that is valid. -/
theorem ofJson_toJson (source : Json.Source) :
    ofJson source g.toJson = Json.accept (g.validate >>= fun _ => .ok g) := by
  simp [ofJson, toJson, fields, Json.toFields_record, (survives_entry i fits).read,
    (survives_points i fits source).read, (survives_edges i fits).read, ofParts_parts i]

end Survives

end FlowGraph

/-! ## Texts -/

theorem Noted.result_readText {α : Type} (read : Json → Noted α) (text : String) :
    (Json.readText read text).result = Json.readText (fun json => (read json).result) text := by
  unfold Json.readText
  rw [Noted.result_bind]
  refine congrArg _ (funext fun a => ?_)
  split_ifs <;> rfl

theorem FlowGraph.result_read (source : Json.Source) (json : Json) :
    (FlowGraph.read source json).result = ofJson source json := by
  unfold FlowGraph.read
  simp only [Noted.result_bind, Noted.result_lift, Noted.result_note, Noted.result_pure]
  cases ofJson source json <;> rfl

/-- A text is read as a graph if its tree is. -/
theorem FlowGraph.exists_of_readText {text : String} {g : FlowGraph}
    (h : (Json.readText (FlowGraph.read .text) text).result = .ok g) :
    ∃ json, FlowGraph.ofJson .text json = .ok g := by
  rw [Noted.result_readText] at h
  simp only [FlowGraph.result_read] at h
  exact Json.exists_of_readText h

theorem FlowGraph.readText_render {g : FlowGraph} (i : g.Intact) (fits : g.Fits) :
    (Json.readText (FlowGraph.read .text) g.toJson.render).result =
      Json.accept (g.validate >>= fun _ => .ok g) := by
  rw [Json.readText_render (FlowGraph.written_toJson i fits), FlowGraph.result_read,
    FlowGraph.ofJson_toJson i fits]

theorem Procedure.written_toJson {p : Procedure} (i : p.graph.Intact) (fits : p.graph.Fits)
    (parameters : ∀ slot ∈ p.parameters, slot.Fits) : p.toJson.Written :=
  Json.written_record (by
    simp [(survives_slots parameters).written, FlowGraph.written_toJson i fits])

/-- A procedure over a valid graph is read back. -/
theorem Procedure.result_read_toJson {p : Procedure} (i : p.graph.Intact) (fits : p.graph.Fits)
    (parameters : ∀ slot ∈ p.parameters, slot.Fits) (valid : p.graph.validate = .ok ())
    (source : Json.Source) : (Procedure.read source p.toJson).result = .ok p := by
  have graph : (FlowGraph.read source p.graph.toJson).result = .ok p.graph := by
    rw [FlowGraph.result_read, FlowGraph.ofJson_toJson i fits, valid]
    rfl
  rw [Procedure.read, Procedure.toJson, Json.visitRecord_record (by simp) (by simp)]
  simp [List.foldlM, Procedure.readField, Noted.result_bind, Noted.result_lift, Noted.result_map,
    graph, (survives_slots parameters).read]

/-- Reading undoes writing, for every graph that some construction calls leave, whether or not each of
them succeeds. Their operations and kinds are of machine numbers, and no index is so large that the next
one would not be a machine number. A graph that is not valid is refused with what is wrong with it. Every
graph that is read at all is valid and read back from what is written of it, and so is a procedure over a
valid graph. -/
theorem FlowGraph.reading_undoes_writing :
    (∀ calls : List Call, (∀ call ∈ calls, call.Fits) → (after calls).nextIndex < 2 ^ 64 →
      ((after calls).validate = .ok () →
        (Json.readText (FlowGraph.read .text) (after calls).toJson.render).result = .ok (after calls)) ∧
      ∀ e, (after calls).validate = .error e →
        (Json.readText (FlowGraph.read .text) (after calls).toJson.render).result =
          .error (.refused e.message)) ∧
    (∀ text g, (Json.readText (FlowGraph.read .text) text).result = .ok g →
      g.validate = .ok () ∧
      (Json.readText (FlowGraph.read .text) g.toJson.render).result = .ok g) ∧
    ∀ p : Procedure, p.graph.Built → p.graph.Fits → (∀ slot ∈ p.parameters, slot.Fits) →
      p.graph.validate = .ok () →
      (Json.readText (Procedure.read .text) p.toJson.render).result = .ok p := by
  refine ⟨fun calls fit counted => ?_, fun text g read => ?_, fun p built fits parameters valid => ?_⟩
  · have read := FlowGraph.readText_render (built_after calls).intact (fits_after fit counted)
    refine ⟨fun valid => ?_, fun e invalid => ?_⟩
    · rw [read, valid]
      rfl
    · rw [read, invalid]
      rfl
  · obtain ⟨json, read⟩ := FlowGraph.exists_of_readText read
    obtain ⟨_, _, _, _, -, -, -, valid⟩ := ofJson_eq_ok read
    refine ⟨valid, ?_⟩
    rw [FlowGraph.readText_render (built_ofJson read).intact (fits_ofJson read), valid]
    rfl
  · rw [Json.readText_render (Procedure.written_toJson built.intact fits parameters)]
    exact Procedure.result_read_toJson built.intact fits parameters valid .text

section Tickets

private abbrev ticketSlot : Slot := ⟨"ticket", 8⟩

/-- Calls that leave a switch of two cases that share their tail, a comment, and a point that control
cannot get to. The second call with index 5 and the one with entry 9 are refused. -/
def ticketCalls : List FlowGraph.Call :=
  [.newPoint (.switch (.slot ticketSlot)), .insertPoint 5 .nop, .insertPoint 5 (.ret none),
    .newPoint (.ret (some (.constant ⟨-1, 8⟩))), .newPoint .nop, .setComment 5 "first \"or\" second",
    .setEntry 0, .setEntry 9, .insertEdge 0 5 (.switchCase {1}), .insertEdge 0 5 (.switchCase {-2}),
    .insertEdge 0 6 .switchDefault, .insertEdge 5 6 .sequential]

/-- The graph of these calls is read back, and so is a procedure over it. After only six of them
there is no entry, and reading says so. -/
theorem FlowGraph.tickets_read_back :
    (Json.readText (FlowGraph.read .text) (after ticketCalls).toJson.render).result =
      .ok (after ticketCalls) ∧
    (Json.readText (FlowGraph.read .text) (after (ticketCalls.take 6)).toJson.render).result =
      .error (.refused "The control flow graph has no entry point") ∧
    (Json.readText (Procedure.read .text)
      (Procedure.mk "tickets" [ticketSlot] (after ticketCalls)).toJson.render).result =
      .ok (Procedure.mk "tickets" [ticketSlot] (after ticketCalls)) := by
  obtain ⟨graphs, -, procedures⟩ := reading_undoes_writing
  have fits : ∀ call ∈ ticketCalls, call.Fits := by
    have numbers : Width.Holds 64 (-1) ∧ Width.Holds 64 1 ∧ Width.Holds 64 (-2) := by
      unfold Width.Holds
      decide
    simp [ticketCalls, Call.Fits, Operation.Fits, Operand.Fits, Slot.Fits, Constant.Fits, EdgeKind.Fits,
      numbers]
  have counted : (after ticketCalls).nextIndex < 2 ^ 64 := by decide +kernel
  have valid : (after ticketCalls).validate = .ok () := by decide +kernel
  refine ⟨(graphs ticketCalls fits counted).1 valid, ?_, ?_⟩
  · exact (graphs (ticketCalls.take 6) (fun call mem => fits call (List.mem_of_mem_take mem))
      (by decide +kernel)).2 .entryMissing (by decide +kernel)
  · refine procedures (Procedure.mk "tickets" [ticketSlot] (after ticketCalls))
      (built_after ticketCalls) (fits_after fits counted) ?_ valid
    simp [Slot.Fits]

end Tickets

end RangeFlow
