import RangeFlow.Digraph.Basic
import RangeFlow.Proofs.Order

/-!
# Consistent graphs

The four maps of a graph agree: labels stand under their own indices, edges join vertices, and the
successors and predecessors of a vertex are those that its edges name (`Digraph.Consistent`). The
empty graph is consistent, and insertion and relabelling keep it so. They also keep the successors and
predecessors of exactly the vertices (`Digraph.Keyed`), so that a graph is determined by its vertices
and edges (`Digraph.Consistent.ext`). A call that is refused leaves the graph as it is, so every run of
calls leaves a consistent graph (`Digraph.Built.consistent`).
-/

namespace RangeFlow.Digraph

section

variable {ν ε : Type} {g g' : Digraph ν ε}

theorem insertVertex_eq_ok [Vertex ν] {v : ν} (h : g.insertVertex v = .ok g') :
    Vertex.index v ∉ g.vertices ∧
      g' = { g with
        vertices := g.vertices.insert (Vertex.index v) v
        successors := g.successors.insert (Vertex.index v) ∅
        predecessors := g.predecessors.insert (Vertex.index v) ∅ } := by
  unfold insertVertex at h
  dsimp only at h
  split_ifs at h with present
  exact ⟨present, (Except.ok.inj h).symm⟩

theorem insertEdge_eq_ok [Arc ε] {e : ε} (h : g.insertEdge e = .ok g') :
    Arc.head e ∈ g.vertices ∧ Arc.tail e ∈ g.vertices ∧
      g' = { g with
        edges := g.edges.insert ⟨Arc.head e, Arc.tail e⟩ e
        successors := addTo g.successors (Arc.head e) (Arc.tail e)
        predecessors := addTo g.predecessors (Arc.tail e) (Arc.head e) } := by
  unfold insertEdge at h
  dsimp only at h
  split_ifs at h with present head tail
  exact ⟨head, tail, (Except.ok.inj h).symm⟩

theorem modifyVertex_eq_ok {index : Nat} {f : ν → ν} (h : g.modifyVertex index f = .ok g') :
    ∃ v, g.vertices[index]? = some v ∧ g' = { g with vertices := g.vertices.insert index (f v) } := by
  unfold modifyVertex vertex at h
  cases found : g.vertices[index]? with
  | none => simp [found, bind, Except.bind] at h
  | some v =>
    rw [found] at h
    exact ⟨v, rfl, (Except.ok.inj h).symm⟩

theorem modifyEdge_eq_ok {head tail : Nat} {f : ε → ε} (h : g.modifyEdge head tail f = .ok g') :
    ∃ e, g.edges[(⟨head, tail⟩ : Link)]? = some e ∧
      g' = { g with edges := g.edges.insert ⟨head, tail⟩ (f e) } := by
  unfold modifyEdge edge at h
  cases found : g.edges[(⟨head, tail⟩ : Link)]? with
  | none => simp [found, bind, Except.bind] at h
  | some e =>
    rw [found] at h
    exact ⟨e, rfl, (Except.ok.inj h).symm⟩

end

variable {ν ε : Type} [Vertex ν] [Arc ε] {g g' : Digraph ν ε}

/-- The maps of a graph agree with each other. -/
structure Consistent (g : Digraph ν ε) : Prop where
  index : ∀ {k : Nat} {v : ν}, g.vertices[k]? = some v → Vertex.index v = k
  ends : ∀ {l : Link} {e : ε}, g.edges[l]? = some e → Arc.head e = l.head ∧ Arc.tail e = l.tail
  head_mem : ∀ {l : Link}, l ∈ g.edges → l.head ∈ g.vertices
  tail_mem : ∀ {l : Link}, l ∈ g.edges → l.tail ∈ g.vertices
  successors : ∀ {v : Nat}, v ∈ g.vertices →
    ∃ tails, g.successors[v]? = some tails ∧ ∀ t, t ∈ tails ↔ (⟨v, t⟩ : Link) ∈ g.edges
  predecessors : ∀ {v : Nat}, v ∈ g.vertices →
    ∃ heads, g.predecessors[v]? = some heads ∧ ∀ h, h ∈ heads ↔ (⟨h, v⟩ : Link) ∈ g.edges

/-! ## Construction -/

theorem consistent_empty : (empty : Digraph ν ε).Consistent where
  index h := by simp [empty] at h
  ends h := by simp [empty] at h
  head_mem h := by simp [empty] at h
  tail_mem h := by simp [empty] at h
  successors h := by simp [empty] at h
  predecessors h := by simp [empty] at h

theorem Consistent.insertVertex (c : g.Consistent) {v : ν} (h : g.insertVertex v = .ok g') :
    g'.Consistent := by
  obtain ⟨fresh, rfl⟩ := insertVertex_eq_ok h
  refine ⟨fun {k w} hk => ?_, c.ends, fun hl => ?_, fun hl => ?_, fun {u} hu => ?_, fun {u} hu => ?_⟩
  · rw [getElem?_insert_eq] at hk
    split_ifs at hk with here
    · rw [← Option.some.inj hk, here]
    · exact c.index hk
  · exact mem_map_insert_iff.2 (.inr (c.head_mem hl))
  · exact mem_map_insert_iff.2 (.inr (c.tail_mem hl))
  · dsimp only
    rw [getElem?_insert_eq]
    split_ifs with here
    · subst here
      exact ⟨∅, rfl, fun t => ⟨fun ht => by simp at ht, fun hl => absurd (c.head_mem hl) fresh⟩⟩
    · exact c.successors ((mem_map_insert_iff.1 hu).resolve_left here)
  · dsimp only
    rw [getElem?_insert_eq]
    split_ifs with here
    · subst here
      exact ⟨∅, rfl, fun t => ⟨fun ht => by simp at ht, fun hl => absurd (c.tail_mem hl) fresh⟩⟩
    · exact c.predecessors ((mem_map_insert_iff.1 hu).resolve_left here)

theorem getElem?_addTo {sets : Std.ExtTreeMap Nat IndexSet} {u : Nat} {members : IndexSet}
    (h : sets[u]? = some members) (owner index : Nat) :
    ∃ new, (addTo sets owner index)[u]? = some new ∧
      ∀ t, t ∈ new ↔ t ∈ members ∨ u = owner ∧ t = index := by
  unfold addTo
  rw [getElem?_insert_eq]
  split_ifs with here
  · subst here
    refine ⟨_, rfl, fun t => ?_⟩
    rw [Std.ExtTreeMap.getD_eq_getD_getElem?, h, Option.getD_some, mem_insert_iff]
    simp [or_comm]
  · exact ⟨members, h, fun t => by simp [here]⟩

theorem Consistent.insertEdge (c : g.Consistent) {e : ε} (h : g.insertEdge e = .ok g') :
    g'.Consistent := by
  obtain ⟨head, tail, rfl⟩ := insertEdge_eq_ok h
  refine ⟨c.index, fun {l f} hl => ?_, fun {l} hl => ?_, fun {l} hl => ?_, fun {u} hu => ?_,
    fun {u} hu => ?_⟩
  · rw [getElem?_insert_eq] at hl
    split_ifs at hl with here
    · rw [← Option.some.inj hl, here]
      exact ⟨rfl, rfl⟩
    · exact c.ends hl
  · rcases mem_map_insert_iff.1 hl with rfl | hl
    · exact head
    · exact c.head_mem hl
  · rcases mem_map_insert_iff.1 hl with rfl | hl
    · exact tail
    · exact c.tail_mem hl
  · obtain ⟨tails, kept, mem⟩ := c.successors hu
    obtain ⟨new, found, newMem⟩ := getElem?_addTo kept (Arc.head e) (Arc.tail e)
    refine ⟨new, found, fun t => ?_⟩
    rw [newMem, mem, mem_map_insert_iff, Link.mk.injEq, or_comm]
  · obtain ⟨heads, kept, mem⟩ := c.predecessors hu
    obtain ⟨new, found, newMem⟩ := getElem?_addTo kept (Arc.tail e) (Arc.head e)
    refine ⟨new, found, fun t => ?_⟩
    rw [newMem, mem, mem_map_insert_iff, Link.mk.injEq, or_comm, and_comm]

/-! ## Relabelling -/

theorem Consistent.modifyVertex (c : g.Consistent) {index : Nat} {f : ν → ν}
    (keeps : ∀ v, Vertex.index (f v) = Vertex.index v) (h : g.modifyVertex index f = .ok g') :
    g'.Consistent := by
  obtain ⟨v, found, rfl⟩ := modifyVertex_eq_ok h
  have same {k : Nat} : k ∈ g.vertices.insert index (f v) ↔ k ∈ g.vertices := by
    rw [mem_map_insert_iff, or_iff_right_of_imp]
    rintro rfl
    exact mem_iff_exists_getElem?.2 ⟨v, found⟩
  refine ⟨fun {k w} hk => ?_, c.ends, fun hl => same.2 (c.head_mem hl),
    fun hl => same.2 (c.tail_mem hl), fun hu => c.successors (same.1 hu),
    fun hu => c.predecessors (same.1 hu)⟩
  rw [getElem?_insert_eq] at hk
  split_ifs at hk with here
  · rw [← Option.some.inj hk, keeps, c.index found, here]
  · exact c.index hk

theorem Consistent.modifyEdge (c : g.Consistent) {head tail : Nat} {f : ε → ε}
    (keepsHead : ∀ e, Arc.head (f e) = Arc.head e) (keepsTail : ∀ e, Arc.tail (f e) = Arc.tail e)
    (h : g.modifyEdge head tail f = .ok g') : g'.Consistent := by
  obtain ⟨e, found, rfl⟩ := modifyEdge_eq_ok h
  have same {l : Link} : l ∈ g.edges.insert ⟨head, tail⟩ (f e) ↔ l ∈ g.edges := by
    rw [mem_map_insert_iff, or_iff_right_of_imp]
    rintro rfl
    exact mem_iff_exists_getElem?.2 ⟨e, found⟩
  refine ⟨c.index, fun {l e'} hl => ?_, fun hl => c.head_mem (same.1 hl),
    fun hl => c.tail_mem (same.1 hl), fun hu => ?_, fun hu => ?_⟩
  · rw [getElem?_insert_eq] at hl
    split_ifs at hl with here
    · rw [← Option.some.inj hl, keepsHead, keepsTail, here]
      exact c.ends found
    · exact c.ends hl
  · simpa only [same] using c.successors hu
  · simpa only [same] using c.predecessors hu

/-! ## Keys -/

/-- Successors and predecessors are kept for exactly the vertices. -/
structure Keyed (g : Digraph ν ε) : Prop where
  successors : ∀ {v : Nat}, v ∈ g.successors ↔ v ∈ g.vertices
  predecessors : ∀ {v : Nat}, v ∈ g.predecessors ↔ v ∈ g.vertices

omit [Vertex ν] [Arc ε] in
theorem keyed_empty : (empty : Digraph ν ε).Keyed where
  successors := by simp [empty]
  predecessors := by simp [empty]

omit [Arc ε] in
theorem Keyed.insertVertex (k : g.Keyed) {v : ν} (h : g.insertVertex v = .ok g') : g'.Keyed := by
  obtain ⟨-, rfl⟩ := insertVertex_eq_ok h
  constructor
  · intro u
    simp only [mem_map_insert_iff, k.successors]
  · intro u
    simp only [mem_map_insert_iff, k.predecessors]

omit [Vertex ν] in
theorem Keyed.insertEdge (k : g.Keyed) {e : ε} (h : g.insertEdge e = .ok g') : g'.Keyed := by
  obtain ⟨head, tail, rfl⟩ := insertEdge_eq_ok h
  constructor
  · intro u
    simp only [addTo, mem_map_insert_iff, k.successors]
    exact or_iff_right_of_imp fun here => here ▸ head
  · intro u
    simp only [addTo, mem_map_insert_iff, k.predecessors]
    exact or_iff_right_of_imp fun here => here ▸ tail

omit [Vertex ν] [Arc ε] in
theorem Keyed.modifyVertex (k : g.Keyed) {index : Nat} {f : ν → ν}
    (h : g.modifyVertex index f = .ok g') : g'.Keyed := by
  obtain ⟨v, found, rfl⟩ := modifyVertex_eq_ok h
  have present : index ∈ g.vertices := mem_iff_exists_getElem?.2 ⟨v, found⟩
  have same {u : Nat} : u ∈ g.vertices.insert index (f v) ↔ u ∈ g.vertices := by
    rw [mem_map_insert_iff]
    exact or_iff_right_of_imp fun here => here ▸ present
  exact ⟨k.successors.trans same.symm, k.predecessors.trans same.symm⟩

omit [Vertex ν] [Arc ε] in
theorem Keyed.modifyEdge (k : g.Keyed) {head tail : Nat} {f : ε → ε}
    (h : g.modifyEdge head tail f = .ok g') : g'.Keyed := by
  obtain ⟨-, -, rfl⟩ := modifyEdge_eq_ok h
  exact ⟨k.successors, k.predecessors⟩

omit [Vertex ν] [Arc ε] in
/-- Sets that are kept under the same keys and have the same members are the same. -/
theorem sets_ext {sets sets' : Std.ExtTreeMap Nat IndexSet} {P : Nat → Prop} {R : Nat → Nat → Prop}
    (keys : ∀ {v : Nat}, v ∈ sets ↔ P v) (keys' : ∀ {v : Nat}, v ∈ sets' ↔ P v)
    (members : ∀ {v : Nat}, P v → ∃ s, sets[v]? = some s ∧ ∀ t, t ∈ s ↔ R v t)
    (members' : ∀ {v : Nat}, P v → ∃ s, sets'[v]? = some s ∧ ∀ t, t ∈ s ↔ R v t) :
    sets = sets' := by
  apply Std.ExtTreeMap.ext_getElem?
  intro v
  by_cases here : P v
  · obtain ⟨s, found, mem⟩ := members here
    obtain ⟨s', found', mem'⟩ := members' here
    rw [found, found']
    exact congrArg some (Std.ExtTreeSet.ext_mem fun t => (mem t).trans (mem' t).symm)
  · rw [Std.ExtTreeMap.getElem?_eq_none (mt keys.1 here),
      Std.ExtTreeMap.getElem?_eq_none (mt keys'.1 here)]

/-- A graph is determined by its vertices and edges. -/
theorem Consistent.ext (c : g.Consistent) (k : g.Keyed) (c' : g'.Consistent) (k' : g'.Keyed)
    (vertices : g.vertices = g'.vertices) (edges : g.edges = g'.edges) : g = g' := by
  have successors : g.successors = g'.successors := by
    apply sets_ext k.successors (by rw [vertices]; exact k'.successors) c.successors
    rw [vertices, edges]
    exact c'.successors
  have predecessors : g.predecessors = g'.predecessors := by
    apply sets_ext (R := fun v h => (⟨h, v⟩ : Link) ∈ g.edges) k.predecessors
      (by rw [vertices]; exact k'.predecessors) c.predecessors
    rw [vertices, edges]
    exact c'.predecessors
  cases g
  cases g'
  simp_all

/-! ## Edges as a relation -/

/-- An edge leads from one vertex to another. -/
def Joins (g : Digraph ν ε) (head tail : Nat) : Prop :=
  (⟨head, tail⟩ : Link) ∈ g.edges

/-! ## Look-up -/

/-- The vertices that the edges out of a vertex lead to, in increasing order. -/
def tails (g : Digraph ν ε) (v : Nat) : List Nat := (g.successors.getD v ∅).toList

omit [Vertex ν] [Arc ε] in
theorem sorted_tails (g : Digraph ν ε) (v : Nat) : (g.tails v).Pairwise (· < ·) :=
  (g.successors.getD v ∅).ordered_toList.imp fun {_ _} h => Nat.compare_eq_lt.1 h

theorem Consistent.successorsOf_eq (c : g.Consistent) {v : Nat} (hv : v ∈ g.vertices) :
    g.successorsOf v = .ok (g.tails v) := by
  obtain ⟨set, found, -⟩ := c.successors hv
  rw [successorsOf, tails, Std.ExtTreeMap.getD_eq_getD_getElem?, found]
  rfl

theorem Consistent.mem_tails (c : g.Consistent) {v t : Nat} (hv : v ∈ g.vertices) :
    t ∈ g.tails v ↔ g.Joins v t := by
  obtain ⟨set, found, mem⟩ := c.successors hv
  rw [tails, Std.ExtTreeMap.getD_eq_getD_getElem?, found, Option.getD_some,
    Std.ExtTreeSet.mem_toList, mem, Joins]

theorem Consistent.exists_successorsOf (c : g.Consistent) {v : Nat} (hv : v ∈ g.vertices) :
    ∃ tails, g.successorsOf v = .ok tails ∧ tails.Nodup ∧
      ∀ t, t ∈ tails ↔ (⟨v, t⟩ : Link) ∈ g.edges :=
  ⟨g.tails v, c.successorsOf_eq hv, nodup_toList _, fun _ => c.mem_tails hv⟩

/-- The edges that one end joins to a vertex, each once, by increasing index of the other end. -/
structure Lists (g : Digraph ν ε) (here there : ε → Nat) (v : Nat) (es : List ε) : Prop where
  mem_iff : ∀ e, e ∈ es ↔ here e = v ∧ ∃ l : Link, g.edges[l]? = some e
  increasing : (es.map there).Pairwise (· < ·)

omit [Vertex ν] [Arc ε] in
/-- Looking up the edges to the members of a set lists them, if the set has a member for each. -/
theorem lists_filterMap {here there : ε → Nat} {v : Nat} {others : IndexSet} (link : Nat → Link)
    (members : ∀ u, u ∈ others ↔ link u ∈ g.edges)
    (own : ∀ {u e}, g.edges[link u]? = some e → here e = v ∧ there e = u)
    (all : ∀ {l e}, g.edges[l]? = some e → here e = v → ∃ u, l = link u) :
    g.Lists here there v (others.toList.filterMap fun u => g.edges[link u]?) where
  mem_iff e := by
    rw [List.mem_filterMap]
    constructor
    · rintro ⟨u, -, found⟩
      exact ⟨(own found).1, link u, found⟩
    · rintro ⟨ends, l, found⟩
      obtain ⟨u, rfl⟩ := all found ends
      refine ⟨u, Std.ExtTreeSet.mem_toList.2 ((members u).2 ?_), found⟩
      exact mem_iff_exists_getElem?.2 ⟨e, found⟩
  increasing := by
    -- No look-up misses, so the other ends are the members of the set.
    have others_eq :
        (others.toList.filterMap fun u => g.edges[link u]?).map there = others.toList := by
      rw [List.map_filterMap]
      conv_rhs => rw [← List.filterMap_some (l := others.toList)]
      refine List.filterMap_congr fun u hu => ?_
      obtain ⟨e, found⟩ :=
        mem_iff_exists_getElem?.1 ((members u).1 (Std.ExtTreeSet.mem_toList.1 hu))
      rw [found, Option.map_some, (own found).2]
    rw [others_eq]
    exact others.ordered_toList.imp fun {_ _} h => Nat.compare_eq_lt.1 h

theorem Consistent.lists_edgesOut (c : g.Consistent) {v : Nat} (hv : v ∈ g.vertices) :
    ∃ es, g.edgesOut v = .ok es ∧ g.Lists Arc.head Arc.tail v es := by
  obtain ⟨tails, found, members⟩ := c.successors hv
  refine ⟨_, ?_, lists_filterMap (fun t => ⟨v, t⟩) members c.ends fun {l e} he at_v => ?_⟩
  · rw [edgesOut, successorsOf, found]
    rfl
  · exact ⟨l.tail, by rw [← at_v, (c.ends he).1]⟩

theorem Consistent.lists_edgesIn (c : g.Consistent) {v : Nat} (hv : v ∈ g.vertices) :
    ∃ es, g.edgesIn v = .ok es ∧ g.Lists Arc.tail Arc.head v es := by
  obtain ⟨heads, found, members⟩ := c.predecessors hv
  refine ⟨_, ?_, lists_filterMap (fun h => ⟨h, v⟩) members (fun he => (c.ends he).symm)
    fun {l e} he at_v => ?_⟩
  · rw [edgesIn, predecessorsOf, found]
    rfl
  · exact ⟨l.head, by rw [← at_v, (c.ends he).2]⟩

theorem Consistent.exists_edgesOut (c : g.Consistent) {v : Nat} (hv : v ∈ g.vertices) :
    ∃ es, g.edgesOut v = .ok es ∧ (es.map Arc.tail).Nodup ∧
      ∀ e, e ∈ es ↔ ∃ t, g.edges[(⟨v, t⟩ : Link)]? = some e := by
  obtain ⟨es, found, lists⟩ := c.lists_edgesOut hv
  refine ⟨es, found, lists.increasing.imp Nat.ne_of_lt, fun e => ?_⟩
  rw [lists.mem_iff]
  constructor
  · rintro ⟨rfl, l, he⟩
    exact ⟨l.tail, (c.ends he).1 ▸ he⟩
  · rintro ⟨t, he⟩
    exact ⟨(c.ends he).1, _, he⟩

theorem Consistent.exists_edgesIn (c : g.Consistent) {v : Nat} (hv : v ∈ g.vertices) :
    ∃ es, g.edgesIn v = .ok es ∧ ∀ e, e ∈ es ↔ ∃ u, g.edges[(⟨u, v⟩ : Link)]? = some e := by
  obtain ⟨es, found, lists⟩ := c.lists_edgesIn hv
  refine ⟨es, found, fun e => ?_⟩
  rw [lists.mem_iff]
  constructor
  · rintro ⟨rfl, l, he⟩
    exact ⟨l.head, (c.ends he).2 ▸ he⟩
  · rintro ⟨u, he⟩
    exact ⟨(c.ends he).2, _, he⟩

/-! ## Runs of calls -/

/-- A call that inserts a vertex or an edge, or that changes a label and keeps the place it names. -/
inductive Call (ν ε : Type) [Vertex ν] [Arc ε] where
  | insertVertex (v : ν)
  | insertEdge (e : ε)
  | modifyVertex (index : Nat) (f : ν → ν) (keeps : ∀ v, Vertex.index (f v) = Vertex.index v)
  | modifyEdge (head tail : Nat) (f : ε → ε) (keepsHead : ∀ e, Arc.head (f e) = Arc.head e)
      (keepsTail : ∀ e, Arc.tail (f e) = Arc.tail e)

/-- The graph that a call returns. -/
def Call.run (g : Digraph ν ε) : Call ν ε → Except Error (Digraph ν ε)
  | insertVertex v => g.insertVertex v
  | insertEdge e => g.insertEdge e
  | modifyVertex index f _ => g.modifyVertex index f
  | modifyEdge head tail f _ _ => g.modifyEdge head tail f

/-- What there is after a call: what it returns, or the graph as it was where the call fails. -/
def Call.leave (g : Digraph ν ε) (call : Call ν ε) : Digraph ν ε := (call.run g).toOption.getD g

/-- The graph that a run of calls leaves, the first of them made on the empty graph. -/
def after (calls : List (Call ν ε)) : Digraph ν ε := calls.foldl Call.leave empty

/-- A graph that some run of calls leaves. -/
def Built (g : Digraph ν ε) : Prop := ∃ calls : List (Call ν ε), after calls = g

theorem Consistent.run (c : g.Consistent) {call : Call ν ε} (h : call.run g = .ok g') :
    g'.Consistent := by
  cases call with
  | insertVertex v => exact c.insertVertex h
  | insertEdge e => exact c.insertEdge h
  | modifyVertex index f keeps => exact c.modifyVertex keeps h
  | modifyEdge head tail f keepsHead keepsTail => exact c.modifyEdge keepsHead keepsTail h

theorem Keyed.run (k : g.Keyed) {call : Call ν ε} (h : call.run g = .ok g') : g'.Keyed := by
  cases call with
  | insertVertex v => exact k.insertVertex h
  | insertEdge e => exact k.insertEdge h
  | modifyVertex index f keeps => exact k.modifyVertex h
  | modifyEdge head tail f keepsHead keepsTail => exact k.modifyEdge h

/-- What holds of the empty graph and is kept by every successful call holds of the graph that calls
leave. -/
theorem after_induction {P : Digraph ν ε → Prop} (start : P empty)
    (step : ∀ {g g'} {call : Call ν ε}, P g → call.run g = .ok g' → P g') (calls : List (Call ν ε)) :
    P (after calls) := by
  refine List.foldlRecOn calls _ start fun g kept call _ => ?_
  unfold Call.leave
  cases done : call.run g with
  | ok g' => exact step kept done
  | error e => exact kept

theorem Built.consistent (built : g.Built) : g.Consistent := by
  obtain ⟨calls, rfl⟩ := built
  exact after_induction consistent_empty (fun c done => c.run done) calls

theorem keyed_after (calls : List (Call ν ε)) : (after calls).Keyed :=
  after_induction keyed_empty (fun k done => k.run done) calls

end RangeFlow.Digraph
