import RangeFlow.Proofs.FlowGraph.Construction
import RangeFlow.Proofs.Program.EdgeKind

/-!
# The order of insertion

Merging edges between the same points is not associative, but no order of merging ends at another kind:
what it ends at is the least kind above those that were merged (`EdgeKind.isLUB_insert_of_merge?`).

`FlowGraph.Gathers` says what some edges have made of a graph, whatever the order in which they were
added. A run of insertions that succeeds gathers its edges (`FlowGraph.Gathers.foldlM_addEdge`), and what a
graph has gathered determines it (`FlowGraph.Gathers.unique`).

Main statement: `FlowGraph.insertion_order_irrelevant`.
-/

namespace RangeFlow

/-! ## Added neighbours -/

namespace Digraph

/-- Sets with some members added to them. A set that gets its first member is new. -/
structure Adds (sets : Std.ExtTreeMap Nat IndexSet) (added : Nat → Nat → Prop)
    (sets' : Std.ExtTreeMap Nat IndexSet) : Prop where
  keys : ∀ {owner : Nat}, owner ∈ sets' ↔ owner ∈ sets ∨ ∃ member, added owner member
  members : ∀ {owner member : Nat}, member ∈ sets'.getD owner ∅ ↔
    member ∈ sets.getD owner ∅ ∨ added owner member

variable {sets sets₁ sets₂ : Std.ExtTreeMap Nat IndexSet} {added added' : Nat → Nat → Prop}

theorem Adds.none (sets : Std.ExtTreeMap Nat IndexSet) : Adds sets (fun _ _ => False) sets :=
  ⟨by simp, by simp⟩

theorem Adds.congr (h : Adds sets added sets₁)
    (same : ∀ owner member, added owner member ↔ added' owner member) : Adds sets added' sets₁ :=
  ⟨by simp only [h.keys, same, implies_true], by simp only [h.members, same, implies_true]⟩

/-- One more member is added. -/
theorem Adds.addTo (h : Adds sets added sets₁) (owner index : Nat) :
    Adds sets (fun o i => added o i ∨ o = owner ∧ i = index) (Digraph.addTo sets₁ owner index) where
  keys {o} := by
    rw [Digraph.addTo, mem_map_insert_iff, h.keys]
    simp only [exists_or, exists_and_left, exists_eq, and_true]
    tauto
  members {o i} := by
    rw [Digraph.addTo, Std.ExtTreeMap.getD_eq_getD_getElem?, getElem?_insert_eq]
    split_ifs with here
    · subst here
      rw [Option.getD_some, mem_insert_iff, h.members]
      tauto
    · rw [← Std.ExtTreeMap.getD_eq_getD_getElem?, h.members]
      tauto

theorem Adds.unique (first : Adds sets added sets₁) (second : Adds sets added sets₂) :
    sets₁ = sets₂ := by
  have keys {owner : Nat} : owner ∈ sets₂ ↔ owner ∈ sets₁ := second.keys.trans first.keys.symm
  refine sets_ext (R := fun owner member => member ∈ sets₁.getD owner ∅) Iff.rfl keys
    (fun {owner} mem => ?_) fun {owner} mem => ?_
  · exact ⟨_, Std.ExtTreeMap.getElem?_eq_some_getD mem, fun _ => Iff.rfl⟩
  · exact ⟨_, Std.ExtTreeMap.getElem?_eq_some_getD (keys.2 mem),
      fun _ => second.members.trans first.members.symm⟩

end Digraph

/-! ## Gathered edges -/

namespace FlowGraph

/-- The kinds that are asked for between two points, with the one that is there. -/
def kindsAt (g : FlowGraph) (asked : Set Edge) (link : Link) : Set EdgeKind :=
  {kind | g.graph.edges[link]?.map Edge.kind = some kind ∨ ⟨link.head, link.tail, kind⟩ ∈ asked}

/-- The edge that is there between two points, or a new one, with another kind. -/
def edgeAt (g : FlowGraph) (link : Link) (kind : EdgeKind) : Edge :=
  { g.graph.edges[link]?.getD ⟨link.head, link.tail, kind⟩ with kind }

/-- What some kinds come to between two points: nothing if there are none, and otherwise an edge of the
least kind above them. -/
inductive Settles (g : FlowGraph) (link : Link) (kinds : Set EdgeKind) : Option Edge → Prop where
  | none : kinds = ∅ → Settles g link kinds none
  | some {kind : EdgeKind} : kinds.Nonempty → IsLUB kinds kind →
      Settles g link kinds (some (g.edgeAt link kind))

/-- An edge is asked for between two points that had none. -/
def Opens (g : FlowGraph) (asked : Set Edge) (link : Link) : Prop :=
  link ∉ g.graph.edges ∧ ∃ kind, ⟨link.head, link.tail, kind⟩ ∈ asked

/-- A graph to which some edges were added, whatever their order. -/
structure Gathers (g : FlowGraph) (asked : Set Edge) (g' : FlowGraph) : Prop where
  vertices : g'.graph.vertices = g.graph.vertices
  nextIndex : g'.nextIndex = g.nextIndex
  entry : g'.entry = g.entry
  edges : ∀ link : Link, g.Settles link (g.kindsAt asked link) g'.graph.edges[link]?
  successors : Digraph.Adds g.graph.successors (fun head tail => g.Opens asked ⟨head, tail⟩)
    g'.graph.successors
  predecessors : Digraph.Adds g.graph.predecessors (fun tail head => g.Opens asked ⟨head, tail⟩)
    g'.graph.predecessors

variable {g g₁ g₂ : FlowGraph} {asked : Set Edge} {link : Link} {edge : Edge}

theorem mem_kindsAt {kind : EdgeKind} : kind ∈ g.kindsAt asked link ↔
    g.graph.edges[link]?.map Edge.kind = some kind ∨ ⟨link.head, link.tail, kind⟩ ∈ asked := Iff.rfl

theorem gathers_empty (g : FlowGraph) : g.Gathers ∅ g where
  vertices := rfl
  nextIndex := rfl
  entry := rfl
  edges link := by
    cases found : g.graph.edges[link]? with
    | none => exact .none (by ext kind; simp [mem_kindsAt, found])
    | some edge =>
      have kinds : g.kindsAt ∅ link = {edge.kind} := by
        ext kind
        simp [mem_kindsAt, found, eq_comm]
      have same : edge = g.edgeAt link edge.kind := by simp [edgeAt, found]
      rw [kinds, same]
      exact .some (Set.singleton_nonempty _) isLUB_singleton
  successors := (Digraph.Adds.none _).congr fun _ _ => by simp [Opens]
  predecessors := (Digraph.Adds.none _).congr fun _ _ => by simp [Opens]

theorem kindsAt_insert_self :
    g.kindsAt (insert edge asked) edge.link = insert edge.kind (g.kindsAt asked edge.link) := by
  ext kind
  rw [Set.mem_insert_iff, mem_kindsAt, mem_kindsAt, Set.mem_insert_iff]
  have same : (⟨edge.link.head, edge.link.tail, kind⟩ : Edge) = edge ↔ kind = edge.kind := by
    cases edge
    simp [Edge.link]
  rw [same]
  tauto

theorem kindsAt_insert_of_ne (other : link ≠ edge.link) :
    g.kindsAt (insert edge asked) link = g.kindsAt asked link := by
  ext kind
  have apart : (⟨link.head, link.tail, kind⟩ : Edge) ≠ edge := by
    rintro rfl
    exact other rfl
  rw [mem_kindsAt, mem_kindsAt, Set.mem_insert_iff, or_iff_right apart]

theorem opens_insert : g.Opens (insert edge asked) link ↔
    g.Opens asked link ∨ link = edge.link ∧ edge.link ∉ g.graph.edges := by
  unfold Opens
  simp only [Set.mem_insert_iff, exists_or]
  have here : (∃ kind, (⟨link.head, link.tail, kind⟩ : Edge) = edge) ↔ link = edge.link := by
    cases edge
    cases link
    simp [Edge.link]
  rw [here]
  constructor
  · rintro ⟨free, rfl | asked⟩
    · exact .inr ⟨rfl, free⟩
    · exact .inl ⟨free, asked⟩
  · rintro (⟨free, asked⟩ | ⟨rfl, free⟩)
    · exact ⟨free, .inr asked⟩
    · exact ⟨free, .inl rfl⟩

theorem edgeAt_with (link : Link) (old new : EdgeKind) :
    { g.edgeAt link old with kind := new } = g.edgeAt link new := by
  unfold edgeAt
  cases g.graph.edges[link]? <;> rfl

/-- Storing the least kind above one more settles what is asked. -/
theorem settles_insert {edges : Std.ExtTreeMap Link Edge}
    (before : ∀ link : Link, g.Settles link (g.kindsAt asked link) edges[link]?) {kind : EdgeKind}
    (least : IsLUB (insert edge.kind (g.kindsAt asked edge.link)) kind) (link : Link) :
    g.Settles link (g.kindsAt (insert edge asked) link)
      (edges.insert edge.link (g.edgeAt edge.link kind))[link]? := by
  rw [getElem?_insert_eq]
  split_ifs with here
  · rw [here, kindsAt_insert_self]
    exact .some (Set.insert_nonempty _ _) least
  · rw [kindsAt_insert_of_ne here]
    exact before link

/-- An edge is gathered between two points that have none. -/
theorem Gathers.insertEdge (h : g.Gathers asked g₁) {graph : Digraph Point Edge}
    (absent : g₁.graph.edges[edge.link]? = none) (inserted : g₁.graph.insertEdge edge = .ok graph) :
    g.Gathers (insert edge asked) { g₁ with graph } := by
  obtain ⟨-, -, rfl⟩ := Digraph.insertEdge_eq_ok inserted
  have before := h.edges edge.link
  rw [absent] at before
  obtain ⟨empty⟩ := before
  -- Nothing was asked for here, and nothing was here to begin with.
  have free : g.graph.edges[edge.link]? = none := by
    cases found : g.graph.edges[edge.link]? with
    | none => rfl
    | some old =>
      have mem : old.kind ∈ g.kindsAt asked edge.link := .inl (by rw [found]; rfl)
      rw [empty] at mem
      exact mem.elim
  have opened (link : Link) : g.Opens (insert edge asked) link ↔
      g.Opens asked link ∨ link = edge.link := by
    rw [opens_insert, and_iff_left]
    simpa using free
  refine ⟨h.vertices, h.nextIndex, h.entry, fun link => ?_, ?_, ?_⟩
  · have least : IsLUB (insert edge.kind (g.kindsAt asked edge.link)) edge.kind := by
      rw [empty, insert_empty_eq]
      exact isLUB_singleton
    have new : g.edgeAt edge.link edge.kind = edge := by
      rw [edgeAt, free]
      rfl
    have settled := settles_insert h.edges least link
    rwa [new] at settled
  · refine (h.successors.addTo edge.head edge.tail).congr fun head tail => ?_
    rw [opened, Edge.link, Link.mk.injEq]
  · refine (h.predecessors.addTo edge.tail edge.head).congr fun tail head => ?_
    rw [opened, Edge.link, Link.mk.injEq, and_comm]

/-- An edge is gathered between two points by merging it with the one they have. -/
theorem Gathers.modifyEdge (h : g.Gathers asked g₁) {graph : Digraph Point Edge} {present : Edge}
    {merged : EdgeKind} (found : g₁.graph.edges[edge.link]? = some present)
    (merges : present.kind.merge? edge.kind = some merged)
    (modified : g₁.graph.modifyEdge edge.head edge.tail (fun e => { e with kind := merged }) =
      .ok graph) : g.Gathers (insert edge asked) { g₁ with graph } := by
  obtain ⟨present', found', rfl⟩ := Digraph.modifyEdge_eq_ok modified
  obtain rfl := Option.some.inj (found.symm.trans found')
  have before := h.edges edge.link
  rw [found] at before
  obtain _ | ⟨full, least⟩ := before
  -- The points were joined to begin with, or by an edge that was asked for.
  have opened (link : Link) : g.Opens (insert edge asked) link ↔ g.Opens asked link := by
    rw [opens_insert, or_iff_left_of_imp]
    rintro ⟨rfl, free⟩
    obtain ⟨kind, old | asked⟩ := full
    · rw [Std.ExtTreeMap.getElem?_eq_none free] at old
      cases old
    · exact ⟨free, kind, asked⟩
  refine ⟨h.vertices, h.nextIndex, h.entry, fun link => ?_, ?_, ?_⟩
  · have settled := settles_insert h.edges (EdgeKind.isLUB_insert_of_merge? least merges) link
    rwa [← edgeAt_with] at settled
  · exact h.successors.congr fun head tail => (opened _).symm
  · exact h.predecessors.congr fun tail head => (opened _).symm

/-- One more edge is gathered. -/
theorem Gathers.addEdge (h : g.Gathers asked g₁) (added : g₁.addEdge edge = .ok g₂) :
    g.Gathers (insert edge asked) g₂ := by
  rcases insertEdge_eq_ok added with ⟨graph, absent, inserted, rfl⟩ |
    ⟨present, merged, graph, found, merges, modified, rfl⟩
  · exact h.insertEdge absent inserted
  · exact h.modifyEdge found merges modified

theorem Settles.unique {kinds : Set EdgeKind} {first second : Option Edge}
    (h : g.Settles link kinds first) (h' : g.Settles link kinds second) : first = second := by
  cases h with
  | none empty =>
    cases h' with
    | none => rfl
    | some full => exact absurd empty full.ne_empty
  | some full least =>
    cases h' with
    | none empty => exact absurd empty full.ne_empty
    | some _ least' => rw [least.unique least']

theorem Gathers.unique (first : g.Gathers asked g₁) (second : g.Gathers asked g₂) : g₁ = g₂ := by
  have vertices := first.vertices.trans second.vertices.symm
  have edges : g₁.graph.edges = g₂.graph.edges :=
    Std.ExtTreeMap.ext_getElem? fun link => (first.edges link).unique (second.edges link)
  have successors := first.successors.unique second.successors
  have predecessors := first.predecessors.unique second.predecessors
  have nextIndex := first.nextIndex.trans second.nextIndex.symm
  have entry := first.entry.trans second.entry.symm
  obtain ⟨⟨_, _, _, _⟩, _, _⟩ := g₁
  obtain ⟨⟨_, _, _, _⟩, _, _⟩ := g₂
  simp_all

/-- A run of insertions gathers what is added. -/
theorem Gathers.foldlM_addEdge {edges : List Edge} (h : g.Gathers asked g₁)
    (added : edges.foldlM FlowGraph.addEdge g₁ = .ok g₂) :
    g.Gathers (asked ∪ {edge | edge ∈ edges}) g₂ := by
  induction edges generalizing asked g₁ with
  | nil =>
    obtain rfl := Except.ok.inj added
    simpa using h
  | cons edge edges ih =>
    rw [List.foldlM_cons] at added
    obtain ⟨next, first, rest⟩ := bind_eq_ok_iff.1 added
    have gathered := ih (h.addEdge first) rest
    have same : insert edge asked ∪ {e | e ∈ edges} = asked ∪ {e | e ∈ edge :: edges} := by
      ext e
      simp only [Set.mem_union, Set.mem_insert_iff, Set.mem_ofPred_eq, List.mem_cons]
      tauto
    rwa [same] at gathered

/-- Insertions that succeed in two orders end at one graph. -/
theorem eq_of_foldlM_addEdge {edges edges' : List Edge} (same : ∀ edge, edge ∈ edges ↔ edge ∈ edges')
    (first : edges.foldlM FlowGraph.addEdge g = .ok g₁)
    (second : edges'.foldlM FlowGraph.addEdge g = .ok g₂) : g₁ = g₂ := by
  have gathered := g.gathers_empty.foldlM_addEdge first
  have gathered' := g.gathers_empty.foldlM_addEdge second
  rw [show {edge | edge ∈ edges} = {edge | edge ∈ edges'} from Set.ext same] at gathered
  exact gathered.unique gathered'

/-! ## Independence of the order -/

/-- Merging is commutative and idempotent. It is not associative, but only because one way of merging
three kinds may be refused: where both succeed they agree. So the order in which edges are added to a
graph decides whether they can all be added, and never what the graph is then. -/
theorem insertion_order_irrelevant :
    (∀ a b : EdgeKind, a.merge? b = b.merge? a) ∧
      (∀ a : EdgeKind, a.merge? a = some a) ∧
      (∃ a b c : EdgeKind, ((a.merge? b).bind fun ab => ab.merge? c) = none ∧
        ((b.merge? c).bind fun bc => a.merge? bc) ≠ none) ∧
      (∀ a b c left right : EdgeKind, ((a.merge? b).bind fun ab => ab.merge? c) = some left →
        ((b.merge? c).bind fun bc => a.merge? bc) = some right → left = right) ∧
      ∀ (g g₁ g₂ : FlowGraph) (edges edges' : List Edge), edges.Perm edges' →
        edges.foldlM FlowGraph.addEdge g = .ok g₁ → edges'.foldlM FlowGraph.addEdge g = .ok g₂ →
        g₁ = g₂ := by
  refine ⟨EdgeKind.merge?_comm, EdgeKind.merge?_self,
    ⟨.branchTrue, .sequential, .unconditional, rfl, by decide⟩,
    fun _ _ _ _ _ => EdgeKind.merge?_assoc_of_eq_some, fun g g₁ g₂ edges edges' reordered => ?_⟩
  exact eq_of_foldlM_addEdge fun _ => reordered.mem_iff

section TwoPoints

/-- Two points without edges. -/
def twoPoints : FlowGraph :=
  (assemble (some 0) [⟨0, .nop, none⟩, ⟨1, .nop, none⟩] []).toOption.getD .empty

/-- The outcomes of a branch become a jump before a jump back is added to them. -/
private abbrev outcomesFirst : List Edge :=
  [⟨0, 1, .branchTrue⟩, ⟨1, 0, .sequential⟩, ⟨0, 1, .branchFalse⟩, ⟨0, 1, .loopBack⟩]

private abbrev outcomesSwapped : List Edge :=
  [⟨0, 1, .branchFalse⟩, ⟨0, 1, .branchTrue⟩, ⟨0, 1, .loopBack⟩, ⟨1, 0, .sequential⟩]

/-- A jump back takes in the two outcomes together, and neither of them alone. -/
theorem insertion_order_irrelevant_jumps :
    ∃ g', outcomesFirst.foldlM FlowGraph.addEdge twoPoints = .ok g' ∧
      outcomesSwapped.foldlM FlowGraph.addEdge twoPoints = .ok g' ∧
      g'.edge 0 1 = .ok ⟨0, 1, .loopBack⟩ ∧
      (outcomesFirst.reverse.foldlM FlowGraph.addEdge twoPoints).toOption = none := by
  have first : outcomesFirst.foldlM FlowGraph.addEdge twoPoints =
      .ok ((outcomesFirst.foldlM FlowGraph.addEdge twoPoints).toOption.getD .empty) := by
    decide +kernel
  have second : outcomesSwapped.foldlM FlowGraph.addEdge twoPoints =
      .ok ((outcomesSwapped.foldlM FlowGraph.addEdge twoPoints).toOption.getD .empty) := by
    decide +kernel
  have reordered : outcomesFirst.Perm outcomesSwapped := by decide +kernel
  obtain ⟨-, -, -, -, independent⟩ := insertion_order_irrelevant
  have same := independent _ _ _ _ _ reordered first second
  exact ⟨_, first, same ▸ second, by decide +kernel, by decide +kernel⟩

end TwoPoints

end FlowGraph

end RangeFlow
