import RangeFlow.Proofs.Facts.Exact
import RangeFlow.Proofs.FlowGraph.Construction
import RangeFlow.Proofs.Program.EdgeKind

/-!
# Merged edges

Edges that are requested between the same two points become one, of a kind above each of theirs
(`EdgeKind.Absorbs`). So the stored edges out of a branch or a switch let every store pass that one of
the requested edges lets pass. For a default edge this rests on the case values that are left at the
other edges: a case that was merged into the default edge is no longer kept away from it.
-/

namespace RangeFlow

namespace FlowGraph

variable {g g' : FlowGraph} {head : Nat}

/-! ## Requests -/

/-- What is asked of the edges out of a point: one that leads to a tail and is of a kind. -/
structure Request where
  tail : Nat
  kind : EdgeKind
deriving DecidableEq

/-- Adds the requested edges out of a point, one after the other. -/
def insertEdges (g : FlowGraph) (head : Nat) (requests : List Request) : Except Error FlowGraph :=
  requests.foldlM (fun g request => g.insertEdge head request.tail request.kind) g

/-- A value is requested as a case that leads to a tail. -/
def Routes (requests : List Request) (tail : Nat) (value : Int) : Prop :=
  ∃ request ∈ requests, request.tail = tail ∧ ∃ values, request.kind = .switchCase values ∧
    value ∈ values

/-- A request lets a store pass a point with some operation. A default edge is for the values that are
requested as no case. -/
def Request.Passes (requests : List Request) (request : Request) (operation : Operation) (σ : Store) :
    Prop :=
  match operation, request.kind with
  | .branch condition, .branchTrue => condition.Holds σ
  | .branch condition, .branchFalse => ¬condition.Holds σ
  | .switch scrutinee, .switchCase values => (scrutinee.read σ).toInt ∈ values
  | .switch scrutinee, .switchDefault => ∀ tail, ¬Routes requests tail (scrutinee.read σ).toInt
  | _, _ => True

/-- What the edges out of a point have come to after some requests: each request has been taken in, and
no case value is kept that was not requested. -/
structure Serves (g : FlowGraph) (head : Nat) (requests : List Request) : Prop where
  absorbs : ∀ request ∈ requests, ∃ edge, g.graph.edges[(⟨head, request.tail⟩ : Link)]? = some edge ∧
    request.kind ≤ edge.kind
  routes : ∀ {tail edge values value}, g.graph.edges[(⟨head, tail⟩ : Link)]? = some edge →
    edge.kind = .switchCase values → value ∈ values → Routes requests tail value

theorem routes_append {requests : List Request} {request : Request} {tail : Nat} {value : Int} :
    Routes (requests ++ [request]) tail value ↔
      Routes requests tail value ∨
        request.tail = tail ∧ ∃ values, request.kind = .switchCase values ∧ value ∈ values := by
  simp [Routes, or_and_right, exists_or]

/-- One more request is served. -/
theorem Serves.insertEdge {requests : List Request} (served : g.Serves head requests)
    {request : Request} (h : g.insertEdge head request.tail request.kind = .ok g') :
    g'.Serves head (requests ++ [request]) := by
  obtain ⟨-, edge, lookup, stored⟩ := exists_stored_of_insertEdge h
  -- The stored edge takes in the request, and what was stored before it.
  have absorbs : request.kind ≤ edge.kind ∧
      ∀ present, g.graph.edges[(⟨head, request.tail⟩ : Link)]? = some present →
        present.kind ≤ edge.kind := by
    rcases stored with ⟨absent, same⟩ | ⟨present, found, merges⟩
    · refine ⟨same.ge, fun present found => ?_⟩
      rw [absent] at found
      cases found
    · have := EdgeKind.absorbs_merge? merges
      refine ⟨this.2, fun present' found' => ?_⟩
      obtain rfl := Option.some.inj (found.symm.trans found')
      exact this.1
  refine ⟨fun asked mem => ?_, fun {tail stands values value} found case mem => ?_⟩
  · rw [lookup]
    by_cases here : asked.tail = request.tail
    · rw [here, if_pos rfl]
      refine ⟨edge, rfl, ?_⟩
      rcases List.mem_append.1 mem with earlier | last
      · obtain ⟨present, found, kept⟩ := served.absorbs asked earlier
        rw [here] at found
        exact kept.trans (absorbs.2 present found)
      · obtain rfl := List.mem_singleton.1 last
        exact absorbs.1
    · rw [if_neg (by simpa using here)]
      rcases List.mem_append.1 mem with earlier | last
      · exact served.absorbs asked earlier
      · exact absurd (congrArg Request.tail (List.mem_singleton.1 last)) here
  · rw [routes_append]
    rw [lookup] at found
    split_ifs at found with here
    · obtain rfl := Option.some.inj found
      obtain rfl : tail = request.tail := congrArg Link.tail here
      rcases stored with ⟨-, same⟩ | ⟨present, kept, merges⟩
      · exact .inr ⟨rfl, values, same ▸ case, mem⟩
      · rw [case] at merges
        rcases EdgeKind.mem_of_merge? merges mem with ⟨left, kind, mem⟩ | ⟨right, kind, mem⟩
        · exact .inl (served.routes kept kind mem)
        · exact .inr ⟨rfl, right, kind, mem⟩
    · exact .inl (served.routes found case mem)

/-- A run of requests is served, and leaves the points as they are. -/
theorem Serves.insertEdges {earlier requests : List Request} (served : g.Serves head earlier)
    (h : g.insertEdges head requests = .ok g') :
    g'.Serves head (earlier ++ requests) ∧ g'.graph.vertices = g.graph.vertices := by
  induction requests generalizing g earlier with
  | nil =>
    obtain rfl := Except.ok.inj h
    rw [List.append_nil]
    exact ⟨served, rfl⟩
  | cons request requests ih =>
    rw [FlowGraph.insertEdges, List.foldlM_cons] at h
    obtain ⟨g₁, first, rest⟩ := bind_eq_ok_iff.1 h
    obtain ⟨done, same⟩ := ih (served.insertEdge first) rest
    rw [List.append_assoc] at done
    exact ⟨done, same.trans (exists_stored_of_insertEdge first).1⟩

/-! ## Stores -/

/-- A store that a request lets pass takes the edge that is stored for it. -/
theorem Serves.takes {requests : List Request} (served : g.Serves head requests)
    (single : ∀ {tail tail' value}, Routes requests tail value → Routes requests tail' value →
      tail = tail')
    {request : Request} (asked : request ∈ requests) {edge : Edge} (leaves : edge.head = head)
    (found : g.graph.edges[(⟨head, request.tail⟩ : Link)]? = some edge)
    (absorbs : request.kind ≤ edge.kind) {operation : Operation} {σ : Store}
    (passes : request.Passes requests operation σ) : g.Takes operation edge σ := by
  unfold Takes
  split
  case h_1 condition kind | h_2 condition kind =>
    rw [kind] at absorbs
    simpa only [Request.Passes, show request.kind = _ from absorbs] using passes
  case h_3 scrutinee kept kind =>
    rw [kind] at absorbs
    obtain ⟨values, case, within⟩ := absorbs
    simp only [Request.Passes, case] at passes
    exact within _ passes
  case h_4 scrutinee kind =>
    -- A sibling with this value was asked to have it, so no other tail was.
    intro tail sibling values stands case mem
    rw [leaves] at stands
    have routed := served.routes stands case mem
    rw [kind] at absorbs
    rcases absorbs with default | ⟨own, same⟩
    · simp only [Request.Passes, default] at passes
      exact passes tail routed
    · simp only [Request.Passes, same] at passes
      obtain rfl := single routed ⟨request, asked, rfl, own, same, passes⟩
      obtain rfl := Option.some.inj (found.symm.trans stands)
      rw [kind] at case
      cases case
  case h_5 => trivial

/-- Merging loses no execution. Where edges out of a point without edges are requested, and no case
value for two tails, a store that a request lets pass is described by the state along the edge that is
stored for the request. -/
theorem merged_edges_keep_stores (built : g.Built) {point : Point}
    (located : g.graph.vertices[head]? = some point)
    (bare : ∀ tail, (⟨head, tail⟩ : Link) ∉ g.graph.edges) {requests : List Request}
    (inserted : g.insertEdges head requests = .ok g') (valid : g'.validate = .ok ())
    (single : ∀ tail tail' value, Routes requests tail value → Routes requests tail' value →
      tail = tail')
    {post : State} (tidy : post.Tidy) {σ : Store} (described : post.Describes σ)
    {request : Request} (asked : request ∈ requests)
    (passes : request.Passes requests point.operation σ) :
    ∃ edge s, g'.edge head request.tail = .ok edge ∧ g'.edgeState edge post = .ok (some s) ∧
      s.Describes σ := by
  have start : g.Serves head [] := by
    refine ⟨by simp, fun {tail edge _ _} found => ?_⟩
    exact absurd (mem_iff_exists_getElem?.2 ⟨edge, found⟩) (bare tail)
  obtain ⟨served, same⟩ := start.insertEdges inserted
  have built' : g'.Built :=
    foldlM_induction built (fun _ built step => built.insertEdge step) inserted
  have c := built'.consistent
  obtain ⟨edge, found, absorbs⟩ := served.absorbs request asked
  have leaves : edge.head = head := (c.ends found).1
  have located' : g'.graph.vertices[edge.head]? = some point := by rw [leaves, same, located]
  obtain ⟨entry, checked⟩ := exists_valid_of_validate valid
  have taken := served.takes (single _ _ _) asked leaves found absorbs passes
  obtain ⟨s, along, describes⟩ := exists_along_of_takes c (checked.sorted located')
    (mem_iff_exists_getElem?.2 ⟨point, located'⟩) described tidy.admissible taken
  refine ⟨edge, s, ?_, ?_, describes⟩
  · rw [FlowGraph.edge, Digraph.edge, found]
  · rw [edgeState_eq c located', along]

section Digit

private abbrev digitSlot : Slot := ⟨"digit", 32⟩

private abbrev digitPoints : List Point :=
  [⟨0, .switch (.slot digitSlot), none⟩, ⟨1, .nop, none⟩, ⟨2, .nop, none⟩]

/-- A switch over a digit, without its edges. -/
def digitSwitch : FlowGraph := (assemble (some 0) digitPoints []).toOption.getD .empty

/-- Two cases, the first of which is to share its tail with the default. -/
def digitRequests : List Request :=
  [⟨1, .switchCase {1}⟩, ⟨2, .switchCase {2}⟩, ⟨1, .switchDefault⟩]

/-- The case that the default edge has taken in is still described along it. -/
theorem digitSwitch_keeps_one :
    ∃ g', digitSwitch.insertEdges 0 digitRequests = .ok g' ∧
      g'.edge 0 1 = .ok ⟨0, 1, .switchDefault⟩ ∧
      ∃ s, g'.edgeState ⟨0, 1, .switchDefault⟩ (State.unconstrained.set digitSlot (.range 32 0 9)) =
          .ok (some s) ∧
        s.Describes (Function.update (fun _ => 0) digitSlot 1) := by
  have built : digitSwitch.Built := built_getD_assemble (some 0) digitPoints []
  have located : digitSwitch.graph.vertices[0]? = some ⟨0, .switch (.slot digitSlot), none⟩ := by
    decide +kernel
  have bare : ∀ tail, (⟨0, tail⟩ : Link) ∉ digitSwitch.graph.edges := by
    have none_yet : digitSwitch.graph.edges = ∅ := by decide +kernel
    simp [none_yet]
  have inserted : digitSwitch.insertEdges 0 digitRequests =
      .ok ((digitSwitch.insertEdges 0 digitRequests).toOption.getD .empty) := by decide +kernel
  have single : ∀ tail tail' value, Routes digitRequests tail value →
      Routes digitRequests tail' value → tail = tail' := by
    simp only [Routes, digitRequests, List.mem_cons, List.not_mem_nil, or_false]
    rintro tail tail' value ⟨request, rfl | rfl | rfl, rfl, values, ⟨⟩, mem⟩
      ⟨request', rfl | rfl | rfl, rfl, values', ⟨⟩, mem'⟩ <;> simp at mem mem' ⊢ <;> omega
  have tidy : (State.unconstrained.set digitSlot (.range 32 0 9)).Tidy :=
    State.tidy_unconstrained.set _ (by decide) rfl
  have described : (State.unconstrained.set digitSlot (.range 32 0 9)).Describes
      (Function.update (fun _ => 0) digitSlot 1) :=
    (State.describes_unconstrained _).set State.tidy_unconstrained.admissible rfl (by decide)
  obtain ⟨edge, s, stored, state, describes⟩ := merged_edges_keep_stores built located bare
    inserted (by decide +kernel) single tidy described
    (show ⟨1, .switchCase {1}⟩ ∈ digitRequests by decide +kernel)
    (show (Operand.read (Function.update (fun _ => 0) digitSlot 1) (.slot digitSlot)).toInt ∈
      ({1} : CaseSet) by decide +kernel)
  have default : ((digitSwitch.insertEdges 0 digitRequests).toOption.getD .empty).edge 0 1 =
      .ok ⟨0, 1, .switchDefault⟩ := by decide +kernel
  obtain rfl := Except.ok.inj (default.symm.trans stored)
  exact ⟨_, inserted, default, s, state, describes⟩

end Digit

end FlowGraph

end RangeFlow
