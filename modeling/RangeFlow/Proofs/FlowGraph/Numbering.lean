import RangeFlow.Proofs.Digraph.Representation
import RangeFlow.Proofs.FlowGraph.Calls

/-!
# Numbering of points

A flow graph is changed in place. Its indices are words of 64 bits, so there is no graph to go on with if
a point is added whose index has no successor (`Call.Overflows`). In every graph that calls reach, refused
ones among them, the next index is one above the largest, so a new point never meets an old one. A call
that is refused, also one that finds an edge that it cannot merge with, leaves the graph as it was.

Main statement: `numbering_invariant`.
-/

namespace RangeFlow.FlowGraph

open RangeFlow.InPlace (atomically outcome_atomically outcome_get_bind outcome_bind refuseIf
  outcome_refuseIf_bind refused_atomically_iff outcome_atomically_ne_none)

variable {g g' : FlowGraph}

/-! ## Writes -/

/-- A computation on the maps of a flow graph. -/
def onGraph {α : Type} (x : InPlace (Digraph Point Edge) α) : InPlace FlowGraph α :=
  ExceptT.mk fun g => (x.outcome g.graph).map fun done => (done.1, { g with graph := done.2 })

/-- The index after an index, if it is a word. -/
def indexAfter (index : Nat) : InPlace FlowGraph Nat :=
  if index + 1 < 2 ^ 64 then pure (index + 1) else InPlace.overflow

/-- Adds a point under a chosen index. -/
def writePoint (index : Nat) (operation : Operation) : InPlace FlowGraph Unit := do
  onGraph (Digraph.writeVertex ⟨index, operation, none⟩)
  let next ← indexAfter index
  modify fun g => { g with nextIndex := max g.nextIndex next }

/-- Adds a point under a fresh index, and returns that index. -/
def writeNewPoint (operation : Operation) : InPlace FlowGraph Nat := do
  let index := (← get).nextIndex
  writePoint index operation
  return index

/-- Makes a point the entry. -/
def writeEntry (index : Nat) : InPlace FlowGraph Unit := do
  refuseIf (!(← get).graph.hasVertex index) (.vertexMissing index)
  modify fun g => { g with entry := some index }

/-- Puts a comment on a point. -/
def writeComment (index : Nat) (comment : String) : InPlace FlowGraph Unit :=
  onGraph (Digraph.rewriteVertex index fun point => { point with comment := some comment })

/-- Adds an edge, merging its kind with the one that is already there. -/
def writeEdge (head tail : Nat) (kind : EdgeKind) : InPlace FlowGraph Unit := do
  match (← get).graph.edges[(⟨head, tail⟩ : Link)]? with
  | none => onGraph (Digraph.writeEdge ⟨head, tail, kind⟩)
  | some present =>
      match present.kind.merge? kind with
      | some merged => onGraph (Digraph.rewriteEdge head tail fun edge => { edge with kind := merged })
      | none =>
          throw (.invalidEdge head tail s!"cannot merge {present.kind.render} with {kind.render}")

theorem onGraph_atomically (f : Digraph Point Edge → Except Error (Digraph Point Edge)) :
    onGraph (atomically f) = atomically fun g => do
      let graph ← f g.graph
      return { g with graph } := by
  refine InPlace.ext fun g => ?_
  show ((atomically f).outcome g.graph).map _ = _
  rw [outcome_atomically, outcome_atomically]
  cases f g.graph <;> rfl

theorem writeEntry_eq (index : Nat) : writeEntry index = atomically fun g => g.setEntry index := by
  refine InPlace.ext fun g => ?_
  simp only [outcome_atomically, writeEntry, outcome_get_bind, outcome_refuseIf_bind, setEntry]
  cases g.graph.hasVertex index <;> rfl

theorem writeComment_eq (index : Nat) (comment : String) :
    writeComment index comment = atomically fun g => g.setComment index comment := by
  rw [writeComment, Digraph.rewriteVertex_eq, onGraph_atomically]
  rfl

theorem writeEdge_eq (head tail : Nat) (kind : EdgeKind) :
    writeEdge head tail kind = atomically fun g => g.insertEdge head tail kind := by
  refine InPlace.ext fun g => ?_
  rw [outcome_atomically, writeEdge, outcome_get_bind, insertEdge]
  cases g.graph.edges[(⟨head, tail⟩ : Link)]? with
  | none =>
    dsimp only
    rw [Digraph.writeEdge_eq, onGraph_atomically, outcome_atomically]
  | some present =>
    dsimp only
    cases present.kind.merge? kind with
    | none => rfl
    | some merged =>
      dsimp only
      rw [Digraph.rewriteEdge_eq, onGraph_atomically, outcome_atomically]

/-- The point is written before the next index is known to be a word. -/
theorem outcome_writePoint (g : FlowGraph) (index : Nat) (operation : Operation) :
    (writePoint index operation).outcome g =
      match g.insertPoint index operation with
      | .ok g' => if index + 1 < 2 ^ 64 then some (.ok (), g') else none
      | .error e => some (.error e, g) := by
  rw [writePoint, Digraph.writeVertex_eq, onGraph_atomically, outcome_bind, outcome_atomically,
    insertPoint]
  cases g.graph.insertVertex ⟨index, operation, none⟩ with
  | error e => rfl
  | ok graph =>
    simp only [ok_bind, pure_eq_ok, indexAfter]
    split_ifs <;> rfl

theorem outcome_writeNewPoint (g : FlowGraph) (operation : Operation) :
    (writeNewPoint operation).outcome g =
      match g.newPoint operation with
      | .ok made => if g.nextIndex + 1 < 2 ^ 64 then some (.ok made.1, made.2) else none
      | .error e => some (.error e, g) := by
  rw [writeNewPoint, outcome_get_bind, outcome_bind, outcome_writePoint, newPoint]
  cases g.insertPoint g.nextIndex operation with
  | error e => rfl
  | ok g' =>
    simp only [ok_bind, pure_eq_ok]
    split_ifs <;> rfl

/-! ## Calls -/

/-- A call on a flow graph that is changed in place. -/
def Call.perform : Call → InPlace FlowGraph Unit
  | newPoint operation => do let _ ← writeNewPoint operation
  | insertPoint index operation => writePoint index operation
  | setEntry index => writeEntry index
  | setComment index comment => writeComment index comment
  | insertEdge head tail kind => writeEdge head tail kind

/-- A call adds a point whose index has no successor among the words. -/
def Call.Overflows (g : FlowGraph) : Call → Prop
  | newPoint _ => 2 ^ 64 ≤ g.nextIndex + 1
  | insertPoint index _ => index ∉ g.graph.vertices ∧ 2 ^ 64 ≤ index + 1
  | _ => False

/-- A call adds a point that is there, names one that is not, or adds an edge that cannot be merged. -/
def Call.Invalid (g : FlowGraph) : Call → Prop
  | newPoint _ => False
  | insertPoint index _ => index ∈ g.graph.vertices
  | setEntry index => index ∉ g.graph.vertices
  | setComment index _ => index ∉ g.graph.vertices
  | insertEdge head tail kind =>
      match g.graph.edges[(⟨head, tail⟩ : Link)]? with
      | some present => present.kind.merge? kind = none
      | none => head ∉ g.graph.vertices ∨ tail ∉ g.graph.vertices

/-- A call writes all of its update or nothing, unless it overflows. -/
theorem Call.outcome_perform (call : Call) (g : FlowGraph) :
    call.perform.outcome g = none ∨
      call.perform.outcome g = (atomically fun g => call.run g).outcome g := by
  cases call with
  | newPoint operation =>
    rw [perform, outcome_bind, outcome_writeNewPoint, outcome_atomically, run]
    cases g.newPoint operation with
    | error e => exact .inr rfl
    | ok made =>
      dsimp only
      split_ifs
      · exact .inr rfl
      · exact .inl rfl
  | insertPoint index operation =>
    rw [perform, outcome_writePoint, outcome_atomically, run]
    cases g.insertPoint index operation with
    | error e => exact .inr rfl
    | ok g' =>
      dsimp only
      split_ifs
      · exact .inr rfl
      · exact .inl rfl
  | setEntry index => exact .inr (congrFun (writeEntry_eq index) g)
  | setComment index comment => exact .inr (congrFun (writeComment_eq index comment) g)
  | insertEdge head tail kind => exact .inr (congrFun (writeEdge_eq head tail kind) g)

theorem Call.eq_leave_of_outcome {call : Call} {result : Except Error Unit}
    (h : call.perform.outcome g = some (result, g')) : g' = call.leave g := by
  rcases call.outcome_perform g with cut | made
  · rw [cut] at h
    cases h
  · rw [made, outcome_atomically] at h
    rw [leave]
    cases done : call.run g <;> rw [done] at h <;> cases h <;> rfl

theorem eq_after_of_history {calls : List Call}
    (h : InPlace.history Call.perform empty calls = some g) : g = after calls :=
  InPlace.eq_foldl_of_history Call.eq_leave_of_outcome h

/-! ## Refusals -/

theorem fails_bind_pure_iff {α β : Type} {x : Except Error α} {f : α → β} :
    (∃ e, (do return f (← x)) = Except.error e) ↔ ∃ e, x = .error e := by
  cases x <;> simp [bind, Except.bind, pure, Except.pure]

theorem insertPoint_fails_iff {index : Nat} (operation : Operation) :
    (∃ e, g.insertPoint index operation = .error e) ↔ index ∈ g.graph.vertices := by
  rw [insertPoint, fails_bind_pure_iff, Digraph.insertVertex_fails_iff]
  rfl

theorem setEntry_fails_iff {index : Nat} :
    (∃ e, g.setEntry index = .error e) ↔ index ∉ g.graph.vertices := by
  rw [setEntry, Digraph.hasVertex, ← Std.ExtTreeMap.contains_iff_mem]
  split_ifs with present <;> simp [present]

theorem insertEdge_fails_iff {head tail : Nat} {kind : EdgeKind} :
    (∃ e, g.insertEdge head tail kind = .error e) ↔ (Call.insertEdge head tail kind).Invalid g := by
  rw [insertEdge, Call.Invalid]
  cases found : g.graph.edges[(⟨head, tail⟩ : Link)]? with
  | none =>
    have absent : (⟨head, tail⟩ : Link) ∉ g.graph.edges := fun present => by
      obtain ⟨edge, found'⟩ := mem_iff_exists_getElem?.1 present
      cases found.symm.trans found'
    dsimp only
    rw [fails_bind_pure_iff, Digraph.insertEdge_fails_iff]
    exact or_iff_right absent
  | some present =>
    dsimp only
    cases present.kind.merge? kind with
    | none => simp
    | some merged =>
      dsimp only
      rw [fails_bind_pure_iff, Digraph.modifyEdge, fails_bind_pure_iff, Digraph.edge, found]
      simp

theorem Intact.nextIndex_fresh (i : g.Intact) : g.nextIndex ∉ g.graph.vertices :=
  fun present => lt_irrefl _ (i.lt_nextIndex present)

theorem Intact.exists_newPoint (i : g.Intact) (operation : Operation) :
    ∃ g', g.newPoint operation = .ok (g.nextIndex, g') ∧ g'.nextIndex = g.nextIndex + 1 := by
  cases made : g.insertPoint g.nextIndex operation with
  | error e => exact absurd ((insertPoint_fails_iff operation).1 ⟨e, made⟩) i.nextIndex_fresh
  | ok g' =>
    refine ⟨g', by rw [newPoint, made]; rfl, ?_⟩
    obtain ⟨graph, -, rfl⟩ := insertPoint_eq_ok made
    exact max_eq_right (Nat.le_succ _)

theorem Call.run_fails_iff (i : g.Intact) (call : Call) :
    (∃ e, call.run g = .error e) ↔ call.Invalid g := by
  cases call with
  | newPoint operation =>
    obtain ⟨g', made, -⟩ := i.exists_newPoint operation
    simp [run, made, Invalid, Except.map]
  | insertPoint index operation => exact insertPoint_fails_iff operation
  | setEntry index => exact setEntry_fails_iff
  | setComment index comment =>
    rw [run, FlowGraph.setComment, fails_bind_pure_iff, Digraph.modifyVertex_fails_iff]
    rfl
  | insertEdge head tail kind => exact insertEdge_fails_iff

/-! ## Overflow -/

theorem Call.outcome_perform_eq_none_iff (i : g.Intact) (call : Call) :
    call.perform.outcome g = none ↔ call.Overflows g := by
  cases call with
  | newPoint operation =>
    obtain ⟨g', made, -⟩ := i.exists_newPoint operation
    rw [perform, outcome_bind, outcome_writeNewPoint, made, Overflows]
    dsimp only
    split_ifs with word
    · exact iff_of_false (Option.some_ne_none _) (by omega)
    · exact iff_of_true rfl (by omega)
  | insertPoint index operation =>
    rw [perform, outcome_writePoint, Overflows, ← insertPoint_fails_iff operation]
    cases g.insertPoint index operation with
    | error e => simp
    | ok g' =>
      dsimp only
      split_ifs with word
      · exact iff_of_false not_false fun h => absurd h.2 (by omega)
      · exact iff_of_true rfl ⟨by simp, by omega⟩
  | setEntry index =>
    rw [perform, writeEntry_eq]
    exact iff_of_false (outcome_atomically_ne_none _ g) not_false
  | setComment index comment =>
    rw [perform, writeComment_eq]
    exact iff_of_false (outcome_atomically_ne_none _ g) not_false
  | insertEdge head tail kind =>
    rw [perform, writeEdge_eq]
    exact iff_of_false (outcome_atomically_ne_none _ g) not_false

theorem Call.outcome_perform_of_safe (i : g.Intact) (call : Call) (safe : ¬call.Overflows g) :
    call.perform.outcome g = (atomically fun g => call.run g).outcome g :=
  (call.outcome_perform g).resolve_left (mt (call.outcome_perform_eq_none_iff i).1 safe)

theorem Call.Invalid.not_overflows {call : Call} (h : call.Invalid g) : ¬call.Overflows g := by
  cases call with
  | newPoint operation => exact h.elim
  | insertPoint index operation => exact fun overflows => overflows.1 h
  | setEntry index => exact id
  | setComment index comment => exact id
  | insertEdge head tail kind => exact id

theorem Call.refused_perform_iff (i : g.Intact) (call : Call) :
    call.perform.Refused g ↔ call.Invalid g := by
  by_cases overflows : call.Overflows g
  · refine iff_of_false ?_ fun invalid => invalid.not_overflows overflows
    rintro ⟨e, g', refused⟩
    rw [(call.outcome_perform_eq_none_iff i).2 overflows] at refused
    cases refused
  · rw [← call.run_fails_iff i, InPlace.Refused, call.outcome_perform_of_safe i overflows]
    exact refused_atomically_iff (f := fun g => call.run g)

/-- A call that does not overflow keeps the next index among the words. -/
theorem Call.nextIndex_lt_of_run {call : Call} (done : call.run g = .ok g')
    (safe : ¬call.Overflows g) (word : g.nextIndex < 2 ^ 64) : g'.nextIndex < 2 ^ 64 := by
  cases call with
  | newPoint operation =>
    obtain ⟨⟨index, extended⟩, made, rfl⟩ := exists_of_map_eq_ok done
    obtain ⟨graph, -, rfl⟩ := insertPoint_eq_ok (newPoint_eq_ok made).2
    exact max_lt word (not_le.1 safe)
  | insertPoint index operation =>
    obtain ⟨graph, inserted, rfl⟩ := insertPoint_eq_ok done
    have fresh : index ∉ g.graph.vertices := (Digraph.insertVertex_eq_ok inserted).1
    exact max_lt word (not_le.1 fun beyond => safe ⟨fresh, beyond⟩)
  | setEntry index =>
    obtain ⟨-, rfl⟩ := setEntry_eq_ok done
    exact word
  | setComment index comment =>
    obtain ⟨graph, -, rfl⟩ := setComment_eq_ok done
    exact word
  | insertEdge head tail kind =>
    rcases insertEdge_eq_ok done with ⟨graph, -, -, rfl⟩ | ⟨_, _, graph, -, -, -, rfl⟩
    · exact word
    · exact word

theorem nextIndex_lt_of_history {calls : List Call}
    (h : InPlace.history Call.perform empty calls = some g) : g.nextIndex < 2 ^ 64 := by
  have kept : g.Built ∧ g.nextIndex < 2 ^ 64 := by
    refine InPlace.history_induction (P := fun g => g.Built ∧ g.nextIndex < 2 ^ 64)
      ⟨.empty, by decide⟩ ?_ h
    rintro call g g' result ⟨built, word⟩ made
    have safe : ¬call.Overflows g := by
      rw [← call.outcome_perform_eq_none_iff built.intact, made]
      exact Option.some_ne_none _
    rw [Call.eq_leave_of_outcome made]
    rcases call.leave_eq g with refused | done
    · rw [refused]
      exact ⟨built, word⟩
    · exact ⟨built.run done, Call.nextIndex_lt_of_run done safe word⟩
  exact kept.2

/-- The next index is one above the largest, and zero without points. -/
theorem Intact.nextIndex_cases (i : g.Intact) :
    (∀ k, k ∉ g.graph.vertices) ∧ g.nextIndex = 0 ∨
      ∃ largest, IsGreatest {k | k ∈ g.graph.vertices} largest ∧ g.nextIndex = largest + 1 := by
  rcases i.nextIndex_eq with zero | ⟨largest, present, next⟩
  · refine .inl ⟨fun k hk => ?_, zero⟩
    have := i.lt_nextIndex hk
    omega
  · refine .inr ⟨largest, ⟨present, fun k hk => ?_⟩, next⟩
    have := i.lt_nextIndex hk
    omega

/-- In every graph that calls on an empty one reach, refused ones among them, the next index is one above
the largest index of a point. It is unused, and a new point gets it unless the index after it is not a
word. The entry is a point, and every point stands under its own index. A call is refused exactly if it
adds a point that is there, names one that is not or adds an edge that cannot be merged, and it leaves
the whole graph as it was. -/
theorem numbering_invariant {calls : List Call}
    (reached : InPlace.history Call.perform empty calls = some g) :
    g = after calls ∧
    ((∀ k, k ∉ g.graph.vertices) ∧ g.nextIndex = 0 ∨
      ∃ largest, IsGreatest {k | k ∈ g.graph.vertices} largest ∧ g.nextIndex = largest + 1) ∧
    g.nextIndex < 2 ^ 64 ∧ g.nextIndex ∉ g.graph.vertices ∧
    (∀ operation, g.nextIndex < 2 ^ 64 - 1 →
      ∃ g', g.newPoint operation = .ok (g.nextIndex, g') ∧
        (writeNewPoint operation).outcome g = some (.ok g.nextIndex, g')) ∧
    (∀ entry, g.entry = some entry → entry ∈ g.graph.vertices) ∧
    (∀ (k : Nat) (point : Point), g.graph.vertices[k]? = some point → point.index = k) ∧
    (∀ call : Call, call.perform.outcome g = none ↔ call.Overflows g) ∧
    (∀ call : Call, call.perform.Refused g ↔ call.Invalid g) ∧
    ∀ call : Call, ¬call.Overflows g →
      (∃ g', call.run g = .ok g' ∧ call.perform.outcome g = some (.ok (), g')) ∨
      ∃ e, call.run g = .error e ∧ call.perform.outcome g = some (.error e, g) := by
  have i : g.Intact := eq_after_of_history reached ▸ (built_after calls).intact
  refine ⟨eq_after_of_history reached, i.nextIndex_cases, nextIndex_lt_of_history reached,
    i.nextIndex_fresh, fun operation small => ?_, fun _ => i.entry_mem, fun _ _ => i.consistent.index,
    Call.outcome_perform_eq_none_iff i, Call.refused_perform_iff i, fun call safe => ?_⟩
  · obtain ⟨g', made, -⟩ := i.exists_newPoint operation
    refine ⟨g', made, ?_⟩
    rw [outcome_writeNewPoint, made]
    exact if_pos (by omega)
  · rw [call.outcome_perform_of_safe i safe, outcome_atomically]
    cases call.run g with
    | ok g' => exact .inl ⟨g', rfl, rfl⟩
    | error e => exact .inr ⟨e, rfl, rfl⟩

/-- Chosen and automatic indices in turn. Five of the calls are refused, and the last one adds a point
that only the largest word can follow. -/
def crowdedCalls : List Call :=
  [.insertPoint 7 .nop, .newPoint .nop, .insertPoint 7 (.ret none), .insertEdge 7 8 .sequential,
    .insertEdge 7 8 .branchTrue, .insertEdge 7 9 .sequential, .setEntry 9, .setEntry 8,
    .setComment 9 "late", .insertPoint 18446744073709551614 .nop]

/-- A new point gets the index after the chosen ones, an edge that cannot be merged leaves the graph as it
was, and the largest word is left for no point. -/
theorem numbering_invariant_crowded :
    InPlace.history Call.perform empty (crowdedCalls.take 9) = some (after (crowdedCalls.take 9)) ∧
    (∃ g', (writeNewPoint .nop).outcome (after (crowdedCalls.take 9)) = some (.ok 9, g')) ∧
    (Call.insertEdge 7 8 .branchTrue).perform.outcome (after (crowdedCalls.take 9)) =
      some (.error (.invalidEdge 7 8 "cannot merge sequential with true"),
        after (crowdedCalls.take 9)) ∧
    InPlace.history Call.perform empty crowdedCalls = some (after crowdedCalls) ∧
    (after crowdedCalls).nextIndex = 18446744073709551615 ∧
    (Call.newPoint .nop).perform.outcome (after crowdedCalls) = none := by
  have early : InPlace.history Call.perform empty (crowdedCalls.take 9) =
      some (after (crowdedCalls.take 9)) := by decide +kernel
  have late : InPlace.history Call.perform empty crowdedCalls = some (after crowdedCalls) := by
    decide +kernel
  have next : (after (crowdedCalls.take 9)).nextIndex = 9 := by decide +kernel
  have last : (after crowdedCalls).nextIndex = 18446744073709551615 := by decide +kernel
  have clash : (Call.insertEdge 7 8 .branchTrue).run (after (crowdedCalls.take 9)) =
      .error (.invalidEdge 7 8 "cannot merge sequential with true") := by decide +kernel
  obtain ⟨-, -, -, -, fresh, -, -, -, -, atomic⟩ := numbering_invariant early
  obtain ⟨-, -, -, -, -, -, -, cut, -, -⟩ := numbering_invariant late
  refine ⟨early, ?_, ?_, late, last, (cut _).2 ?_⟩
  · obtain ⟨g', -, made⟩ := fresh .nop (by rw [next]; decide)
    rw [next] at made
    exact ⟨g', made⟩
  · rcases atomic (.insertEdge 7 8 .branchTrue) not_false with ⟨g', done, -⟩ | ⟨e, refused, made⟩
    · cases clash.symm.trans done
    · cases clash.symm.trans refused
      exact made
  · show 2 ^ 64 ≤ (after crowdedCalls).nextIndex + 1
    rw [last]
    decide

end RangeFlow.FlowGraph
