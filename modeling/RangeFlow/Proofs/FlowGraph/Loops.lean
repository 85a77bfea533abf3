import RangeFlow.FlowGraph.Validity
import RangeFlow.Proofs.Digraph.Walk
import RangeFlow.Proofs.FlowGraph.Calls

/-!
# Loop headers

A depth-first walk from the entry numbers the points that control can get to, and an edge that leads
to no loop header goes up in that numbering (`FlowGraph.Headed.forward`). So every cycle of such points
passes through a loop header, whether or not the loop has one entrance and whichever edges are marked
as closing it.
-/

namespace RangeFlow

/-! ## Cycles of a relation -/

/-- The links of a cycle may be read as links of another relation that holds among its members. -/
theorem chain_of_mem {α : Type} {r s : α → α → Prop} {cycle : Cycle α} (chain : cycle.Chain r)
    (among : ∀ u ∈ cycle, ∀ v ∈ cycle, r u v → s u v) : cycle.Chain s := by
  cases cycle using Cycle.induction_on with
  | nil => exact Cycle.Chain.nil s
  | cons a l =>
    rw [Cycle.chain_coe_cons] at chain ⊢
    have member {v : α} (hv : v ∈ a :: (l ++ [a])) : v ∈ (↑(a :: l) : Cycle α) := by
      simp only [List.mem_cons, List.mem_append, Cycle.mem_coe_iff] at hv ⊢
      tauto
    exact chain.imp_of_mem_imp fun u v hu hv => among u (member hu) v (member hv)

namespace FlowGraph

variable {g : FlowGraph} {entry : Nat}

/-- Control can get to a point from the entry, whatever is decided on the way. -/
def Reachable (g : FlowGraph) (point : Nat) : Prop :=
  ∃ entry, g.entry = some entry ∧ Relation.ReflTransGen g.graph.Joins entry point

/-! ## Loop headers -/

/-- What a walk from the entry says about a set of loop headers: there is a numbering of the points
that control can get to, and an edge that does not go up in it leads to a loop header. -/
structure Headed (g : FlowGraph) (number : Nat → Nat) (headers : IndexSet) : Prop where
  forward : ∀ {head tail : Nat}, g.Reachable head → g.graph.Joins head tail → tail ∉ headers →
    number head < number tail

/-- A walk from the entry gives the loop headers, and it retreats only to them. -/
theorem exists_loopHeaders {walk : DepthFirst} (located : g.entryIndex = .ok entry)
    (walked : g.graph.depthFirst entry = .ok walk) :
    ∃ headers, g.loopHeaders = .ok headers ∧
      ∀ {head tail : Nat}, (⟨head, tail⟩ : Link) ∈ walk.retreating → tail ∈ headers := by
  refine ⟨(Std.ExtTreeSet.ofList (walk.retreating.toList.map Link.tail)).insertMany g.loopBackTails,
    ?_, fun {head tail} retreats => ?_⟩
  · rw [loopHeaders, located]
    change (g.graph.depthFirst entry >>= _) = _
    rw [walked]
    rfl
  · have tail_mem : tail ∈ walk.retreating.toList.map Link.tail :=
      List.mem_map.2 ⟨_, Std.ExtTreeSet.mem_toList.2 retreats, rfl⟩
    exact Std.ExtTreeSet.mem_insertMany_list.2 (.inl (mem_ofList_iff.2 tail_mem))

/-- The loop headers of a graph with an entry can be found, and they head it. -/
theorem Built.exists_headed (built : g.Built) (entered : g.entry = some entry) :
    ∃ headers number, g.loopHeaders = .ok headers ∧ g.Headed number headers := by
  obtain ⟨walk, walked, sound⟩ :=
    Digraph.exists_depthFirst built.consistent (built.intact.entry_mem entered)
  have located : g.entryIndex = .ok entry := by rw [entryIndex, entered]
  obtain ⟨headers, found, retreats⟩ := exists_loopHeaders located walked
  refine ⟨headers, fun v => walk.reversePostOrder.idxOf v, found, ⟨?_⟩⟩
  intro head tail reachable edge plain
  obtain ⟨entry', entered', path⟩ := reachable
  obtain rfl := Option.some.inj (entered.symm.trans entered')
  exact sound.forward (sound.mem_of_path path) edge fun back => plain (retreats back)

theorem Reachable.tail {head tail : Nat} (reachable : g.Reachable head)
    (edge : g.graph.Joins head tail) : g.Reachable tail := by
  obtain ⟨entry, entered, path⟩ := reachable
  exact ⟨entry, entered, path.tail edge⟩

section Headed

variable {number : Nat → Nat} {headers : IndexSet} (headed : g.Headed number headers)
include headed

/-- Along a path that enters no loop header the numbers go up. -/
theorem Headed.lt_of_path {u v : Nat} (reachable : g.Reachable u)
    (path : Relation.TransGen (fun head tail => g.graph.Joins head tail ∧ tail ∉ headers) u v) :
    number u < number v ∧ g.Reachable v := by
  induction path with
  | single edge => exact ⟨headed.forward reachable edge.1 edge.2, reachable.tail edge.1⟩
  | tail _ edge ih =>
    obtain ⟨less, reached⟩ := ih
    exact ⟨less.trans (headed.forward reached edge.1 edge.2), reached.tail edge.1⟩

/-- A cycle that control can get to has a loop header. -/
theorem Headed.exists_mem_of_cycle {cycle : Cycle Nat} (nonempty : cycle ≠ Cycle.nil)
    (chain : cycle.Chain g.graph.Joins) (reachable : ∀ v ∈ cycle, g.Reachable v) :
    ∃ v ∈ cycle, v ∈ headers := by
  by_contra plain
  push Not at plain
  have rising : cycle.Chain fun u v => number u < number v :=
    chain_of_mem chain fun u hu v hv edge => headed.forward (reachable u hu) edge (plain v hv)
  have : IsTrans Nat fun u v => number u < number v := ⟨fun _ _ _ => lt_trans⟩
  have : Std.Irrefl fun u v => number u < number v := ⟨fun _ => lt_irrefl _⟩
  exact nonempty rising.eq_nil_of_irrefl

end Headed

/-! ## Cycles -/

/-- Every cycle that control can get to passes through a loop header. What is left of these points when
all edges into loop headers are taken away has no cycle. -/
theorem loopHeaders_cut_cycles (built : g.Built) (entered : g.entry = some entry) :
    ∃ headers, g.loopHeaders = .ok headers ∧
      (∀ cycle : Cycle Nat, cycle ≠ Cycle.nil → cycle.Chain g.graph.Joins →
        (∀ v ∈ cycle, g.Reachable v) → ∃ v ∈ cycle, v ∈ headers) ∧
      ∀ v, g.Reachable v →
        ¬Relation.TransGen (fun head tail => g.graph.Joins head tail ∧ tail ∉ headers) v v := by
  obtain ⟨headers, number, found, headed⟩ := built.exists_headed entered
  refine ⟨headers, found, fun cycle => headed.exists_mem_of_cycle, fun v reachable path => ?_⟩
  exact lt_irrefl _ (headed.lt_of_path reachable path).1

section TwoEntrances

private abbrev entrances : List Point :=
  [⟨0, .branch ⟨.lt, .slot ⟨"a", 32⟩, .constant ⟨10, 32⟩⟩, none⟩, ⟨1, .nop, none⟩, ⟨2, .nop, none⟩]

private abbrev crossings : List Edge :=
  [⟨0, 1, .branchTrue⟩, ⟨0, 2, .branchFalse⟩, ⟨1, 2, .sequential⟩, ⟨2, 1, .sequential⟩]

/-- A loop that control can enter at both of its points, with no edge marked as closing it. -/
def twoEntrances : FlowGraph := (assemble (some 0) entrances crossings).toOption.getD .empty

/-- One of the two points is a loop header. -/
theorem twoEntrances_headed :
    ∃ headers, twoEntrances.loopHeaders = .ok headers ∧ (1 ∈ headers ∨ 2 ∈ headers) := by
  have built : twoEntrances.Built := built_getD_assemble (some 0) entrances crossings
  obtain ⟨headers, found, cut, -⟩ := loopHeaders_cut_cycles built
    (show twoEntrances.entry = some 0 by decide +kernel)
  have joins : ∀ link ∈ [(0, 1), (0, 2), (1, 2), (2, 1)],
      twoEntrances.graph.Joins link.1 link.2 := by
    unfold Digraph.Joins
    decide +kernel
  have reachable : ∀ v ∈ (↑[1, 2] : Cycle Nat), twoEntrances.Reachable v := by
    intro v hv
    refine ⟨0, by decide +kernel, .single (joins (0, v) ?_)⟩
    simp only [Cycle.mem_coe_iff, List.mem_cons, List.not_mem_nil, or_false] at hv
    rcases hv with rfl | rfl <;> decide
  obtain ⟨v, hv, header⟩ := cut ↑[1, 2] (by simp) (by
    rw [Cycle.chain_coe_cons]
    simp [joins (1, 2) (by decide), joins (2, 1) (by decide)]) reachable
  simp only [Cycle.mem_coe_iff, List.mem_cons, List.not_mem_nil, or_false] at hv
  rcases hv with rfl | rfl
  · exact ⟨headers, found, .inl header⟩
  · exact ⟨headers, found, .inr header⟩

end TwoEntrances

end FlowGraph

end RangeFlow
