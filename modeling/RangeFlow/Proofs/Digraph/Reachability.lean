import RangeFlow.Digraph.Walk
import RangeFlow.Proofs.Digraph.Basic
import RangeFlow.Proofs.Result

/-!
# Vertices that a path leads to

Exploring a consistent graph ends within its fuel, because a step takes one vertex from the frontier and
a vertex comes there once, when it is seen first (`Digraph.unseen_add`). With no frontier left, what was
seen is closed under edges, so it is what paths from the root lead to (`Digraph.exists_reachable`).
-/

namespace RangeFlow.Digraph

variable {ν ε : Type} {g : Digraph ν ε} {root : Nat}

/-! ## The invariant of an exploration -/

/-- What every step of an exploration from `root` keeps. -/
structure Exploring (g : Digraph ν ε) (root : Nat) (frontier : List Nat) (seen : IndexSet) :
    Prop where
  root_mem : root ∈ seen
  frontier_mem : ∀ v ∈ frontier, v ∈ seen
  vertices : ∀ v ∈ seen, v ∈ g.vertices
  reachable : ∀ v ∈ seen, Relation.ReflTransGen g.Joins root v
  explored : ∀ v ∈ seen, v ∈ frontier ∨ ∀ t, g.Joins v t → t ∈ seen

/-- With no frontier left, exactly what a path leads to was seen. -/
theorem Exploring.mem_iff {seen : IndexSet} (h : Exploring g root [] seen) (v : Nat) :
    v ∈ seen ↔ Relation.ReflTransGen g.Joins root v := by
  refine ⟨h.reachable v, fun path => ?_⟩
  induction path with
  | refl => exact h.root_mem
  | @tail u t _ edge ih => exact (h.explored u ih).resolve_left List.not_mem_nil t edge

/-! ## The fuel -/

/-- The number of vertices in a list that were not seen. -/
def unseen (vertices : List Nat) (seen : IndexSet) : Nat :=
  (vertices.toFinset.filter fun v => v ∉ seen).card

theorem unseen_mono {vertices : List Nat} {seen seen' : IndexSet} (more : ∀ v ∈ seen, v ∈ seen') :
    unseen vertices seen' ≤ unseen vertices seen :=
  Finset.card_le_card (Finset.monotone_filter_right _ fun v _ => mt (more v))

/-- Vertices that are seen now were unseen before. -/
theorem unseen_add {vertices fresh : List Nat} {seen seen' : IndexSet} (nodup : fresh.Nodup)
    (unknown : ∀ t ∈ fresh, t ∈ vertices ∧ t ∉ seen)
    (added : ∀ t, t ∈ seen' ↔ t ∈ seen ∨ t ∈ fresh) :
    fresh.length + unseen vertices seen' = unseen vertices seen := by
  have part : fresh.toFinset ⊆ vertices.toFinset.filter fun v => v ∉ seen := by
    intro t ht
    simpa using unknown t (List.mem_toFinset.1 ht)
  have rest : (vertices.toFinset.filter fun v => v ∉ seen') =
      (vertices.toFinset.filter fun v => v ∉ seen) \ fresh.toFinset := by
    ext t
    simp only [Finset.mem_filter, Finset.mem_sdiff, List.mem_toFinset, added, not_or, and_assoc]
  have paid := Finset.card_sdiff_add_card_eq_card part
  rw [List.toFinset_card_of_nodup nodup] at paid
  rw [unseen, unseen, rest, ← paid, add_comm]

/-! ## Steps -/

theorem explore_cons (g : Digraph ν ε) (fuel v : Nat) (frontier : List Nat) (seen : IndexSet) :
    g.explore (fuel + 1) (v :: frontier) seen =
      g.explore fuel (((g.tails v).filter fun next => next ∉ seen) ++ frontier)
        (seen.insertMany ((g.tails v).filter fun next => next ∉ seen)) := rfl

variable [Vertex ν] [Arc ε]

/-- The successors of a vertex that were not seen before. -/
theorem Consistent.mem_fresh (c : g.Consistent) {v : Nat} (hv : v ∈ g.vertices) (seen : IndexSet)
    (t : Nat) : t ∈ ((g.tails v).filter fun next => next ∉ seen) ↔ g.Joins v t ∧ t ∉ seen := by
  rw [List.mem_filter, c.mem_tails hv, decide_eq_true_eq]

theorem Exploring.step (c : g.Consistent) {v : Nat} {frontier : List Nat} {seen : IndexSet}
    (h : Exploring g root (v :: frontier) seen) {fresh : List Nat}
    (mem : ∀ t, t ∈ fresh ↔ g.Joins v t ∧ t ∉ seen) :
    Exploring g root (fresh ++ frontier) (seen.insertMany fresh) := by
  have added (t : Nat) : t ∈ seen.insertMany fresh ↔ t ∈ seen ∨ t ∈ fresh := by
    rw [Std.ExtTreeSet.mem_insertMany_list, List.contains_iff_mem]
  have hv : v ∈ seen := h.frontier_mem v List.mem_cons_self
  refine ⟨(added root).2 (.inl h.root_mem), fun u hu => (added u).2 ?_, fun u hu => ?_,
    fun u hu => ?_, fun u hu => ?_⟩
  · rcases List.mem_append.1 hu with hu | hu
    · exact .inr hu
    · exact .inl (h.frontier_mem u (List.mem_cons_of_mem v hu))
  · rcases (added u).1 hu with hu | hu
    · exact h.vertices u hu
    · exact c.tail_mem ((mem u).1 hu).1
  · rcases (added u).1 hu with hu | hu
    · exact h.reachable u hu
    · exact (h.reachable v hv).tail ((mem u).1 hu).1
  · rcases (added u).1 hu with hu | hu
    · rcases h.explored u hu with waiting | closed
      · rcases List.mem_cons.1 waiting with rfl | waiting
        · -- The vertex that is explored: each of its successors was seen or is fresh.
          refine .inr fun t edge => (added t).2 ?_
          by_cases old : t ∈ seen
          · exact .inl old
          · exact .inr ((mem t).2 ⟨edge, old⟩)
        · exact .inl (List.mem_append_right fresh waiting)
      · exact .inr fun t edge => (added t).2 (.inl (closed t edge))
    · exact .inl (List.mem_append_left frontier hu)

/-- Exploring with fuel for the frontier and all unseen vertices leaves no frontier. -/
theorem Exploring.explore (c : g.Consistent) {fuel : Nat} {frontier : List Nat} {seen : IndexSet}
    (h : Exploring g root frontier seen) (enough : frontier.length + unseen g.vertices.keys seen ≤ fuel) :
    Exploring g root [] (g.explore fuel frontier seen) := by
  induction fuel generalizing frontier seen with
  | zero =>
    obtain rfl : frontier = [] := List.length_eq_zero_iff.1 (by omega)
    exact h
  | succ fuel ih =>
    cases frontier with
    | nil => exact h
    | cons v frontier =>
      have mem := c.mem_fresh (h.vertices v (h.frontier_mem v List.mem_cons_self)) seen
      have nodup := (g.sorted_tails v).nodup.filter fun next => decide (next ∉ seen)
      have unknown (t : Nat) (ht : t ∈ (g.tails v).filter fun next => next ∉ seen) :
          t ∈ g.vertices.keys ∧ t ∉ seen :=
        ⟨Std.ExtTreeMap.mem_keys.2 (c.tail_mem ((mem t).1 ht).1), ((mem t).1 ht).2⟩
      have paid := unseen_add nodup unknown fun t => by
        rw [Std.ExtTreeSet.mem_insertMany_list, List.contains_iff_mem]
      rw [explore_cons]
      refine ih (h.step c mem) ?_
      rw [List.length_append]
      rw [List.length_cons] at enough
      omega

/-! ## Reachable and unreachable vertices -/

theorem exists_reachable (c : g.Consistent) (hr : root ∈ g.vertices) :
    ∃ reached, g.reachable root = .ok reached ∧
      ∀ v, v ∈ reached ↔ Relation.ReflTransGen g.Joins root v := by
  have start : Exploring g root [root] {root} := by
    refine ⟨mem_singleton_iff.2 rfl, fun v hv => ?_, fun v hv => ?_, fun v hv => ?_, fun v hv => ?_⟩
    · exact mem_singleton_iff.2 (List.mem_singleton.1 hv)
    · exact mem_singleton_iff.1 hv ▸ hr
    · exact mem_singleton_iff.1 hv ▸ .refl
    · exact .inl (List.mem_singleton.2 (mem_singleton_iff.1 hv))
  have enough : [root].length + unseen g.vertices.keys {root} ≤ g.vertices.size := by
    have all : unseen g.vertices.keys ∅ = g.vertices.size := by
      rw [unseen, Finset.filter_true_of_mem fun v _ => by simp,
        List.toFinset_card_of_nodup Std.ExtTreeMap.nodup_keys, Std.ExtTreeMap.length_keys]
    rw [unseen_add (List.nodup_singleton root) (fun t ht => ?_) fun t => ?_, all]
    · exact ⟨List.mem_singleton.1 ht ▸ Std.ExtTreeMap.mem_keys.2 hr, by simp⟩
    · rw [mem_singleton_iff, List.mem_singleton, or_iff_right (by simp)]
  refine ⟨g.explore g.vertices.size [root] {root}, ?_, (start.explore c enough).mem_iff⟩
  rw [Digraph.reachable, if_pos hr]

theorem exists_unreachable (c : g.Consistent) (hr : root ∈ g.vertices) :
    ∃ unreached, g.unreachable root = .ok unreached ∧
      ∀ v, v ∈ unreached ↔ v ∈ g.vertices ∧ ¬Relation.ReflTransGen g.Joins root v := by
  obtain ⟨reached, found, mem⟩ := exists_reachable c hr
  refine ⟨g.vertices.keys.filter fun v => v ∉ reached, ?_, fun v => ?_⟩
  · rw [unreachable, found, ok_bind, pure_eq_ok]
  · rw [List.mem_filter, Std.ExtTreeMap.mem_keys, decide_eq_true_eq, mem]

end RangeFlow.Digraph
