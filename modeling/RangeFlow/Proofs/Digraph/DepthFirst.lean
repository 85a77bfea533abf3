import RangeFlow.Proofs.Digraph.Reachability
import RangeFlow.Proofs.Digraph.Walk

/-!
# What a depth-first walk says

The open vertices of a walk, outermost first, and behind them the vertices that were left, the latest
first, are the reverse post order as far as it is known (`Walk.order`). Leaving a vertex does not change
this list and entering one puts it between the two parts, so what stands in front of what stays so. An
edge that is found to lead to an open vertex does therefore not go forward in the end (`Walk.Ordered`),
and every other edge does (`DepthFirst.Sound.forward`).

Main statement: `Digraph.depthFirst_orders_reachable`.
-/

namespace RangeFlow

/-- In a list without repetitions what stands first in a sublist has the lower index. -/
theorem idxOf_lt_of_sublist {l : List Nat} (nodup : l.Nodup) {u v : Nat} (h : [u, v].Sublist l) :
    l.idxOf u < l.idxOf v := by
  induction l with
  | nil => cases h
  | cons w l ih =>
    obtain ⟨fresh, nodup⟩ := List.nodup_cons.1 nodup
    have later {t : Nat} (ht : t ∈ l) : (w :: l).idxOf t = (l.idxOf t).succ :=
      List.idxOf_cons_ne _ fun e => fresh (e ▸ ht)
    cases h with
    | cons _ h =>
      rw [later (h.subset (by simp)), later (h.subset (by simp))]
      exact Nat.succ_lt_succ (ih nodup h)
    | cons_cons _ h =>
      rw [List.idxOf_cons_self, later (List.singleton_sublist.1 h)]
      exact Nat.succ_pos _

variable {ν ε : Type} {g : Digraph ν ε} {root : Nat}

/-! ## The order that emerges -/

namespace Walk

/-- The reverse post order, as far as it is known. -/
def order (walk : Walk) : List Nat := walk.opened.reverse ++ walk.finished

/-- What every step of a walk from `root` keeps: the root comes first, a path leads to every vertex, and
the walk retreats along edges that do not go forward. -/
structure Ordered (g : Digraph ν ε) (root : Nat) (walk : Walk) : Prop where
  first : walk.order.head? = some root
  reachable : ∀ v ∈ walk.visited, Relation.ReflTransGen g.Joins root v
  edges : ∀ l ∈ walk.retreating, l ∈ g.edges
  backward : ∀ l ∈ walk.retreating, l.tail = l.head ∨ [l.tail, l.head].Sublist walk.order

theorem ordered_start (g : Digraph ν ε) (root : Nat) (tails : List Nat) :
    Ordered g root (start root tails) where
  first := by simp [order, opened, start]
  reachable v hv := by
    rw [start, mem_singleton_iff] at hv
    exact hv ▸ .refl
  edges l hl := by simp [start] at hl
  backward l hl := by simp [start] at hl

variable {walk : Walk} {v : Nat} {pending : List Nat} {outer : List (Nat × List Nat)}

theorem order_eq (top : walk.stack = (v, pending) :: outer) :
    walk.order = (outer.map Prod.fst).reverse ++ v :: walk.finished := by
  simp [order, opened, top]

/-- An open vertex is the innermost one or stands in front of it. -/
theorem Sound.sublist_order (h : Sound g root walk) (top : walk.stack = (v, pending) :: outer)
    {next : Nat} (active : next ∈ walk.active) : next = v ∨ [next, v].Sublist walk.order := by
  refine (List.mem_cons.1 (((h.open_top top).2.1 next).1 active)).imp_right fun mem => ?_
  have before : [next].Sublist (outer.map Prod.fst).reverse :=
    List.singleton_sublist.2 (List.mem_reverse.2 mem)
  have behind : [v].Sublist (v :: walk.finished) := List.singleton_sublist.2 List.mem_cons_self
  rw [order_eq top]
  exact before.append behind

/-- Leaving the innermost vertex. -/
theorem Ordered.leave (o : Ordered g root walk) (top : walk.stack = (v, []) :: outer) :
    Ordered g root { walk with
      stack := outer
      active := walk.active.erase v
      finished := v :: walk.finished } := by
  have first := o.first
  have backward := o.backward
  rw [order_eq top] at first backward
  exact ⟨first, o.reachable, o.edges, backward⟩

/-- Following an edge to a vertex that was visited before. -/
theorem Ordered.skip (o : Ordered g root walk) {next : Nat}
    (top : walk.stack = (v, next :: pending) :: outer) {retreating : Std.ExtTreeSet Link}
    (edges : ∀ l : Link, l ∈ retreating → l ∈ g.edges)
    (backward : ∀ l : Link, l ∈ retreating →
      l.tail = l.head ∨ [l.tail, l.head].Sublist walk.order) :
    Ordered g root { walk with stack := (v, pending) :: outer, retreating := retreating } := by
  have same : order { walk with stack := (v, pending) :: outer, retreating := retreating } =
      walk.order := by
    rw [order_eq top, order_eq rfl]
  exact ⟨same ▸ o.first, o.reachable, edges, same ▸ backward⟩

/-- Entering a vertex that is visited for the first time. -/
theorem Ordered.enter (o : Ordered g root walk) {next : Nat}
    (top : walk.stack = (v, next :: pending) :: outer)
    (path : Relation.ReflTransGen g.Joins root next) (tails : List Nat) :
    Ordered g root { walk with
      stack := (next, tails) :: (v, pending) :: outer
      active := walk.active.insert next
      visited := walk.visited.insert next } := by
  have first := o.first
  have backward := o.backward
  rw [order_eq top] at first backward
  -- The new vertex comes behind all open ones and in front of all that were left.
  have kept : ((outer.map Prod.fst).reverse ++ v :: walk.finished).Sublist
      ((outer.map Prod.fst).reverse ++ v :: next :: walk.finished) :=
    ((List.sublist_cons_self next walk.finished).cons_cons v).append_left _
  have longer : order { walk with
      stack := (next, tails) :: (v, pending) :: outer
      active := walk.active.insert next
      visited := walk.visited.insert next } =
        (outer.map Prod.fst).reverse ++ v :: next :: walk.finished := by
    simp [order, opened]
  refine ⟨?_, fun u hu => ?_, o.edges, fun l hl => ?_⟩
  · rw [longer]
    cases reversed : (outer.map Prod.fst).reverse with
    | nil => simpa [reversed] using first
    | cons u rest => simpa [reversed] using first
  · rcases mem_insert_iff.1 hu with rfl | hu
    · exact path
    · exact o.reachable u hu
  · rw [longer]
    exact (backward l hl).imp_right fun sub => sub.trans kept

/-- A step keeps the order. -/
theorem Ordered.step (h : Sound g root walk) (o : Ordered g root walk) {next : Walk}
    (stepped : Walk.step g walk = .ok next) : Ordered g root next := by
  unfold Walk.step at stepped
  split at stepped
  · exact Except.ok.inj stepped ▸ o
  · rename_i v outer top
    exact Except.ok.inj stepped ▸ o.leave top
  · rename_i v tail pending outer top
    have edge : (⟨v, tail⟩ : Link) ∈ g.edges :=
      h.pending _ (top ▸ List.mem_cons_self) tail List.mem_cons_self
    split_ifs at stepped with active visited
    · refine Except.ok.inj stepped ▸ o.skip top (fun l hl => ?_) fun l hl => ?_
      · rcases mem_insert_iff.1 hl with rfl | hl
        · exact edge
        · exact o.edges l hl
      · rcases mem_insert_iff.1 hl with rfl | hl
        · exact h.sublist_order top active
        · exact o.backward l hl
    · exact Except.ok.inj stepped ▸ o.skip top o.edges o.backward
    · obtain ⟨tails, -, stepped⟩ := bind_eq_ok_iff.1 stepped
      have entered : v ∈ walk.visited := ((h.open_top top).2.2.1 v).2 (by simp)
      exact Except.ok.inj stepped ▸ o.enter top ((o.reachable v entered).tail edge) tails

end Walk

/-! ## The order of a completed walk -/

/-- What a completed walk from `root` says about its order. -/
structure DepthFirst.Ordered (g : Digraph ν ε) (root : Nat) (walk : DepthFirst) : Prop where
  first : walk.reversePostOrder.head? = some root
  reachable : ∀ v ∈ walk.reversePostOrder, Relation.ReflTransGen g.Joins root v
  edges : ∀ {u v : Nat}, (⟨u, v⟩ : Link) ∈ walk.retreating →
    g.Joins u v ∧ v ∈ walk.reversePostOrder
  backward : ∀ {u v : Nat}, (⟨u, v⟩ : Link) ∈ walk.retreating →
    v = u ∨ [v, u].Sublist walk.reversePostOrder

section Completed

variable {walk : DepthFirst} (sound : walk.Sound g root) (ordered : walk.Ordered g root)
include sound ordered

theorem DepthFirst.Sound.mem_iff (v : Nat) :
    v ∈ walk.reversePostOrder ↔ Relation.ReflTransGen g.Joins root v :=
  ⟨ordered.reachable v, sound.mem_of_path⟩

/-- A walk retreats along exactly the edges between its vertices that do not go forward. -/
theorem DepthFirst.Sound.mem_retreating_iff (u v : Nat) :
    (⟨u, v⟩ : Link) ∈ walk.retreating ↔
      g.Joins u v ∧ u ∈ walk.reversePostOrder ∧ v ∈ walk.reversePostOrder ∧
        ¬walk.reversePostOrder.idxOf u < walk.reversePostOrder.idxOf v := by
  constructor
  · intro retreats
    obtain ⟨edge, hv⟩ := ordered.edges retreats
    rcases ordered.backward retreats with rfl | before
    · exact ⟨edge, hv, hv, lt_irrefl _⟩
    · exact ⟨edge, before.subset (by simp), hv, (idxOf_lt_of_sublist sound.nodup before).not_gt⟩
  · rintro ⟨edge, hu, -, behind⟩
    by_contra other
    exact behind (sound.forward hu edge other)

end Completed

namespace Digraph

variable [Vertex ν] [Arc ε]

theorem exists_depthFirst_ordered (c : g.Consistent) (hr : root ∈ g.vertices) :
    ∃ walk, g.depthFirst root = .ok walk ∧ walk.Sound g root ∧ walk.Ordered g root := by
  obtain ⟨walk, walked, sound⟩ := exists_depthFirst c hr
  obtain ⟨tails, last, -, start, completed, -, empty, walked'⟩ := exists_run_start c hr
  obtain ⟨visits, ordered⟩ : last.Sound g root ∧ last.Ordered g root :=
    Walk.run_induction (P := fun walk => walk.Sound g root ∧ walk.Ordered g root)
      ⟨start, Walk.ordered_start g root tails⟩
      (fun kept stepped => ⟨kept.1.step c stepped, kept.2.step kept.1 stepped⟩) completed
  cases walked.symm.trans walked'
  have opened : last.opened = [] := by rw [Walk.opened, empty, List.map_nil]
  have order : last.order = last.finished := by
    rw [Walk.order, opened, List.reverse_nil, List.nil_append]
  have visited (v : Nat) : v ∈ last.visited ↔ v ∈ last.finished := by
    rw [visits.visited, opened, List.nil_append]
  exact ⟨_, walked, sound,
    { first := order ▸ ordered.first
      reachable := fun v hv => ordered.reachable v ((visited v).2 hv)
      edges := fun retreats =>
        ⟨ordered.edges _ retreats, (visited _).1 (visits.tails _ retreats)⟩
      backward := fun retreats => order ▸ ordered.backward _ retreats }⟩

/-- A depth-first walk from a vertex completes. Its post order lists the vertices that a path leads to,
each once and the root last, which are the reachable ones, and the others are the unreachable ones. It
retreats along exactly the edges between them that do not go forward in reverse post order, so that all
others do. -/
theorem depthFirst_orders_reachable (built : g.Built) (hr : root ∈ g.vertices) :
    ∃ walk reached unreached,
      g.depthFirst root = .ok walk ∧ g.reachable root = .ok reached ∧
      g.unreachable root = .ok unreached ∧
      walk.postOrder.Nodup ∧ walk.postOrder.getLast? = some root ∧
      (∀ v, v ∈ walk.postOrder ↔ Relation.ReflTransGen g.Joins root v) ∧
      (∀ v, v ∈ reached ↔ v ∈ walk.postOrder) ∧
      (∀ v, v ∈ unreached ↔ v ∈ g.vertices ∧ v ∉ walk.postOrder) ∧
      (∀ u v, (⟨u, v⟩ : Link) ∈ walk.retreating ↔
        g.Joins u v ∧ u ∈ walk.postOrder ∧ v ∈ walk.postOrder ∧
          ¬walk.reversePostOrder.idxOf u < walk.reversePostOrder.idxOf v) ∧
      ∀ u v, g.Joins u v → u ∈ walk.postOrder → (⟨u, v⟩ : Link) ∉ walk.retreating →
        walk.reversePostOrder.idxOf u < walk.reversePostOrder.idxOf v := by
  have c := built.consistent
  obtain ⟨walk, walked, sound, ordered⟩ := exists_depthFirst_ordered c hr
  obtain ⟨reached, found, inside⟩ := exists_reachable c hr
  obtain ⟨unreached, left, outside⟩ := exists_unreachable c hr
  have listed := sound.mem_iff ordered
  refine ⟨walk, reached, unreached, walked, found, left, ?_⟩
  simp only [DepthFirst.postOrder, List.mem_reverse]
  refine ⟨List.nodup_reverse.2 sound.nodup, List.getLast?_reverse.trans ordered.first, listed,
    fun v => (inside v).trans (listed v).symm, fun v => ?_, sound.mem_retreating_iff ordered,
    fun u v edge hu other => sound.forward hu edge other⟩
  rw [outside, listed]

end Digraph

/-! ## A walk with every kind of edge -/

/-- Numbers are vertices without labels. -/
instance : Vertex Nat := ⟨id⟩

/-- Links are edges without labels. -/
instance : Arc Link := ⟨Link.head, Link.tail⟩

/-- A graph in which a walk from 0 meets edges of every kind: into new vertices, back to open ones, down
past an open one (from 0 to 3) and across (from 2 to 3). It does not come to 4. The second insertion of
3 is refused. -/
def crossing : Digraph Nat Link :=
  Digraph.after <| [0, 1, 2, 3, 4, 3].map .insertVertex ++
    [⟨0, 1⟩, ⟨0, 2⟩, ⟨0, 3⟩, ⟨1, 3⟩, ⟨2, 0⟩, ⟨2, 3⟩, ⟨3, 1⟩, ⟨3, 3⟩, ⟨4, 1⟩].map .insertEdge

/-- What the walk from 0 sees. -/
def crossingWalk : DepthFirst where
  reversePostOrder := [0, 2, 1, 3]
  retreating := Std.ExtTreeSet.ofList ([⟨2, 0⟩, ⟨3, 1⟩, ⟨3, 3⟩] : List Link)

/-- The walk from 0 retreats along three edges and lists all vertices but the last. -/
theorem depthFirst_orders_crossing :
    crossing.Built ∧ 0 ∈ crossing.vertices ∧ crossing.depthFirst 0 = .ok crossingWalk ∧
      crossing.unreachable 0 = .ok [4] ∧
      (∀ v, v ∈ crossingWalk.postOrder ↔ Relation.ReflTransGen crossing.Joins 0 v) ∧
      ∀ u v, crossing.Joins u v → u ∈ crossingWalk.postOrder →
        (⟨u, v⟩ : Link) ∉ crossingWalk.retreating →
        [0, 2, 1, 3].idxOf u < [0, 2, 1, 3].idxOf v := by
  have built : crossing.Built := ⟨_, rfl⟩
  have root : 0 ∈ crossing.vertices := by decide +kernel
  have result : crossing.depthFirst 0 = .ok crossingWalk := by decide +kernel
  obtain ⟨walk, reached, unreached, walked, -, -, -, -, listed, -, -, -, forward⟩ :=
    Digraph.depthFirst_orders_reachable built root
  obtain rfl := Except.ok.inj (result.symm.trans walked)
  exact ⟨built, root, result, by decide +kernel, listed, forward⟩

end RangeFlow
