import RangeFlow.Digraph.Walk
import RangeFlow.Proofs.Digraph.Basic

/-!
# Depth-first walks of consistent graphs

A walk of a consistent graph ends within its fuel, because every step pays for one visit of a vertex
or one edge (`Walk.effort`). Its result (`DepthFirst.Sound`) lists every vertex once, leaves out no
vertex that an edge leads to, and puts the head of every edge that does not retreat in front of its
tail.
-/

namespace RangeFlow

variable {ν ε : Type} {g : Digraph ν ε}

/-! ## Edges of left and open vertices -/

namespace Walk

/-- The edges of the vertices that were left: each retreats, or leads to a vertex left before. -/
def Settled (g : Digraph ν ε) (retreating : Std.ExtTreeSet Link) : List Nat → Prop
  | [] => True
  | v :: before =>
      (∀ t, (⟨v, t⟩ : Link) ∈ g.edges → (⟨v, t⟩ : Link) ∈ retreating ∨ t ∈ before) ∧
        Settled g retreating before

/-- The edges of the open vertices: each is still to be followed, retreats, or leads to a vertex that
will have been left when its head is. Those are at first `done`, and then also the vertices further
in. -/
def Underway (g : Digraph ν ε) (retreating : Std.ExtTreeSet Link) :
    List Nat → List (Nat × List Nat) → Prop
  | _, [] => True
  | done, (v, pending) :: outer =>
      (∀ t, (⟨v, t⟩ : Link) ∈ g.edges →
        t ∈ pending ∨ (⟨v, t⟩ : Link) ∈ retreating ∨ t ∈ done) ∧
        Underway g retreating (v :: done) outer

theorem Settled.mono {retreating more : Std.ExtTreeSet Link} (sub : ∀ l ∈ retreating, l ∈ more)
    {left : List Nat} (h : Settled g retreating left) : Settled g more left := by
  induction left with
  | nil => trivial
  | cons v before ih => exact ⟨fun t ht => (h.1 t ht).imp_left (sub _), ih h.2⟩

theorem Underway.mono {retreating more : Std.ExtTreeSet Link} (sub : ∀ l ∈ retreating, l ∈ more)
    {done done' : List Nat} (subDone : ∀ v ∈ done, v ∈ done') {stack : List (Nat × List Nat)}
    (h : Underway g retreating done stack) : Underway g more done' stack := by
  induction stack generalizing done done' with
  | nil => trivial
  | cons entry outer ih =>
    obtain ⟨v, pending⟩ := entry
    refine ⟨fun t ht => ?_, ih (fun u hu => ?_) h.2⟩
    · exact (h.1 t ht).imp_right (Or.imp (sub _) (subDone t))
    · exact List.mem_cons.2 ((List.mem_cons.1 hu).imp_right (subDone u))

/-! ## The invariant of a walk -/

/-- The open vertices, innermost first. -/
def opened (walk : Walk) : List Nat := walk.stack.map Prod.fst

/-- What every step of a walk from `root` keeps. -/
structure Sound (g : Digraph ν ε) (root : Nat) (walk : Walk) : Prop where
  nodup : (walk.opened ++ walk.finished).Nodup
  active : ∀ v, v ∈ walk.active ↔ v ∈ walk.opened
  visited : ∀ v, v ∈ walk.visited ↔ v ∈ walk.opened ++ walk.finished
  vertices : ∀ v ∈ walk.visited, v ∈ g.vertices
  root_mem : root ∈ walk.visited
  tails : ∀ l ∈ walk.retreating, l.tail ∈ walk.visited
  pending : ∀ entry ∈ walk.stack, ∀ t ∈ entry.2, (⟨entry.1, t⟩ : Link) ∈ g.edges
  settled : Settled g walk.retreating walk.finished
  underway : Underway g walk.retreating walk.finished walk.stack

/-! ## The effort that is left -/

/-- The number of edges out of a vertex. -/
def degree (g : Digraph ν ε) (v : Nat) : Nat := (g.successors.getD v ∅).size

/-- The steps that a walk still takes: over the open vertices, their edges to follow and the leaving
of each; over the vertices not yet visited, all of their edges and their leaving. -/
def effort (g : Digraph ν ε) (walk : Walk) : Nat :=
  (walk.stack.map fun entry => entry.2.length + 1).sum +
    ∑ v ∈ g.vertices.keys.toFinset with v ∉ walk.visited, (degree g v + 1)

theorem length_successorsOf {v : Nat} {tails : List Nat} (h : g.successorsOf v = .ok tails) :
    tails.length = degree g v := by
  unfold Digraph.successorsOf at h
  split at h
  · rename_i found
    rw [← Except.ok.inj h, degree, Std.ExtTreeMap.getD_eq_getD_getElem?, found,
      Std.ExtTreeSet.length_toList, Option.getD_some]
  · cases h

/-- Visiting a vertex moves its share of the effort to the stack. -/
theorem effort_visit (visited : IndexSet) {v : Nat} (hv : v ∈ g.vertices) (fresh : v ∉ visited) :
    (degree g v + 1) + ∑ u ∈ g.vertices.keys.toFinset with u ∉ visited.insert v, (degree g u + 1) =
      ∑ u ∈ g.vertices.keys.toFinset with u ∉ visited, (degree g u + 1) := by
  have mem : v ∈ g.vertices.keys.toFinset.filter fun u => u ∉ visited := by
    simp [Std.ExtTreeMap.mem_keys, hv, fresh]
  rw [← Finset.add_sum_erase _ _ mem]
  congr 2
  ext u
  simp only [Finset.mem_filter, Finset.mem_erase, mem_insert_iff, not_or]
  tauto

/-! ## Steps -/

section Steps

variable {root : Nat} {walk : Walk}

/-- The invariant of a walk in which `v` is the innermost open vertex. -/
theorem Sound.open_top (h : Sound g root walk) {v : Nat} {pending : List Nat}
    {outer : List (Nat × List Nat)} (top : walk.stack = (v, pending) :: outer) :
    (v :: outer.map Prod.fst ++ walk.finished).Nodup ∧
      (∀ u, u ∈ walk.active ↔ u ∈ v :: outer.map Prod.fst) ∧
      (∀ u, u ∈ walk.visited ↔ u ∈ v :: outer.map Prod.fst ++ walk.finished) ∧
      Underway g walk.retreating walk.finished ((v, pending) :: outer) := by
  have opened_eq : walk.opened = v :: outer.map Prod.fst := by rw [opened, top, List.map_cons]
  exact ⟨opened_eq ▸ h.nodup, opened_eq ▸ h.active, opened_eq ▸ h.visited, top ▸ h.underway⟩

/-- What is still to be followed when an edge has been followed. -/
theorem Sound.pending_of_follow (h : Sound g root walk) {v next : Nat} {pending : List Nat}
    {outer : List (Nat × List Nat)} (top : walk.stack = (v, next :: pending) :: outer) :
    ∀ entry ∈ (v, pending) :: outer, ∀ t ∈ entry.2, (⟨entry.1, t⟩ : Link) ∈ g.edges := by
  intro entry he t ht
  rcases List.mem_cons.1 he with rfl | he
  · exact h.pending (v, next :: pending) (by simp [top]) t (List.mem_cons_of_mem _ ht)
  · exact h.pending entry (top ▸ List.mem_cons_of_mem _ he) t ht

/-- Leaving the innermost vertex. -/
theorem Sound.leave (h : Sound g root walk) {v : Nat} {outer : List (Nat × List Nat)}
    (top : walk.stack = (v, []) :: outer) :
    Sound g root { walk with
      stack := outer
      active := walk.active.erase v
      finished := v :: walk.finished } := by
  obtain ⟨nodup, active, visited, underway⟩ := h.open_top top
  have perm : (v :: outer.map Prod.fst ++ walk.finished).Perm
      (outer.map Prod.fst ++ v :: walk.finished) := List.perm_middle.symm
  refine ⟨perm.nodup nodup, fun u => ?_, fun u => ?_, h.vertices, h.root_mem, h.tails,
    fun entry he => h.pending entry (by simp [top, he]), ⟨fun t ht => ?_, h.settled⟩, underway.2⟩
  · have fresh : v ∉ outer.map Prod.fst := fun mem =>
      (List.nodup_cons.1 nodup).1 (List.mem_append_left _ mem)
    dsimp only [opened]
    rw [mem_erase_iff, active, List.mem_cons]
    constructor
    · rintro ⟨other, rfl | mem⟩
      · exact absurd rfl other
      · exact mem
    · exact fun mem => ⟨fun e => fresh (e ▸ mem), .inr mem⟩
  · rw [visited]
    exact perm.mem_iff
  · rcases underway.1 t ht with pending | settled
    · simp at pending
    · exact settled

/-- Following an edge to a vertex that was visited before. -/
theorem Sound.skip (h : Sound g root walk) {v next : Nat} {pending : List Nat}
    {outer : List (Nat × List Nat)} (top : walk.stack = (v, next :: pending) :: outer)
    {retreating : Std.ExtTreeSet Link} (sub : ∀ l ∈ walk.retreating, l ∈ retreating)
    (tails : ∀ l : Link, l ∈ retreating → l.tail ∈ walk.visited)
    (followed : (⟨v, next⟩ : Link) ∈ retreating ∨ next ∈ walk.finished) :
    Sound g root { walk with stack := (v, pending) :: outer, retreating := retreating } := by
  obtain ⟨nodup, active, visited, underway⟩ := h.open_top top
  refine ⟨nodup, active, visited, h.vertices, h.root_mem, tails, h.pending_of_follow top,
    h.settled.mono sub, fun t ht => ?_, underway.2.mono sub fun _ => id⟩
  rcases underway.1 t ht with mem | mem | mem
  · rcases List.mem_cons.1 mem with rfl | mem
    · exact .inr followed
    · exact .inl mem
  · exact .inr (.inl (sub _ mem))
  · exact .inr (.inr mem)

/-- Entering a vertex that is visited for the first time. -/
theorem Sound.enter (h : Sound g root walk) {v next : Nat} {pending tails : List Nat}
    {outer : List (Nat × List Nat)} (top : walk.stack = (v, next :: pending) :: outer)
    (fresh : next ∉ walk.visited) (hv : next ∈ g.vertices)
    (successors : ∀ t, t ∈ tails ↔ (⟨next, t⟩ : Link) ∈ g.edges) :
    Sound g root { walk with
      stack := (next, tails) :: (v, pending) :: outer
      active := walk.active.insert next
      visited := walk.visited.insert next } := by
  obtain ⟨nodup, active, visited, underway⟩ := h.open_top top
  refine ⟨List.nodup_cons.2 ⟨fun mem => fresh ((visited next).2 mem), nodup⟩, fun u => ?_,
    fun u => ?_, fun u hu => ?_, mem_insert_iff.2 (.inr h.root_mem),
    fun l hl => mem_insert_iff.2 (.inr (h.tails l hl)), fun entry he t ht => ?_, h.settled,
    fun t ht => .inl ((successors t).2 ht), fun t ht => ?_, ?_⟩
  · simp only [opened, mem_insert_iff, active, List.map_cons, List.mem_cons]
  · simp only [opened, mem_insert_iff, visited, List.map_cons, List.cons_append, List.mem_cons]
  · rcases mem_insert_iff.1 hu with rfl | hu
    · exact hv
    · exact h.vertices u hu
  · rcases List.mem_cons.1 he with rfl | he
    · exact (successors t).1 ht
    · exact h.pending_of_follow top entry he t ht
  · rcases underway.1 t ht with mem | mem | mem
    · rcases List.mem_cons.1 mem with rfl | mem
      · exact .inr (.inr List.mem_cons_self)
      · exact .inl mem
    · exact .inr (.inl mem)
    · exact .inr (.inr (List.mem_cons_of_mem _ mem))
  · refine underway.2.mono (fun _ => id) fun u hu => ?_
    exact (List.mem_cons.1 hu).elim (fun e => e ▸ List.mem_cons_self)
      fun hu => List.mem_cons_of_mem _ (List.mem_cons_of_mem _ hu)

variable [Vertex ν] [Arc ε]

/-- A step of an unfinished walk succeeds, keeps the invariant and spends effort. -/
theorem Sound.exists_step (c : g.Consistent) (h : Sound g root walk) (unfinished : walk.stack ≠ []) :
    ∃ next, step g walk = .ok next ∧ Sound g root next ∧ effort g next < effort g walk := by
  unfold step
  split
  · rename_i empty
    exact absurd empty unfinished
  · rename_i v outer top
    refine ⟨_, rfl, h.leave top, ?_⟩
    simp [effort, top]
  · rename_i v next pending outer top
    split_ifs with active visited
    · refine ⟨_, rfl, h.skip top (fun l hl => mem_insert_iff.2 (.inr hl)) (fun l hl => ?_)
        (.inl (mem_insert_iff.2 (.inl rfl))), ?_⟩
      · rcases mem_insert_iff.1 hl with rfl | hl
        · exact (h.visited next).2 (List.mem_append_left _ ((h.active next).1 active))
        · exact h.tails l hl
      · simp [effort, top]
    · have finished : next ∈ walk.finished := by
        rcases List.mem_append.1 ((h.visited next).1 visited) with mem | mem
        · exact absurd ((h.active next).2 mem) active
        · exact mem
      refine ⟨_, rfl, h.skip top (fun _ => id) h.tails (.inr finished), ?_⟩
      simp [effort, top]
    · have edge : (⟨v, next⟩ : Link) ∈ g.edges :=
        h.pending _ (top ▸ List.mem_cons_self) next List.mem_cons_self
      have hv : next ∈ g.vertices := c.tail_mem edge
      obtain ⟨tails, found, -, successors⟩ := c.exists_successorsOf hv
      rw [found]
      refine ⟨_, rfl, h.enter top visited hv successors, ?_⟩
      have moved := effort_visit walk.visited hv visited
      simp only [effort, top, List.map_cons, List.sum_cons, List.length_cons,
        length_successorsOf found]
      omega

/-- A walk with fuel for its effort ends. -/
theorem Sound.exists_run (c : g.Consistent) {fuel : Nat} (h : Sound g root walk)
    (enough : effort g walk ≤ fuel) :
    ∃ last, run g fuel walk = .ok last ∧ Sound g root last ∧ last.stack = [] := by
  induction fuel generalizing walk with
  | zero =>
    refine ⟨walk, rfl, h, ?_⟩
    cases stack : walk.stack with
    | nil => rfl
    | cons entry outer => simp [effort, stack] at enough
  | succ fuel ih =>
    unfold run
    split_ifs with finished
    · exact ⟨walk, rfl, h, List.isEmpty_iff.1 finished⟩
    · obtain ⟨next, stepped, sound, less⟩ := h.exists_step c fun e => finished (by simp [e])
      rw [stepped]
      exact ih sound (by omega)

/-- A step of a walk keeps the invariant. -/
theorem Sound.step (c : g.Consistent) (h : Sound g root walk) {next : Walk}
    (stepped : Walk.step g walk = .ok next) : Sound g root next := by
  by_cases finished : walk.stack = []
  · rw [Walk.step, finished] at stepped
    exact Except.ok.inj stepped ▸ h
  · obtain ⟨next', stepped', sound, -⟩ := h.exists_step c finished
    cases stepped.symm.trans stepped'
    exact sound

omit [Vertex ν] [Arc ε] in
/-- What every step keeps, a run keeps. -/
theorem run_induction {P : Walk → Prop} {fuel : Nat} {last : Walk} (start : P walk)
    (step : ∀ {walk next}, P walk → Walk.step g walk = .ok next → P next)
    (h : run g fuel walk = .ok last) : P last := by
  induction fuel generalizing walk with
  | zero => exact Except.ok.inj h ▸ start
  | succ fuel ih =>
    unfold run at h
    split_ifs at h with finished
    · exact Except.ok.inj h ▸ start
    · split at h
      · rename_i next stepped
        exact ih (step start stepped) h
      · cases h

end Steps

end Walk

/-! ## Completed walks -/

/-- What a completed walk from `root` says about the graph. -/
structure DepthFirst.Sound (g : Digraph ν ε) (root : Nat) (walk : DepthFirst) : Prop where
  nodup : walk.reversePostOrder.Nodup
  root_mem : root ∈ walk.reversePostOrder
  vertices : ∀ v ∈ walk.reversePostOrder, v ∈ g.vertices
  closed : ∀ {v t : Nat}, v ∈ walk.reversePostOrder → (⟨v, t⟩ : Link) ∈ g.edges →
    t ∈ walk.reversePostOrder
  forward : ∀ {v t : Nat}, v ∈ walk.reversePostOrder → (⟨v, t⟩ : Link) ∈ g.edges →
    (⟨v, t⟩ : Link) ∉ walk.retreating →
      walk.reversePostOrder.idxOf v < walk.reversePostOrder.idxOf t

theorem Walk.Settled.mem_or {retreating : Std.ExtTreeSet Link} {left : List Nat}
    (h : Settled g retreating left) {v t : Nat} (hv : v ∈ left) (edge : (⟨v, t⟩ : Link) ∈ g.edges) :
    (⟨v, t⟩ : Link) ∈ retreating ∨ t ∈ left := by
  induction left with
  | nil => simp at hv
  | cons u before ih =>
    rcases List.mem_cons.1 hv with rfl | hv
    · exact (h.1 t edge).imp_right (List.mem_cons_of_mem _)
    · exact (ih h.2 hv).imp_right (List.mem_cons_of_mem _)

theorem Walk.Settled.idxOf_lt {retreating : Std.ExtTreeSet Link} {left : List Nat}
    (nodup : left.Nodup) (h : Settled g retreating left) {v t : Nat} (hv : v ∈ left)
    (edge : (⟨v, t⟩ : Link) ∈ g.edges) (forward : (⟨v, t⟩ : Link) ∉ retreating) :
    left.idxOf v < left.idxOf t := by
  induction left with
  | nil => simp at hv
  | cons u before ih =>
    obtain ⟨fresh, nodup⟩ := List.nodup_cons.1 nodup
    have later {w : Nat} (hw : w ∈ before) :
        (u :: before).idxOf w = (before.idxOf w).succ :=
      List.idxOf_cons_ne _ fun e => fresh (e ▸ hw)
    rcases List.mem_cons.1 hv with rfl | hv
    · rw [List.idxOf_cons_self, later ((h.1 t edge).resolve_left forward)]
      exact Nat.succ_pos _
    · rw [later hv, later ((h.2.mem_or hv edge).resolve_left forward)]
      exact Nat.succ_lt_succ (ih nodup h.2 hv)

/-- Every edge leaves one vertex. -/
theorem sum_degree [Vertex ν] [Arc ε] (c : g.Consistent) :
    ∑ v ∈ g.vertices.keys.toFinset, Walk.degree g v = g.edges.size := by
  have maps : Set.MapsTo Link.head (g.edges.keys.toFinset : Set Link)
      (g.vertices.keys.toFinset : Set Nat) := by
    intro l hl
    rw [Finset.mem_coe, List.mem_toFinset, Std.ExtTreeMap.mem_keys] at hl ⊢
    exact c.head_mem hl
  rw [← Std.ExtTreeMap.length_keys, ← List.toFinset_card_of_nodup Std.ExtTreeMap.nodup_keys,
    Finset.card_eq_sum_card_fiberwise maps]
  refine Finset.sum_congr rfl fun v hv => ?_
  rw [List.mem_toFinset, Std.ExtTreeMap.mem_keys] at hv
  obtain ⟨tails, found, nodup, mem⟩ := c.exists_successorsOf hv
  have fiber : (g.edges.keys.toFinset.filter fun l => l.head = v) =
      tails.toFinset.image fun t => (⟨v, t⟩ : Link) := by
    ext ⟨head, tail⟩
    simp only [Finset.mem_filter, List.mem_toFinset, Std.ExtTreeMap.mem_keys, Finset.mem_image, mem,
      Link.mk.injEq]
    constructor
    · rintro ⟨edge, rfl⟩
      exact ⟨tail, edge, rfl, rfl⟩
    · rintro ⟨t, edge, rfl, rfl⟩
      exact ⟨edge, rfl⟩
  rw [fiber, Finset.card_image_of_injective _ fun t u e => (Link.mk.injEq _ _ _ _ ▸ e).2,
    List.toFinset_card_of_nodup nodup, Walk.length_successorsOf found]

section Completion

variable [Vertex ν] [Arc ε] {root : Nat} {tails : List Nat}

omit [Vertex ν] [Arc ε] in
theorem Walk.sound_start (hr : root ∈ g.vertices)
    (successors : ∀ t, t ∈ tails ↔ (⟨root, t⟩ : Link) ∈ g.edges) :
    Walk.Sound g root (Walk.start root tails) := by
  refine ⟨by simp [Walk.opened, Walk.start], fun v => ?_, fun v => ?_, fun v hv => ?_,
    mem_singleton_iff.2 rfl, fun l hl => by simp [Walk.start] at hl, fun entry he t ht => ?_,
    trivial, fun t ht => .inl ((successors t).2 ht), trivial⟩
  · rw [Walk.start, mem_singleton_iff]
    simp [Walk.opened]
  · rw [Walk.start, mem_singleton_iff]
    simp [Walk.opened]
  · exact mem_singleton_iff.1 hv ▸ hr
  · obtain rfl := List.mem_singleton.1 he
    exact (successors t).1 ht

/-- A walk takes no more steps than there are vertices and edges. -/
theorem Walk.effort_start_le (c : g.Consistent) (hr : root ∈ g.vertices)
    (found : g.successorsOf root = .ok tails) :
    Walk.effort g (Walk.start root tails) ≤ g.walkLength := by
  have visit := Walk.effort_visit ∅ hr (by simp)
  have all : ∑ u ∈ g.vertices.keys.toFinset with u ∉ (∅ : IndexSet), (Walk.degree g u + 1) =
      g.edges.size + g.vertices.size := by
    rw [Finset.filter_true_of_mem fun u _ => by simp, Finset.sum_add_distrib, sum_degree c,
      Finset.sum_const, List.toFinset_card_of_nodup Std.ExtTreeMap.nodup_keys,
      Std.ExtTreeMap.length_keys, smul_eq_mul, mul_one]
  have same : (Walk.start root tails).visited = (∅ : IndexSet).insert root := rfl
  rw [Walk.effort, same, Digraph.walkLength]
  simp only [Walk.start, List.map_cons, List.map_nil, List.sum_cons, List.sum_nil,
    Walk.length_successorsOf found]
  omega

/-- A walk from a vertex of a consistent graph comes to its end, and its result is what it has seen. -/
theorem Digraph.exists_run_start (c : g.Consistent) (hr : root ∈ g.vertices) :
    ∃ tails last, g.successorsOf root = .ok tails ∧ Walk.Sound g root (Walk.start root tails) ∧
      Walk.run g g.walkLength (Walk.start root tails) = .ok last ∧ last.Sound g root ∧
      last.stack = [] ∧ g.depthFirst root = .ok ⟨last.finished, last.retreating⟩ := by
  obtain ⟨tails, found, -, successors⟩ := c.exists_successorsOf hr
  have start := Walk.sound_start hr successors
  obtain ⟨last, completed, sound, empty⟩ := start.exists_run c (Walk.effort_start_le c hr found)
  refine ⟨tails, last, found, start, completed, sound, empty, ?_⟩
  simp only [Digraph.depthFirst, hr, not_true_eq_false, ↓reduceIte, found, bind, Except.bind,
    pure, Except.pure, completed]

/-- A depth-first walk from a vertex of a consistent graph completes. -/
theorem Digraph.exists_depthFirst (c : g.Consistent) (hr : root ∈ g.vertices) :
    ∃ walk, g.depthFirst root = .ok walk ∧ walk.Sound g root := by
  obtain ⟨tails, last, -, -, -, sound, empty, walked⟩ := exists_run_start c hr
  have opened : last.opened = [] := by rw [Walk.opened, empty, List.map_nil]
  have nodup := sound.nodup
  have visited := sound.visited
  rw [opened, List.nil_append] at nodup
  simp only [opened, List.nil_append] at visited
  refine ⟨⟨last.finished, last.retreating⟩, walked, nodup, (visited root).1 sound.root_mem,
    fun v hv => sound.vertices v ((visited v).2 hv), fun hv edge => ?_,
    fun hv edge forward => sound.settled.idxOf_lt nodup hv edge forward⟩
  rcases sound.settled.mem_or hv edge with retreats | mem
  · exact (visited _).1 (sound.tails _ retreats)
  · exact mem

end Completion

/-- A walk comes to every vertex that a path leads to. -/
theorem DepthFirst.Sound.mem_of_path {root v : Nat} {walk : DepthFirst} (sound : walk.Sound g root)
    (path : Relation.ReflTransGen g.Joins root v) : v ∈ walk.reversePostOrder := by
  induction path with
  | refl => exact sound.root_mem
  | tail _ edge reached => exact sound.closed reached edge

end RangeFlow
