import RangeFlow.Proofs.Digraph.DepthFirst

/-!
# Depth-first search by recursion

The textbook search visits a vertex by a recursive call for each successor that has no mark yet, and the
calls that have not returned are its ancestors. A walk keeps these calls on its stack, each with the
successors that it has still to consider (`Search.toWalk`), and one step of the walk is one decision of
the innermost call. So from the call of a visit the walk leads to its return (`Search.leads`), and
since a step has one result, a walk with enough fuel ends where the outermost visit does.

Main statement: `Digraph.depthFirst_eq_search`.
-/

namespace RangeFlow

variable {ν ε : Type} {g : Digraph ν ε}

/-! ## The search -/

/-- What a recursive search has recorded. -/
structure Search where
  marked : IndexSet
  /-- The vertices whose visits have returned, in that order. -/
  postOrder : List Nat
  retreating : Std.ExtTreeSet Link

namespace Search

/-- The search that has recorded nothing. -/
def empty : Search := ⟨∅, [], ∅⟩

def mark (s : Search) (v : Nat) : Search := { s with marked := s.marked.insert v }

def append (s : Search) (v : Nat) : Search := { s with postOrder := s.postOrder ++ [v] }

def retreat (s : Search) (v w : Nat) : Search :=
  { s with retreating := s.retreating.insert ⟨v, w⟩ }

/-- The searches that go on from one and keep its marks. -/
abbrev From (s : Search) : Type := { t : Search // ∀ v ∈ s.marked, v ∈ t.marked }

/-- The number of vertices that are not marked. -/
def unmarked (g : Digraph ν ε) (s : Search) : Nat := Digraph.unseen g.successors.keys s.marked

theorem unmarked_mono {s t : Search} (more : ∀ v ∈ s.marked, v ∈ t.marked) :
    unmarked g t ≤ unmarked g s :=
  Digraph.unseen_mono more

theorem unmarked_mark_lt {s : Search} {w : Nat} (key : w ∈ g.successors) (fresh : w ∉ s.marked) :
    unmarked g (s.mark w) < unmarked g s := by
  have paid : [w].length + unmarked g (s.mark w) = unmarked g s := by
    refine Digraph.unseen_add (List.nodup_singleton w) (fun t ht => ?_) fun t => ?_
    · obtain rfl := List.mem_singleton.1 ht
      exact ⟨Std.ExtTreeMap.mem_keys.2 key, fresh⟩
    · rw [mark, mem_insert_iff, List.mem_singleton, or_comm]
  rw [List.length_singleton] at paid
  omega

theorem tails_eq_nil {w : Nat} (key : w ∉ g.successors) : g.tails w = [] := by
  rw [Digraph.tails, Std.ExtTreeMap.getD_eq_fallback key]
  rfl

mutual

/-- Visits a vertex: marks it, considers its successors in increasing order, and appends it. The visits
of its ancestors have not returned. -/
def visit (g : Digraph ν ε) (ancestors : List Nat) (v : Nat) (s : Search) : s.From :=
  let t := consider g ancestors v (g.tails v) (s.mark v)
  ⟨t.1.append v, fun u hu => t.2 u (mem_insert_iff.2 (.inr hu))⟩
termination_by (unmarked g (s.mark v), (g.tails v).length, 1)

/-- Considers successors of a vertex under visit: one that is under visit itself is retreated to, and one
that is not marked is visited. -/
def consider (g : Digraph ν ε) (ancestors : List Nat) (v : Nat) (ws : List Nat) (s : Search) :
    s.From :=
  match ws with
  | [] => ⟨s, fun _ => id⟩
  | w :: ws =>
      if w ∈ v :: ancestors then
        let t := consider g ancestors v ws (s.retreat v w)
        ⟨t.1, t.2⟩
      else if w ∈ s.marked then
        consider g ancestors v ws s
      else
        let t := visit g (v :: ancestors) w s
        let u := consider g ancestors v ws t.1
        ⟨u.1, fun x hx => u.2 x (t.2 x hx)⟩
termination_by (unmarked g s, ws.length, 0)
decreasing_by
  · exact .right _ (.left _ _ (Nat.lt_succ_self _))
  · exact .right _ (.left _ _ (Nat.lt_succ_self _))
  · rename_i fresh
    by_cases key : w ∈ g.successors
    · exact .left _ _ (unmarked_mark_lt key fresh)
    · -- What is no vertex of the graph has no successors.
      rw [tails_eq_nil key]
      exact .right' _ (unmarked_mono fun v hv => mem_insert_iff.2 (.inr hv))
        (.left _ _ (Nat.succ_pos _))
  · exact .right' _ (unmarked_mono t.2) (.left _ _ (Nat.lt_succ_self _))

end

end Search

/-- Searches the graph from a root. -/
def Digraph.search (g : Digraph ν ε) (root : Nat) : Except Error DepthFirst :=
  if root ∈ g.vertices then
    let found := (Search.visit g [] root Search.empty).1
    .ok ⟨found.postOrder.reverse, found.retreating⟩
  else
    .error (.vertexMissing root)

/-! ## Where a walk leads -/

namespace Walk

/-- The steps of an unfinished walk. -/
def Leads (g : Digraph ν ε) : Walk → Walk → Prop :=
  Relation.ReflTransGen fun walk next => walk.stack ≠ [] ∧ step g walk = .ok next

/-- A run that comes to its end ends where its steps lead. -/
theorem Leads.eq_of_run {walk last last' : Walk} (leads : Leads g walk last) (ended : last.stack = [])
    {fuel : Nat} (completed : run g fuel walk = .ok last') (ended' : last'.stack = []) :
    last = last' := by
  induction leads using Relation.ReflTransGen.head_induction_on generalizing fuel with
  | refl =>
    cases fuel with
    | zero => exact Except.ok.inj completed
    | succ fuel =>
      rw [run, if_pos (List.isEmpty_iff.2 ended)] at completed
      exact Except.ok.inj completed
  | @head walk next first _ ih =>
    obtain ⟨unfinished, stepped⟩ := first
    cases fuel with
    | zero =>
      obtain rfl := Except.ok.inj completed
      exact absurd ended' unfinished
    | succ fuel =>
      rw [run, if_neg (mt List.isEmpty_iff.1 unfinished), stepped] at completed
      exact ih completed

end Walk

/-! ## Steps and decisions -/

namespace Search

/-- The walk that has recorded the same, with the calls that have not returned on its stack. -/
def toWalk (s : Search) (calls : List (Nat × List Nat)) : Walk where
  stack := calls
  active := Std.ExtTreeSet.ofList (calls.map Prod.fst)
  visited := s.marked
  finished := s.postOrder.reverse
  retreating := s.retreating

variable {s : Search} {v w : Nat} {ws : List Nat} {calls : List (Nat × List Nat)}

/-- The innermost call has considered all successors and returns. -/
theorem step_return (g : Digraph ν ε) (s : Search) (fresh : v ∉ calls.map Prod.fst) :
    Walk.step g (s.toWalk ((v, []) :: calls)) = .ok ((s.append v).toWalk calls) := by
  have active : (Std.ExtTreeSet.ofList (((v, []) :: calls).map Prod.fst)).erase v =
      Std.ExtTreeSet.ofList (calls.map Prod.fst) := by
    apply Std.ExtTreeSet.ext_mem
    intro u
    rw [mem_erase_iff, mem_ofList_iff, mem_ofList_iff, List.map_cons, List.mem_cons]
    constructor
    · rintro ⟨other, here | mem⟩
      · exact absurd here other
      · exact mem
    · exact fun mem => ⟨fun e => fresh (e ▸ mem), .inr mem⟩
  simp only [Walk.step, toWalk, append, active, List.reverse_append, List.reverse_singleton,
    List.singleton_append]

theorem step_retreat (g : Digraph ν ε) (s : Search) (ancestor : w ∈ v :: calls.map Prod.fst) :
    Walk.step g (s.toWalk ((v, w :: ws) :: calls)) =
      .ok ((s.retreat v w).toWalk ((v, ws) :: calls)) := by
  have active : w ∈ (s.toWalk ((v, w :: ws) :: calls)).active := mem_ofList_iff.2 ancestor
  exact if_pos active

theorem step_pass (g : Digraph ν ε) (other : w ∉ v :: calls.map Prod.fst) (marked : w ∈ s.marked) :
    Walk.step g (s.toWalk ((v, w :: ws) :: calls)) = .ok (s.toWalk ((v, ws) :: calls)) := by
  have inactive : w ∉ (s.toWalk ((v, w :: ws) :: calls)).active := mt mem_ofList_iff.1 other
  exact (if_neg inactive).trans (if_pos marked)

theorem step_call (found : g.successorsOf w = .ok (g.tails w)) (other : w ∉ v :: calls.map Prod.fst)
    (fresh : w ∉ s.marked) :
    Walk.step g (s.toWalk ((v, w :: ws) :: calls)) =
      .ok ((s.mark w).toWalk ((w, g.tails w) :: (v, ws) :: calls)) := by
  have inactive : w ∉ (s.toWalk ((v, w :: ws) :: calls)).active := mt mem_ofList_iff.1 other
  have active : (Std.ExtTreeSet.ofList (v :: calls.map Prod.fst)).insert w =
      Std.ExtTreeSet.ofList (w :: v :: calls.map Prod.fst) := by
    apply Std.ExtTreeSet.ext_mem
    intro u
    rw [mem_insert_iff, mem_ofList_iff, mem_ofList_iff]
    exact List.mem_cons.symm
  refine (if_neg inactive).trans ((if_neg fresh).trans ?_)
  rw [found, ok_bind, pure_eq_ok]
  simp only [toWalk, mark, List.map_cons, active]

/-! ## Calls and returns -/

/-- From the call of a visit the walk leads to its return. -/
def VisitLeads (g : Digraph ν ε) (ancestors : List Nat) (v : Nat) (s : Search) : Prop :=
  ∀ calls : List (Nat × List Nat), calls.map Prod.fst = ancestors → v ∉ ancestors →
    v ∈ g.vertices →
      Walk.Leads g ((s.mark v).toWalk ((v, g.tails v) :: calls))
        ((visit g ancestors v s).1.toWalk calls)

/-- While a visit considers successors the walk leads to where none is left. -/
def ConsiderLeads (g : Digraph ν ε) (ancestors : List Nat) (v : Nat) (ws : List Nat) (s : Search) :
    Prop :=
  ∀ calls : List (Nat × List Nat), calls.map Prod.fst = ancestors → (∀ w ∈ ws, w ∈ g.vertices) →
    Walk.Leads g (s.toWalk ((v, ws) :: calls))
      ((consider g ancestors v ws s).1.toWalk ((v, []) :: calls))

/-- A walk that stands at a call comes to its return, whatever the calls below it on the stack. -/
theorem leads [Vertex ν] [Arc ε] (c : g.Consistent) :
    (∀ ancestors v s, VisitLeads g ancestors v s) ∧
      ∀ ancestors v ws s, ConsiderLeads g ancestors v ws s := by
  refine visit.mutual_induct g (VisitLeads g) (ConsiderLeads g) ?visit ?none ?retreat ?pass ?call
  case visit =>
    intro ancestors v s considered calls parents other hv
    have vertices (w : Nat) (hw : w ∈ g.tails v) : w ∈ g.vertices :=
      c.tail_mem ((c.mem_tails hv).1 hw)
    rw [visit]
    exact (considered calls parents vertices).tail
      ⟨List.cons_ne_nil _ _, step_return g _ (parents ▸ other)⟩
  case none =>
    intro ancestors v s calls _ _
    rw [consider]
    exact .refl
  case retreat =>
    intro ancestors v s w ws ancestor considered calls parents vertices
    rw [consider, if_pos ancestor]
    exact .head ⟨List.cons_ne_nil _ _, step_retreat g s (parents ▸ ancestor)⟩
      (considered calls parents (List.forall_mem_cons.1 vertices).2)
  case pass =>
    intro ancestors v s w ws other marked considered calls parents vertices
    rw [consider, if_neg other, if_pos marked]
    exact .head ⟨List.cons_ne_nil _ _, step_pass g (parents ▸ other) marked⟩
      (considered calls parents (List.forall_mem_cons.1 vertices).2)
  case call =>
    intro ancestors v s w ws other fresh _ visited _ considered calls parents vertices
    obtain ⟨hw, vertices⟩ := List.forall_mem_cons.1 vertices
    rw [consider, if_neg other, if_neg fresh]
    -- The walk enters `w`, comes to the return of its visit, and goes on with the other successors.
    have returned := visited ((v, ws) :: calls) (congrArg (v :: ·) parents) other hw
    exact .head
      ⟨List.cons_ne_nil _ _, step_call (c.successorsOf_eq hw) (parents ▸ other) fresh⟩
      (returned.trans (considered calls parents vertices))

end Search

/-! ## The walk and the search -/

/-- A walk finds what the recursive search finds, from every root. The search considers the vertices that
the edges out of a vertex lead to, in increasing order. -/
theorem Digraph.depthFirst_eq_search [Vertex ν] [Arc ε] (built : g.Built) (root : Nat) :
    g.depthFirst root = g.search root ∧
      ∀ v ∈ g.vertices, (g.tails v).Pairwise (· < ·) ∧
        ∀ w, w ∈ g.tails v ↔ g.Joins v w := by
  have c := built.consistent
  refine ⟨?_, fun v hv => ⟨g.sorted_tails v, fun w => c.mem_tails hv⟩⟩
  rw [search]
  split_ifs with hr
  · obtain ⟨tails, last, found, -, completed, -, ended, walked⟩ := exists_run_start c hr
    obtain rfl := Except.ok.inj (found.symm.trans (c.successorsOf_eq hr))
    have start : Walk.start root (g.tails root) =
        (Search.empty.mark root).toWalk [(root, g.tails root)] := rfl
    rw [start] at completed
    have leads := (Search.leads c).1 [] root .empty [] rfl List.not_mem_nil hr
    rw [walked, ← leads.eq_of_run rfl completed ended]
    rfl
  · rw [depthFirst, if_pos hr]
    rfl

/-- The search from 0 finds what the walk sees, and there is no search from 5. -/
theorem depthFirst_eq_search_crossing :
    crossing.Built ∧ crossing.search 0 = .ok crossingWalk ∧
      crossing.search 5 = .error (.vertexMissing 5) := by
  have built : crossing.Built := ⟨_, rfl⟩
  have walked : crossing.depthFirst 0 = .ok crossingWalk := by decide +kernel
  have missing : crossing.depthFirst 5 = .error (.vertexMissing 5) := by decide +kernel
  exact ⟨built, (Digraph.depthFirst_eq_search built 0).1.symm.trans walked,
    (Digraph.depthFirst_eq_search built 5).1.symm.trans missing⟩

end RangeFlow
