import RangeFlow.Proofs.Solver.Balance
import RangeFlow.Proofs.Solver.Trail

/-!
# Solving without loops

In a problem without loop headers every edge leads forward in the order. The ascent then sweeps through
the order once (`Problem.Swept`): the points that are due lie behind those that were evaluated, so a
point is evaluated when all that can come to it has come, and every state is the join of what came from
the points evaluated so far. At the end of the sweep the states are in balance, and the trail of the run
is the order, but for the points that got no state (`Problem.exists_solveLogged_of_acyclic`).
-/

namespace RangeFlow.Problem

variable {p : Problem} {options : Options} {initial : State}

/-! ## Following edges -/

section Follow

variable {run next : Run} {edge : Edge} {state : State} {leaving : List (Edge × Option State)}

theorem merged_of_acyclic (acyclic : p.headers = ∅) (run : Run) (v : Nat) (old new : State) :
    p.merged options run v old new = old.join new := by
  simp [merged, mergeState, widens, acyclic]

theorem Followed.getElem?_states (followed : Followed p options run edge state next)
    (acyclic : p.headers = ∅) (v : Nat) :
    next.states[v]? =
      if v = edge.tail then some (joinTo run.states[v]? state) else run.states[v]? := by
  cases followed with
  | first none states due merges =>
    rw [states, getElem?_insert_eq]
    split_ifs with here
    · rw [here, none]
      rfl
    · rfl
  | kept found same states due merges =>
    rw [merged_of_acyclic acyclic] at same
    rw [states]
    split_ifs with here
    · rw [here, found]
      exact congrArg some same.symm
    · rfl
  | changed found other states due merges =>
    rw [merged_of_acyclic acyclic] at states
    rw [states, getElem?_insert_eq]
    split_ifs with here
    · rw [here, found]
      rfl
    · rfl

theorem Followed.mem_due_cases (followed : Followed p options run edge state next) {turn : Turn}
    (mem : turn ∈ next.due) : turn ∈ run.due ∨ turn = p.turnOf edge.tail := by
  cases followed with
  | first none states due merges => exact (mem_insert_iff.1 (due ▸ mem)).symm
  | kept some same states due merges => exact .inl (due ▸ mem)
  | changed some other states due merges => exact (mem_insert_iff.1 (due ▸ mem)).symm

/-- A point that gets its first state becomes due. -/
theorem Followed.mem_states_cases (followed : Followed p options run edge state next) {v : Nat}
    (mem : v ∈ next.states) : v ∈ run.states ∨ v = edge.tail ∧ p.turnOf v ∈ next.due := by
  cases followed with
  | first none states due merges =>
    rw [states, mem_map_insert_iff] at mem
    rcases mem with rfl | mem
    · exact .inr ⟨rfl, due ▸ mem_insert_iff.2 (.inl rfl)⟩
    · exact .inl mem
  | kept some same states due merges => exact .inl (states ▸ mem)
  | changed some other states due merges =>
    rw [states, mem_map_insert_iff] at mem
    rcases mem with rfl | mem
    · exact .inr ⟨rfl, due ▸ mem_insert_iff.2 (.inl rfl)⟩
    · exact .inl mem

theorem FollowedAll.due_mono (followed : FollowedAll p options leaving run next) {turn : Turn}
    (mem : turn ∈ run.due) : turn ∈ next.due := by
  induction followed with
  | nil => exact mem
  | skip _ ih => exact ih mem
  | follow first _ ih => exact ih (first.due_mono mem)

theorem FollowedAll.mem_due_cases (followed : FollowedAll p options leaving run next) {turn : Turn}
    (mem : turn ∈ next.due) :
    turn ∈ run.due ∨ ∃ entry ∈ leaving, turn = p.turnOf entry.1.tail := by
  induction followed with
  | nil => exact .inl mem
  | skip _ ih =>
    exact (ih mem).imp_right fun ⟨entry, he, same⟩ => ⟨entry, List.mem_cons_of_mem _ he, same⟩
  | follow first _ ih =>
    rcases ih mem with mem | ⟨entry, he, same⟩
    · exact (first.mem_due_cases mem).imp_right fun same => ⟨_, List.mem_cons_self, same⟩
    · exact .inr ⟨entry, List.mem_cons_of_mem _ he, same⟩

theorem FollowedAll.mem_states_cases (followed : FollowedAll p options leaving run next) {v : Nat}
    (mem : v ∈ next.states) :
    v ∈ run.states ∨ (∃ entry ∈ leaving, v = entry.1.tail) ∧ p.turnOf v ∈ next.due := by
  induction followed with
  | nil => exact .inl mem
  | skip _ ih =>
    exact (ih mem).imp_right fun ⟨⟨entry, he, same⟩, due⟩ =>
      ⟨⟨entry, List.mem_cons_of_mem _ he, same⟩, due⟩
  | follow first rest ih =>
    rcases ih mem with mem | ⟨⟨entry, he, same⟩, due⟩
    · exact (first.mem_states_cases mem).imp_right fun ⟨same, due⟩ =>
        ⟨⟨_, List.mem_cons_self, same⟩, rest.due_mono due⟩
    · exact .inr ⟨⟨entry, List.mem_cons_of_mem _ he, same⟩, due⟩

variable (acyclic : p.headers = ∅)
include acyclic

/-- Points that no edge leads to keep their states. -/
theorem FollowedAll.getElem?_of_forall_ne (followed : FollowedAll p options leaving run next) {v : Nat}
    (apart : ∀ entry ∈ leaving, v ≠ entry.1.tail) : next.states[v]? = run.states[v]? := by
  induction followed with
  | nil => rfl
  | skip _ ih => exact ih fun entry he => apart entry (List.mem_cons_of_mem _ he)
  | follow first _ ih =>
    rw [ih fun entry he => apart entry (List.mem_cons_of_mem _ he), first.getElem?_states acyclic,
      if_neg (apart _ List.mem_cons_self)]

theorem Gathered.followed {came : Nat → State → Prop} (h : p.Gathered initial came run.states)
    (followed : Followed p options run edge state next) (other : edge.tail ≠ p.entry)
    (tidy : state.Tidy) :
    p.Gathered initial (fun v t => came v t ∨ v = edge.tail ∧ t = state) next.states where
  entry := by rw [followed.getElem?_states acyclic, if_neg other.symm, h.entry]
  joined {v s} away found := by
    rw [followed.getElem?_states acyclic] at found
    split_ifs at found with here
    · obtain rfl := Option.some.inj found
      refine ⟨⟨state, .inr ⟨here, rfl⟩⟩, ?_⟩
      simp only [here, true_and]
      rw [here] at away
      cases before : run.states[edge.tail]? with
      | none =>
        exact tidy.isJoin_singleton.congr fun t =>
          ⟨.inr, fun ht => ht.resolve_left (h.absent away before t)⟩
      | some old => exact (h.joined away before).2.join tidy
    · obtain ⟨⟨t, ht⟩, isJoin⟩ := h.joined away found
      exact ⟨⟨t, .inl ht⟩, isJoin.congr fun t => by simp [here]⟩
  absent {v} away none t := by
    rw [followed.getElem?_states acyclic] at none
    split_ifs at none with here
    simpa [here] using h.absent away none t

theorem Gathered.followedAll {came : Nat → State → Prop} (h : p.Gathered initial came run.states)
    (followed : FollowedAll p options leaving run next)
    (other : ∀ entry ∈ leaving, entry.1.tail ≠ p.entry)
    (tidy : ∀ edge state, (edge, some state) ∈ leaving → state.Tidy) :
    p.Gathered initial (fun v t => came v t ∨ ∃ edge, (edge, some t) ∈ leaving ∧ v = edge.tail)
      next.states := by
  induction followed generalizing came with
  | nil => exact h.congr (by simp)
  | skip _ ih =>
    refine (ih h (fun entry he => other entry (List.mem_cons_of_mem _ he))
      fun edge state he => tidy edge state (List.mem_cons_of_mem _ he)).congr fun v t _ => ?_
    simp
  | @follow edge state rest run middle next first _ ih =>
    have h' := h.followed acyclic first (other _ List.mem_cons_self) (tidy _ _ List.mem_cons_self)
    refine (ih h' (fun entry he => other entry (List.mem_cons_of_mem _ he))
      fun edge state he => tidy edge state (List.mem_cons_of_mem _ he)).congr fun v t _ => ?_
    simp only [List.mem_cons, Prod.mk.injEq, Option.some.injEq, or_assoc]
    refine or_congr_right ⟨?_, ?_⟩
    · rintro (⟨rfl, rfl⟩ | ⟨edge', he, rfl⟩)
      · exact ⟨edge, .inl ⟨rfl, rfl⟩, rfl⟩
      · exact ⟨edge', .inr he, rfl⟩
    · rintro ⟨edge', ⟨rfl, rfl⟩ | he, rfl⟩
      · exact .inl ⟨rfl, rfl⟩
      · exact .inr ⟨edge', he, rfl⟩

end Follow

/-! ## The sweep -/

/-- A state comes along an edge into a point, from one of some points. -/
def ArrivesFrom (p : Problem) (options : Options) (sources : List Nat)
    (states : Std.ExtTreeMap Nat State) (index : Nat) (state : State) : Prop :=
  ∃ u ∈ sources, ∃ point edge pre, p.procedure.graph.graph.vertices[u]? = some point ∧
    p.procedure.graph.graph.edges[(⟨u, index⟩ : Link)]? = some edge ∧
    states[u]? = some pre ∧ p.flow options point.operation edge pre = some state

/-- An ascent that goes through the order from the entry on: what is due lies behind the points that
were evaluated, and the states hold what came from those. -/
structure Swept (p : Problem) (options : Options) (initial : State) (run : Run) : Prop where
  fits : Fits p run
  sorted : run.trail.Pairwise fun u v => p.order.idxOf u < p.order.idxOf v
  reached : ∀ {u : Nat}, u ∈ run.trail → u ∈ run.states
  behind : ∀ {turn : Turn} {u : Nat}, turn ∈ run.due → u ∈ run.trail → p.order.idxOf u < turn.rank
  pending : ∀ {v : Nat}, v ∈ run.states → v ∈ run.trail ∨ p.turnOf v ∈ run.due
  entry_le : ∀ {v : Nat}, v ∈ run.states → p.order.idxOf p.entry ≤ p.order.idxOf v
  gathered : p.Gathered initial (p.ArrivesFrom options run.trail run.states) run.states

theorem rank_le_of_next? {run : Run} {turn other : Turn} (first : run.next? = some turn)
    (mem : other ∈ run.due) : turn.rank ≤ other.rank := by
  obtain ⟨rest, listed⟩ := List.head?_eq_some_iff.1 first
  have ordered := Std.ExtTreeSet.ordered_toList (t := run.due)
  rw [listed] at ordered
  have mem := Std.ExtTreeSet.mem_toList.2 mem
  rw [listed] at mem
  rcases List.mem_cons.1 mem with rfl | later
  · exact le_rfl
  · have before := (List.pairwise_cons.1 ordered).1 other later
    by_contra greater
    have : compare turn.rank other.rank = .gt := Nat.compare_eq_gt.2 (by omega)
    change (compare turn.rank other.rank).then (compare turn.point other.point) = .lt at before
    rw [this] at before
    cases before

/-- The first point that is due lies in front of the others. -/
theorem Fits.rank_lt_of_next? {run : Run} (fits : Fits p run) {turn other : Turn}
    (first : run.next? = some turn) (mem : other ∈ run.due) (ne : other ≠ turn) :
    turn.rank < other.rank := by
  have here := fits.due (mem_due_of_next? first)
  have there := fits.due mem
  obtain ⟨s, found⟩ := mem_iff_exists_getElem?.1 here.2
  refine lt_of_le_of_ne (rank_le_of_next? first mem) fun same => ne ?_
  rw [here.1, there.1] at same
  have points : turn.point = other.point := (List.idxOf_inj (fits.states found)).1 same
  rw [here.1, there.1, points]

theorem exists_swept_start (ready : p.Ready) (options : Options) (initial : State) :
    ∃ run, Run.start p initial = .ok run ∧ Swept p options initial run ∧ run.trail = [] := by
  obtain ⟨run, started, states, due, -, -, fits, -⟩ := exists_start ready options initial
  have trail : run.trail = [] := by
    rw [Run.start, ready.rankOf ready.entry_mem] at started
    obtain rfl := Except.ok.inj started
    rfl
  have entry : run.states[p.entry]? = some initial := by
    rw [states]
    exact getElem?_singleton_eq_some.2 ⟨rfl, rfl⟩
  have only {v : Nat} {s : State} (found : run.states[v]? = some s) : v = p.entry :=
    (getElem?_singleton_eq_some.1 (states ▸ found)).1
  refine ⟨run, started, ⟨fits, by simp [trail], by simp [trail], by simp [trail], fun {v} mem => ?_,
    fun {v} mem => ?_, entry, fun {v s} other found => absurd (only found) other, ?_⟩, trail⟩
  · obtain ⟨s, found⟩ := mem_iff_exists_getElem?.1 mem
    rw [only found, due]
    exact .inr (mem_singleton_iff.2 rfl)
  · obtain ⟨s, found⟩ := mem_iff_exists_getElem?.1 mem
    rw [only found]
  · rintro v - - t ⟨u, mem, -⟩
    simp [trail] at mem

section Trail

variable {run : Run} (swept : Swept p options initial run)
include swept

theorem Swept.nodup_trail : run.trail.Nodup :=
  swept.sorted.imp fun less same => by simp [same] at less

variable {turn : Turn} (mem : turn ∈ run.due)
include mem

theorem Swept.rank_eq : turn.rank = p.order.idxOf turn.point := by
  rw [(swept.fits.due mem).1]
  rfl

/-- A point that is due comes behind all that were evaluated. -/
theorem Swept.idxOf_le {u : Nat} (hu : u ∈ run.trail ++ [turn.point]) :
    p.order.idxOf u ≤ p.order.idxOf turn.point := by
  rcases List.mem_append.1 hu with old | new
  · exact swept.rank_eq mem ▸ (swept.behind mem old).le
  · rw [List.mem_singleton.1 new]

/-- While a point is due, some point of the order has not been evaluated. -/
theorem Swept.length_trail_lt : run.trail.length < p.order.length := by
  have ordered {v : Nat} (hv : v ∈ run.states) : v ∈ p.order :=
    swept.fits.states (mem_iff_exists_getElem?.1 hv).choose_spec
  have fresh : turn.point ∉ run.trail := fun old => by
    have := swept.behind mem old
    rw [swept.rank_eq mem] at this
    exact lt_irrefl _ this
  have subset : turn.point :: run.trail ⊆ p.order := by
    rw [List.cons_subset]
    exact ⟨ordered (swept.fits.due mem).2, fun v hv => ordered (swept.reached hv)⟩
  exact (List.subperm_of_subset (List.nodup_cons.2 ⟨fresh, swept.nodup_trail⟩) subset).length_le

end Trail

section Sweep

variable (ready : p.Ready)
include ready

/-- The states that come from the evaluated points, when one more is evaluated. -/
theorem arrivesFrom_append_iff {trail : List Nat} {states states' : Std.ExtTreeMap Nat State} {w : Nat}
    {point : Point} {pre : State} {edges : List Edge}
    (located : p.procedure.graph.graph.vertices[w]? = some point) (found : states[w]? = some pre)
    (leaving : ∀ edge, edge ∈ edges ↔
      ∃ tail, p.procedure.graph.graph.edges[(⟨w, tail⟩ : Link)]? = some edge)
    (unchanged : ∀ u ∈ trail ++ [w], states'[u]? = states[u]?) {v : Nat} {t : State} :
    p.ArrivesFrom options (trail ++ [w]) states' v t ↔
      p.ArrivesFrom options trail states v t ∨
        ∃ edge, (edge, some t) ∈
          edges.map (fun edge => (edge, p.flow options point.operation edge pre)) ∧ v = edge.tail := by
  constructor
  · rintro ⟨u, mem, point', edge, pre', located', joined, found', flows⟩
    rw [unchanged u mem] at found'
    rcases List.mem_append.1 mem with old | new
    · exact .inl ⟨u, old, point', edge, pre', located', joined, found', flows⟩
    · obtain rfl := List.mem_singleton.1 new
      obtain rfl := Option.some.inj (located.symm.trans located')
      obtain rfl := Option.some.inj (found.symm.trans found')
      exact .inr ⟨edge, List.mem_map.2 ⟨edge, (leaving edge).2 ⟨v, joined⟩, by rw [flows]⟩,
        (ready.consistent.ends joined).2.symm⟩
  · rintro (⟨u, mem, point', edge, pre', located', joined, found', flows⟩ | ⟨edge, mem, rfl⟩)
    · have mem := List.mem_append_left [w] mem
      exact ⟨u, mem, point', edge, pre', located', joined, (unchanged u mem).trans found', flows⟩
    · obtain ⟨edge', he, same⟩ := List.mem_map.1 mem
      obtain ⟨rfl, flows⟩ := Prod.mk.inj same
      obtain ⟨tail, joined⟩ := (leaving edge').1 he
      obtain rfl := (ready.consistent.ends joined).2
      have mem : w ∈ trail ++ [w] := by simp
      exact ⟨w, mem, point, edge', pre, located, joined, (unchanged w mem).trans found, flows⟩

variable (acyclic : p.headers = ∅)
include acyclic

/-- The edges out of a point lead forward, with whatever states. -/
theorem Ready.forward_leaving {w : Nat} (hw : w ∈ p.order) {edges : List Edge}
    (leaving : ∀ edge, edge ∈ edges ↔
      ∃ tail, p.procedure.graph.graph.edges[(⟨w, tail⟩ : Link)]? = some edge)
    (f : Edge → Option State) :
    ∀ entry ∈ edges.map (fun edge => (edge, f edge)),
      p.order.idxOf w < p.order.idxOf entry.1.tail := by
  intro entry he
  obtain ⟨edge, left, rfl⟩ := List.mem_map.1 he
  obtain ⟨tail, joined⟩ := (leaving edge).1 left
  obtain rfl := (ready.consistent.ends joined).2
  exact ready.forward_of_acyclic acyclic hw joined

section Step

variable {run middle next : Run} {turn : Turn} {point : Point} {pre : State} {edges : List Edge}
  (swept : Swept p options initial run) (mem : turn ∈ run.due)
  (found : run.states[turn.point]? = some pre)
  (leaving : ∀ edge, edge ∈ edges ↔
    ∃ tail, p.procedure.graph.graph.edges[(⟨turn.point, tail⟩ : Link)]? = some edge)
  (states : middle.states = run.states)
  (followed : FollowedAll p options
    (edges.map fun edge => (edge, p.flow options point.operation edge pre)) middle next)
include swept mem found leaving states followed

/-- The edges out of a due point lead past the points that were evaluated, which keep their states. -/
theorem Swept.getElem?_of_mem_trail {u : Nat} (hu : u ∈ run.trail ++ [turn.point]) :
    next.states[u]? = run.states[u]? := by
  rw [followed.getElem?_of_forall_ne acyclic fun entry he same => ?_, states]
  have forward := ready.forward_leaving acyclic (swept.fits.states found) leaving _ entry he
  have front := swept.idxOf_le mem hu
  rw [same] at front
  omega

theorem Swept.gathered_followedAll (start : initial.Tidy)
    (located : p.procedure.graph.graph.vertices[turn.point]? = some point) :
    p.Gathered initial (p.ArrivesFrom options (run.trail ++ [turn.point]) next.states) next.states := by
  have unchanged : ∀ u ∈ run.trail ++ [turn.point], next.states[u]? = run.states[u]? := fun u hu =>
    swept.getElem?_of_mem_trail ready acyclic mem found leaving states followed hu
  have gathered : p.Gathered initial (p.ArrivesFrom options run.trail run.states) middle.states :=
    states ▸ swept.gathered
  refine (gathered.followedAll acyclic followed (fun entry he same => ?_) fun edge state he => ?_).congr
    fun v t _ => (arrivesFrom_append_iff ready located found leaving unchanged).symm
  · have forward := ready.forward_leaving acyclic (swept.fits.states found) leaving _ entry he
    have least := swept.entry_le (swept.fits.due mem).2
    rw [same] at forward
    omega
  · obtain ⟨edge', -, same⟩ := List.mem_map.1 he
    obtain ⟨rfl, flows⟩ := Prod.mk.inj same
    exact ready.tidy_flow located (swept.gathered.tidy start found) flows

end Step

/-- The evaluation of the first point that is due goes on with the sweep. -/
theorem Swept.evaluated (start : initial.Tidy) {run next : Run} {turn : Turn}
    (swept : Swept p options initial run) (first : run.next? = some turn)
    (evaluated : Evaluated p options run turn next) (fits : Fits p next)
    (trail : next.trail = run.trail ++ [turn.point]) : Swept p options initial next := by
  obtain ⟨located, found, -, leaving, states, due, -, followed⟩ := evaluated
  have mem := mem_due_of_next? first
  have forward := ready.forward_leaving acyclic (swept.fits.states found) leaving
  refine ⟨fits, ?_, fun {u} hu => ?_, fun {other u} mem' hu => ?_, fun {v} hv => ?_, fun {v} hv => ?_, ?_⟩
  · rw [trail, List.pairwise_append]
    refine ⟨swept.sorted, List.pairwise_singleton _ _, fun u hu v hv => ?_⟩
    rw [List.mem_singleton.1 hv, ← swept.rank_eq mem]
    exact swept.behind mem hu
  · rw [trail] at hu
    rw [mem_iff_exists_getElem?,
      swept.getElem?_of_mem_trail ready acyclic mem found leaving states followed hu,
      ← mem_iff_exists_getElem?]
    rcases List.mem_append.1 hu with old | new
    · exact swept.reached old
    · rw [List.mem_singleton.1 new]
      exact (swept.fits.due mem).2
  · have front := swept.idxOf_le mem (trail ▸ hu)
    rcases followed.mem_due_cases mem' with old | ⟨entry, he, rfl⟩
    · rw [due, mem_erase_iff] at old
      have later := swept.fits.rank_lt_of_next? first old.2 old.1
      rw [swept.rank_eq mem] at later
      omega
    · exact lt_of_le_of_lt front (forward _ entry he)
  · rw [trail]
    rcases followed.mem_states_cases hv with old | ⟨-, new⟩
    · rcases swept.pending (states ▸ old) with done | later
      · exact .inl (List.mem_append_left _ done)
      · by_cases here : p.turnOf v = turn
        · exact .inl (by simp [← here, turnOf])
        · exact .inr (followed.due_mono (due ▸ mem_erase_iff.2 ⟨here, later⟩))
    · exact .inr new
  · rcases followed.mem_states_cases hv with old | ⟨⟨entry, he, rfl⟩, -⟩
    · exact swept.entry_le (states ▸ old)
    · exact (swept.entry_le (swept.fits.due mem).2).trans (forward _ entry he).le
  · rw [trail]
    exact swept.gathered_followedAll ready acyclic mem found leaving states followed start located

/-- A sweep comes to its end within as many evaluations as there are points. -/
theorem Swept.exists_ascend (start : initial.Tidy)
    (punctual : ∀ iterations, options.isExpired iterations = false) (budget : Nat) {run : Run}
    (swept : Swept p options initial run) (enough : p.order.length ≤ run.trail.length + budget) :
    ∃ last, p.ascend options budget run = .ok (none, last) ∧ Swept p options initial last ∧
      ∀ turn, turn ∉ last.due := by
  induction budget generalizing run with
  | zero =>
    have idle (turn : Turn) : turn ∉ run.due := fun mem =>
      absurd (swept.length_trail_lt mem) (by omega)
    refine ⟨run, ?_, swept, idle⟩
    rw [ascend, if_pos]
    rwa [Std.ExtTreeSet.isEmpty_iff, Std.ExtTreeSet.eq_empty_iff_forall_not_mem]
  | succ budget ih =>
    unfold ascend
    cases first : run.next? with
    | none => exact ⟨run, rfl, swept, not_mem_due_of_next? first⟩
    | some turn =>
      have mem := mem_due_of_next? first
      obtain ⟨next, step, evaluated, fits⟩ := exists_ascendStep ready options swept.fits mem
      have trail := trail_ascendStep ready (swept.fits.due mem).2 step
      simp only [punctual, Bool.false_eq_true, ↓reduceIte, step]
      refine ih (swept.evaluated ready acyclic start first evaluated fits trail) ?_
      rw [trail, List.length_append, List.length_singleton]
      omega

end Sweep

/-! ## The end of a sweep -/

section Idle

variable {run : Run} (swept : Swept p options initial run) (idle : ∀ turn, turn ∉ run.due)
include swept idle

theorem Swept.mem_trail_iff {v : Nat} : v ∈ run.trail ↔ v ∈ run.states :=
  ⟨swept.reached, fun mem => (swept.pending mem).resolve_right (idle _)⟩

/-- The states behind a sweep are in balance. -/
theorem Swept.balanced (ready : p.Ready) (acyclic : p.headers = ∅) :
    Balanced p options initial run.states where
  reached := swept.fits.states
  gathered := swept.gathered.congr fun v t _ => by
    constructor
    · rintro ⟨u, -, arrives⟩
      exact ⟨u, arrives⟩
    · rintro ⟨u, point, edge, pre, located, joined, found, flows⟩
      exact ⟨u, (swept.mem_trail_iff idle).2 (mem_iff_exists_getElem?.2 ⟨pre, found⟩), point, edge, pre,
        located, joined, found, flows⟩
  entry := by
    rintro t ⟨u, point, edge, pre, -, joined, found, -⟩
    have forward := ready.forward_of_acyclic acyclic (swept.fits.states found) joined
    have least := swept.entry_le (mem_iff_exists_getElem?.2 ⟨pre, found⟩)
    omega

/-- A sweep evaluates the points that have a state, once each and in the order. -/
theorem Swept.trail_eq (ready : p.Ready) : run.trail = p.order.filter (· ∈ run.states) := by
  have ordered : p.order.Pairwise fun u v => p.order.idxOf u < p.order.idxOf v := by
    rw [List.pairwise_iff_getElem]
    intro i j hi hj less
    rwa [ready.nodup.idxOf_getElem, ready.nodup.idxOf_getElem]
  have : Std.Irrefl fun u v => p.order.idxOf u < p.order.idxOf v := ⟨fun _ => lt_irrefl _⟩
  have : Std.Antisymm fun u v => p.order.idxOf u < p.order.idxOf v :=
    ⟨fun _ _ less more => absurd less more.asymm⟩
  refine List.Pairwise.eq_of_mem_iff swept.sorted (ordered.filter _) fun v => ?_
  rw [swept.mem_trail_iff idle, List.mem_filter, decide_eq_true_iff]
  exact ⟨fun mem => ⟨swept.fits.states (mem_iff_exists_getElem?.1 mem).choose_spec, mem⟩, And.right⟩

end Idle

/-- Without loops a problem is solved in one sweep. -/
theorem exists_solveLogged_of_acyclic (ready : p.Ready) (acyclic : p.headers = ∅)
    (start : initial.Tidy) (punctual : ∀ iterations, options.isExpired iterations = false)
    (enough : p.order.length ≤ options.maxIterations) :
    ∃ solution log, p.solveLogged options initial = .ok (solution, log) ∧
      solution.outcome = .converged ∧ Balanced p options initial solution.states ∧
      evaluations log.toList = p.order.filter (· ∈ solution.states) := by
  obtain ⟨run, started, swept, trail⟩ := exists_swept_start ready options initial
  obtain ⟨last, ascended, swept, idle⟩ := swept.exists_ascend ready acyclic start punctual
    options.maxIterations (by rw [trail, List.length_nil]; omega)
  have balanced := swept.balanced idle ready acyclic
  have settled : (last.note (p.ascentEvents last)).states = last.states := rfl
  obtain ⟨final, descended, kept⟩ := exists_descend ready (I := (· = last.states))
    (fun {_} same {_ _} found => balanced.reached (same ▸ found))
    (fun same recomputed =>
      (Balanced.recomputed ready (same ▸ balanced) start recomputed).trans same)
    options.narrowingPasses 0 settled
  refine ⟨⟨final.states, .converged, final.iterations⟩, final.log, ?_, rfl, kept ▸ balanced, ?_⟩
  · simp only [solveLogged, started, ascended, descended, bind, Except.bind, pure, Except.pure]
  · have silent : evaluations (p.ascentEvents last) = [] := by
      unfold ascentEvents
      dsimp only
      split_ifs <;> rfl
    change final.trail = p.order.filter (· ∈ final.states)
    rw [trail_descend descended, Run.trail_note_of_silent _ silent, kept, swept.trail_eq idle ready]

end RangeFlow.Problem
