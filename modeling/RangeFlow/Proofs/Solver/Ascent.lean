import RangeFlow.Proofs.Solver.Problem
import RangeFlow.Solver.Ascent

/-!
# Steps of the ascent

What a step of the ascent can do, said once: `Problem.Followed` lists the three outcomes of taking a
state along an edge, and `Problem.Evaluated` is the evaluation of a due point. In a ready problem every
step succeeds (`Problem.exists_ascendStep`), so what each evaluation keeps holds of the whole ascent
(`Problem.exists_ascend`), and an ascent whose evaluations spend a potential comes to its end
(`Problem.exists_ascend_of_potential`).
-/

namespace RangeFlow

theorem Options.isExpired_eq_false {options : Options} (unhurried : options.deadline = none)
    (iterations : Nat) : options.isExpired iterations = false := by
  rw [isExpired, unhurried]

namespace Problem

/-- What comes to the tail of an edge when the operation at its head is evaluated. -/
def flow (p : Problem) (options : Options) (operation : Operation) (edge : Edge) (pre : State) :
    Option State :=
  p.procedure.graph.along operation edge (operation.apply options.summaries pre)

/-- The turn of a point that is due. -/
def turnOf (p : Problem) (point : Nat) : Turn := ⟨p.order.idxOf point, point⟩

/-- The state that a merge makes of the one in front of a point. -/
def merged (p : Problem) (options : Options) (run : Run) (point : Nat) (old new : State) : State :=
  p.mergeState options point (run.merges.getD point 0 + 1) old new

variable {p : Problem} {options : Options}

/-! ## Following edges -/

/-- The outcomes of taking a state along an edge, by the state at its tail: there was none, it stays
as it is, or it changes. -/
inductive Followed (p : Problem) (options : Options) (run : Run) (edge : Edge) (state : State)
    (next : Run) : Prop where
  | first : run.states[edge.tail]? = none →
      next.states = run.states.insert edge.tail state →
      next.due = run.due.insert (p.turnOf edge.tail) →
      next.merges = run.merges → Followed p options run edge state next
  | kept {old : State} : run.states[edge.tail]? = some old →
      p.merged options run edge.tail old state = old →
      next.states = run.states →
      next.due = run.due →
      next.merges = run.merges.insert edge.tail (run.merges.getD edge.tail 0 + 1) →
      Followed p options run edge state next
  | changed {old : State} : run.states[edge.tail]? = some old →
      p.merged options run edge.tail old state ≠ old →
      next.states = run.states.insert edge.tail (p.merged options run edge.tail old state) →
      next.due = run.due.insert (p.turnOf edge.tail) →
      next.merges = run.merges.insert edge.tail (run.merges.getD edge.tail 0 + 1) →
      Followed p options run edge state next

/-- Following some edges in turn, but for those that have no state. -/
inductive FollowedAll (p : Problem) (options : Options) :
    List (Edge × Option State) → Run → Run → Prop where
  | nil {run : Run} : FollowedAll p options [] run run
  | skip {edge : Edge} {rest : List (Edge × Option State)} {run next : Run} :
      FollowedAll p options rest run next → FollowedAll p options ((edge, none) :: rest) run next
  | follow {edge : Edge} {state : State} {rest : List (Edge × Option State)}
      {run middle next : Run} : Followed p options run edge state middle →
      FollowedAll p options rest middle next →
      FollowedAll p options ((edge, some state) :: rest) run next

theorem schedule_eq (ready : p.Ready) (run : Run) {point : Nat} (hv : point ∈ p.order)
    (state : State) :
    p.schedule run point state = .ok { run with
      states := run.states.insert point state
      due := run.due.insert (p.turnOf point) } := by
  rw [schedule, ready.rankOf hv]
  rfl

theorem exists_follow (ready : p.Ready) (options : Options) (run : Run) {edge : Edge}
    (hv : edge.tail ∈ p.order) (state : State) :
    ∃ next, p.follow options run edge state = .ok next ∧ Followed p options run edge state next := by
  unfold Problem.follow
  split
  · rename_i none
    rw [schedule_eq ready _ hv]
    exact ⟨_, rfl, .first none rfl rfl rfl⟩
  · rename_i old some
    dsimp only
    split_ifs with same
    · exact ⟨_, rfl, .kept some same rfl rfl rfl⟩
    · rw [schedule_eq ready _ hv]
      exact ⟨_, rfl, .changed some same rfl rfl rfl⟩

theorem exists_followAll (ready : p.Ready) (options : Options) {leaving : List (Edge × Option State)}
    (tails : ∀ entry ∈ leaving, entry.1.tail ∈ p.order) (run : Run) :
    ∃ next, p.followAll options run leaving = .ok next ∧
      FollowedAll p options leaving run next := by
  induction leaving generalizing run with
  | nil => exact ⟨run, rfl, .nil⟩
  | cons entry rest ih =>
    obtain ⟨edge, state⟩ := entry
    have later := fun entry he => tails entry (List.mem_cons_of_mem _ he)
    cases state with
    | none =>
      obtain ⟨next, done, followed⟩ := ih later run
      exact ⟨next, done, .skip followed⟩
    | some state =>
      obtain ⟨middle, step, first⟩ := exists_follow ready options run (tails _ List.mem_cons_self) state
      obtain ⟨next, done, followed⟩ := ih later middle
      refine ⟨next, ?_, .follow first followed⟩
      change (p.follow options run edge state >>= _) = _
      rw [step]
      exact done

/-! ## Evaluating points -/

/-- A run whose states and turns are those of points in the order. -/
structure Fits (p : Problem) (run : Run) : Prop where
  states : ∀ {v : Nat} {s : State}, run.states[v]? = some s → v ∈ p.order
  due : ∀ {turn : Turn}, turn ∈ run.due → turn = p.turnOf turn.point ∧ turn.point ∈ run.states

/-- The evaluation of a due point: its edges are followed with what comes along them. -/
inductive Evaluated (p : Problem) (options : Options) (run : Run) (turn : Turn) (next : Run) :
    Prop where
  | intro {point : Point} {pre : State} {edges : List Edge} {start : Run} :
      p.procedure.graph.graph.vertices[turn.point]? = some point →
      run.states[turn.point]? = some pre →
      (edges.map Edge.tail).Nodup →
      (∀ edge, edge ∈ edges ↔
        ∃ tail, p.procedure.graph.graph.edges[(⟨turn.point, tail⟩ : Link)]? = some edge) →
      start.states = run.states →
      start.due = run.due.erase turn →
      start.merges = run.merges →
      FollowedAll p options (edges.map fun edge => (edge, p.flow options point.operation edge pre))
        start next →
      Evaluated p options run turn next

theorem Fits.followed {run next : Run} {edge : Edge} {state : State} (fits : Fits p run)
    (hv : edge.tail ∈ p.order) (followed : Followed p options run edge state next) :
    Fits p next := by
  -- In both cases that schedule the tail, it gets a state and its turn.
  have scheduled {state : State} (states : next.states = run.states.insert edge.tail state)
      (due : next.due = run.due.insert (p.turnOf edge.tail)) : Fits p next := by
    refine ⟨fun {v s} found => ?_, fun {turn} mem => ?_⟩
    · rw [states, getElem?_insert_eq] at found
      split_ifs at found with here
      · rwa [here]
      · exact fits.states found
    · rw [due, mem_insert_iff] at mem
      rw [states, mem_map_insert_iff]
      rcases mem with rfl | mem
      · exact ⟨rfl, .inl rfl⟩
      · exact ⟨(fits.due mem).1, .inr (fits.due mem).2⟩
  cases followed with
  | first none states due merges => exact scheduled states due
  | kept some same states due merges =>
    exact ⟨fun found => fits.states (states ▸ found),
      fun mem => states ▸ fits.due (due ▸ mem)⟩
  | changed some other states due merges => exact scheduled states due

theorem Fits.followedAll {run next : Run} {leaving : List (Edge × Option State)}
    (fits : Fits p run) (tails : ∀ entry ∈ leaving, entry.1.tail ∈ p.order)
    (followed : FollowedAll p options leaving run next) : Fits p next := by
  induction followed with
  | nil => exact fits
  | skip _ ih => exact ih fits fun entry he => tails entry (List.mem_cons_of_mem _ he)
  | follow first _ ih =>
    exact ih (fits.followed (tails _ List.mem_cons_self) first)
      fun entry he => tails entry (List.mem_cons_of_mem _ he)

/-- A due point can be evaluated. -/
theorem exists_ascendStep (ready : p.Ready) (options : Options) {run : Run} (fits : Fits p run)
    {turn : Turn} (mem : turn ∈ run.due) :
    ∃ next, p.ascendStep options run turn = .ok next ∧ Evaluated p options run turn next ∧
      Fits p next := by
  obtain ⟨pre, found⟩ := mem_iff_exists_getElem?.1 (fits.due mem).2
  have ordered : turn.point ∈ p.order := fits.states found
  obtain ⟨point, located⟩ := mem_iff_exists_getElem?.1 (ready.vertices ordered)
  obtain ⟨edges, nodup, leaving, opened⟩ := FlowGraph.exists_edgeStates ready.consistent located
    (point.operation.apply options.summaries pre)
  have tails : ∀ entry ∈ edges.map fun edge => (edge, p.flow options point.operation edge pre),
      entry.1.tail ∈ p.order := by
    intro entry he
    obtain ⟨edge, left, rfl⟩ := List.mem_map.1 he
    obtain ⟨tail, he⟩ := (leaving edge).1 left
    have ends : edge.tail = tail := (ready.consistent.ends he).2
    change edge.tail ∈ p.order
    rw [ends]
    exact ready.closed ordered (mem_iff_exists_getElem?.2 ⟨edge, he⟩)
  unfold ascendStep visit
  have kept : { run.tick with due := run.due.erase turn }.states[turn.point]? = some pre := found
  rw [kept]
  have pointed := FlowGraph.point_eq_ok.2 located
  simp only [pointed, opened, bind, Except.bind]
  generalize started : Run.note { run.tick with due := run.due.erase turn } _ = start
  obtain ⟨next, done, followed⟩ := exists_followAll ready options tails start
  have start_states : start.states = run.states := started ▸ rfl
  have start_due : start.due = run.due.erase turn := started ▸ rfl
  have fitsStart : Fits p start := by
    refine ⟨fun found => fits.states (start_states ▸ found), fun {other} mem => ?_⟩
    rw [start_due, mem_erase_iff] at mem
    rw [start_states]
    exact fits.due mem.2
  exact ⟨next, done, .intro located found nodup leaving start_states start_due (started ▸ rfl)
    followed, fitsStart.followedAll tails followed⟩

/-! ## The whole ascent -/

theorem mem_due_of_next? {run : Run} {turn : Turn} (h : run.next? = some turn) :
    turn ∈ run.due :=
  Std.ExtTreeSet.mem_toList.1 (List.mem_of_head? h)

theorem not_mem_due_of_next? {run : Run} (h : run.next? = none) (turn : Turn) :
    turn ∉ run.due := by
  intro mem
  rw [Run.next?, List.head?_eq_none_iff] at h
  simpa [h] using Std.ExtTreeSet.mem_toList.2 mem

section Ascend

variable (ready : p.Ready) {I : Run → Prop}
  (keeps : ∀ {run : Run} {turn : Turn} {next : Run}, Fits p run → I run → turn ∈ run.due →
    Evaluated p options run turn next → I next)
include ready keeps

/-- The ascent succeeds and keeps what every evaluation keeps. It ends with an outcome or with no
point due. -/
theorem exists_ascend (budget : Nat) {run : Run} (fits : Fits p run) (h : I run) :
    ∃ outcome last, p.ascend options budget run = .ok (outcome, last) ∧ Fits p last ∧ I last ∧
      outcome ≠ some .converged ∧ (outcome = none → ∀ turn, turn ∉ last.due) := by
  induction budget generalizing run with
  | zero =>
    refine ⟨_, run, rfl, fits, h, by split_ifs <;> simp, fun ended turn mem => ?_⟩
    split_ifs at ended with empty
    simp_all [Std.ExtTreeSet.isEmpty_iff]
  | succ budget ih =>
    unfold ascend
    cases next : run.next? with
    | none => exact ⟨none, run, rfl, fits, h, by simp, fun _ => not_mem_due_of_next? next⟩
    | some turn =>
      have mem := mem_due_of_next? next
      dsimp only
      split_ifs with expired
      · exact ⟨_, run, rfl, fits, h, by simp, fun ended => by simp at ended⟩
      · obtain ⟨after, step, evaluated, fits'⟩ := exists_ascendStep ready options fits mem
        rw [step]
        exact ih fits' (keeps fits h mem evaluated)

/-- An ascent whose evaluations spend a potential comes to its end before the budget does. -/
theorem exists_ascend_of_potential {Φ : Run → Nat}
    (spends : ∀ {run : Run} {turn : Turn} {next : Run}, Fits p run → I run → turn ∈ run.due →
      Evaluated p options run turn next → Φ next < Φ run)
    (punctual : ∀ iterations, options.isExpired iterations = false) {budget : Nat} {run : Run}
    (enough : Φ run ≤ budget) (fits : Fits p run) (h : I run) :
    ∃ last, p.ascend options budget run = .ok (none, last) := by
  induction budget generalizing run with
  | zero =>
    refine ⟨run, ?_⟩
    have empty : run.due.isEmpty := by
      rw [Std.ExtTreeSet.isEmpty_iff, Std.ExtTreeSet.eq_empty_iff_forall_not_mem]
      intro turn mem
      obtain ⟨next, -, evaluated, -⟩ := exists_ascendStep ready options fits mem
      exact absurd (spends fits h mem evaluated) (by omega)
    rw [ascend, if_pos empty]
  | succ budget ih =>
    unfold ascend
    cases next : run.next? with
    | none => exact ⟨run, rfl⟩
    | some turn =>
      have mem := mem_due_of_next? next
      obtain ⟨after, step, evaluated, fits'⟩ := exists_ascendStep ready options fits mem
      have less := spends fits h mem evaluated
      simp only [punctual, Bool.false_eq_true, ↓reduceIte, step]
      exact ih (by omega) fits' (keeps fits h mem evaluated)

end Ascend

end Problem

end RangeFlow
