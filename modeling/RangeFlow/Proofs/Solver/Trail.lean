import RangeFlow.Proofs.Solver.Solution

/-!
# The trail of a run

The log of a run tells which points were evaluated, and in which order (`Run.trail`). A step of the
ascent adds the point of its turn (`Problem.trail_ascendStep`). Nothing else adds a point: neither
following edges nor the descent (`Problem.trail_descend`).
-/

namespace RangeFlow

/-! ## Evaluations among events -/

/-- The point that an event says was evaluated. -/
def Event.evaluated? : Event → Option Nat
  | evaluated point _ => some point.index
  | _ => none

/-- The points that some events say were evaluated, first to last. -/
def evaluations (events : List Event) : List Nat := events.filterMap Event.evaluated?

@[simp]
theorem evaluations_append (events later : List Event) :
    evaluations (events ++ later) = evaluations events ++ evaluations later :=
  List.filterMap_append

theorem evaluations_flatMap_eq_nil {α : Type} {l : List α} {f : α → List Event}
    (h : ∀ a ∈ l, evaluations (f a) = []) : evaluations (l.flatMap f) = [] := by
  induction l with
  | nil => rfl
  | cons a l ih =>
    rw [List.flatMap_cons, evaluations_append, h a List.mem_cons_self,
      ih fun b hb => h b (List.mem_cons_of_mem _ hb), List.append_nil]

@[simp]
theorem Operation.evaluations_events (operation : Operation) (summaries : Summaries) :
    evaluations (operation.events summaries) = [] := by
  unfold Operation.events
  split
  · rfl
  · split
    · split_ifs <;> rfl
    · rfl
  · rfl

@[simp]
theorem Edge.evaluations_events (edge : Edge) (state : Option State) :
    evaluations (edge.events state) = [] := by
  unfold Edge.events
  split_ifs <;> rfl

@[simp]
theorem FlowGraph.evaluations_events (g : FlowGraph) : evaluations g.events = [] := by
  unfold FlowGraph.events
  split <;> rfl

/-- The points that were evaluated in a run, first to last. -/
def Run.trail (run : Run) : List Nat := evaluations run.log.toList

@[simp]
theorem Run.trail_note (run : Run) (events : List Event) :
    (run.note events).trail = run.trail ++ evaluations events := by
  simp [trail, note]

theorem Run.trail_note_of_silent (run : Run) {events : List Event} (silent : evaluations events = []) :
    (run.note events).trail = run.trail := by
  rw [trail_note, silent, List.append_nil]

namespace Problem

variable {p : Problem} {options : Options} {initial : State} {run next last : Run}

/-! ## The ascent -/

theorem log_schedule {point : Nat} {state : State} (h : p.schedule run point state = .ok next) :
    next.log = run.log := by
  obtain ⟨rank, -, h⟩ := bind_eq_ok_iff.1 h
  obtain rfl := Except.ok.inj h
  rfl

theorem evaluations_mergeEvents (head tail count : Nat) (state : State) :
    evaluations (p.mergeEvents options head tail count state) = [] := by
  unfold mergeEvents
  split_ifs <;> rfl

theorem trail_follow {edge : Edge} {state : State} (h : p.follow options run edge state = .ok next) :
    next.trail = run.trail := by
  unfold Problem.follow at h
  split at h
  · rw [Run.trail, log_schedule h]
    exact Run.trail_note_of_silent run rfl
  · dsimp only at h
    split_ifs at h
    · obtain rfl := Except.ok.inj h
      rfl
    · rw [Run.trail, log_schedule h]
      exact Run.trail_note_of_silent _ (evaluations_mergeEvents _ _ _ _)

theorem trail_followAll {leaving : List (Edge × Option State)}
    (h : p.followAll options run leaving = .ok next) : next.trail = run.trail := by
  induction leaving generalizing run with
  | nil =>
    obtain rfl := Except.ok.inj h
    rfl
  | cons entry leaving ih =>
    obtain ⟨edge, state⟩ := entry
    obtain ⟨middle, step, rest⟩ := bind_eq_ok_iff.1 h
    rw [ih rest]
    cases state with
    | none =>
      obtain rfl := Except.ok.inj step
      rfl
    | some state => exact trail_follow step

/-- A step of the ascent evaluates the point of its turn. -/
theorem trail_ascendStep (ready : p.Ready) {turn : Turn} (reached : turn.point ∈ run.states)
    (h : p.ascendStep options run turn = .ok next) :
    next.trail = run.trail ++ [turn.point] := by
  obtain ⟨pre, found⟩ := mem_iff_exists_getElem?.1 reached
  unfold ascendStep visit at h
  have kept : { run.tick with due := run.due.erase turn }.states[turn.point]? = some pre := found
  rw [kept] at h
  obtain ⟨point, pointed, h⟩ := bind_eq_ok_iff.1 h
  obtain ⟨leaving, -, h⟩ := bind_eq_ok_iff.1 h
  have index : point.index = turn.point := ready.consistent.index (FlowGraph.point_eq_ok.1 pointed)
  rw [trail_followAll h, Run.trail_note, evaluations_append, Operation.evaluations_events,
    List.nil_append]
  change run.trail ++ point.index :: evaluations (leaving.flatMap _) = _
  rw [evaluations_flatMap_eq_nil fun _ _ => Edge.evaluations_events _ _, index]

/-! ## The descent -/

theorem trail_descendStep {index : Nat} {changed : Bool}
    (h : p.descendStep options initial run index = .ok (changed, next)) :
    next.trail = run.trail := by
  have silent (inflows : List Inflow) :
      evaluations (inflows.flatMap (Inflow.events options.summaries)) = [] :=
    evaluations_flatMap_eq_nil fun inflow _ => by simp [Inflow.events]
  unfold descendStep at h
  dsimp only at h
  split at h
  · obtain ⟨-, rfl⟩ := Prod.mk.inj (Except.ok.inj h)
    rfl
  · obtain ⟨inflows, -, h⟩ := bind_eq_ok_iff.1 h
    have noted : (run.tick.note (inflows.flatMap (Inflow.events options.summaries))).trail =
        run.trail :=
      Run.trail_note_of_silent _ (silent inflows)
    split at h
    · split_ifs at h
      · obtain ⟨-, rfl⟩ := Prod.mk.inj (Except.ok.inj h)
        exact (Run.trail_note_of_silent _ rfl).trans noted
      · obtain ⟨-, rfl⟩ := Prod.mk.inj (Except.ok.inj h)
        exact noted
    · obtain ⟨-, rfl⟩ := Prod.mk.inj (Except.ok.inj h)
      exact (Run.trail_note_of_silent _ rfl).trans noted

theorem trail_descendPass {points : List Nat} {changed : Bool} {answer : Option Bool}
    (h : p.descendPass options initial points changed run = .ok (answer, next)) :
    next.trail = run.trail := by
  induction points generalizing changed run with
  | nil =>
    obtain ⟨-, rfl⟩ := Prod.mk.inj (Except.ok.inj h)
    rfl
  | cons index rest ih =>
    unfold descendPass at h
    split_ifs at h
    · obtain ⟨-, rfl⟩ := Prod.mk.inj (Except.ok.inj h)
      rfl
    · split at h
      · rename_i step
        rw [ih h, trail_descendStep step]
      · cases h

theorem trail_descend {passes pass : Nat}
    (h : p.descend options initial passes pass run = .ok last) : last.trail = run.trail := by
  induction passes generalizing pass run with
  | zero =>
    obtain rfl := Except.ok.inj h
    rfl
  | succ passes ih =>
    unfold descend at h
    split at h
    · rename_i passed
      obtain rfl := Except.ok.inj h
      rw [Run.trail_note_of_silent _ rfl, trail_descendPass passed]
    · rename_i changed next passed
      have noted : (next.note [.passDone p.procedure.name pass changed]).trail = run.trail := by
        rw [Run.trail_note_of_silent _ rfl, trail_descendPass passed]
      dsimp only at h
      split_ifs at h
      · rw [ih h, noted]
      · obtain rfl := Except.ok.inj h
        exact noted
    · cases h

end Problem

end RangeFlow
