import RangeFlow.Proofs.Solver.Solution

/-!
# Stages of the solver

The solver step by step: `Stage.Step` is what it does between two changes of the states that it holds,
be it in the ascent or in the descent. The loops of the solver are nothing but such steps
(`Stage.exists_reached_of_solved`), and every state that is held at a stage is derived from the initial one
(`Stage.Reached.derives`).
-/

namespace RangeFlow

/-- The solver at work: a run, and the edges out of the point under evaluation that are still to be
followed, with the states along them. -/
structure Stage where
  run : Run
  pending : List (Edge × Option State) := []

namespace Stage

/-- A state that the solver holds, at a point or along an edge. -/
def Holds (stage : Stage) (s : State) : Prop :=
  (∃ v : Nat, stage.run.states[v]? = some s) ∨ ∃ edge, (edge, some s) ∈ stage.pending

/-- A step of the solver. It takes the first due point and evaluates it, follows an edge out of it,
computes the state of a point again, or notes something. -/
inductive Step (p : Problem) (options : Options) (initial : State) : Stage → Stage → Prop where
  | pass {run : Run} {turn : Turn} : run.next? = some turn → run.states[turn.point]? = none →
      Step p options initial ⟨run, []⟩ ⟨{ run.tick with due := run.due.erase turn }, []⟩
  | evaluate {run : Run} {turn : Turn} {pre : State} {point : Point}
      {leaving : List (Edge × Option State)} {events : List Event} : run.next? = some turn →
      run.states[turn.point]? = some pre → p.procedure.graph.point turn.point = .ok point →
      p.procedure.graph.edgeStates turn.point (point.operation.apply options.summaries pre) =
        .ok leaving →
      Step p options initial ⟨run, []⟩
        ⟨{ run.tick with due := run.due.erase turn }.note events, leaving⟩
  | skip {run : Run} {edge : Edge} {rest : List (Edge × Option State)} :
      Step p options initial ⟨run, (edge, none) :: rest⟩ ⟨run, rest⟩
  | follow {run next : Run} {edge : Edge} {state : State} {rest : List (Edge × Option State)} :
      p.follow options run edge state = .ok next →
      Step p options initial ⟨run, (edge, some state) :: rest⟩ ⟨next, rest⟩
  | recompute {run next : Run} {index : Nat} {changed : Bool} :
      p.descendStep options initial run index = .ok (changed, next) →
      Step p options initial ⟨run, []⟩ ⟨next, []⟩
  | note {run : Run} {events : List Event} :
      Step p options initial ⟨run, []⟩ ⟨run.note events, []⟩

/-- The stages that solving goes through. -/
inductive Reached (p : Problem) (options : Options) (initial : State) : Stage → Prop where
  | start {run : Run} : Run.start p initial = .ok run → Reached p options initial ⟨run, []⟩
  | step {stage next : Stage} : Reached p options initial stage →
      Step p options initial stage next → Reached p options initial next

variable {p : Problem} {options : Options} {initial : State}

/-! ## The loops of the solver -/

theorem Reached.followAll {leaving : List (Edge × Option State)} {run next : Run}
    (h : Reached p options initial ⟨run, leaving⟩)
    (result : p.followAll options run leaving = .ok next) : Reached p options initial ⟨next, []⟩ := by
  induction leaving generalizing run with
  | nil => exact Except.ok.inj result ▸ h
  | cons entry rest ih =>
    obtain ⟨edge, _ | state⟩ := entry
    · exact ih (h.step .skip) result
    · obtain ⟨middle, first, result⟩ := bind_eq_ok_iff.1 result
      exact ih (h.step (.follow first)) result

theorem Reached.ascendStep {run next : Run} {turn : Turn} (h : Reached p options initial ⟨run, []⟩)
    (first : run.next? = some turn) (result : p.ascendStep options run turn = .ok next) :
    Reached p options initial ⟨next, []⟩ := by
  unfold Problem.ascendStep Problem.visit at result
  have states : { run.tick with due := run.due.erase turn }.states = run.states := rfl
  split at result
  · rename_i absent
    exact Except.ok.inj result ▸ h.step (.pass first (states ▸ absent))
  · rename_i pre found
    obtain ⟨point, located, result⟩ := bind_eq_ok_iff.1 result
    obtain ⟨leaving, opened, result⟩ := bind_eq_ok_iff.1 result
    exact (h.step (.evaluate first (states ▸ found) located opened)).followAll result

theorem Reached.ascend {budget : Nat} {run last : Run} {outcome : Option Outcome}
    (h : Reached p options initial ⟨run, []⟩)
    (result : p.ascend options budget run = .ok (outcome, last)) :
    Reached p options initial ⟨last, []⟩ := by
  induction budget generalizing run with
  | zero => exact (Prod.mk.inj (Except.ok.inj result)).2 ▸ h
  | succ budget ih =>
    unfold Problem.ascend at result
    split at result
    · exact (Prod.mk.inj (Except.ok.inj result)).2 ▸ h
    · rename_i turn first
      split_ifs at result
      · exact (Prod.mk.inj (Except.ok.inj result)).2 ▸ h
      · split at result
        · rename_i next step
          exact ih (h.ascendStep first step) result
        · cases result

theorem Reached.descendPass {points : List Nat} {changed : Bool} {run last : Run}
    {answer : Option Bool} (h : Reached p options initial ⟨run, []⟩)
    (result : p.descendPass options initial points changed run = .ok (answer, last)) :
    Reached p options initial ⟨last, []⟩ := by
  induction points generalizing changed run with
  | nil => exact (Prod.mk.inj (Except.ok.inj result)).2 ▸ h
  | cons index rest ih =>
    unfold Problem.descendPass at result
    split_ifs at result
    · exact (Prod.mk.inj (Except.ok.inj result)).2 ▸ h
    · split at result
      · rename_i next step
        exact ih (h.step (.recompute step)) result
      · cases result

theorem Reached.descend {passes pass : Nat} {run last : Run}
    (h : Reached p options initial ⟨run, []⟩)
    (result : p.descend options initial passes pass run = .ok last) :
    Reached p options initial ⟨last, []⟩ := by
  induction passes generalizing pass run with
  | zero => exact Except.ok.inj result ▸ h
  | succ passes ih =>
    obtain ⟨answer, next, passed, ⟨-, events, rfl⟩ | ⟨-, rest⟩⟩ := Problem.descend_cases result
    · exact (h.descendPass passed).step .note
    · exact ih ((h.descendPass passed).step .note) rest

/-- Every solution is read off a stage that solving goes through. -/
theorem exists_reached_of_solved (ready : p.Ready) {solution : Solution}
    (solved : p.Solved options initial solution) :
    ∃ last, Reached p options initial ⟨last, []⟩ ∧ solution.iterations = last.iterations ∧
      (solution.outcome = .converged → solution.states = last.states) := by
  cases solved with
  | @gaveUp run last outcome started ascended =>
    refine ⟨last, (Reached.start started).ascend ascended, rfl, fun converged => ?_⟩
    exact absurd (congrArg some converged)
      (Problem.ascended_of_ascend ready started ascended).unsettled
  | @descended run last final started ascended descended =>
    exact ⟨final, (((Reached.start started).ascend ascended).step .note).descend descended, rfl,
      fun _ => rfl⟩

/-! ## Held states -/

/-- What every step keeps: states stand at points of the order, and are derived. -/
structure Sound (p : Problem) (options : Options) (initial : State) (stage : Stage) : Prop where
  reached : ∀ {v : Nat} {s : State}, stage.run.states[v]? = some s → v ∈ p.order
  tails : ∀ entry ∈ stage.pending, entry.1.tail ∈ p.order
  derives : ∀ {s : State}, stage.Holds s → p.Derives options initial s

theorem Sound.derived {stage : Stage} (sound : Sound p options initial stage) {v : Nat} {s : State}
    (found : stage.run.states[v]? = some s) : p.Derives options initial s :=
  sound.derives (.inl ⟨v, found⟩)

theorem Sound.step (ready : p.Ready) {stage next : Stage} (sound : Sound p options initial stage)
    (step : Step p options initial stage next) : Sound p options initial next := by
  cases step with
  | pass first absent => exact ⟨sound.reached, sound.tails, sound.derives⟩
  | note => exact ⟨sound.reached, sound.tails, sound.derives⟩
  | @evaluate run turn pre point leaving events first found pointed opened =>
    have ordered : turn.point ∈ p.order := sound.reached found
    obtain ⟨point', located⟩ := mem_iff_exists_getElem?.1 (ready.vertices ordered)
    obtain rfl := Except.ok.inj (pointed.symm.trans (FlowGraph.point_eq_ok.2 located))
    obtain ⟨edges, -, out, opened'⟩ := FlowGraph.exists_edgeStates ready.consistent located
      (point.operation.apply options.summaries pre)
    obtain rfl := Except.ok.inj (opened.symm.trans opened')
    refine ⟨sound.reached, fun entry mem => ?_, fun {s} held => ?_⟩
    · obtain ⟨edge, left, rfl⟩ := List.mem_map.1 mem
      obtain ⟨tail, joined⟩ := (out edge).1 left
      obtain rfl : edge.tail = tail := (ready.consistent.ends joined).2
      exact ready.closed ordered (mem_iff_exists_getElem?.2 ⟨edge, joined⟩)
    · rcases held with ⟨v, there⟩ | ⟨edge, mem⟩
      · exact sound.derived there
      · obtain ⟨edge, -, here⟩ := List.mem_map.1 mem
        obtain ⟨rfl, flows⟩ := Prod.mk.inj here
        exact .flow located (sound.derived found) flows
  | skip =>
    refine ⟨sound.reached, fun entry mem => sound.tails entry (List.mem_cons_of_mem _ mem),
      fun {s} held => ?_⟩
    rcases held with found | ⟨edge, mem⟩
    · exact sound.derives (.inl found)
    · exact sound.derives (.inr ⟨edge, List.mem_cons_of_mem _ mem⟩)
  | @follow run next edge state rest result =>
    have tail : edge.tail ∈ p.order := sound.tails _ List.mem_cons_self
    have arrived : p.Derives options initial state := sound.derives (.inr ⟨edge, List.mem_cons_self⟩)
    obtain ⟨next', result', followed⟩ := Problem.exists_follow ready options run tail state
    obtain rfl := Except.ok.inj (result.symm.trans result')
    refine ⟨fun found => ?_, fun entry mem => sound.tails entry (List.mem_cons_of_mem _ mem),
      fun {s} held => ?_⟩
    · rcases followed.states_cases found with old | ⟨rfl, -⟩
      · exact sound.reached old
      · exact tail
    · rcases held with ⟨v, found⟩ | ⟨edge, mem⟩
      · exact followed.derived arrived sound.derived found
      · exact sound.derives (.inr ⟨edge, List.mem_cons_of_mem _ mem⟩)
  | @recompute run next index changed result =>
    obtain ⟨changed', next', result', recomputed⟩ :=
      Problem.exists_descendStep ready options initial sound.reached index
    obtain ⟨rfl, rfl⟩ := Prod.mk.inj (Except.ok.inj (result.symm.trans result'))
    refine ⟨fun found => ?_, sound.tails, fun {s} held => ?_⟩
    · rcases recomputed.states_cases sound.derived found with old | ⟨-, t, old, -⟩
      · exact sound.reached old
      · exact sound.reached old
    · rcases held with ⟨v, found⟩ | ⟨edge, mem⟩
      · exact recomputed.derived sound.derived found
      · simp at mem

/-- Every state that the solver ever holds is derived from the initial one. -/
theorem Reached.derives (ready : p.Ready) {stage : Stage} (h : Reached p options initial stage)
    {s : State} (held : stage.Holds s) : p.Derives options initial s := by
  suffices sound : Sound p options initial stage from sound.derives held
  clear held
  induction h with
  | @start run started =>
    obtain ⟨run', started', -, -, -, -, fits, sound⟩ := Problem.exists_start ready options initial
    obtain rfl := Except.ok.inj (started.symm.trans started')
    refine ⟨fits.states, by simp, fun {s} held => ?_⟩
    rcases held with ⟨v, found⟩ | ⟨edge, mem⟩
    · exact (sound Problem.ascending_below).derived found
    · simp at mem
  | step _ step sound => exact sound.step ready step

end Stage

end RangeFlow
