import RangeFlow.Proofs.Solver.Descent
import RangeFlow.Solver.Solution

/-!
# Solutions of ready problems

Solving a ready problem succeeds, whatever the initial state is. The solution covers every execution
from the stores that an admissible initial state describes (`Problem.Solves`): by the ascent and the
descent where it converged, and because it knows nothing where it did not.

`Problem.Solved` names the two ways to a solution, giving up and descending from where the ascent
ended, and `Problem.Ascended` what is known there.
-/

namespace RangeFlow.Problem

variable {p : Problem} {options : Options} {initial : State}

/-- How a solution is found: the ascent gives up, or the descent follows it. -/
inductive Solved (p : Problem) (options : Options) (initial : State) : Solution → Prop where
  | gaveUp {run last : Run} {outcome : Outcome} : Run.start p initial = .ok run →
      p.ascend options options.maxIterations run = .ok (some outcome, last) →
      Solved p options initial ⟨p.unconstrainedStates, outcome, last.iterations⟩
  | descended {run last final : Run} : Run.start p initial = .ok run →
      p.ascend options options.maxIterations run = .ok (none, last) →
      p.descend options initial options.narrowingPasses 0 (last.note (p.ascentEvents last)) =
        .ok final →
      Solved p options initial ⟨final.states, .converged, final.iterations⟩

/-- What holds of every solution. -/
structure Solves (p : Problem) (options : Options) (initial : State) (solution : Solution) :
    Prop where
  solved : p.Solved options initial solution
  vertices : ∀ {v : Nat} {s : State}, solution.states[v]? = some s →
    v ∈ p.procedure.graph.graph.vertices
  settled : solution.outcome = .converged → Settled p options initial solution.states
  covers : initial.Obeys .admissible → p.Covers options initial solution.states
  converged : ∀ {run last : Run}, Run.start p initial = .ok run →
    p.ascend options options.maxIterations run = .ok (none, last) → solution.outcome = .converged

theorem exists_start (ready : p.Ready) (options : Options) (initial : State) :
    ∃ run, Run.start p initial = .ok run ∧ run.states = {(p.entry, initial)} ∧
      run.due = {p.turnOf p.entry} ∧ run.merges = ∅ ∧ run.iterations = 0 ∧ Fits p run ∧
      ∀ {R : State → State → Prop}, p.Ascending options initial R →
        Sound p options initial R [] run := by
  refine ⟨⟨{(p.entry, initial)}, {p.turnOf p.entry}, ∅, 0, #[]⟩, ?_, rfl, rfl, rfl, rfl, ?_,
    fun ascending => ?_⟩
  · rw [Run.start, ready.rankOf ready.entry_mem]
    rfl
  · refine ⟨fun {v s} found => ?_, fun {turn} mem => ?_⟩
    · obtain ⟨rfl, -⟩ := getElem?_singleton_eq_some.1 found
      exact ready.entry_mem
    · obtain rfl := mem_singleton_iff.1 mem
      exact ⟨rfl, mem_iff_exists_getElem?.2 ⟨initial, getElem?_singleton_eq_some.2 ⟨rfl, rfl⟩⟩⟩
  · refine ⟨fun {v s} found => ?_, by simp,
      ⟨initial, getElem?_singleton_eq_some.2 ⟨rfl, rfl⟩, ascending.refl _⟩,
      fun {v point pre state edge} located joined found idle flows => ?_⟩
    · obtain ⟨-, rfl⟩ := getElem?_singleton_eq_some.1 found
      exact .initial
    · -- The only point with a state is due.
      obtain ⟨rfl, -⟩ := getElem?_singleton_eq_some.1 found
      exact absurd rfl (idle (p.turnOf p.entry) (mem_singleton_iff.2 rfl))

/-- What an ascent from the start comes to. -/
structure Ascended (p : Problem) (options : Options) (initial : State) (outcome : Option Outcome)
    (last : Run) : Prop where
  fits : Fits p last
  unsettled : outcome ≠ some .converged
  idle : outcome = none → ∀ turn, turn ∉ last.due
  sound : ∀ {R : State → State → Prop}, p.Ascending options initial R →
    Sound p options initial R [] last

theorem exists_ascended (ready : p.Ready) (options : Options) (initial : State) (budget : Nat) :
    ∃ run outcome last, Run.start p initial = .ok run ∧
      p.ascend options budget run = .ok (outcome, last) ∧
      Ascended p options initial outcome last := by
  obtain ⟨run, started, -, -, -, -, fits, sound⟩ := exists_start ready options initial
  obtain ⟨outcome, last, ascended, fits', sound', unsettled, idle⟩ := exists_ascend ready
    (I := fun run => ∀ {R}, p.Ascending options initial R → Sound p options initial R [] run)
    (fun _ sound _ evaluated _ ascending => (sound ascending).evaluated ascending evaluated)
    budget fits sound
  exact ⟨run, outcome, last, started, ascended, fits', unsettled, idle, sound'⟩

theorem ascended_of_ascend (ready : p.Ready) {run last : Run} {outcome : Option Outcome}
    {budget : Nat} (started : Run.start p initial = .ok run)
    (ascended : p.ascend options budget run = .ok (outcome, last)) :
    Ascended p options initial outcome last := by
  obtain ⟨run', outcome', last', started', ascended', h⟩ :=
    exists_ascended ready options initial budget
  obtain rfl := Except.ok.inj (started.symm.trans started')
  obtain ⟨rfl, rfl⟩ := Prod.mk.inj (Except.ok.inj (ascended.symm.trans ascended'))
  exact h

theorem Ascended.settled (ready : p.Ready) {last : Run} (h : Ascended p options initial none last) :
    Settled p options initial last.states :=
  ⟨h.fits.states, (h.sound ascending_below).derived,
    fun start => (h.sound ascending_below).covers ready start (h.idle rfl)⟩

theorem getElem?_unconstrainedStates (p : Problem) {v : Nat} :
    p.unconstrainedStates[v]? =
      p.procedure.graph.graph.vertices[v]?.map fun _ => State.unconstrained := by
  rw [unconstrainedStates, Std.ExtTreeMap.getElem?_map]

/-- An execution stays on the points of the graph. -/
theorem mem_vertices_of_reaches (ready : p.Ready) {σ : Store} {last : Configuration}
    (reached : p.procedure.Reaches options.summaries ⟨p.entry, σ⟩ last) :
    last.point ∈ p.procedure.graph.graph.vertices := by
  induction reached with
  | refl => exact ready.valid.entry_mem
  | tail _ step _ =>
    obtain ⟨point, edge, -, -, joined, -⟩ := step
    exact ready.consistent.tail_mem (mem_iff_exists_getElem?.2 ⟨edge, joined⟩)

theorem covers_unconstrainedStates (ready : p.Ready) :
    p.Covers options initial p.unconstrainedStates := by
  intro σ last described reached
  obtain ⟨point, located⟩ := mem_iff_exists_getElem?.1 (mem_vertices_of_reaches ready reached)
  refine ⟨.unconstrained, ?_, State.describes_unconstrained _⟩
  rw [getElem?_unconstrainedStates, located, Option.map_some]

/-- A ready problem is solved from every initial state. -/
theorem exists_solveLogged (ready : p.Ready) (options : Options) (initial : State) :
    ∃ solution log, p.solveLogged options initial = .ok (solution, log) ∧
      p.Solves options initial solution := by
  obtain ⟨run, outcome, last, started, ascended, h⟩ :=
    exists_ascended ready options initial options.maxIterations
  simp only [solveLogged, started, ascended, bind, Except.bind, pure, Except.pure]
  cases outcome with
  | some outcome =>
    refine ⟨⟨_, outcome, last.iterations⟩, _, rfl, .gaveUp started ascended, fun {v s} found => ?_,
      fun converged => ?_, fun _ => covers_unconstrainedStates ready,
      fun {run' last'} started' ascended' => ?_⟩
    · rw [getElem?_unconstrainedStates] at found
      obtain ⟨point, located, -⟩ := Option.map_eq_some_iff.1 found
      exact mem_iff_exists_getElem?.2 ⟨point, located⟩
    · exact absurd (congrArg some converged) h.unsettled
    · obtain rfl := Except.ok.inj (started.symm.trans started')
      cases ascended.symm.trans ascended'
  | none =>
    have settled : Settled p options initial (last.note (p.ascentEvents last)).states :=
      h.settled ready
    obtain ⟨final, descended, settled'⟩ := exists_descend ready Settled.reached
      (Settled.recomputed ready) options.narrowingPasses 0 settled
    simp only [descended]
    exact ⟨_, _, rfl, .descended started ascended descended,
      fun found => ready.vertices (settled'.reached found), fun _ => settled', settled'.covers,
      fun _ _ => rfl⟩

/-- The states of a solution keep to what the state at the entry keeps to, whether or not it is
converged. -/
theorem Solves.obeys (ready : p.Ready) {solution : Solution}
    (solves : p.Solves options initial solution) {D : Discipline} (lawful : D.Lawful)
    (empty : D.Classes .empty)
    (occurs : ∀ {v : Nat} {point : Point}, p.procedure.graph.graph.vertices[v]? = some point →
      ∀ slot ∈ point.operation.slots, D.Occurs slot)
    (start : initial.Obeys D) {v : Nat} {s : State} (found : solution.states[v]? = some s) :
    s.Obeys D := by
  have settled := solves.settled
  cases solves.solved with
  | gaveUp started ascended =>
    rw [getElem?_unconstrainedStates] at found
    obtain ⟨point, -, rfl⟩ := Option.map_eq_some_iff.1 found
    exact State.obeys_unconstrained empty
  | descended started ascended descended =>
    exact ((settled rfl).derived found).obeys ready lawful occurs start

end RangeFlow.Problem
