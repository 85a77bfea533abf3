import RangeFlow.Proofs.Facts.Monotone
import RangeFlow.Proofs.Solver.Solution

/-!
# Solutions are post-fixed points

The ascent ends in states that are above the initial one and above all that arrives at their points,
in the order by what states know (`Problem.PostFixed`). A step of the descent replaces a state by a
smaller one. Where transfer functions are monotone, less arrives behind the point then, and what arrives
at the point itself is below the new state. The states are thus a post-fixed point between any two
steps, also where a pass is broken off.
-/

namespace RangeFlow.Problem

variable {p : Problem} {options : Options} {initial : State}

/-- Merging goes up in the order by what states know. -/
theorem ascending_le (ready : p.Ready) (start : initial.Tidy) :
    p.Ascending options initial State.Le where
  refl := State.Le.refl
  trans := State.Le.trans
  join hs ht := by
    have hs := (hs.tidy ready start).toOrderly
    exact ⟨hs.le_join_left, hs.le_join_right (ht.tidy ready start).toOrderly⟩
  widen hs ht := by
    have hs := (hs.tidy ready start).toOrderly
    exact ⟨hs.le_widen_left, hs.le_widen_right (ht.tidy ready start).toOrderly⟩

/-- The initial state is below the one at the entry, and whatever arrives at a point is below the state
there. -/
structure PostFixed (p : Problem) (options : Options) (initial : State)
    (states : Std.ExtTreeMap Nat State) : Prop where
  entry : ∃ s, states[p.entry]? = some s ∧ initial.Le s
  arrives : ∀ {v : Nat} {state : State}, p.Arrives options states v state →
    ∃ t, states[v]? = some t ∧ state.Le t

theorem Ascended.postFixed (ready : p.Ready) (start : initial.Tidy) {last : Run}
    (h : Ascended p options initial none last) : p.PostFixed options initial last.states := by
  have sound := h.sound (ascending_le ready start)
  refine ⟨sound.entry, ?_⟩
  rintro v state ⟨u, point, edge, pre, located, joined, found, flows⟩
  obtain rfl := (ready.consistent.ends joined).2
  exact sound.exists_above (h.idle rfl) located joined found flows

/-! ## Descending -/

theorem PostFixed.drop {states : Std.ExtTreeMap Nat State} {index : Nat} {inflows : List Inflow}
    (postFixed : p.PostFixed options initial states)
    (arriving : ∀ t, t ∈ inflows.filterMap Inflow.state ↔ p.Arrives options states index t)
    (h : p.recompute initial index inflows = none) :
    p.PostFixed options initial (states.erase index) := by
  obtain ⟨nothing, other⟩ := recompute_eq_none arriving h
  refine ⟨by rw [getElem?_erase_eq, if_neg other.symm]; exact postFixed.entry, ?_⟩
  rintro v s ⟨u, point, edge, pre, located, joined, found, flows⟩
  rw [getElem?_erase_eq] at found
  split_ifs at found
  have arrives : p.Arrives options states v s :=
    ⟨u, point, edge, pre, located, joined, found, flows⟩
  have elsewhere : v ≠ index := by
    rintro rfl
    exact nothing s arrives
  rw [getElem?_erase_eq, if_neg elsewhere]
  exact postFixed.arrives arrives

section Descent

variable (ready : p.Ready) (start : initial.Tidy)
  (undivided : ∀ {v : Nat} {point : Point}, p.procedure.graph.graph.vertices[v]? = some point →
    point.operation.divisor? = none)
include ready undivided

/-- What flows out of a larger state is larger. -/
theorem exists_flow_of_le {v : Nat} {point : Point} {edge : Edge} {s t s' : State}
    (located : p.procedure.graph.graph.vertices[v]? = some point) (h : s.Le t) (hs : s.Tidy)
    (ht : t.Tidy) (flows : p.flow options point.operation edge s = some s') :
    ∃ t', p.flow options point.operation edge t = some t' ∧ s'.Le t' := by
  have sorted := ready.valid.sorted located
  have below := Operation.apply_le options.summaries sorted h hs ht fun divisor divides => by
    rw [undivided located] at divides
    cases divides
  exact FlowGraph.exists_along_of_le _ sorted below (Operation.tidy_apply _ sorted hs)
    (Operation.tidy_apply _ sorted ht) flows

variable {states : Std.ExtTreeMap Nat State} {index : Nat} {current state : State}

/-- When a state gets smaller, less arrives. -/
theorem Arrives.exists_of_insert {v : Nat} {s : State} (below : state.Le current)
    (tidy : state.Tidy) (tidyCurrent : current.Tidy) (found : states[index]? = some current)
    (arrives : p.Arrives options (states.insert index state) v s) :
    ∃ t, p.Arrives options states v t ∧ s.Le t := by
  obtain ⟨u, point, edge, pre, located, joined, found', flows⟩ := arrives
  rw [getElem?_insert_eq] at found'
  split_ifs at found' with here
  · subst here
    obtain rfl := Option.some.inj found'
    obtain ⟨t, flows', above⟩ :=
      exists_flow_of_le ready undivided located below tidy tidyCurrent flows
    exact ⟨t, ⟨u, point, edge, current, located, joined, found, flows'⟩, above⟩
  · exact ⟨s, ⟨u, point, edge, pre, located, joined, found', flows⟩, .refl s⟩

include start

theorem PostFixed.replace {inflows : List Inflow} (postFixed : p.PostFixed options initial states)
    (derived : ∀ {v : Nat} {s : State}, states[v]? = some s → p.Derives options initial s)
    (found : states[index]? = some current)
    (arriving : ∀ t, t ∈ inflows.filterMap Inflow.state ↔ p.Arrives options states index t)
    (h : p.recompute initial index inflows = some state) (smaller : state.isSubset current) :
    p.PostFixed options initial (states.insert index state) := by
  obtain ⟨hs, arrived, entered⟩ :=
    recompute_eq_some arriving (ascending_le ready start) derived h
  have tidy := hs.tidy ready start
  have below := tidy.le_of_isSubset smaller
  refine ⟨?_, fun {v s} arrives => ?_⟩
  · rw [getElem?_insert_eq]
    split_ifs with here
    · exact ⟨state, rfl, entered here.symm⟩
    · exact postFixed.entry
  · obtain ⟨t, arrives', above⟩ := arrives.exists_of_insert ready undivided below tidy
      ((derived found).tidy ready start) found
    rw [getElem?_insert_eq]
    split_ifs with here
    · exact ⟨state, rfl, above.trans (arrived t (here ▸ arrives'))⟩
    · obtain ⟨u, hu, below⟩ := postFixed.arrives arrives'
      exact ⟨u, hu, above.trans below⟩

/-- Computing a state again leaves a post-fixed point. -/
theorem PostFixed.recomputed {run next : Run} (settled : Settled p options initial run.states)
    (postFixed : p.PostFixed options initial run.states)
    (recomputed : Recomputed p options initial run index next) :
    p.PostFixed options initial next.states := by
  cases recomputed with
  | kept states => exact states ▸ postFixed
  | narrowed found arriving again smaller states =>
    rw [states]
    exact postFixed.replace ready start undivided settled.derived found arriving again smaller
  | dropped arriving again states =>
    rw [states]
    exact postFixed.drop arriving again

end Descent

/-- The states of a converged solution are a post-fixed point if nothing is divided or nothing is
computed again. -/
theorem Solved.postFixed (ready : p.Ready) (start : initial.Tidy)
    (monotone : options.narrowingPasses = 0 ∨
      ∀ {v : Nat} {point : Point}, p.procedure.graph.graph.vertices[v]? = some point →
        point.operation.divisor? = none)
    {solution : Solution} (solved : p.Solved options initial solution)
    (converged : solution.outcome = .converged) : p.PostFixed options initial solution.states := by
  cases solved with
  | gaveUp started ascended =>
    exact absurd (congrArg some converged) (ascended_of_ascend ready started ascended).unsettled
  | @descended run last final started ascended descended =>
    have h := ascended_of_ascend ready started ascended
    have postFixed := h.postFixed ready start
    rcases monotone with none | undivided
    · rw [none] at descended
      exact Except.ok.inj descended ▸ postFixed
    · have begins : Settled p options initial (last.note (p.ascentEvents last)).states ∧
          p.PostFixed options initial (last.note (p.ascentEvents last)).states :=
        ⟨h.settled ready, postFixed⟩
      obtain ⟨final', descended', -, postFixed'⟩ := exists_descend ready
        (I := fun states => Settled p options initial states ∧ p.PostFixed options initial states)
        (fun here => here.1.reached)
        (fun here recomputed => ⟨here.1.recomputed ready recomputed,
          here.2.recomputed ready start undivided here.1 recomputed⟩)
        options.narrowingPasses 0 begins
      obtain rfl := Except.ok.inj (descended.symm.trans descended')
      exact postFixed'

end RangeFlow.Problem
