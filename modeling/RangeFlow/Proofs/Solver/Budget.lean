import RangeFlow.Proofs.Facts.Inclusion
import RangeFlow.Proofs.Solver.Solution

/-!
# Budgets

More budget and more passes lose nothing. An ascent that comes to its end does so with any larger
budget (`Problem.ascend_of_within`), and a descent that may go on longer takes the same steps first
and lowers the states further (`Problem.lower_of_within`). No run makes more iterations than its budget
allows (`Problem.Solved.iterations_le`).
-/

namespace RangeFlow

/-- Steps are taken in the same way. -/
structure Options.Alike (a b : Options) : Prop where
  wideningDelay : a.wideningDelay = b.wideningDelay
  summaries : a.summaries = b.summaries

/-- The second options allow at least the work that the first allow, done in the same way, and their
deadline is reached no earlier. -/
structure Options.Within (a b : Options) : Prop extends a.Alike b where
  maxIterations : a.maxIterations ≤ b.maxIterations
  narrowingPasses : a.narrowingPasses ≤ b.narrowingPasses
  isExpired : ∀ {iterations : Nat}, a.isExpired iterations = false → b.isExpired iterations = false

theorem Options.Within.isSpent {a b : Options} (within : a.Within b) {iterations : Nat}
    (h : a.isSpent iterations = false) : b.isSpent iterations = false := by
  have := within.maxIterations
  simp only [Options.isSpent, Bool.or_eq_false_iff, decide_eq_false_iff_not] at h ⊢
  exact ⟨by omega, within.isExpired h.2⟩

/-- Inclusion is transitive where what is known of a slot is inside its width. -/
theorem State.Obeys.isSubset_trans {s t u : State} (h : s.Obeys .bounded) (hst : s.isSubset t)
    (htu : t.isSubset u) : s.isSubset u := by
  refine isSubset_iff.2 ⟨fun slot i entry => ?_,
    AliasClasses.refines_trans (isSubset_iff.1 hst).2 (isSubset_iff.1 htu).2⟩
  have inside : (s.value slot).Inside := by
    cases known : s.values[slot]? with
    | none =>
      rw [value_of_getElem?_eq_none known]
      exact Interval.Normal.inside trivial
    | some j =>
      rw [value_of_getElem? known]
      exact h.fact known
  exact Interval.isSubset_trans (value_isSubset_of_isSubset hst slot inside (h.bits_value slot))
    ((isSubset_iff.1 htu).1 slot i entry)

example :
    let wide (bound : Int) : State := ⟨{(⟨"a", 8⟩, .range 8 (-bound) bound)}, .empty⟩
    (wide 2000).isSubset .unconstrained ∧ State.unconstrained.isSubset (wide 1000) ∧
      (wide 2000).isSubset (wide 1000) = false := by
  decide

namespace Problem

variable {p : Problem} {options a b : Options} {initial : State}

/-! ## The same steps -/

theorem follow_congr (alike : a.Alike b) : p.follow a = p.follow b := by
  have widens : p.widens a = p.widens b := by
    unfold Problem.widens
    rw [alike.wideningDelay]
  have merged : p.mergeState a = p.mergeState b := by
    unfold mergeState
    rw [widens]
  have noted : p.mergeEvents a = p.mergeEvents b := by
    unfold mergeEvents
    rw [widens]
  unfold follow
  rw [merged, noted]

theorem ascendStep_congr (alike : a.Alike b) : p.ascendStep a = p.ascendStep b := by
  have followed : p.followAll a = p.followAll b := by
    unfold followAll
    rw [follow_congr alike]
  have visited : p.visit a = p.visit b := by
    unfold visit
    rw [followed, alike.summaries]
  unfold ascendStep
  rw [visited]

theorem descendStep_congr (alike : a.Alike b) (initial : State) :
    p.descendStep a initial = p.descendStep b initial := by
  have single : p.inflow? a = p.inflow? b := by
    unfold inflow?
    rw [alike.summaries]
  have all : p.inflows a = p.inflows b := by
    unfold inflows
    rw [single]
  unfold descendStep
  rw [all, alike.summaries]

/-- Every state stands where there was one before, and is below it if the bounds of the initial state
are inside the widths. -/
def Lower (initial : State) (states before : Std.ExtTreeMap Nat State) : Prop :=
  ∀ (v : Nat) (s : State), states[v]? = some s →
    ∃ t, before[v]? = some t ∧ (initial.Obeys .bounded → s.isSubset t)

theorem Lower.refl (initial : State) (states : Std.ExtTreeMap Nat State) :
    Lower initial states states :=
  fun _ s found => ⟨s, found, fun _ => s.isSubset_refl⟩

section Descent

variable (ready : p.Ready)
include ready

theorem Settled.lower_trans {states middle before : Std.ExtTreeMap Nat State}
    (settled : Settled p options initial states) (h : Lower initial states middle)
    (h' : Lower initial middle before) : Lower initial states before := by
  intro v s found
  obtain ⟨t, ht, below⟩ := h v s found
  obtain ⟨u, hu, below'⟩ := h' v t ht
  refine ⟨u, hu, fun start => ?_⟩
  have bounded := (settled.derived found).obeys ready Discipline.lawful_bounded
    (fun _ _ _ => trivial) start
  exact bounded.isSubset_trans (below start) (below' start)

/-- Computing a state again leaves lower states. -/
theorem Settled.lower_recomputed {run next : Run} {index : Nat}
    {before : Std.ExtTreeMap Nat State}
    (h : Settled p options initial run.states ∧ Lower initial run.states before)
    (recomputed : Recomputed p options initial run index next) :
    Settled p options initial next.states ∧ Lower initial next.states before := by
  have settled := h.1.recomputed ready recomputed
  refine ⟨settled, settled.lower_trans ready (fun v s found => ?_) h.2⟩
  rcases recomputed.states_cases h.1.derived found with old | ⟨-, t, old, below⟩
  · exact ⟨s, old, fun _ => s.isSubset_refl⟩
  · exact ⟨t, old, fun _ => below⟩

theorem Settled.descendPass {points : List Nat} {changed : Bool} {run last : Run}
    {answer : Option Bool} (settled : Settled p options initial run.states)
    (h : p.descendPass options initial points changed run = .ok (answer, last)) :
    Settled p options initial last.states ∧ Lower initial last.states run.states := by
  obtain ⟨answer', last', h', kept⟩ := exists_descendPass ready
    (I := fun states => Settled p options initial states ∧ Lower initial states run.states)
    (fun here => here.1.reached) (Settled.lower_recomputed ready) points changed
    ⟨settled, Lower.refl _ _⟩
  obtain ⟨rfl, rfl⟩ := Prod.mk.inj (Except.ok.inj (h.symm.trans h'))
  exact kept

theorem Settled.descend {passes pass : Nat} {run last : Run}
    (settled : Settled p options initial run.states)
    (h : p.descend options initial passes pass run = .ok last) :
    Settled p options initial last.states ∧ Lower initial last.states run.states := by
  obtain ⟨last', h', kept⟩ := exists_descend ready
    (I := fun states => Settled p options initial states ∧ Lower initial states run.states)
    (fun here => here.1.reached) (Settled.lower_recomputed ready) passes pass
    ⟨settled, Lower.refl _ _⟩
  obtain rfl := Except.ok.inj (h.symm.trans h')
  exact kept

end Descent

/-! ## Counting iterations -/

theorem iterations_start {run : Run} (h : Run.start p initial = .ok run) : run.iterations = 0 := by
  obtain ⟨rank, -, h⟩ := bind_eq_ok_iff.1 h
  exact Except.ok.inj h ▸ rfl

theorem iterations_follow {run next : Run} {edge : Edge} {state : State}
    (h : p.follow options run edge state = .ok next) : next.iterations = run.iterations := by
  have scheduled {run : Run} {point : Nat} {state : State}
      (h : p.schedule run point state = .ok next) : next.iterations = run.iterations := by
    obtain ⟨rank, -, h⟩ := bind_eq_ok_iff.1 h
    exact Except.ok.inj h ▸ rfl
  unfold Problem.follow at h
  split at h
  · exact (scheduled h).trans rfl
  · dsimp only at h
    split_ifs at h
    · exact Except.ok.inj h ▸ rfl
    · exact (scheduled h).trans rfl

theorem iterations_ascendStep {run next : Run} {turn : Turn}
    (h : p.ascendStep options run turn = .ok next) : next.iterations = run.iterations + 1 := by
  unfold ascendStep visit at h
  split at h
  · exact Except.ok.inj h ▸ rfl
  · obtain ⟨point, -, h⟩ := bind_eq_ok_iff.1 h
    obtain ⟨leaving, -, h⟩ := bind_eq_ok_iff.1 h
    refine foldlM_induction (I := fun next : Run => next.iterations = run.iterations + 1) rfl
      (fun {middle next entry} _ same step => ?_) h
    obtain ⟨edge, _ | state⟩ := entry
    · exact Except.ok.inj step ▸ same
    · exact (iterations_follow step).trans same

theorem iterations_ascend {budget : Nat} {run last : Run} {outcome : Option Outcome}
    (h : p.ascend options budget run = .ok (outcome, last)) :
    last.iterations ≤ run.iterations + budget ∧
      (outcome = some .diverged → last.iterations = run.iterations + budget) := by
  induction budget generalizing run with
  | zero =>
    obtain ⟨-, rfl⟩ := Prod.mk.inj (Except.ok.inj h)
    exact ⟨le_rfl, fun _ => rfl⟩
  | succ budget ih =>
    unfold ascend at h
    split at h
    · obtain ⟨rfl, rfl⟩ := Prod.mk.inj (Except.ok.inj h)
      exact ⟨by omega, fun diverged => by cases diverged⟩
    · split_ifs at h
      · obtain ⟨rfl, rfl⟩ := Prod.mk.inj (Except.ok.inj h)
        exact ⟨by omega, fun diverged => by cases diverged⟩
      · split at h
        · rename_i next step
          have := iterations_ascendStep step
          obtain ⟨atMost, exactly⟩ := ih h
          exact ⟨by omega, fun diverged => by have := exactly diverged; omega⟩
        · cases h

theorem iterations_descendStep {run next : Run} {index : Nat} {changed : Bool}
    (h : p.descendStep options initial run index = .ok (changed, next)) :
    next.iterations = run.iterations + 1 := by
  unfold descendStep at h
  dsimp only at h
  split at h
  · exact (Prod.mk.inj (Except.ok.inj h)).2 ▸ rfl
  · obtain ⟨inflows, -, h⟩ := bind_eq_ok_iff.1 h
    split at h
    · split_ifs at h
      · exact (Prod.mk.inj (Except.ok.inj h)).2 ▸ rfl
      · exact (Prod.mk.inj (Except.ok.inj h)).2 ▸ rfl
    · exact (Prod.mk.inj (Except.ok.inj h)).2 ▸ rfl

theorem iterations_descendPass {points : List Nat} {changed : Bool} {run last : Run}
    {answer : Option Bool} (start : run.iterations ≤ options.maxIterations)
    (h : p.descendPass options initial points changed run = .ok (answer, last)) :
    last.iterations ≤ options.maxIterations := by
  induction points generalizing changed run with
  | nil => exact (Prod.mk.inj (Except.ok.inj h)).2 ▸ start
  | cons index rest ih =>
    unfold descendPass at h
    split_ifs at h with spent
    · exact (Prod.mk.inj (Except.ok.inj h)).2 ▸ start
    · split at h
      · rename_i here next step
        have := iterations_descendStep step
        have left : run.iterations < options.maxIterations := by
          simp only [Options.isSpent, Bool.or_eq_true, decide_eq_true_eq, not_or] at spent
          omega
        exact ih (by omega) h
      · cases h

theorem iterations_descend {passes pass : Nat} {run last : Run}
    (start : run.iterations ≤ options.maxIterations)
    (h : p.descend options initial passes pass run = .ok last) :
    last.iterations ≤ options.maxIterations := by
  induction passes generalizing pass run with
  | zero => exact Except.ok.inj h ▸ start
  | succ passes ih =>
    obtain ⟨answer, next, passed, ending⟩ := descend_cases h
    have atMost := iterations_descendPass start passed
    rcases ending with ⟨-, events, rfl⟩ | ⟨-, rest⟩
    · exact atMost
    · refine ih ?_ rest
      exact atMost

/-- No solution takes more iterations than its budget allows. One that gave up for lack of budget took
all of them, and knows nothing. -/
theorem Solved.iterations_le {solution : Solution} (solved : p.Solved options initial solution) :
    solution.iterations ≤ options.maxIterations ∧
      (solution.outcome = .diverged → solution.iterations = options.maxIterations ∧
        solution.states = p.unconstrainedStates) := by
  cases solved with
  | gaveUp started ascended =>
    obtain ⟨atMost, exactly⟩ := iterations_ascend ascended
    rw [iterations_start started, Nat.zero_add] at atMost exactly
    exact ⟨atMost, fun diverged => ⟨exactly (congrArg some diverged), rfl⟩⟩
  | @descended run last final started ascended descended =>
    have atMost := (iterations_ascend ascended).1
    rw [iterations_start started, Nat.zero_add] at atMost
    have begins : (last.note (p.ascentEvents last)).iterations ≤ options.maxIterations := atMost
    exact ⟨iterations_descend begins descended, fun diverged => by cases diverged⟩

end Problem

end RangeFlow
