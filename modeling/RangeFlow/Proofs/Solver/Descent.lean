import RangeFlow.Proofs.Solver.Soundness
import RangeFlow.Solver.Descent

/-!
# Soundness of the descent

A state that is computed again is above whatever comes into its point (`Problem.recompute_eq_some`),
so replacing a state, or dropping it where nothing arrives, leaves every execution covered. That holds
of each single replacement, in whatever order they are made. `Problem.Recomputed` lists the outcomes of
a step, and what each of them keeps holds of the whole descent (`Problem.exists_descend`);
`Problem.Settled` is kept so.
-/

namespace RangeFlow.Problem

variable {p : Problem} {options : Options} {initial : State}

/-! ## What comes into a point -/

/-- A state comes along an edge into a point. -/
def Arrives (p : Problem) (options : Options) (states : Std.ExtTreeMap Nat State) (index : Nat)
    (state : State) : Prop :=
  ∃ u point edge pre, p.procedure.graph.graph.vertices[u]? = some point ∧
    p.procedure.graph.graph.edges[(⟨u, index⟩ : Link)]? = some edge ∧
    states[u]? = some pre ∧ p.flow options point.operation edge pre = some state

theorem Arrives.derives {states : Std.ExtTreeMap Nat State} {index : Nat} {state : State}
    (arrives : p.Arrives options states index state)
    (derived : ∀ {v : Nat} {s : State}, states[v]? = some s → p.Derives options initial s) :
    p.Derives options initial state := by
  obtain ⟨u, point, edge, pre, located, -, found, flows⟩ := arrives
  exact .flow located (derived found) flows

theorem inflow?_eq (ready : p.Ready) (states : Std.ExtTreeMap Nat State) {edge : Edge}
    {point : Point} (located : p.procedure.graph.graph.vertices[edge.head]? = some point) :
    p.inflow? options states edge =
      .ok (states[edge.head]?.map fun pre =>
        ⟨edge, point.operation, p.flow options point.operation edge pre⟩) := by
  unfold inflow?
  have pointed := FlowGraph.point_eq_ok.2 located
  cases states[edge.head]? with
  | none => rfl
  | some pre =>
    simp only [pointed, FlowGraph.edgeState_eq ready.consistent located, bind, Except.bind, pure,
      Except.pure, Option.map_some]
    rfl

/-- The inflows of a point are found, and hold the states that arrive at it. -/
theorem exists_inflows (ready : p.Ready) (options : Options) (states : Std.ExtTreeMap Nat State)
    {index : Nat} (hv : index ∈ p.procedure.graph.graph.vertices) :
    ∃ inflows, p.inflows options states index = .ok inflows ∧
      ∀ state, state ∈ inflows.filterMap Inflow.state ↔ p.Arrives options states index state := by
  obtain ⟨edges, found, mem⟩ := ready.consistent.exists_edgesIn hv
  have located : ∀ edge ∈ edges, ∃ u point, p.procedure.graph.graph.vertices[u]? = some point ∧
      p.procedure.graph.graph.edges[(⟨u, index⟩ : Link)]? = some edge ∧ edge.head = u := by
    intro edge he
    obtain ⟨u, joined⟩ := (mem edge).1 he
    obtain ⟨point, located⟩ := mem_iff_exists_getElem?.1
      (ready.consistent.head_mem (mem_iff_exists_getElem?.2 ⟨edge, joined⟩))
    exact ⟨u, point, located, joined, (ready.consistent.ends joined).1⟩
  obtain ⟨results, computed, results_mem⟩ :=
    exists_mapM_eq_ok (l := edges) (f := p.inflow? options states) fun edge he => by
      obtain ⟨u, point, located, -, rfl⟩ := located edge he
      exact ⟨_, inflow?_eq ready states located⟩
  refine ⟨results.filterMap id, ?_, fun state => ?_⟩
  · simp only [inflows, FlowGraph.edgesIn, found, bind, Except.bind, computed]
    rfl
  · simp only [List.mem_filterMap, id_eq, exists_eq_right, results_mem]
    constructor
    · rintro ⟨inflow, ⟨edge, he, computed⟩, arrives⟩
      obtain ⟨u, point, located, joined, rfl⟩ := located edge he
      rw [inflow?_eq ready states located, Except.ok.injEq] at computed
      obtain ⟨pre, hpre, rfl⟩ := Option.map_eq_some_iff.1 computed
      exact ⟨edge.head, point, edge, pre, located, joined, hpre, arrives⟩
    · rintro ⟨u, point, edge, pre, located, joined, hpre, flows⟩
      have head : edge.head = u := (ready.consistent.ends joined).1
      subst head
      refine ⟨⟨edge, point.operation, some state⟩, ⟨edge, (mem edge).2 ⟨_, joined⟩, ?_⟩, rfl⟩
      rw [inflow?_eq ready states located, hpre, Option.map_some, flows]

/-! ## Computing a state again -/

theorem foldl_joinTo_eq_some {R : State → State → Prop} (ascending : p.Ascending options initial R)
    {arriving : List State} {before : Option State} {s : State}
    (derived : ∀ t ∈ arriving, p.Derives options initial t)
    (start : ∀ t, before = some t → p.Derives options initial t)
    (h : arriving.foldl (fun before state => some (joinTo before state)) before = some s) :
    p.Derives options initial s ∧ (∀ t ∈ arriving, R t s) ∧ ∀ t, before = some t → R t s := by
  induction arriving generalizing before with
  | nil =>
    exact ⟨start s h, by simp, fun t ht => Option.some.inj (ht.symm.trans h) ▸ ascending.refl t⟩
  | cons state arriving ih =>
    have first := derived state List.mem_cons_self
    -- What is joined first is above the arriving state and above what came before it.
    have joined : p.Derives options initial (joinTo before state) ∧ R state (joinTo before state) ∧
        ∀ t, before = some t → R t (joinTo before state) := by
      cases before with
      | none => exact ⟨first, ascending.refl _, by simp⟩
      | some before =>
        obtain ⟨left, right⟩ := ascending.join (start before rfl) first
        exact ⟨(start before rfl).join first, right, fun t ht => Option.some.inj ht ▸ left⟩
    obtain ⟨hs, rest, above⟩ := ih (fun t ht => derived t (List.mem_cons_of_mem _ ht))
      (fun t ht => Option.some.inj ht ▸ joined.1) h
    refine ⟨hs, fun t ht => ?_, fun t ht => ascending.trans (joined.2.2 t ht) (above _ rfl)⟩
    rcases List.mem_cons.1 ht with rfl | ht
    · exact ascending.trans joined.2.1 (above _ rfl)
    · exact rest t ht

theorem foldl_joinTo_eq_none {arriving : List State} {before : Option State}
    (h : arriving.foldl (fun before state => some (joinTo before state)) before = none) :
    arriving = [] ∧ before = none := by
  induction arriving generalizing before with
  | nil => exact ⟨rfl, h⟩
  | cons state arriving ih => exact absurd (ih h).2 (by simp)

section Recompute

variable {states : Std.ExtTreeMap Nat State} {index : Nat} {inflows : List Inflow}
  (arriving : ∀ state, state ∈ inflows.filterMap Inflow.state ↔ p.Arrives options states index state)
include arriving

/-- A state that is computed again is above what arrives, and at the entry above the initial state. -/
theorem recompute_eq_some {R : State → State → Prop} (ascending : p.Ascending options initial R)
    (derived : ∀ {v : Nat} {s : State}, states[v]? = some s → p.Derives options initial s)
    {s : State} (h : p.recompute initial index inflows = some s) :
    p.Derives options initial s ∧ (∀ t, p.Arrives options states index t → R t s) ∧
      (index = p.entry → R initial s) := by
  obtain ⟨hs, arrived, before⟩ := foldl_joinTo_eq_some ascending
    (fun t ht => ((arriving t).1 ht).derives derived)
    (fun t ht => by split_ifs at ht; exact Option.some.inj ht ▸ .initial) h
  exact ⟨hs, fun t ht => arrived t ((arriving t).2 ht), fun here => before initial (if_pos here)⟩

/-- Where no state is computed, nothing arrives. -/
theorem recompute_eq_none (h : p.recompute initial index inflows = none) :
    (∀ t, ¬p.Arrives options states index t) ∧ index ≠ p.entry := by
  obtain ⟨nothing, before⟩ := foldl_joinTo_eq_none h
  refine ⟨fun t ht => ?_, fun here => ?_⟩
  · simpa [nothing] using (arriving t).2 ht
  · rw [if_pos here] at before
    cases before

end Recompute

/-! ## Steps -/

/-- The outcomes of computing the state of a point again: the states stay as they are, the point gets
a smaller state, or it loses the one that it has. -/
inductive Recomputed (p : Problem) (options : Options) (initial : State) (run : Run) (index : Nat)
    (next : Run) : Prop where
  | kept : next.states = run.states → Recomputed p options initial run index next
  | narrowed {current state : State} {inflows : List Inflow} :
      run.states[index]? = some current →
      (∀ t, t ∈ inflows.filterMap Inflow.state ↔ p.Arrives options run.states index t) →
      p.recompute initial index inflows = some state →
      state.isSubset current →
      next.states = run.states.insert index state →
      Recomputed p options initial run index next
  | dropped {inflows : List Inflow} :
      (∀ t, t ∈ inflows.filterMap Inflow.state ↔ p.Arrives options run.states index t) →
      p.recompute initial index inflows = none →
      next.states = run.states.erase index →
      Recomputed p options initial run index next

/-- A state behind a step is an old one, or it is derived and replaces a larger one. -/
theorem Recomputed.states_cases {run next : Run} {index : Nat}
    (recomputed : Recomputed p options initial run index next)
    (derived : ∀ {v : Nat} {s : State}, run.states[v]? = some s → p.Derives options initial s)
    {v : Nat} {s : State} (found : next.states[v]? = some s) :
    run.states[v]? = some s ∨
      p.Derives options initial s ∧ ∃ t, run.states[v]? = some t ∧ s.isSubset t := by
  cases recomputed with
  | kept states => exact .inl (states ▸ found)
  | @narrowed current state _ before arriving again smaller states =>
    rw [states, getElem?_insert_eq] at found
    split_ifs at found with here
    · obtain rfl := Option.some.inj found
      exact .inr ⟨(recompute_eq_some arriving ascending_below derived again).1, current,
        here ▸ before, smaller⟩
    · exact .inl found
  | dropped arriving again states =>
    rw [states, getElem?_erase_eq] at found
    split_ifs at found
    exact .inl found

theorem Recomputed.derived {run next : Run} {index : Nat}
    (recomputed : Recomputed p options initial run index next)
    (derived : ∀ {v : Nat} {s : State}, run.states[v]? = some s → p.Derives options initial s)
    {v : Nat} {s : State} (found : next.states[v]? = some s) : p.Derives options initial s := by
  rcases recomputed.states_cases derived found with old | ⟨hs, -⟩
  · exact derived old
  · exact hs

/-- The state of a point of the order can be computed again. -/
theorem exists_descendStep (ready : p.Ready) (options : Options) (initial : State) {run : Run}
    (reached : ∀ {v : Nat} {s : State}, run.states[v]? = some s → v ∈ p.order) (index : Nat) :
    ∃ changed next, p.descendStep options initial run index = .ok (changed, next) ∧
      Recomputed p options initial run index next := by
  unfold descendStep
  dsimp only
  have same : run.tick.states = run.states := rfl
  cases found : run.tick.states[index]? with
  | none => exact ⟨false, _, rfl, .kept rfl⟩
  | some current =>
    obtain ⟨inflows, computed, arriving⟩ :=
      exists_inflows ready options run.states (ready.vertices (reached found))
    simp only [same, computed, bind, Except.bind]
    cases again : p.recompute initial index inflows with
    | none => exact ⟨true, _, rfl, .dropped arriving again rfl⟩
    | some state =>
      dsimp only
      split_ifs with smaller
      · exact ⟨true, _, rfl, .narrowed found arriving again smaller.2 rfl⟩
      · exact ⟨false, _, rfl, .kept rfl⟩

/-- A descent ends behind a pass that changed nothing or was broken off, and else goes on. -/
theorem descend_cases {passes pass : Nat} {run last : Run}
    (h : p.descend options initial (passes + 1) pass run = .ok last) :
    ∃ answer next, p.descendPass options initial p.order false run = .ok (answer, next) ∧
      ((answer ≠ some true ∧ ∃ events, last = next.note events) ∨
        answer = some true ∧ p.descend options initial passes (pass + 1)
          (next.note [.passDone p.procedure.name pass true]) = .ok last) := by
  unfold descend at h
  split at h
  · rename_i next passed
    exact ⟨none, next, passed, .inl ⟨by simp, _, (Except.ok.inj h).symm⟩⟩
  · rename_i changed next passed
    refine ⟨some changed, next, passed, ?_⟩
    cases changed with
    | true => exact .inr ⟨rfl, h⟩
    | false => exact .inl ⟨by simp, _, (Except.ok.inj h).symm⟩
  · cases h

section Descend

variable (ready : p.Ready) {I : Std.ExtTreeMap Nat State → Prop}
  (reached : ∀ {states : Std.ExtTreeMap Nat State}, I states → ∀ {v : Nat} {s : State},
    states[v]? = some s → v ∈ p.order)
  (keeps : ∀ {run next : Run} {index : Nat}, I run.states →
    Recomputed p options initial run index next → I next.states)
include ready reached keeps

theorem exists_descendPass (points : List Nat) (changed : Bool) {run : Run} (h : I run.states) :
    ∃ answer next, p.descendPass options initial points changed run = .ok (answer, next) ∧
      I next.states := by
  induction points generalizing changed run with
  | nil => exact ⟨_, run, rfl, h⟩
  | cons index rest ih =>
    unfold descendPass
    split_ifs
    · exact ⟨none, run, rfl, h⟩
    · obtain ⟨here, next, step, recomputed⟩ :=
        exists_descendStep ready options initial (reached h) index
      rw [step]
      exact ih (changed || here) (keeps h recomputed)

/-- The descent succeeds and keeps what every step keeps of the states. -/
theorem exists_descend (passes pass : Nat) {run : Run} (h : I run.states) :
    ∃ last, p.descend options initial passes pass run = .ok last ∧ I last.states := by
  induction passes generalizing pass run with
  | zero => exact ⟨run, rfl, h⟩
  | succ passes ih =>
    unfold descend
    obtain ⟨answer, next, passed, h'⟩ := exists_descendPass ready reached keeps p.order false h
    rw [passed]
    cases answer with
    | none => exact ⟨_, rfl, h'⟩
    | some changed =>
      cases changed with
      | true => exact ih (pass + 1) h'
      | false => exact ⟨_, rfl, h'⟩

end Descend

/-! ## What every step keeps -/

/-- What holds of the states behind an ascent, and then between any two steps of the descent. -/
structure Settled (p : Problem) (options : Options) (initial : State)
    (states : Std.ExtTreeMap Nat State) : Prop where
  reached : ∀ {v : Nat} {s : State}, states[v]? = some s → v ∈ p.order
  derived : ∀ {v : Nat} {s : State}, states[v]? = some s → p.Derives options initial s
  covers : initial.Obeys .admissible → p.Covers options initial states

/-- Where an execution has been, something arrives. -/
theorem Settled.arrives (ready : p.Ready) (start : initial.Obeys .admissible)
    {states : Std.ExtTreeMap Nat State} (settled : Settled p options initial states) {σ : Store}
    {last : Configuration} (described : initial.Describes σ)
    (reached : p.procedure.Reaches options.summaries ⟨p.entry, σ⟩ last) :
    last = ⟨p.entry, σ⟩ ∨
      ∃ state, p.Arrives options states last.point state ∧ state.Describes last.store := by
  rcases Relation.ReflTransGen.cases_tail reached with rfl | ⟨before, reached, step⟩
  · exact .inl rfl
  · obtain ⟨s, found, here⟩ := settled.covers start described reached
    obtain ⟨point, edge, state, located, joined, flows, arrived⟩ :=
      exists_flow_of_step ready ((settled.derived found).admissible ready start) here step
    exact .inr ⟨state, ⟨before.point, point, edge, s, located, joined, found, flows⟩, arrived⟩

/-- Computing a state again keeps the states settled. -/
theorem Settled.recomputed (ready : p.Ready) {run next : Run} {index : Nat}
    (settled : Settled p options initial run.states)
    (recomputed : Recomputed p options initial run index next) :
    Settled p options initial next.states := by
  refine ⟨fun {v s} found => ?_, recomputed.derived settled.derived,
    fun start {σ last} described reached => ?_⟩
  · rcases recomputed.states_cases settled.derived found with old | ⟨-, t, old, -⟩
    · exact settled.reached old
    · exact settled.reached old
  · have covered := settled.covers start described reached
    have arrives := settled.arrives ready start described reached
    cases recomputed with
    | kept states => rwa [states]
    | @narrowed current state _ before arriving again smaller states =>
      rw [states, getElem?_insert_eq]
      split_ifs with here
      · obtain ⟨-, arrived, entered⟩ :=
          recompute_eq_some arriving ascending_below settled.derived again
        refine ⟨state, rfl, ?_⟩
        rcases arrives with rfl | ⟨t, arrives, here'⟩
        · exact entered here.symm _ described
        · exact arrived t (here ▸ arrives) _ here'
      · exact covered
    | dropped arriving again states =>
      obtain ⟨nothing, other⟩ := recompute_eq_none arriving again
      rw [states, getElem?_erase_eq]
      split_ifs with here
      · rcases arrives with rfl | ⟨t, arrives, -⟩
        · exact absurd here.symm other
        · exact absurd (here ▸ arrives) (nothing t)
      · exact covered

end RangeFlow.Problem
