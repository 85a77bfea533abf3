import RangeFlow.Proofs.Facts.Describes
import RangeFlow.Proofs.Facts.Tidy
import RangeFlow.Proofs.Solver.Ascent

/-!
# Soundness of the ascent

Every state of a run is derived from the initial one by flows and merges (`Problem.Derives`), so it
keeps to every lawful discipline of the initial state. At every point that is not due, the edges out of
it lead to states above what comes along them (`Problem.Closed`), in every order in which merging goes
up (`Problem.Ascending`). In the order by what states describe, the states therefore cover every
execution when no point is due (`Problem.Covers`).
-/

namespace RangeFlow

/-- Every store that a state describes is described by another. -/
def State.Below (s t : State) : Prop := ∀ σ, s.Describes σ → t.Describes σ

theorem State.Below.refl (s : State) : s.Below s := fun _ h => h

theorem State.Below.trans {s t u : State} (hst : s.Below t) (htu : t.Below u) : s.Below u :=
  fun σ h => htu σ (hst σ h)

namespace Problem

variable {p : Problem} {options : Options} {initial : State}

/-! ## Derived states -/

/-- The states that flows and merges make of the initial one. -/
inductive Derives (p : Problem) (options : Options) (initial : State) : State → Prop where
  | initial : Derives p options initial initial
  | flow {v : Nat} {point : Point} {edge : Edge} {pre state : State} :
      p.procedure.graph.graph.vertices[v]? = some point → Derives p options initial pre →
      p.flow options point.operation edge pre = some state → Derives p options initial state
  | join {s t : State} : Derives p options initial s → Derives p options initial t →
      Derives p options initial (s.join t)
  | widen {s t : State} : Derives p options initial s → Derives p options initial t →
      Derives p options initial (s.widen t)

theorem Derives.obeys (ready : p.Ready) {D : Discipline} (lawful : D.Lawful)
    (occurs : ∀ {v : Nat} {point : Point}, p.procedure.graph.graph.vertices[v]? = some point →
      ∀ slot ∈ point.operation.slots, D.Occurs slot)
    (start : initial.Obeys D) {s : State} (h : p.Derives options initial s) : s.Obeys D := by
  induction h with
  | initial => exact start
  | flow located _ flows obeys =>
    have sorted := ready.valid.sorted located
    exact FlowGraph.obeys_along lawful _ sorted (occurs located)
      (Operation.obeys_apply lawful options.summaries sorted (occurs located) obeys) flows
  | join _ _ obeysS obeysT => exact obeysS.join lawful obeysT
  | widen _ _ obeysS obeysT => exact obeysS.widen lawful obeysT

theorem Derives.admissible (ready : p.Ready) (start : initial.Obeys .admissible) {s : State}
    (h : p.Derives options initial s) : s.Obeys .admissible :=
  h.obeys ready Discipline.lawful_admissible (fun _ _ _ => trivial) start

theorem Ready.tidy_flow (ready : p.Ready) {v : Nat} {point : Point}
    (located : p.procedure.graph.graph.vertices[v]? = some point) {edge : Edge} {pre state : State}
    (tidy : pre.Tidy) (flows : p.flow options point.operation edge pre = some state) : state.Tidy :=
  FlowGraph.tidy_along _ (Operation.tidy_apply options.summaries (ready.valid.sorted located) tidy) flows

theorem Derives.tidy (ready : p.Ready) (start : initial.Tidy) {s : State}
    (h : p.Derives options initial s) : s.Tidy := by
  induction h with
  | initial => exact start
  | flow located _ flows tidy => exact ready.tidy_flow located tidy flows
  | join _ _ hs ht => exact hs.join ht
  | widen _ _ hs ht => exact hs.widen ht

theorem Derives.merged {run : Run} {v : Nat} {old new : State}
    (ho : p.Derives options initial old) (hn : p.Derives options initial new) :
    p.Derives options initial (p.merged options run v old new) := by
  unfold Problem.merged mergeState
  dsimp only
  split_ifs
  · exact ho.widen (ho.join hn)
  · exact ho.join hn

/-! ## Merging goes up -/

/-- An order in which a merge of derived states is above both of them. -/
structure Ascending (p : Problem) (options : Options) (initial : State)
    (R : State → State → Prop) : Prop where
  refl : ∀ s, R s s
  trans : ∀ {s t u : State}, R s t → R t u → R s u
  join : ∀ {s t : State}, p.Derives options initial s → p.Derives options initial t →
    R s (s.join t) ∧ R t (s.join t)
  widen : ∀ {s t : State}, p.Derives options initial s → p.Derives options initial t →
    R s (s.widen t) ∧ R t (s.widen t)

theorem ascending_below : p.Ascending options initial State.Below where
  refl := State.Below.refl
  trans := State.Below.trans
  join _ _ := ⟨fun _ h => h.join_left, fun _ h => h.join_right⟩
  widen _ _ := ⟨fun _ h => h.widen_left, fun _ h => h.widen_right⟩

variable {R : State → State → Prop}

theorem Ascending.merged (ascending : p.Ascending options initial R) (run : Run) (v : Nat)
    {old new : State} (ho : p.Derives options initial old) (hn : p.Derives options initial new) :
    R old (p.merged options run v old new) ∧ R new (p.merged options run v old new) := by
  unfold Problem.merged mergeState
  dsimp only
  obtain ⟨left, right⟩ := ascending.join ho hn
  split_ifs
  · obtain ⟨wide, joined⟩ := ascending.widen ho (ho.join hn)
    exact ⟨wide, ascending.trans right joined⟩
  · exact ⟨left, right⟩

section Followed

variable {run next : Run} {edge : Edge} {state : State}

/-- The states behind a followed edge are the old ones, but for the tail. -/
theorem Followed.states_cases (followed : Followed p options run edge state next) {v : Nat}
    {s : State} (found : next.states[v]? = some s) :
    run.states[v]? = some s ∨
      v = edge.tail ∧ (s = state ∨
        ∃ old, run.states[v]? = some old ∧ s = p.merged options run v old state) := by
  cases followed with
  | first none states due merges =>
    rw [states, getElem?_insert_eq] at found
    split_ifs at found with here
    · exact .inr ⟨here, .inl (Option.some.inj found).symm⟩
    · exact .inl found
  | kept some same states due merges => exact .inl (states ▸ found)
  | changed some other states due merges =>
    rw [states, getElem?_insert_eq] at found
    split_ifs at found with here
    · subst here
      exact .inr ⟨rfl, .inr ⟨_, some, (Option.some.inj found).symm⟩⟩
    · exact .inl found

theorem Followed.derived (followed : Followed p options run edge state next)
    (arrived : p.Derives options initial state)
    (derived : ∀ {v : Nat} {s : State}, run.states[v]? = some s → p.Derives options initial s)
    {v : Nat} {s : State} (found : next.states[v]? = some s) : p.Derives options initial s := by
  rcases followed.states_cases found with old | ⟨-, rfl | ⟨old, hold, rfl⟩⟩
  · exact derived old
  · exact arrived
  · exact (derived hold).merged arrived

theorem Followed.due_mono (followed : Followed p options run edge state next) {turn : Turn}
    (mem : turn ∈ run.due) : turn ∈ next.due := by
  cases followed with
  | first none states due merges => exact due ▸ mem_insert_iff.2 (.inr mem)
  | kept some same states due merges => exact due ▸ mem
  | changed some other states due merges => exact due ▸ mem_insert_iff.2 (.inr mem)

/-- A point whose state changes becomes due. -/
theorem Followed.unchanged (followed : Followed p options run edge state next) {v : Nat}
    (idle : ∀ turn ∈ next.due, turn.point ≠ v) : next.states[v]? = run.states[v]? := by
  have scheduled {s : State} (states : next.states = run.states.insert edge.tail s)
      (due : next.due = run.due.insert (p.turnOf edge.tail)) : next.states[v]? = run.states[v]? := by
    have other : v ≠ edge.tail := fun here =>
      idle (p.turnOf edge.tail) (due ▸ mem_insert_iff.2 (.inl rfl)) here.symm
    rw [states, getElem?_insert_eq, if_neg other]
  cases followed with
  | first none states due merges => exact scheduled states due
  | kept some same states due merges => rw [states]
  | changed some other states due merges => exact scheduled states due

section Ascending

variable (ascending : p.Ascending options initial R) (arrived : p.Derives options initial state)
  (derived : ∀ {v : Nat} {s : State}, run.states[v]? = some s → p.Derives options initial s)
include ascending arrived derived

theorem Followed.grows (followed : Followed p options run edge state next) {v : Nat} {s : State}
    (found : run.states[v]? = some s) : ∃ t, next.states[v]? = some t ∧ R s t := by
  cases followed with
  | first none states due merges =>
    have other : v ≠ edge.tail := by
      rintro rfl
      rw [none] at found
      cases found
    exact ⟨s, by rw [states, getElem?_insert_eq, if_neg other, found], ascending.refl s⟩
  | kept some same states due merges => exact ⟨s, by rw [states, found], ascending.refl s⟩
  | changed some other states due merges =>
    by_cases here : v = edge.tail
    · subst here
      obtain rfl := Option.some.inj (some.symm.trans found)
      exact ⟨_, by rw [states, getElem?_insert_eq, if_pos rfl],
        (ascending.merged run edge.tail (derived found) arrived).1⟩
    · exact ⟨s, by rw [states, getElem?_insert_eq, if_neg here, found], ascending.refl s⟩

theorem Followed.covers (followed : Followed p options run edge state next) :
    ∃ t, next.states[edge.tail]? = some t ∧ R state t := by
  cases followed with
  | first none states due merges =>
    exact ⟨state, by rw [states, getElem?_insert_eq, if_pos rfl], ascending.refl state⟩
  | @kept old some same states due merges =>
    have above := (ascending.merged run edge.tail (derived some) arrived).2
    exact ⟨old, by rw [states, some], same ▸ above⟩
  | changed some other states due merges =>
    exact ⟨_, by rw [states, getElem?_insert_eq, if_pos rfl],
      (ascending.merged run edge.tail (derived some) arrived).2⟩

end Ascending

end Followed

/-! ## Closed runs -/

/-- The points that are not due have nothing to add to the states at the tails of their edges, but for
the edges of `rest` with their states. -/
def Closed (p : Problem) (options : Options) (R : State → State → Prop)
    (rest : List (Edge × Option State)) (run : Run) : Prop :=
  ∀ {v : Nat} {point : Point} {pre state : State} {edge : Edge},
    p.procedure.graph.graph.vertices[v]? = some point →
    p.procedure.graph.graph.edges[(⟨v, edge.tail⟩ : Link)]? = some edge →
    run.states[v]? = some pre → (∀ turn ∈ run.due, turn.point ≠ v) →
    p.flow options point.operation edge pre = some state →
    (edge, some state) ∈ rest ∨ ∃ t, run.states[edge.tail]? = some t ∧ R state t

/-- What holds of every run of an ascent, while the edges of `rest` are still to be followed. -/
structure Sound (p : Problem) (options : Options) (initial : State) (R : State → State → Prop)
    (rest : List (Edge × Option State)) (run : Run) : Prop where
  derived : ∀ {v : Nat} {s : State}, run.states[v]? = some s → p.Derives options initial s
  arriving : ∀ edge state, (edge, some state) ∈ rest → p.Derives options initial state
  entry : ∃ s, run.states[p.entry]? = some s ∧ R initial s
  closed : Closed p options R rest run

/-! ## What every evaluation keeps -/

theorem Sound.followed (ascending : p.Ascending options initial R) {run next : Run} {edge : Edge}
    {state : State} {rest : List (Edge × Option State)}
    (sound : Sound p options initial R ((edge, some state) :: rest) run)
    (followed : Followed p options run edge state next) : Sound p options initial R rest next := by
  have arrived := sound.arriving edge state List.mem_cons_self
  refine ⟨followed.derived arrived sound.derived,
    fun edge state mem => sound.arriving edge state (List.mem_cons_of_mem _ mem), ?_, ?_⟩
  · obtain ⟨s, hs, above⟩ := sound.entry
    obtain ⟨t, ht, grown⟩ := followed.grows ascending arrived sound.derived hs
    exact ⟨t, ht, ascending.trans above grown⟩
  · intro v point pre state' edge' located joined found idle flows
    have found' : run.states[v]? = some pre := followed.unchanged idle ▸ found
    have idle' : ∀ turn ∈ run.due, turn.point ≠ v :=
      fun turn mem => idle turn (followed.due_mono mem)
    rcases sound.closed located joined found' idle' flows with mem | ⟨t, ht, above⟩
    · rcases List.mem_cons.1 mem with here | mem
      · obtain ⟨rfl, rfl⟩ : edge' = edge ∧ state' = state := by simpa using here
        exact .inr (followed.covers ascending arrived sound.derived)
      · exact .inl mem
    · obtain ⟨u, hu, grown⟩ := followed.grows ascending arrived sound.derived ht
      exact .inr ⟨u, hu, ascending.trans above grown⟩

theorem Sound.skip {run : Run} {edge : Edge} {rest : List (Edge × Option State)}
    (sound : Sound p options initial R ((edge, none) :: rest) run) :
    Sound p options initial R rest run where
  derived := sound.derived
  arriving edge state mem := sound.arriving edge state (List.mem_cons_of_mem _ mem)
  entry := sound.entry
  closed located joined found idle flows :=
    (sound.closed located joined found idle flows).imp_left fun mem => by simpa using mem

theorem Sound.followedAll (ascending : p.Ascending options initial R) {run next : Run}
    {leaving : List (Edge × Option State)} (sound : Sound p options initial R leaving run)
    (followed : FollowedAll p options leaving run next) : Sound p options initial R [] next := by
  induction followed with
  | nil => exact sound
  | skip _ ih => exact ih sound.skip
  | follow first _ ih => exact ih (sound.followed ascending first)

theorem Sound.evaluated (ascending : p.Ascending options initial R) {run next : Run} {turn : Turn}
    (sound : Sound p options initial R [] run) (evaluated : Evaluated p options run turn next) :
    Sound p options initial R [] next := by
  obtain @⟨point, pre, edges, start, located, found, nodup, leaving, states, due, merges, followed⟩ :=
    evaluated
  -- The edges of the evaluated point are those still to follow.
  refine Sound.followedAll ascending ⟨fun found => sound.derived (states ▸ found),
    fun edge state mem => ?_, by rw [states]; exact sound.entry,
    fun {v point' pre' state edge} located' joined found' idle flows => ?_⟩ followed
  · obtain ⟨edge, -, here⟩ := List.mem_map.1 mem
    obtain ⟨rfl, flows⟩ := Prod.mk.inj here
    exact .flow located (sound.derived found) flows
  · rw [states] at found' ⊢
    by_cases here : v = turn.point
    · subst here
      obtain rfl := Option.some.inj (located.symm.trans located')
      obtain rfl := Option.some.inj (found.symm.trans found')
      exact .inl (List.mem_map.2 ⟨edge, (leaving edge).2 ⟨edge.tail, joined⟩, by rw [flows]⟩)
    · have idle' : ∀ other ∈ run.due, other.point ≠ v := by
        intro other mem same
        refine idle other (due ▸ mem_erase_iff.2 ⟨?_, mem⟩) same
        rintro rfl
        exact here same.symm
      exact (sound.closed located' joined found' idle' flows).imp_left fun mem => by simp at mem

/-- When no point is due, a flow along an edge is below the state at its tail. -/
theorem Sound.exists_above {run : Run} (sound : Sound p options initial R [] run)
    (idle : ∀ turn, turn ∉ run.due) {v : Nat} {point : Point} {pre state : State} {edge : Edge}
    (located : p.procedure.graph.graph.vertices[v]? = some point)
    (joined : p.procedure.graph.graph.edges[(⟨v, edge.tail⟩ : Link)]? = some edge)
    (found : run.states[v]? = some pre) (flows : p.flow options point.operation edge pre = some state) :
    ∃ t, run.states[edge.tail]? = some t ∧ R state t :=
  (sound.closed located joined found (fun turn mem => absurd mem (idle turn)) flows).resolve_left
    (by simp)

/-! ## Executions -/

/-- The states cover every execution from a store that the initial state describes. -/
def Covers (p : Problem) (options : Options) (initial : State)
    (states : Std.ExtTreeMap Nat State) : Prop :=
  ∀ {σ : Store} {last : Configuration}, initial.Describes σ →
    p.procedure.Reaches options.summaries ⟨p.entry, σ⟩ last →
    ∃ s, states[last.point]? = some s ∧ s.Describes last.store

/-- What comes along the edge that an execution takes describes where it gets to. -/
theorem exists_flow_of_step (ready : p.Ready) {before after : Configuration} {s : State}
    (admissible : s.Obeys .admissible) (described : s.Describes before.store)
    (step : p.procedure.Step options.summaries before after) :
    ∃ point edge state, p.procedure.graph.graph.vertices[before.point]? = some point ∧
      p.procedure.graph.graph.edges[(⟨before.point, after.point⟩ : Link)]? = some edge ∧
      p.flow options point.operation edge s = some state ∧ state.Describes after.store := by
  obtain ⟨point, edge, located, moved, joined, taken⟩ := step
  have sorted := ready.valid.sorted located
  have head : edge.head = before.point := (ready.consistent.ends joined).1
  obtain ⟨state, flows, arrived⟩ := FlowGraph.exists_along_of_takes ready.consistent sorted
    (by rw [head]; exact mem_iff_exists_getElem?.2 ⟨point, located⟩)
    (Operation.describes_apply sorted described admissible.admissible moved)
    (Operation.obeys_apply Discipline.lawful_admissible options.summaries sorted
      (fun _ _ => trivial) admissible).admissible taken
  exact ⟨point, edge, state, located, joined, flows, arrived⟩

/-- When no point is due, the states cover every execution. -/
theorem Sound.covers (ready : p.Ready) (start : initial.Obeys .admissible) {run : Run}
    (sound : Sound p options initial State.Below [] run) (idle : ∀ turn, turn ∉ run.due) :
    p.Covers options initial run.states := by
  intro σ last described reached
  induction reached with
  | refl =>
    obtain ⟨s, found, below⟩ := sound.entry
    exact ⟨s, found, below σ described⟩
  | @tail before after _ step ih =>
    obtain ⟨s, found, here⟩ := ih
    have admissible := (sound.derived found).admissible ready start
    obtain ⟨point, edge, state, located, joined, flows, arrived⟩ :=
      exists_flow_of_step ready admissible here step
    have tail : edge.tail = after.point := (ready.consistent.ends joined).2
    rw [← tail] at joined ⊢
    obtain ⟨t, ht, below⟩ := sound.exists_above idle located joined found flows
    exact ⟨t, ht, below _ arrived⟩

end Problem

end RangeFlow
