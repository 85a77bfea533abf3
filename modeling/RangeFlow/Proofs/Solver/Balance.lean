import RangeFlow.Proofs.Facts.Join
import RangeFlow.Proofs.Solver.Descent

/-!
# States in balance

States are in balance (`Problem.Balanced`) if the entry has the initial state and every other point the
join of what arrives. The descent leaves such states alone, since a join does not depend on the order in
which it is made (`Problem.Balanced.recomputed`). In a problem without loop headers every edge leads
forward, so there is one way only to be in balance (`Problem.Balanced.unique`).
-/

namespace RangeFlow.Problem

variable {p : Problem} {options : Options} {initial : State}

/-! ## What came to a point -/

/-- The entry has the initial state, and every other point the join of the states that came to it, if
any did. -/
structure Gathered (p : Problem) (initial : State) (came : Nat → State → Prop)
    (states : Std.ExtTreeMap Nat State) : Prop where
  entry : states[p.entry]? = some initial
  joined : ∀ {v : Nat} {s : State}, v ≠ p.entry → states[v]? = some s →
    (∃ t, came v t) ∧ s.IsJoin (came v)
  absent : ∀ {v : Nat}, v ≠ p.entry → states[v]? = none → ∀ t, ¬came v t

section Gathered

variable {came came' : Nat → State → Prop} {states states' : Std.ExtTreeMap Nat State}

theorem Gathered.congr (h : p.Gathered initial came states)
    (same : ∀ v t, v ≠ p.entry → (came v t ↔ came' v t)) : p.Gathered initial came' states where
  entry := h.entry
  joined {v s} other found := by
    obtain ⟨⟨t, ht⟩, isJoin⟩ := h.joined other found
    exact ⟨⟨t, (same v t other).1 ht⟩, isJoin.congr fun t => same v t other⟩
  absent {v} other none t ht := h.absent other none t ((same v t other).2 ht)

theorem Gathered.tidy (h : p.Gathered initial came states) (start : initial.Tidy) {v : Nat} {s : State}
    (found : states[v]? = some s) : s.Tidy := by
  by_cases other : v = p.entry
  · subst other
    exact Option.some.inj (h.entry.symm.trans found) ▸ start
  · exact (h.joined other found).2.tidy

/-- What came to a point settles its state. -/
theorem Gathered.getElem?_eq (h : p.Gathered initial came states)
    (h' : p.Gathered initial came' states') {v : Nat}
    (same : v ≠ p.entry → ∀ t, came v t ↔ came' v t) : states[v]? = states'[v]? := by
  by_cases other : v = p.entry
  · rw [other, h.entry, h'.entry]
  · cases found : states[v]? with
    | none =>
      cases found' : states'[v]? with
      | none => rfl
      | some s' =>
        obtain ⟨⟨t, ht⟩, -⟩ := h'.joined other found'
        exact absurd ((same other t).2 ht) (h.absent other found t)
    | some s =>
      obtain ⟨⟨t, ht⟩, isJoin⟩ := h.joined other found
      cases found' : states'[v]? with
      | none => exact absurd ((same other t).1 ht) (h'.absent other found' t)
      | some s' =>
        rw [(isJoin.congr (same other)).unique (h'.joined other found').2]

/-- The state of a point is the join of what came to it, in whatever order it is listed. -/
theorem Gathered.getElem?_eq_joinAll (h : p.Gathered initial came states) {v : Nat}
    (other : v ≠ p.entry) {arriving : List State}
    (mem : ∀ t, t ∈ arriving ↔ came v t) (tidy : ∀ t ∈ arriving, t.Tidy) :
    states[v]? = State.joinAll arriving := by
  cases joined : State.joinAll arriving with
  | none =>
    rw [State.joinAll_eq_none_iff] at joined
    cases found : states[v]? with
    | none => rfl
    | some s =>
      obtain ⟨⟨t, ht⟩, -⟩ := h.joined other found
      simpa [joined] using (mem t).2 ht
  | some s =>
    have isJoin := State.isJoin_of_joinAll tidy joined
    cases found : states[v]? with
    | none =>
      have nothing : arriving = [] :=
        List.eq_nil_iff_forall_not_mem.2 fun t ht => h.absent other found t ((mem t).1 ht)
      rw [State.joinAll_eq_none_iff.2 nothing] at joined
      cases joined
    | some s' => rw [((h.joined other found).2.congr fun t => (mem t).symm).unique isJoin]

end Gathered

/-! ## Computing a state again -/

theorem foldl_joinTo_some (arriving : List State) (s : State) :
    arriving.foldl (fun before state => some (joinTo before state)) (some s) =
      some (arriving.foldl State.join s) := by
  induction arriving generalizing s with
  | nil => rfl
  | cons state arriving ih => exact ih (s.join state)

theorem recompute_of_ne {index : Nat} (other : index ≠ p.entry) (inflows : List Inflow) :
    p.recompute initial index inflows = State.joinAll (inflows.filterMap Inflow.state) := by
  rw [recompute, if_neg other]
  cases inflows.filterMap Inflow.state with
  | nil => rfl
  | cons state arriving => exact foldl_joinTo_some arriving state

/-! ## Balance -/

/-- The entry has the initial state and nothing arrives there; every other point has the join of what
arrives. -/
structure Balanced (p : Problem) (options : Options) (initial : State)
    (states : Std.ExtTreeMap Nat State) : Prop where
  reached : ∀ {v : Nat} {s : State}, states[v]? = some s → v ∈ p.order
  gathered : p.Gathered initial (p.Arrives options states) states
  entry : ∀ t, ¬p.Arrives options states p.entry t

section Balanced

variable {states : Std.ExtTreeMap Nat State}

theorem Balanced.tidy_of_arrives (ready : p.Ready) (balanced : Balanced p options initial states)
    (start : initial.Tidy) {v : Nat} {t : State} (arrives : p.Arrives options states v t) : t.Tidy := by
  obtain ⟨u, point, edge, pre, located, -, found, flows⟩ := arrives
  exact ready.tidy_flow located (balanced.gathered.tidy start found) flows

/-- Computing a state again gives the state that is there. -/
theorem Balanced.recompute_eq (ready : p.Ready) (balanced : Balanced p options initial states)
    (start : initial.Tidy) {index : Nat} {inflows : List Inflow}
    (arriving : ∀ t, t ∈ inflows.filterMap Inflow.state ↔ p.Arrives options states index t) :
    p.recompute initial index inflows = states[index]? := by
  by_cases other : index = p.entry
  · subst other
    have nothing : inflows.filterMap Inflow.state = [] :=
      List.eq_nil_iff_forall_not_mem.2 fun t ht => balanced.entry t ((arriving t).1 ht)
    rw [recompute, nothing, if_pos rfl, balanced.gathered.entry]
    rfl
  · rw [recompute_of_ne other, balanced.gathered.getElem?_eq_joinAll other arriving fun t ht =>
      balanced.tidy_of_arrives ready start ((arriving t).1 ht)]

/-- A descent from states in balance leaves them as they are. -/
theorem Balanced.recomputed (ready : p.Ready) {run next : Run} {index : Nat}
    (balanced : Balanced p options initial run.states) (start : initial.Tidy)
    (recomputed : Recomputed p options initial run index next) : next.states = run.states := by
  cases recomputed with
  | kept states => exact states
  | narrowed before arriving again smaller states =>
    rw [balanced.recompute_eq ready start arriving] at again
    refine states.trans (Std.ExtTreeMap.ext_getElem? fun v => ?_)
    rw [getElem?_insert_eq]
    split_ifs with here
    · rw [here, again]
    · rfl
  | dropped arriving again states =>
    rw [balanced.recompute_eq ready start arriving] at again
    refine states.trans (Std.ExtTreeMap.ext_getElem? fun v => ?_)
    rw [getElem?_erase_eq]
    split_ifs with here
    · rw [here, again]
    · rfl

theorem Arrives.congr_summaries {options' : Options} (same : options.summaries = options'.summaries)
    {v : Nat} {t : State} :
    p.Arrives options states v t ↔ p.Arrives options' states v t := by
  simp only [Arrives, flow, same]

theorem Ready.forward_of_acyclic (ready : p.Ready) (acyclic : p.headers = ∅) {u v : Nat}
    (hu : u ∈ p.order) {edge : Edge}
    (joined : p.procedure.graph.graph.edges[(⟨u, v⟩ : Link)]? = some edge) :
    p.order.idxOf u < p.order.idxOf v :=
  ready.forward hu (mem_iff_exists_getElem?.2 ⟨edge, joined⟩) (by simp [acyclic])

/-- There is one way only to be in balance. -/
theorem Balanced.unique (ready : p.Ready) (acyclic : p.headers = ∅) {options' : Options}
    {states' : Std.ExtTreeMap Nat State} (balanced : Balanced p options initial states)
    (balanced' : Balanced p options' initial states')
    (same : options.summaries = options'.summaries) : states = states' := by
  -- By induction along the order: what arrives at a point comes from points in front of it.
  have along (n : Nat) : ∀ v ∈ p.order, p.order.idxOf v = n → states[v]? = states'[v]? := by
    induction n using Nat.strongRecOn with
    | ind n ih =>
      rintro v hv rfl
      refine balanced.gathered.getElem?_eq balanced'.gathered fun _ t => ?_
      rw [Arrives.congr_summaries same]
      constructor
      · rintro ⟨u, point, edge, pre, located, joined, found, flows⟩
        have hu := balanced.reached found
        have front := ready.forward_of_acyclic acyclic hu joined
        exact ⟨u, point, edge, pre, located, joined, ih _ front u hu rfl ▸ found, flows⟩
      · rintro ⟨u, point, edge, pre, located, joined, found, flows⟩
        have hu := balanced'.reached found
        have front := ready.forward_of_acyclic acyclic hu joined
        exact ⟨u, point, edge, pre, located, joined, (ih _ front u hu rfl).trans found, flows⟩
  apply Std.ExtTreeMap.ext_getElem?
  intro v
  by_cases hv : v ∈ p.order
  · exact along _ v hv rfl
  · cases found : states[v]? with
    | some s => exact absurd (balanced.reached found) hv
    | none =>
      cases found' : states'[v]? with
      | some s => exact absurd (balanced'.reached found') hv
      | none => rfl

end Balanced

end RangeFlow.Problem
