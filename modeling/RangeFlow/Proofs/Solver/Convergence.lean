import RangeFlow.Proofs.Facts.Slack
import RangeFlow.Proofs.Solver.Solution

/-!
# Convergence of the ascent

The state at a loop header changes a bounded number of times (`Problem.allowance`), and any other point
becomes due only behind an evaluation of a point in front of it in the order. `Problem.work` adds this
up along the order to a bound of the evaluations still to come. Every evaluation lowers it
(`Problem.work_lt_of_evaluated`), and at the start it is at most exponential in the number of
points (`workload_add_le`), so an ascent with that budget comes to its end
(`Problem.exists_ascend_eq_none`).
-/

namespace RangeFlow

/-! ## Work along an order -/

/-- The number of evaluations that are to come at some points in their order and in front of them
(`before`), if a header comes up as often as it is allowed to, and any other point whenever one in front
of it does. -/
def workload (headers : IndexSet) (due allowance : Nat → Nat) : List Nat → Nat → Nat
  | [], before => before
  | v :: rest, before =>
      workload headers due allowance rest
        (before + due v + if v ∈ headers then allowance v else before)

section Workload

variable {headers : IndexSet} {due due' allowance allowance' : Nat → Nat}

theorem workload_append (front rest : List Nat) (before : Nat) :
    workload headers due allowance (front ++ rest) before =
      workload headers due allowance rest (workload headers due allowance front before) := by
  induction front generalizing before with
  | nil => rfl
  | cons v front ih => exact ih _

theorem workload_mono {order : List Nat} {before before' : Nat}
    (header : ∀ v ∈ order, v ∈ headers → due' v + allowance' v ≤ due v + allowance v)
    (other : ∀ v ∈ order, v ∉ headers → due' v ≤ due v) (less : before' ≤ before) :
    workload headers due' allowance' order before' ≤ workload headers due allowance order before := by
  induction order generalizing before before' with
  | nil => exact less
  | cons v rest ih =>
    refine ih (fun w hw => header w (List.mem_cons_of_mem _ hw))
      (fun w hw => other w (List.mem_cons_of_mem _ hw)) ?_
    split_ifs with mem
    · have := header v List.mem_cons_self mem
      omega
    · have := other v List.mem_cons_self mem
      omega

/-- Behind a point with less work, other points may become due. -/
theorem workload_lt {order : List Nat} {before before' : Nat}
    (header : ∀ v ∈ order, v ∈ headers → due' v + allowance' v ≤ due v + allowance v)
    (other : ∀ v ∈ order, v ∉ headers → due' v ≤ due v + 1) (less : before' < before) :
    workload headers due' allowance' order before' < workload headers due allowance order before := by
  induction order generalizing before before' with
  | nil => exact less
  | cons v rest ih =>
    refine ih (fun w hw => header w (List.mem_cons_of_mem _ hw))
      (fun w hw => other w (List.mem_cons_of_mem _ hw)) ?_
    split_ifs with mem
    · have := header v List.mem_cons_self mem
      omega
    · have := other v List.mem_cons_self mem
      omega

/-- Work gets less when one point has been evaluated, headers pay for becoming due, and any other
point becomes due only behind the evaluated one. -/
theorem workload_lt_of_spent {order : List Nat} (nodup : order.Nodup) {u : Nat} (hu : u ∈ order)
    (header : ∀ v, v ∈ headers →
      due' v + allowance' v + (if v = u then 1 else 0) ≤ due v + allowance v)
    (other : ∀ v, v ∉ headers → ¬order.idxOf u < order.idxOf v →
      due' v + (if v = u then 1 else 0) ≤ due v)
    (once : ∀ v, due' v ≤ 1) (before : Nat) :
    workload headers due' allowance' order before < workload headers due allowance order before := by
  obtain ⟨front, back, rfl⟩ := List.append_of_mem hu
  have fresh : u ∉ front := fun mem =>
    (List.nodup_cons.1 (List.nodup_middle.1 nodup)).1 (List.mem_append_left back mem)
  have position : (front ++ u :: back).idxOf u = front.length := by
    rw [List.idxOf_append_of_notMem fresh, List.idxOf_cons_self, Nat.add_zero]
  have ahead : workload headers due' allowance' front before ≤
      workload headers due allowance front before := by
    refine workload_mono (fun v _ hv => le_trans (Nat.le_add_right _ _) (header v hv))
      (fun v hv hn => ?_) le_rfl
    have inside : (front ++ u :: back).idxOf v < front.length := by
      rw [List.idxOf_append_of_mem hv]
      exact List.idxOf_lt_length_iff.2 hv
    exact le_trans (Nat.le_add_right _ _) (other v hn (by omega))
  rw [workload_append, workload_append, workload, workload]
  refine workload_lt (fun v _ hv => le_trans (Nat.le_add_right _ _) (header v hv))
    (fun v _ _ => le_trans (once v) (Nat.le_add_left _ _)) ?_
  split_ifs with hv
  · have := header u hv
    rw [if_pos rfl] at this
    omega
  · have := other u hv (lt_irrefl _)
    rw [if_pos rfl] at this
    omega

/-- With a bound for the headers, the work at most doubles from point to point. -/
theorem workload_add_le {bound : Nat} (positive : 0 < bound) (order : List Nat) (before : Nat)
    (header : ∀ v ∈ order, v ∈ headers → due v + allowance v ≤ bound)
    (other : ∀ v ∈ order, v ∉ headers → due v ≤ 1) :
    workload headers due allowance order before + bound ≤ 2 ^ order.length * (before + bound) := by
  induction order generalizing before with
  | nil => simp [workload]
  | cons v rest ih =>
    have doubled : before + due v + (if v ∈ headers then allowance v else before) + bound ≤
        2 * (before + bound) := by
      split_ifs with mem
      · have := header v List.mem_cons_self mem
        omega
      · have := other v List.mem_cons_self mem
        omega
    calc workload headers due allowance (v :: rest) before + bound
      _ ≤ 2 ^ rest.length *
          (before + due v + (if v ∈ headers then allowance v else before) + bound) :=
        ih _ (fun w hw => header w (List.mem_cons_of_mem _ hw))
          fun w hw => other w (List.mem_cons_of_mem _ hw)
      _ ≤ 2 ^ rest.length * (2 * (before + bound)) := Nat.mul_le_mul_left _ doubled
      _ = 2 ^ (v :: rest).length * (before + bound) := by
        rw [List.length_cons, pow_succ, mul_assoc]

end Workload

namespace Problem

variable {p : Problem} {options : Options} {initial : State} {slots : List Slot}

/-! ## What a header is allowed -/

/-- One for a point that is due. -/
def dueCount (p : Problem) (run : Run) (v : Nat) : Nat := if p.turnOf v ∈ run.due then 1 else 0

/-- How often the state at a header can change: once to get one, by the merges that are joined, and by
what widening can take away. -/
def allowance (options : Options) (slots : List Slot) (run : Run) (v : Nat) : Nat :=
  match run.states[v]? with
  | none => options.wideningDelay + 3 * slots.toFinset.card + 1
  | some s => (options.wideningDelay - run.merges.getD v 0) + s.slack slots

theorem dueCount_le_one (p : Problem) (run : Run) (v : Nat) : p.dueCount run v ≤ 1 := by
  unfold dueCount
  split_ifs <;> omega

theorem turnOf_inj {v w : Nat} : p.turnOf v = p.turnOf w ↔ v = w :=
  ⟨congrArg Turn.point, congrArg p.turnOf⟩

/-- Taking a turn off the list takes one off its point. -/
theorem dueCount_erase {run start : Run} {turn : Turn} (fits : Fits p run) (mem : turn ∈ run.due)
    (due : start.due = run.due.erase turn) (v : Nat) :
    p.dueCount start v + (if v = turn.point then 1 else 0) = p.dueCount run v := by
  have turned : p.turnOf turn.point = turn := (fits.due mem).1.symm
  unfold dueCount
  by_cases here : v = turn.point
  · subst here
    rw [turned, due, if_pos mem, if_pos rfl, if_neg fun mem => (mem_erase_iff.1 mem).1 rfl]
  · have other : p.turnOf v ≠ turn := fun same => here (turnOf_inj.1 (same.trans turned.symm))
    simp only [due, mem_erase_iff, ne_eq, other, not_false_eq_true, true_and, here, if_false,
      Nat.add_zero]

/-- Only the tail of an edge becomes due when it is followed. -/
theorem Followed.dueCount_eq {run next : Run} {edge : Edge} {state : State}
    (followed : Followed p options run edge state next) {v : Nat} (other : v ≠ edge.tail) :
    p.dueCount next v = p.dueCount run v := by
  have scheduled (due : next.due = run.due.insert (p.turnOf edge.tail)) :
      p.dueCount next v = p.dueCount run v := by
    unfold dueCount
    simp only [due, mem_insert_iff, turnOf_inj, other, false_or]
  cases followed with
  | first none states due merges => exact scheduled due
  | kept some same states due merges => rw [dueCount, due, dueCount]
  | changed some changes states due merges => exact scheduled due

theorem FollowedAll.dueCount_eq {run next : Run} {leaving : List (Edge × Option State)}
    (followed : FollowedAll p options leaving run next) {v : Nat}
    (other : ∀ entry ∈ leaving, v ≠ entry.1.tail) : p.dueCount next v = p.dueCount run v := by
  induction followed with
  | nil => rfl
  | skip _ ih => exact ih fun entry he => other entry (List.mem_cons_of_mem _ he)
  | follow first _ ih =>
    rw [ih fun entry he => other entry (List.mem_cons_of_mem _ he),
      first.dueCount_eq (other _ List.mem_cons_self)]

/-- Only the tail of an edge has its state merged when it is followed. -/
theorem Followed.allowance_eq {run next : Run} {edge : Edge} {state : State}
    (followed : Followed p options run edge state next) {v : Nat} (other : v ≠ edge.tail) :
    allowance options slots next v = allowance options slots run v := by
  have counted (merges : next.merges = run.merges.insert edge.tail (run.merges.getD edge.tail 0 + 1)) :
      next.merges.getD v 0 = run.merges.getD v 0 := by
    rw [merges, Std.ExtTreeMap.getD_eq_getD_getElem?, getElem?_insert_eq, if_neg other,
      ← Std.ExtTreeMap.getD_eq_getD_getElem?]
  unfold allowance
  cases followed with
  | first none states due merges => rw [states, getElem?_insert_eq, if_neg other, merges]
  | kept some same states due merges => rw [states, counted merges]
  | changed some changes states due merges =>
    rw [states, getElem?_insert_eq, if_neg other, counted merges]

/-- A merge that changes the state at a header uses up some of what it is allowed. -/
theorem allowance_merged {run : Run} {v : Nat} {old new : State} (header : v ∈ p.headers)
    (ho : old.Obeys (.regular (· ∈ slots))) (hn : new.Obeys (.regular (· ∈ slots)))
    (changed : p.merged options run v old new ≠ old) :
    (options.wideningDelay - (run.merges.getD v 0 + 1)) +
        (p.merged options run v old new).slack slots <
      (options.wideningDelay - run.merges.getD v 0) + old.slack slots := by
  have joined := State.slack_join_le ho hn
  unfold merged mergeState at changed ⊢
  dsimp only at changed ⊢
  have contained : p.headers.contains v = true := header
  simp only [widens, contained, Bool.true_and, decide_eq_true_eq] at changed ⊢
  split_ifs at changed ⊢ with widened
  · have less := State.slack_widen_lt ho (ho.join (Discipline.lawful_regular _) hn) changed
    omega
  · omega

theorem Followed.header_le {run next : Run} {edge : Edge} {state : State}
    (followed : Followed p options run edge state next)
    (obeys : ∀ {v : Nat} {s : State}, run.states[v]? = some s → s.Obeys (.regular (· ∈ slots)))
    (arrived : state.Obeys (.regular (· ∈ slots))) {v : Nat} (header : v ∈ p.headers) :
    p.dueCount next v + allowance options slots next v ≤
      p.dueCount run v + allowance options slots run v := by
  by_cases here : v = edge.tail
  · subst here
    have once := p.dueCount_le_one next edge.tail
    cases followed with
    | first none states due merges =>
      have less : allowance options slots next edge.tail < allowance options slots run edge.tail := by
        have := state.slack_le slots
        rw [allowance, states, getElem?_insert_eq, if_pos rfl, allowance, none]
        dsimp only
        omega
      omega
    | kept some same states due merges =>
      have as_due : p.dueCount next edge.tail = p.dueCount run edge.tail := by
        rw [dueCount, due, dueCount]
      have less : allowance options slots next edge.tail ≤ allowance options slots run edge.tail := by
        rw [allowance, states, allowance, some, merges]
        simp only [Std.ExtTreeMap.getD_insert_self]
        omega
      omega
    | changed some changes states due merges =>
      have less : allowance options slots next edge.tail < allowance options slots run edge.tail := by
        rw [allowance, states, getElem?_insert_eq, if_pos rfl, allowance, some, merges]
        simp only [Std.ExtTreeMap.getD_insert_self]
        exact allowance_merged header (obeys some) arrived changes
      omega
  · rw [followed.dueCount_eq here, followed.allowance_eq here]

section Evaluations

variable (obeys : ∀ {s : State}, p.Derives options initial s → s.Obeys (.regular (· ∈ slots)))
include obeys

theorem FollowedAll.header_le {run next : Run} {leaving : List (Edge × Option State)}
    (followed : FollowedAll p options leaving run next)
    (arriving : ∀ edge state, (edge, some state) ∈ leaving → p.Derives options initial state)
    (derived : ∀ {v : Nat} {s : State}, run.states[v]? = some s → p.Derives options initial s)
    {v : Nat} (header : v ∈ p.headers) :
    p.dueCount next v + allowance options slots next v ≤
      p.dueCount run v + allowance options slots run v := by
  induction followed with
  | nil => exact le_rfl
  | skip _ ih =>
    exact ih (fun edge state mem => arriving edge state (List.mem_cons_of_mem _ mem)) derived
  | @follow edge state _ _ _ _ first _ ih =>
    have arrived := arriving edge state List.mem_cons_self
    exact (ih (fun edge state mem => arriving edge state (List.mem_cons_of_mem _ mem))
      (first.derived arrived derived)).trans
        (first.header_le (fun found => obeys (derived found)) (obeys arrived) header)

/-- A header pays for becoming due, and the evaluated point is no longer due. -/
theorem Evaluated.header_le {run next : Run} {turn : Turn} (fits : Fits p run)
    (sound : Sound p options initial State.Below [] run) (mem : turn ∈ run.due)
    (evaluated : Evaluated p options run turn next) {v : Nat} (hv : v ∈ p.headers) :
    p.dueCount next v + allowance options slots next v + (if v = turn.point then 1 else 0) ≤
      p.dueCount run v + allowance options slots run v := by
  obtain @⟨point, pre, edges, start, located, found, nodup, leaving, states, due, merges, followed⟩ :=
    evaluated
  have unmoved : allowance options slots start v = allowance options slots run v := by
    rw [allowance, states, merges, allowance]
  have paid : p.dueCount next v + allowance options slots next v ≤
      p.dueCount start v + allowance options slots start v := by
    refine followed.header_le obeys (fun edge state mem => ?_)
      (fun found => sound.derived (states ▸ found)) hv
    obtain ⟨edge, -, here⟩ := List.mem_map.1 mem
    obtain ⟨rfl, flows⟩ := Prod.mk.inj here
    exact .flow located (sound.derived found) flows
  have := dueCount_erase fits mem due v
  omega

omit obeys in
/-- Any other point becomes due only behind the evaluated one. -/
theorem Evaluated.dueCount_le (ready : p.Ready) {run next : Run} {turn : Turn} (fits : Fits p run)
    (mem : turn ∈ run.due) (evaluated : Evaluated p options run turn next) {v : Nat}
    (hv : v ∉ p.headers) (behind : ¬p.order.idxOf turn.point < p.order.idxOf v) :
    p.dueCount next v + (if v = turn.point then 1 else 0) ≤ p.dueCount run v := by
  obtain @⟨point, pre, edges, start, located, found, nodup, leaving, states, due, merges, followed⟩ :=
    evaluated
  have untouched : p.dueCount next v = p.dueCount start v := by
    refine followed.dueCount_eq fun entry he here => behind ?_
    obtain ⟨edge, left, rfl⟩ := List.mem_map.1 he
    obtain ⟨tail, joined⟩ := (leaving edge).1 left
    obtain rfl : edge.tail = tail := (ready.consistent.ends joined).2
    subst here
    exact ready.forward (fits.states found) (mem_iff_exists_getElem?.2 ⟨edge, joined⟩) hv
  rw [untouched]
  exact (dueCount_erase fits mem due v).le

/-- The evaluations that are still to come in a run, at most. -/
def work (p : Problem) (options : Options) (slots : List Slot) (run : Run) : Nat :=
  workload p.headers (p.dueCount run) (allowance options slots run) p.order 0

/-- Every evaluation lowers what is still to come. -/
theorem work_lt_of_evaluated (ready : p.Ready) {run next : Run} {turn : Turn} (fits : Fits p run)
    (sound : Sound p options initial State.Below [] run) (mem : turn ∈ run.due)
    (evaluated : Evaluated p options run turn next) :
    p.work options slots next < p.work options slots run := by
  obtain ⟨pre, found⟩ := mem_iff_exists_getElem?.1 (fits.due mem).2
  exact workload_lt_of_spent ready.nodup (fits.states found)
    (fun v hv => evaluated.header_le obeys fits sound mem hv)
    (fun v hv behind => evaluated.dueCount_le ready fits mem hv behind)
    (p.dueCount_le_one next) 0

end Evaluations

/-! ## The whole ascent -/

/-- At the start every header may still change as often as it is allowed to. -/
theorem work_start_le {run : Run} (states : run.states = {(p.entry, initial)})
    (due : run.due = {p.turnOf p.entry}) :
    p.work options slots run ≤
      2 ^ p.order.length * (options.wideningDelay + 3 * slots.toFinset.card + 1) := by
  have bounded (v : Nat) : p.dueCount run v + allowance options slots run v ≤
      options.wideningDelay + 3 * slots.toFinset.card + 1 := by
    have once := p.dueCount_le_one run v
    by_cases here : v = p.entry
    · have found : run.states[v]? = some initial := by
        rw [states]
        exact getElem?_singleton_eq_some.2 ⟨here, rfl⟩
      have := initial.slack_le slots
      rw [allowance, found]
      dsimp only
      omega
    · have none : run.states[v]? = none := by
        rw [states]
        exact Option.eq_none_iff_forall_ne_some.2 fun s found =>
          here (getElem?_singleton_eq_some.1 found).1
      have idle : p.dueCount run v = 0 := by
        rw [dueCount, due, if_neg fun mem => here (turnOf_inj.1 (mem_singleton_iff.1 mem))]
      rw [idle, allowance, none]
      dsimp only
      omega
  refine le_trans (Nat.le_add_right _ _)
    ((workload_add_le (Nat.succ_pos _) p.order 0 (fun v _ _ => bounded v)
      fun v _ _ => p.dueCount_le_one run v).trans_eq ?_)
  rw [Nat.zero_add]

/-- With a budget that is exponential in the number of points, the ascent comes to its end. -/
theorem exists_ascend_eq_none (ready : p.Ready)
    (occurs : ∀ {v : Nat} {point : Point}, p.procedure.graph.graph.vertices[v]? = some point →
      ∀ slot ∈ point.operation.slots, slot ∈ slots)
    (start : initial.Obeys (.regular (· ∈ slots)))
    (punctual : ∀ iterations, options.isExpired iterations = false)
    (enough : 2 ^ p.order.length * (options.wideningDelay + 3 * slots.toFinset.card + 1) ≤
      options.maxIterations) :
    ∃ run last, Run.start p initial = .ok run ∧
      p.ascend options options.maxIterations run = .ok (none, last) := by
  have obeys {s : State} (h : p.Derives options initial s) : s.Obeys (.regular (· ∈ slots)) :=
    h.obeys ready (Discipline.lawful_regular _) occurs start
  obtain ⟨run, started, states, due, -, -, fits, sound⟩ := exists_start ready options initial
  obtain ⟨last, ascended⟩ := exists_ascend_of_potential ready
    (fun _ sound _ evaluated => sound.evaluated ascending_below evaluated)
    (fun fits sound mem evaluated => work_lt_of_evaluated obeys ready fits sound mem evaluated)
    punctual ((work_start_le states due).trans enough) fits (sound ascending_below)
  exact ⟨run, last, started, ascended⟩

end Problem

end RangeFlow
