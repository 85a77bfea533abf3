import RangeFlow.Proofs.Facts.Inclusion
import RangeFlow.Proofs.Interval.Monotone

/-!
# Transfer functions are monotone

A larger state gives a larger state behind every operation (`Operation.apply_le`) and along every edge
(`FlowGraph.exists_along_of_le`). A smaller state may know more equalities, and then passes a condition
without being narrowed; what it knows is still inside what the larger state is narrowed to, which is
all that `State.Le.exists_narrow` asks for.
-/

namespace RangeFlow

namespace State

variable {r s t : State} {slot dst : Slot} {i : Interval}

/-! ## Operands -/

theorem Tidy.le_of_narrow? (h : s.Tidy) {operand : Operand} {s' : State}
    (result : s.narrow? operand i = some s') : s'.Le s := by
  rcases narrow?_cases result with ⟨slot, rfl, narrowed⟩ | ⟨-, rfl⟩
  · exact h.le_of_narrowed narrowed
  · exact .refl _

theorem Tidy.value_isSubset_of_narrow? (h : s.Tidy) {operand : Operand} {s' : State}
    (result : s.narrow? operand i = some s') (width : operand.bits = i.bits) {slot : Slot}
    (here : operand = .slot slot) : (s'.value slot).isSubset i := by
  subst here
  rcases narrow?_cases result with ⟨_, ⟨⟩, narrowed⟩ | ⟨⟨_, ⟨⟩⟩, -⟩
  exact h.value_isSubset_of_narrowed narrowed width

theorem Le.exists_narrow? (h : r.Le t) (hr : r.Tidy) (ht : t.Tidy) {operand : Operand}
    (below : ∀ slot, operand = .slot slot → (r.value slot).isSubset i) :
    ∃ t', t.narrow? operand i = some t' ∧ r.Le t' := by
  cases operand with
  | slot slot =>
    obtain ⟨t', result, h'⟩ := h.exists_narrow hr ht (below slot rfl)
    exact ⟨t', by simp only [narrow?, result], h'⟩
  | constant constant => exact ⟨t, rfl, h⟩

theorem Tidy.le_of_equate? (h : s.Tidy) {lhs rhs : Operand} {s' : State}
    (result : s.equate? lhs rhs = some s') : s'.Le s := by
  rcases equate?_cases result with ⟨x, y, rfl, rfl, equated⟩ | ⟨-, rfl⟩
  · exact h.le_of_equate equated
  · exact .refl _

theorem Le.exists_equate? (h : r.Le t) (hr : r.Tidy) (ht : t.Tidy) {lhs rhs : Operand}
    (same : ∀ x y, lhs = .slot x → rhs = .slot y → r.aliases.Same x y) :
    ∃ t', t.equate? lhs rhs = some t' ∧ r.Le t' := by
  unfold equate?
  split
  · rename_i x y
    obtain ⟨t', result, h'⟩ := h.exists_equate hr ht (same x y rfl rfl)
    exact ⟨t', by rw [result], h'⟩
  · exact ⟨t, rfl, h⟩

/-! ## Conditions -/

/-- A larger state passes a condition, if what is known about both sides in the smaller state is
inside what the sides are narrowed to. -/
theorem Le.exists_assume (h : r.Le t) (hr : r.Tidy) (ht : t.Tidy) {condition : Condition}
    {lhs rhs : Interval} (apart : t.areAliased condition.lhs condition.rhs = false)
    (hlhs : lhs = (t.eval condition.lhs).refine condition.comparison (t.eval condition.rhs))
    (hrhs : rhs = (t.eval condition.rhs).refine condition.comparison.swap lhs)
    (full : lhs.isBottom = false ∧ rhs.isBottom = false)
    (left : ∀ slot, condition.lhs = .slot slot → (r.value slot).isSubset lhs)
    (right : ∀ slot, condition.rhs = .slot slot → (r.value slot).isSubset rhs)
    (same : condition.comparison = .eq → ∀ x y, condition.lhs = .slot x → condition.rhs = .slot y →
      r.aliases.Same x y) : ∃ t', t.assume condition = some t' ∧ r.Le t' := by
  obtain ⟨t₁, first, h₁⟩ := h.exists_narrow? hr ht left
  have ht₁ := ht.narrow? first
  obtain ⟨t₂, second, h₂⟩ := h₁.exists_narrow? hr ht₁ right
  have ht₂ := ht₁.narrow? second
  have opened : t.assume condition =
      if condition.comparison = .eq then t₂.equate? condition.lhs condition.rhs else some t₂ := by
    simp only [assume, apart, ← hlhs, ← hrhs, full.1, full.2, first, second, Bool.or_self,
      Bool.false_eq_true, ↓reduceIte, Option.bind_eq_bind, Option.bind_some]
  rw [opened]
  split_ifs with equality
  · exact h₂.exists_equate? hr ht₂ (same equality)
  · exact ⟨t₂, rfl, h₂⟩

/-- What passing a condition leaves, if the sides are not known to be equal: a smaller state, with
both sides inside what they are narrowed to. -/
theorem Tidy.of_assume (h : s.Tidy) {condition : Condition}
    (width : condition.lhs.bits = condition.rhs.bits) {s₁ s₂ s' : State} {lhs : Interval}
    (hlhs : lhs = (s.eval condition.lhs).refine condition.comparison (s.eval condition.rhs))
    (first : s.narrow? condition.lhs lhs = some s₁)
    (second : s₁.narrow? condition.rhs
      ((s.eval condition.rhs).refine condition.comparison.swap lhs) = some s₂)
    (result : (if condition.comparison = .eq then s₂.equate? condition.lhs condition.rhs
      else some s₂) = some s') :
    s'.Le s ∧ (∀ slot, condition.lhs = .slot slot → (s'.value slot).isSubset lhs) ∧
      (∀ slot, condition.rhs = .slot slot → (s'.value slot).isSubset
        ((s.eval condition.rhs).refine condition.comparison.swap lhs)) ∧
      (condition.comparison = .eq → ∀ x y, condition.lhs = .slot x → condition.rhs = .slot y →
        s'.aliases.Same x y) := by
  have h₁ := h.narrow? first
  have h₂ := h₁.narrow? second
  have last : s'.Le s₂ := by
    split_ifs at result
    · exact h₂.le_of_equate? result
    · obtain rfl := Option.some.inj result
      exact .refl _
  have middle := h₁.le_of_narrow? second
  refine ⟨last.trans (middle.trans (h.le_of_narrow? first)), fun slot here => ?_,
    fun slot here => ?_, fun equality x y hx hy => ?_⟩
  · refine Interval.isSubset_trans ((last.trans middle).value slot) ?_
    exact h.value_isSubset_of_narrow? first (by rw [hlhs, Interval.bits_refine, h.bits_eval]) here
  · refine Interval.isSubset_trans (last.value slot) ?_
    exact h₁.value_isSubset_of_narrow? second (by rw [Interval.bits_refine, h.bits_eval]) here
  · rw [if_pos equality, hx, hy] at result
    rcases equate?_cases result with ⟨_, _, ⟨⟩, ⟨⟩, equated⟩ | ⟨other, -⟩
    · rw [hx, hy] at width
      exact h₂.same_of_equate width equated
    · exact absurd rfl (other x y rfl)

/-- A condition that a smaller state passes is passed by the larger one. -/
theorem Le.exists_assume_of_assume (h : s.Le t) (hs : s.Tidy) (ht : t.Tidy)
    {condition : Condition} (width : condition.lhs.bits = condition.rhs.bits) {s' : State}
    (result : s.assume condition = some s') : ∃ t', t.assume condition = some t' ∧ s'.Le t' := by
  have tidy := hs.assume result
  have bits : (s.eval condition.lhs).bits = (s.eval condition.rhs).bits := by
    rw [hs.bits_eval, hs.bits_eval, width]
  cases aliased : t.areAliased condition.lhs condition.rhs with
  | true =>
    obtain ⟨x, y, hx, hy, same⟩ := (areAliased_iff ht.disjoint).1 aliased
    have known := (areAliased_iff hs.disjoint).2 ⟨x, y, hx, hy, h.same same⟩
    rcases assume_cases result with ⟨-, reflexive, rfl⟩ | ⟨apart, -⟩
    · exact ⟨t, by simp [assume, aliased, reflexive], h⟩
    · rw [known] at apart
      cases apart
  | false =>
    rcases assume_cases result with ⟨known, reflexive, rfl⟩ |
      ⟨-, lhs, rfl, full, s₁, first, s₂, second, result⟩
    · -- The smaller state has one interval for both sides, and every value compares with itself.
      obtain ⟨x, y, hx, hy, same⟩ := (areAliased_iff hs.disjoint).1 known
      have equal := hs.uniform.value same
      have left : (s'.value x).isSubset ((t.eval condition.lhs).refine condition.comparison
          (t.eval condition.rhs)) := by
        refine Interval.isSubset_of_contains (hs.value x).1 ?_ fun z hz => ?_
        · rw [Interval.bits_refine, ht.bits_eval, hx, (hs.value x).2.2]
          rfl
        · have inLeft : (t.eval condition.lhs).contains z := by
            rw [hx]
            exact Interval.contains_of_isSubset (h.value x) hz
          have inRight : (t.eval condition.rhs).contains z := by
            rw [hy]
            exact Interval.contains_of_isSubset (h.value y) (equal ▸ hz)
          exact Interval.contains_refine inLeft inRight ((ht.normal_eval _).holds inLeft)
            (by rwa [Comparison.holds_self])
      have right : (s'.value y).isSubset ((t.eval condition.rhs).refine condition.comparison.swap
          ((t.eval condition.lhs).refine condition.comparison (t.eval condition.rhs))) := by
        refine Interval.isSubset_of_contains (hs.value y).1 ?_ fun z hz => ?_
        · rw [Interval.bits_refine, ht.bits_eval, hy, (hs.value y).2.2]
          rfl
        · have inRight : (t.eval condition.rhs).contains z := by
            rw [hy]
            exact Interval.contains_of_isSubset (h.value y) hz
          exact Interval.contains_refine inRight
            (Interval.contains_of_isSubset left (equal ▸ hz)) ((ht.normal_eval _).holds inRight)
            (by rwa [Comparison.holds_swap, Comparison.holds_self])
      refine h.exists_assume hs ht aliased rfl rfl
        ⟨Interval.isBottom_eq_false_of_isSubset left (hs.value x).2.1,
          Interval.isBottom_eq_false_of_isSubset right (hs.value y).2.1⟩ ?_ ?_ ?_
      · rintro z hz
        cases hx.symm.trans hz
        exact left
      · rintro z hz
        cases hy.symm.trans hz
        exact right
      · rintro - u v hu hv
        cases hx.symm.trans hu
        cases hy.symm.trans hv
        exact same
    · obtain ⟨below, left, right, same⟩ := hs.of_assume width rfl first second result
      have grown := Interval.refine_mono (hs.normal_eval _) (hs.normal_eval _) bits
        (h.eval condition.lhs) (h.eval condition.rhs) condition.comparison
      have grown' := Interval.refine_mono (hs.normal_eval _)
        (Interval.normal_refine (hs.normal_eval _) condition.comparison _)
        (by rw [Interval.bits_refine, bits]) (h.eval condition.rhs) grown condition.comparison.swap
      exact (below.trans h).exists_assume tidy ht aliased rfl rfl
        ⟨Interval.isBottom_eq_false_of_isSubset grown full.1,
          Interval.isBottom_eq_false_of_isSubset grown' full.2⟩
        (fun slot here => Interval.isSubset_trans (left slot here) grown)
        (fun slot here => Interval.isSubset_trans (right slot here) grown') same

/-! ## Switches -/

/-- The ends of a sorted list belong to it and enclose it. -/
theorem ends_of_sorted {lo : Int} {rest : List Int} (sorted : (lo :: rest).Pairwise (· < ·)) :
    rest.getLast?.getD lo ∈ lo :: rest ∧
      ∀ x ∈ lo :: rest, lo ≤ x ∧ x ≤ rest.getLast?.getD lo := by
  induction rest generalizing lo with
  | nil => simp
  | cons next rest ih =>
    obtain ⟨first, sorted⟩ := List.pairwise_cons.1 sorted
    obtain ⟨mem, enclosed⟩ := ih sorted
    have last : (next :: rest).getLast?.getD lo = rest.getLast?.getD next := by
      rw [List.getLast?_cons, Option.getD_some]
    have least := first next List.mem_cons_self
    rw [last]
    refine ⟨List.mem_cons_of_mem _ mem, fun x hx => ?_⟩
    rcases List.mem_cons.1 hx with rfl | hx
    · have := (enclosed next List.mem_cons_self).2
      omega
    · have := enclosed x hx
      omega

theorem sorted_filter (values : CaseSet) (p : Int → Bool) :
    (values.toList.filter p).Pairwise (· < ·) :=
  (sorted_caseSet values).filter p

/-- A case that a smaller state passes is passed by the larger one. -/
theorem Le.exists_assumeCase (h : s.Le t) (hs : s.Tidy) (ht : t.Tidy) {scrutinee : Operand}
    {values : CaseSet} {s' : State} (result : s.assumeCase scrutinee values = some s') :
    ∃ t', t.assumeCase scrutinee values = some t' ∧ s'.Le t' := by
  have tidy := hs.assumeCase result
  have value := h.eval scrutinee
  have bits := Interval.bits_eq_of_isSubset value
  unfold assumeCase at result
  dsimp only at result
  split at result
  · cases result
  · rename_i lo rest listed
    have sorted := sorted_filter values (s.eval scrutinee).contains
    rw [listed] at sorted
    obtain ⟨last, enclosed⟩ := ends_of_sorted sorted
    -- The values that the smaller state may have are among those of the larger one.
    have among {x : Int} (hx : x ∈ lo :: rest) :
        x ∈ values.toList.filter (t.eval scrutinee).contains := by
      rw [← listed] at hx
      obtain ⟨mem, held⟩ := List.mem_filter.1 hx
      exact List.mem_filter.2 ⟨mem, Interval.contains_of_isSubset value held⟩
    unfold assumeCase
    dsimp only
    have sorted' := sorted_filter values (t.eval scrutinee).contains
    split
    · rename_i empty
      have := among List.mem_cons_self
      rw [empty] at this
      cases this
    · rename_i lo' rest' listed'
      rw [listed'] at sorted' among
      obtain ⟨-, enclosed'⟩ := ends_of_sorted sorted'
      refine ((hs.le_of_narrow? result).trans h).exists_narrow? tidy ht fun slot here => ?_
      have inside := hs.value_isSubset_of_narrow? result
        (by rw [Interval.bits_meet, hs.bits_eval]) here
      refine Interval.isSubset_trans inside (Interval.meet_mono (hs.normal_eval _) value ?_)
      rw [bits]
      exact Interval.between_mono _ (enclosed' lo (among List.mem_cons_self)).1
        (enclosed' _ (among last)).2

/-- A default that a smaller state passes is passed by the larger one. -/
theorem Le.exists_assumeDefault (h : s.Le t) (hs : s.Tidy) (ht : t.Tidy) {scrutinee : Operand}
    (valid : Width.isValid scrutinee.bits) {values : CaseSet} {s' : State}
    (result : s.assumeDefault scrutinee values = some s') :
    ∃ t', t.assumeDefault scrutinee values = some t' ∧ s'.Le t' := by
  have tidy := hs.assumeDefault result
  obtain ⟨full, result⟩ := assumeDefault_cases result
  have trimmed := trim_mono (hs.normal_eval scrutinee) (ht.normal_eval scrutinee).inside
    (by rwa [ht.bits_eval]) (h.eval scrutinee) values
  have opened : t.assumeDefault scrutinee values =
      t.narrow? scrutinee (trim values (t.eval scrutinee)) := by
    simp only [assumeDefault, Interval.isBottom_eq_false_of_isSubset trimmed full,
      Bool.false_eq_true, ↓reduceIte]
  rw [opened]
  refine ((hs.le_of_narrow? result).trans h).exists_narrow? tidy ht fun slot here => ?_
  have inside := hs.value_isSubset_of_narrow? result (by rw [bits_trim, hs.bits_eval]) here
  exact Interval.isSubset_trans inside trimmed

/-! ## Results of calls -/

theorem Le.forget (h : s.Le t) (hs : s.Tidy) (ht : t.Tidy) (slot : Slot) :
    (s.forget slot).Le (t.forget slot) :=
  h.set hs.disjoint ht.disjoint slot (Interval.isSubset_refl _)

theorem Le.setResult (h : s.Le t) (hs : s.Tidy) (ht : t.Tidy) {summary : Option CallSummary}
    {arguments : List Operand} (valid : Width.isValid dst.bits)
    (arguments_valid : ∀ a ∈ arguments, Width.isValid a.bits) :
    (s.setResult summary dst arguments).Le (t.setResult summary dst arguments) := by
  unfold State.setResult
  split
  · split
    · rename_i argument passed
      have proper := hs.proper_eval (arguments_valid _ (List.mem_of_getElem? passed))
      split_ifs with width
      · exact h.copy hs ht width.symm
      · exact h.set hs.disjoint ht.disjoint dst
          (Interval.cast_mono valid proper (h.value argument))
    · rename_i argument _ passed
      have proper := hs.proper_eval (arguments_valid _ (List.mem_of_getElem? passed))
      exact h.set hs.disjoint ht.disjoint dst (Interval.cast_mono valid proper (h.eval argument))
    · exact h.forget hs ht dst
  · exact h.set hs.disjoint ht.disjoint dst (Interval.isSubset_refl _)
  · exact h.forget hs ht dst

theorem Le.forgetAll (h : s.Le t) (hs : s.Tidy) (ht : t.Tidy) (writes : List Slot) :
    (writes.foldl State.forget s).Le (writes.foldl State.forget t) := by
  induction writes generalizing s t with
  | nil => exact h
  | cons slot writes ih => exact ih (h.forget hs ht slot) (hs.forget slot) (ht.forget slot)

end State

/-! ## Operations and edges -/

/-- The divisor of a division or remainder. -/
def Operation.divisor? : Operation → Option Operand
  | binary _ .div _ rhs | binary _ .rem _ rhs => some rhs
  | _ => none

/-- A larger state gives a larger state behind an operation, unless the smaller state has nothing but
zero for a divisor. -/
theorem Operation.apply_le (summaries : Summaries) {operation : Operation}
    (sorted : operation.WellSorted) {s t : State} (h : s.Le t) (hs : s.Tidy) (ht : t.Tidy)
    (nonzero : ∀ divisor, operation.divisor? = some divisor →
      (s.eval divisor).bounds? ≠ some (0, 0)) :
    (operation.apply summaries s).Le (operation.apply summaries t) := by
  have set (dst : Slot) {i j : Interval} (hij : i.isSubset j) : (s.set dst i).Le (t.set dst j) :=
    h.set hs.disjoint ht.disjoint dst hij
  cases operation with
  | const dst constant => exact set dst (Interval.isSubset_refl _)
  | copy dst src => exact h.copy hs ht sorted.copied.1
  | unary dst operator operand =>
    have proper : (s.eval operand).Proper :=
      hs.proper_eval (sorted.read (List.mem_singleton_self _))
    exact set dst (Interval.unary_mono proper (h.eval operand) operator)
  | binary dst operator lhs rhs =>
    have left : Width.isValid lhs.bits := sorted.read (by simp [operandsRead])
    have right : Width.isValid rhs.bits := sorted.read (by simp [operandsRead])
    refine set dst (Interval.binary_mono (hs.proper_eval left) (ht.proper_eval left)
      (hs.proper_eval right) (ht.proper_eval right) (h.eval lhs) (h.eval rhs) operator ?_)
    rintro (rfl | rfl) <;> exact nonzero rhs rfl
  | cast dst src =>
    have proper : (s.eval src).Proper := hs.proper_eval (sorted.read (List.mem_singleton_self _))
    exact set dst (Interval.cast_mono (sorted.written (List.mem_singleton_self _)) proper (h.eval src))
  | arrayLoad dst index length => exact h.forget hs ht dst
  | call dst target arguments =>
    cases dst with
    | none => exact h
    | some dst =>
      exact h.setResult hs ht (sorted.written (List.mem_singleton_self _))
        fun a mem => sorted.read mem
  | unsupported mnemonic writes => exact h.forgetAll hs ht writes
  | branch _ | switch _ | arrayStore _ _ _ | ret _ | nop => exact h

/-- An edge that has a state for a smaller state has a larger one for a larger state. -/
theorem FlowGraph.exists_along_of_le (g : FlowGraph) {operation : Operation}
    (sorted : operation.WellSorted) {edge : Edge} {s t s' : State} (h : s.Le t) (hs : s.Tidy)
    (ht : t.Tidy) (result : g.along operation edge s = some s') :
    ∃ t', g.along operation edge t = some t' ∧ s'.Le t' := by
  unfold along at result ⊢
  split at result
  · exact h.exists_assume_of_assume hs ht (of_decide_eq_true sorted.2) result
  · rename_i condition _
    have width : condition.negate.lhs.bits = condition.negate.rhs.bits := of_decide_eq_true sorted.2
    exact h.exists_assume_of_assume hs ht width result
  · exact h.exists_assumeCase hs ht result
  · exact h.exists_assumeDefault hs ht (sorted.read (List.mem_singleton_self _)) result
  · obtain rfl := Option.some.inj result
    exact ⟨t, rfl, h⟩

end RangeFlow
