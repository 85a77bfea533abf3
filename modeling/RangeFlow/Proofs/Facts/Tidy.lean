import RangeFlow.Proofs.Facts.State
import RangeFlow.Proofs.FlowGraph.Edges
import RangeFlow.Proofs.Interval.Inclusion

/-!
# Tidy states

A state is orderly (`State.Orderly`) if it keeps no interval that says nothing or everything and if
its alias classes are disjoint and of several slots, and tidy (`State.Tidy`) if moreover the same is
kept for all slots of a class. The widths of slots do not matter. Every operation on states keeps them
tidy: writing, copying, narrowing and equating with success, and merging, hence also the transfer
functions (`Operation.tidy_apply`, `FlowGraph.tidy_along`).
-/

namespace RangeFlow

namespace State

variable {s t : State} {x y slot dst src : Slot} {i : Interval}

/-- Aliases have one width, and the same is known about them. -/
def Uniform (s : State) : Prop :=
  ∀ x y : Slot, s.aliases.Same x y → x.bits = y.bits ∧ s.values[x]? = s.values[y]?

/-- A state whose intervals are normal, neither full nor empty and as wide as their slots, and whose
alias classes are disjoint and have several members. -/
structure Orderly (s : State) : Prop where
  entry : ∀ {slot : Slot} {i : Interval}, s.values[slot]? = some i →
    i.Normal ∧ i.isTop = false ∧ i.isBottom = false ∧ i.bits = slot.bits
  disjoint : s.aliases.PairwiseDisjoint
  nontrivial : s.aliases.Nontrivial

/-- An orderly state that keeps the same for all slots of an alias class. -/
structure Tidy (s : State) : Prop extends s.Orderly where
  uniform : s.Uniform

theorem tidy_unconstrained : unconstrained.Tidy where
  entry h := by simp [unconstrained] at h
  disjoint := AliasClasses.pairwiseDisjoint_empty
  nontrivial := AliasClasses.nontrivial_empty
  uniform x y same := by
    rw [AliasClasses.same_empty.1 same]
    exact ⟨rfl, rfl⟩

/-! ## Reading -/

theorem value_eq_of_entry_eq (width : x.bits = y.bits) (entry : s.values[x]? = t.values[y]?) :
    s.value x = t.value y := by
  rw [value, value, Std.ExtTreeMap.getD_eq_getD_getElem?, Std.ExtTreeMap.getD_eq_getD_getElem?,
    entry, width]

theorem Uniform.value (h : s.Uniform) (same : s.aliases.Same x y) : s.value x = s.value y :=
  value_eq_of_entry_eq (h _ _ same).1 (h _ _ same).2

theorem informative?_congr (width : x.bits = y.bits) (i : Interval) :
    informative? x i = informative? y i := by
  rw [informative?, informative?, width]

/-- What is known about a slot is normal, holds a value and is as wide as the slot. -/
theorem Orderly.value (h : s.Orderly) (slot : Slot) :
    (s.value slot).Normal ∧ (s.value slot).isBottom = false ∧ (s.value slot).bits = slot.bits := by
  cases entry : s.values[slot]? with
  | none =>
    rw [value_of_getElem?_eq_none entry]
    exact ⟨trivial, rfl, rfl⟩
  | some i =>
    obtain ⟨normal, -, full, width⟩ := h.entry entry
    rw [value_of_getElem? entry]
    exact ⟨normal, full, width⟩

/-- What is kept for a slot is its interval, unless that says nothing. -/
theorem Orderly.getElem?_eq (h : s.Orderly) (slot : Slot) :
    s.values[slot]? = informative? slot (s.value slot) := by
  cases entry : s.values[slot]? with
  | none => simp [value_of_getElem?_eq_none entry, informative?, Interval.isTop]
  | some i =>
    obtain ⟨-, proper, -, width⟩ := h.entry entry
    rw [value_of_getElem? entry]
    exact (informative?_eq_some.2 ⟨proper, width, rfl⟩).symm

theorem Orderly.bits_eval (h : s.Orderly) (operand : Operand) :
    (s.eval operand).bits = operand.bits := by
  cases operand with
  | slot slot => exact (h.value slot).2.2
  | constant constant => exact Interval.bits_constant _ _

theorem Orderly.normal_eval (h : s.Orderly) (operand : Operand) : (s.eval operand).Normal := by
  cases operand with
  | slot slot => exact (h.value slot).1
  | constant constant => exact Interval.normal_between _ _ _

theorem Orderly.proper_eval (h : s.Orderly) {operand : Operand} (valid : Width.isValid operand.bits) :
    (s.eval operand).Proper := by
  cases operand with
  | slot slot =>
    obtain ⟨normal, full, width⟩ := h.value slot
    exact ⟨Interval.canonical_iff.2 ⟨width.symm ▸ valid, normal⟩, full⟩
  | constant constant => exact Interval.proper_constant valid _

/-! ## Writing -/

/-- A state is tidy if its entries are old ones or say something, and its classes are as asked. -/
theorem Tidy.of_entries (h : s.Tidy) {s' : State}
    (entries : ∀ {z : Slot} {j : Interval}, s'.values[z]? = some j → s.values[z]? = some j ∨
      informative? z j = some j ∧ j.Normal ∧ j.isBottom = false)
    (disjoint : s'.aliases.PairwiseDisjoint) (nontrivial : s'.aliases.Nontrivial)
    (uniform : s'.Uniform) : s'.Tidy where
  entry {z j} entry := by
    rcases entries entry with old | ⟨kept, normal, full⟩
    · exact h.entry old
    · obtain ⟨proper, width, -⟩ := informative?_eq_some.1 kept
      exact ⟨normal, proper, full, width⟩
  disjoint := disjoint
  nontrivial := nontrivial
  uniform := uniform

theorem Uniform.set (h : s.Uniform) (disjoint : s.aliases.PairwiseDisjoint) (slot : Slot)
    (i : Interval) : (s.set slot i).Uniform := by
  intro x y same
  rw [State.set, aliases_store, AliasClasses.same_invalidate disjoint] at same
  rcases same with rfl | ⟨same, hx, hy⟩
  · exact ⟨rfl, rfl⟩
  · rw [State.set, getElem?_store, getElem?_store, if_neg hx, if_neg hy]
    exact h _ _ same

theorem Tidy.set (h : s.Tidy) (slot : Slot) (normal : i.Normal) (full : i.isBottom = false) :
    (s.set slot i).Tidy := by
  refine h.of_entries (fun {z j} entry => ?_) ?_ ?_ (h.uniform.set h.disjoint slot i)
  · rw [State.set, getElem?_store] at entry
    split_ifs at entry with here
    · subst here
      obtain ⟨-, -, rfl⟩ := informative?_eq_some.1 entry
      exact .inr ⟨entry, normal, full⟩
    · exact .inl entry
  · rw [State.set, aliases_store]
    exact AliasClasses.pairwiseDisjoint_invalidate h.disjoint slot
  · rw [State.set, aliases_store]
    exact AliasClasses.nontrivial_invalidate h.nontrivial slot

theorem Tidy.forget (h : s.Tidy) (slot : Slot) : (s.forget slot).Tidy := h.set slot trivial rfl

/-- A copy takes over what is kept for the source. -/
theorem Tidy.getElem?_copy (h : s.Tidy) (width : dst.bits = src.bits) (z : Slot) :
    (s.copy dst src).values[z]? = if z = dst then s.values[src]? else s.values[z]? := by
  rw [State.copy, getElem?_store, informative?_congr width, ← h.getElem?_eq]

theorem Tidy.uniform_copy (h : s.Tidy) (width : dst.bits = src.bits) :
    (s.copy dst src).Uniform := by
  intro x y same
  rw [State.copy, aliases_store] at same
  rw [h.getElem?_copy width, h.getElem?_copy width]
  by_cases self : dst = src
  · subst self
    rw [AliasClasses.copy, if_pos rfl] at same
    obtain ⟨sameWidth, entry⟩ := h.uniform _ _ same
    refine ⟨sameWidth, ?_⟩
    split_ifs <;> simp_all
  · rcases (AliasClasses.same_copy h.disjoint self).1 same with
      rfl | ⟨same, hx, hy⟩ | ⟨rfl, same, hy⟩ | ⟨rfl, same, hx⟩
    · exact ⟨rfl, rfl⟩
    · rw [if_neg hx, if_neg hy]
      exact h.uniform _ _ same
    · rw [if_pos rfl, if_neg hy]
      exact ⟨width.trans (h.uniform _ _ same).1, (h.uniform _ _ same).2⟩
    · rw [if_pos rfl, if_neg hx]
      exact ⟨(width.trans (h.uniform _ _ same).1).symm, (h.uniform _ _ same).2.symm⟩

theorem Tidy.copy (h : s.Tidy) (width : dst.bits = src.bits) : (s.copy dst src).Tidy := by
  refine h.of_entries (fun {z j} entry => ?_) ?_ ?_ (h.uniform_copy width)
  · rw [h.getElem?_copy width] at entry
    split_ifs at entry with here
    · subst here
      obtain ⟨normal, proper, full, wide⟩ := h.entry entry
      exact .inr ⟨informative?_eq_some.2 ⟨proper, wide.trans width.symm, rfl⟩, normal, full⟩
    · exact .inl entry
  · rw [State.copy, aliases_store]
    exact AliasClasses.pairwiseDisjoint_copy h.disjoint dst src
  · rw [State.copy, aliases_store]
    exact AliasClasses.nontrivial_copy h.disjoint h.nontrivial dst src

/-! ## Narrowing -/

theorem Uniform.narrowed (h : s.Uniform) (disjoint : s.aliases.PairwiseDisjoint) {s' : State}
    (narrowed : s.Narrowed slot i s') : s'.Uniform := by
  intro x y same
  rw [narrowed.aliases] at same
  have together : x ∈ s.aliases.classOf slot ↔ y ∈ s.aliases.classOf slot := by
    rw [AliasClasses.mem_classOf disjoint, AliasClasses.mem_classOf disjoint]
    exact ⟨fun hx => hx.trans disjoint same, fun hy => hy.trans disjoint same.symm⟩
  rw [narrowed.entries, narrowed.entries, h.value same, informative?_congr (h _ _ same).1]
  exact ⟨(h _ _ same).1, by simp only [together, (h _ _ same).2]⟩

theorem Tidy.narrowed (h : s.Tidy) {s' : State} (narrowed : s.Narrowed slot i s') : s'.Tidy := by
  refine h.of_entries (fun {z j} entry => ?_) ?_ ?_ (h.uniform.narrowed h.disjoint narrowed)
  · rw [narrowed.entries] at entry
    split_ifs at entry with mem
    · obtain ⟨-, -, rfl⟩ := informative?_eq_some.1 entry
      exact .inr ⟨entry, Interval.normal_meet (h.value z).1 i, narrowed.full z mem⟩
    · exact .inl entry
  · rw [narrowed.aliases]
    exact h.disjoint
  · rw [narrowed.aliases]
    exact h.nontrivial

/-- What is common to two intervals is common to each of them and what is common. -/
theorem meet_meet_eq {a b : Interval} (ha : a.Normal) (hb : b.Normal) (same : a.bits = b.bits) :
    a.meet (a.meet b) = b.meet (a.meet b) := by
  refine (Interval.normal_meet ha _).ext (Interval.normal_meet hb _) (by simp [same])
    fun x => ?_
  have other : b.bits = (a.meet b).bits := by rw [Interval.bits_meet, same]
  rw [Interval.contains_meet_iff (by simp), Interval.contains_meet_iff other,
    Interval.contains_meet_iff same, same]
  tauto

/-- Two slots of one width that were narrowed to what they have in common keep the same. -/
theorem Tidy.getElem?_eq_of_narrowed (h : s.Tidy) {lhs rhs : Slot} {s₁ s₂ : State}
    (first : s.Narrowed lhs ((s.value lhs).meet (s.value rhs)) s₁)
    (second : s₁.Narrowed rhs ((s.value lhs).meet (s.value rhs)) s₂) (width : lhs.bits = rhs.bits) :
    s₂.values[lhs]? = s₂.values[rhs]? := by
  have h₁ := h.narrowed first
  by_cases same : s.aliases.Same lhs rhs
  · refine ((h₁.narrowed second).uniform _ _ ?_).2
    rwa [second.aliases, first.aliases]
  · have apart : rhs ∉ s.aliases.classOf lhs := by rwa [AliasClasses.mem_classOf h.disjoint]
    have apart' : lhs ∉ s₁.aliases.classOf rhs := by
      rw [AliasClasses.mem_classOf h₁.disjoint, first.aliases]
      exact fun same' => same same'.symm
    have own : lhs ∈ s.aliases.classOf lhs := (AliasClasses.mem_classOf h.disjoint).2 (.refl _ _)
    have own' : rhs ∈ s₁.aliases.classOf rhs :=
      (AliasClasses.mem_classOf h₁.disjoint).2 (.refl _ _)
    have kept : s₁.value rhs = s.value rhs := value_congr (by rw [first.entries, if_neg apart])
    rw [second.entries, second.entries, if_neg apart', if_pos own', first.entries, if_pos own,
      kept, informative?_congr width, meet_meet_eq (h.value lhs).1 (h.value rhs).1
        (by rw [(h.value lhs).2.2, (h.value rhs).2.2, width])]

theorem Tidy.equate (h : s.Tidy) {lhs rhs : Slot} {s' : State}
    (result : s.equate lhs rhs = (true, s')) : s'.Tidy := by
  obtain ⟨s₁, s₂, first, second, rfl⟩ := equate_cases result
  have h₂ := (h.narrowed first).narrowed second
  split_ifs with width
  · have entry := h.getElem?_eq_of_narrowed first second width
    refine ⟨⟨h₂.entry, AliasClasses.pairwiseDisjoint_union h₂.disjoint lhs rhs,
      AliasClasses.nontrivial_union h₂.disjoint h₂.nontrivial lhs rhs⟩, fun x y same => ?_⟩
    rcases (AliasClasses.same_union h₂.disjoint).1 same with same | ⟨hx, hy⟩ | ⟨hx, hy⟩
    · exact h₂.uniform _ _ same
    · obtain ⟨xwidth, xentry⟩ := h₂.uniform _ _ hx
      obtain ⟨ywidth, yentry⟩ := h₂.uniform _ _ hy
      exact ⟨xwidth.symm.trans (width.trans ywidth), xentry.symm.trans (entry.trans yentry)⟩
    · obtain ⟨xwidth, xentry⟩ := h₂.uniform _ _ hx
      obtain ⟨ywidth, yentry⟩ := h₂.uniform _ _ hy
      exact ⟨xwidth.symm.trans (width.symm.trans ywidth),
        xentry.symm.trans (entry.symm.trans yentry)⟩
  · exact h₂

/-! ## Tests -/

theorem Tidy.narrow? (h : s.Tidy) {operand : Operand} {s' : State}
    (result : s.narrow? operand i = some s') : s'.Tidy := by
  rcases narrow?_cases result with ⟨slot, rfl, narrowed⟩ | ⟨-, rfl⟩
  · exact h.narrowed narrowed
  · exact h

theorem Tidy.equate? (h : s.Tidy) {lhs rhs : Operand} {s' : State}
    (result : s.equate? lhs rhs = some s') : s'.Tidy := by
  rcases equate?_cases result with ⟨x, y, rfl, rfl, equated⟩ | ⟨-, rfl⟩
  · exact h.equate equated
  · exact h

theorem Tidy.assume (h : s.Tidy) {condition : Condition} {s' : State}
    (result : s.assume condition = some s') : s'.Tidy := by
  rcases assume_cases result with ⟨-, -, rfl⟩ | ⟨-, lhs, rfl, -, s₁, first, s₂, second, result⟩
  · exact h
  · have h₂ := (h.narrow? first).narrow? second
    split_ifs at result with equality
    · exact h₂.equate? result
    · obtain rfl := Option.some.inj result
      exact h₂

theorem Tidy.assumeCase (h : s.Tidy) {scrutinee : Operand} {values : CaseSet} {s' : State}
    (result : s.assumeCase scrutinee values = some s') : s'.Tidy := by
  obtain ⟨_, -, -, _, -, -, narrowed⟩ := assumeCase_cases result
  exact h.narrow? narrowed

theorem Tidy.assumeDefault (h : s.Tidy) {scrutinee : Operand} {values : CaseSet} {s' : State}
    (result : s.assumeDefault scrutinee values = some s') : s'.Tidy :=
  h.narrow? (assumeDefault_cases result).2

/-! ## Merging -/

theorem Uniform.combine (h : s.Uniform) (h' : t.Uniform) {f : Interval → Interval → Interval} :
    (combine f s t).Uniform := by
  intro x y same
  obtain ⟨same, same'⟩ := AliasClasses.same_intersect.1 same
  refine ⟨(h _ _ same).1, Option.ext fun i => ?_⟩
  rw [getElem?_combine, getElem?_combine, (h _ _ same).2, (h' _ _ same').2, (h _ _ same).1]

theorem Tidy.combine (h : s.Tidy) (h' : t.Tidy) {f : Interval → Interval → Interval}
    (normal : ∀ {a b : Interval}, a.Normal → b.Normal → (f a b).Normal)
    (larger : ∀ {a b : Interval}, a.Normal → a.isSubset (f a b)) : (combine f s t).Tidy := by
  refine h.of_entries (fun {z j} entry => .inr ?_)
    (AliasClasses.pairwiseDisjoint_intersect h.disjoint h'.disjoint)
    (AliasClasses.nontrivial_intersect _ _) (h.uniform.combine h'.uniform)
  obtain ⟨a, b, ha, hb, proper, width, rfl⟩ := getElem?_combine.1 entry
  obtain ⟨anormal, -, full, -⟩ := h.entry ha
  exact ⟨informative?_eq_some.2 ⟨proper, width, rfl⟩, normal anormal (h'.entry hb).1,
    Interval.isBottom_eq_false_of_isSubset (larger anormal) full⟩

theorem Tidy.join (h : s.Tidy) (h' : t.Tidy) : (s.join t).Tidy :=
  h.combine h' Interval.normal_join Interval.isSubset_join

theorem Tidy.widen (h : s.Tidy) (h' : t.Tidy) : (s.widen t).Tidy :=
  h.combine h' Interval.normal_widen Interval.isSubset_widen

/-! ## Sequences of operations -/

/-- The states that operations make of given states and of the one that knows nothing. -/
inductive Made (given : State → Prop) : State → Prop where
  | unconstrained : Made given .unconstrained
  | given {s : State} : given s → Made given s
  | set {s : State} (slot : Slot) {i : Interval} : Made given s → i.Normal → i.isBottom = false →
      Made given (s.set slot i)
  | copy {s : State} {dst src : Slot} : Made given s → dst.bits = src.bits →
      Made given (s.copy dst src)
  | narrow {s s' : State} {slot : Slot} {i : Interval} : Made given s →
      s.narrow slot i = (true, s') → Made given s'
  | equate {s s' : State} {lhs rhs : Slot} : Made given s → s.equate lhs rhs = (true, s') →
      Made given s'
  | join {s t : State} : Made given s → Made given t → Made given (s.join t)
  | widen {s t : State} : Made given s → Made given t → Made given (s.widen t)

/-- Every sequence of operations keeps states tidy. -/
theorem Made.tidy {given : State → Prop} (start : ∀ s, given s → s.Tidy) (h : Made given s) :
    s.Tidy := by
  induction h with
  | unconstrained => exact tidy_unconstrained
  | given here => exact start _ here
  | set slot _ normal full tidy => exact tidy.set slot normal full
  | copy _ width tidy => exact tidy.copy width
  | narrow _ result tidy => exact tidy.narrowed (narrowed_of_narrow result)
  | equate _ result tidy => exact tidy.equate result
  | join _ _ hs ht => exact hs.join ht
  | widen _ _ hs ht => exact hs.widen ht

/-! ## Results of calls -/

theorem Tidy.setProper (h : s.Tidy) (slot : Slot) (proper : i.Proper) : (s.set slot i).Tidy :=
  h.set slot proper.1.normal proper.2

theorem Tidy.setResult (h : s.Tidy) {summary : Option CallSummary} {arguments : List Operand}
    (valid : Width.isValid dst.bits) (arguments_valid : ∀ a ∈ arguments, Width.isValid a.bits) :
    (s.setResult summary dst arguments).Tidy := by
  unfold State.setResult
  split
  · split
    · rename_i argument passed
      split_ifs with width
      · exact h.copy width.symm
      · have proper := h.proper_eval (arguments_valid _ (List.mem_of_getElem? passed))
        exact h.setProper dst (proper.cast valid)
    · rename_i argument _ passed
      have proper := h.proper_eval (arguments_valid _ (List.mem_of_getElem? passed))
      exact h.setProper dst (proper.cast valid)
    · exact h.forget dst
  · rename_i summary _
    refine h.setProper dst ?_
    cases summary with
    | returns lo hi =>
      simp only [CallSummary.returnedInterval?, Option.getD_some]
      split_ifs with empty
      · exact Interval.proper_top valid
      · exact Interval.proper_ofExact valid (not_lt.1 empty)
    | returnsArgument position => exact Interval.proper_top valid
  · exact h.forget dst

end State

/-! ## Operations and edges -/

/-- Every well-sorted operation takes a tidy state to a tidy one. -/
theorem Operation.tidy_apply (summaries : Summaries) {operation : Operation}
    (sorted : operation.WellSorted) {s : State} (h : s.Tidy) :
    (operation.apply summaries s).Tidy := by
  cases operation with
  | const dst constant =>
    have valid : Width.isValid dst.bits := sorted.written (List.mem_singleton_self _)
    have width : dst.bits = constant.bits := of_decide_eq_true sorted.2
    exact h.setProper dst (Interval.proper_constant (width ▸ valid) _)
  | copy dst src => exact h.copy sorted.copied.1
  | unary dst operator operand =>
    exact h.setProper dst ((h.proper_eval (sorted.read (List.mem_singleton_self _))).unary operator)
  | binary dst operator lhs rhs =>
    have left : (s.eval lhs).Proper := h.proper_eval (sorted.read (by simp [operandsRead]))
    have right : (s.eval rhs).Proper := h.proper_eval (sorted.read (by simp [operandsRead]))
    have agree := sorted.2
    simp only [sortsAgree, Bool.and_eq_true, Bool.or_eq_true, decide_eq_true_eq] at agree
    exact h.setProper dst (left.binary right operator (by simpa only [h.bits_eval] using agree.2))
  | cast dst src =>
    have proper : (s.eval src).Proper := h.proper_eval (sorted.read (List.mem_singleton_self _))
    exact h.setProper dst (proper.cast (sorted.written (List.mem_singleton_self _)))
  | arrayLoad dst index length => exact h.forget dst
  | call dst target arguments =>
    cases dst with
    | none => exact h
    | some dst =>
      exact h.setResult (sorted.written (List.mem_singleton_self _)) fun a mem => sorted.read mem
  | unsupported mnemonic writes =>
    change (writes.foldl State.forget s).Tidy
    exact List.foldlRecOn writes State.forget h fun s hs slot _ => hs.forget slot
  | branch _ | switch _ | arrayStore _ _ _ | ret _ | nop => exact h

/-- Every edge takes a tidy state to a tidy one. -/
theorem FlowGraph.tidy_along (g : FlowGraph) {operation : Operation} {edge : Edge} {s s' : State}
    (h : s.Tidy) (result : g.along operation edge s = some s') : s'.Tidy := by
  unfold along at result
  split at result
  · exact h.assume result
  · exact h.assume result
  · exact h.assumeCase result
  · exact h.assumeDefault result
  · obtain rfl := Option.some.inj result
    exact h

end RangeFlow
