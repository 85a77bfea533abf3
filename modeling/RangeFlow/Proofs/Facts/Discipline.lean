import RangeFlow.Proofs.Facts.Tidy

/-!
# Disciplines of states

Every state of an analysis keeps to what is asked of the state at the entry: which slots it speaks of,
what its intervals are like, and what its alias classes are like. A `Discipline` names such a demand,
and `Discipline.Lawful` what it takes for the analysis to keep it. `Operation.obeys_apply`,
`FlowGraph.obeys_along`, `State.Obeys.join` and `State.Obeys.widen` are then proved once for all
of them.
-/

namespace RangeFlow

/-- What is asked of the parts of a state. -/
structure Discipline where
  /-- The slots that a state may speak of. -/
  Occurs : Slot → Prop
  /-- The intervals that are computed. -/
  Value : Interval → Prop
  /-- The intervals among them that are kept for a slot. -/
  Fact : Interval → Prop
  Classes : AliasClasses → Prop

/-- A discipline that the steps of the analysis keep. -/
structure Discipline.Lawful (D : Discipline) : Prop where
  closed : Interval.Closed D.Value
  fact : ∀ {i : Interval}, D.Value i → i.isTop = false → D.Fact i
  value : ∀ {i : Interval}, D.Fact i → D.Value i
  occurs : ∀ {a : AliasClasses} {x y : Slot}, D.Classes a → D.Occurs x → y ∈ a.classOf x →
    D.Occurs y
  invalidate : ∀ {a : AliasClasses} (x : Slot), D.Classes a → D.Classes (a.invalidate x)
  union : ∀ {a : AliasClasses} {x y : Slot}, D.Classes a → D.Occurs x → D.Occurs y →
    D.Classes (a.union x y)
  intersect : ∀ {a b : AliasClasses}, D.Classes a → D.Classes b → D.Classes (a.intersect b)

/-- A state keeps to a discipline. Its entries are as wide as their slots, whatever the discipline
is. -/
structure State.Obeys (D : Discipline) (s : State) : Prop where
  occurs : ∀ {slot : Slot} {i : Interval}, s.values[slot]? = some i → D.Occurs slot
  valid : ∀ {slot : Slot} {i : Interval}, s.values[slot]? = some i → Width.isValid slot.bits
  width : ∀ {slot : Slot} {i : Interval}, s.values[slot]? = some i → i.bits = slot.bits
  fact : ∀ {slot : Slot} {i : Interval}, s.values[slot]? = some i → D.Fact i
  classes : D.Classes s.aliases

/-- The discipline of states with bounds inside the widths. Alias classes are as they may be. -/
def Discipline.bounded : Discipline where
  Occurs _ := True
  Value := Interval.Inside
  Fact := Interval.Inside
  Classes _ := True

theorem Discipline.lawful_bounded : Discipline.bounded.Lawful where
  closed := Interval.closed_inside
  fact h _ := h
  value h := h
  occurs _ _ _ := trivial
  invalidate _ _ := trivial
  union _ _ _ := trivial
  intersect _ _ := trivial

/-- The discipline of the states that the analysis is sound for: alias classes are disjoint as well. -/
def Discipline.admissible : Discipline :=
  { bounded with Classes := AliasClasses.PairwiseDisjoint }

theorem Discipline.lawful_admissible : Discipline.admissible.Lawful :=
  { lawful_bounded with
    occurs := fun _ _ _ => trivial
    invalidate := fun x h => AliasClasses.pairwiseDisjoint_invalidate h x
    union := fun h _ _ => AliasClasses.pairwiseDisjoint_union h _ _
    intersect := AliasClasses.pairwiseDisjoint_intersect }

/-- The discipline of regular states that speak of some slots: intervals are canonical and
neither full nor empty, and alias classes are disjoint and have several members. -/
def Discipline.regular (occurs : Slot → Prop) : Discipline where
  Occurs := occurs
  Value := Interval.Proper
  Fact i := i.Proper ∧ i.isTop = false
  Classes a := a.PairwiseDisjoint ∧ a.Nontrivial ∧
    ∀ {x y : Slot}, a.Same x y → x = y ∨ occurs x ∧ occurs y

theorem Discipline.lawful_regular (occurs : Slot → Prop) : (Discipline.regular occurs).Lawful where
  closed := Interval.closed_proper
  fact h proper := ⟨h, proper⟩
  value h := h.1
  occurs := by
    rintro a x y ⟨disjoint, -, members⟩ hx mem
    rcases members ((AliasClasses.mem_classOf disjoint).1 mem) with rfl | ⟨-, hy⟩
    · exact hx
    · exact hy
  invalidate := by
    rintro a x ⟨disjoint, nontrivial, members⟩
    refine ⟨AliasClasses.pairwiseDisjoint_invalidate disjoint x,
      AliasClasses.nontrivial_invalidate nontrivial x, fun {y z} same => ?_⟩
    rcases (AliasClasses.same_invalidate disjoint).1 same with equal | ⟨same, -⟩
    · exact .inl equal
    · exact members same
  union := by
    rintro a x y ⟨disjoint, nontrivial, members⟩ hx hy
    refine ⟨AliasClasses.pairwiseDisjoint_union disjoint x y,
      AliasClasses.nontrivial_union disjoint nontrivial x y, fun {u v} same => ?_⟩
    have spread {x u : Slot} (hx : occurs x) (same : a.Same x u) : occurs u :=
      (members same).elim (fun e => e ▸ hx) And.right
    rcases (AliasClasses.same_union disjoint).1 same with same | ⟨hu, hv⟩ | ⟨hu, hv⟩
    · exact members same
    · exact .inr ⟨spread hx hu, spread hy hv⟩
    · exact .inr ⟨spread hy hu, spread hx hv⟩
  intersect := by
    rintro a b ⟨disjointA, -, members⟩ ⟨disjointB, -, -⟩
    exact ⟨AliasClasses.pairwiseDisjoint_intersect disjointA disjointB,
      AliasClasses.nontrivial_intersect a b, fun same => members (AliasClasses.same_intersect.1 same).1⟩

namespace State

variable {D : Discipline} {s t : State} {slot dst src z : Slot} {i : Interval}

/-- A state without entries keeps to every discipline that allows for no classes. -/
theorem obeys_unconstrained (empty : D.Classes .empty) : unconstrained.Obeys D where
  occurs entry := by simp [unconstrained] at entry
  valid entry := by simp [unconstrained] at entry
  width entry := by simp [unconstrained] at entry
  fact entry := by simp [unconstrained] at entry
  classes := empty

/-- An orderly state that speaks of valid widths only. -/
structure Regular (s : State) : Prop extends s.Orderly where
  valid : ∀ {slot : Slot} {i : Interval}, s.values[slot]? = some i → Width.isValid slot.bits

theorem Regular.canonical (h : s.Regular) (entry : s.values[slot]? = some i) : i.Canonical := by
  obtain ⟨normal, -, -, width⟩ := h.entry entry
  exact Interval.canonical_iff.2 ⟨width.symm ▸ h.valid entry, normal⟩

theorem Regular.obeys (h : s.Regular) {occurs : Slot → Prop}
    (entries : ∀ (slot : Slot) (i : Interval), s.values[slot]? = some i → occurs slot)
    (members : ∀ c ∈ s.aliases.classes, ∀ slot ∈ c, occurs slot) : s.Obeys (.regular occurs) where
  occurs entry := entries _ _ entry
  valid := h.valid
  width entry := (h.entry entry).2.2.2
  fact entry := ⟨⟨h.canonical entry, (h.entry entry).2.2.1⟩, (h.entry entry).2.1⟩
  classes := by
    refine ⟨h.disjoint, h.nontrivial, fun {x y} same => ?_⟩
    rcases same with equal | ⟨c, hc, hx, hy⟩
    · exact .inl equal
    · exact .inr ⟨members c hc x hx, members c hc y hy⟩

theorem Regular.obeys_all (h : s.Regular) : s.Obeys (.regular fun _ => True) :=
  h.obeys (fun _ _ _ => trivial) fun _ _ _ _ => trivial

theorem Obeys.regular {occurs : Slot → Prop} (h : s.Obeys (.regular occurs)) : s.Regular where
  entry entry := ⟨(h.fact entry).1.1.normal, (h.fact entry).2, (h.fact entry).1.2, h.width entry⟩
  disjoint := h.classes.1
  nontrivial := h.classes.2.1
  valid := h.valid

/-- The slots that a state speaks of. -/
def slots (s : State) : List Slot :=
  s.values.keys ++ s.aliases.classes.toList.flatMap Std.ExtTreeSet.toList

theorem Regular.obeys_slots (h : s.Regular) {slots : List Slot}
    (subset : ∀ slot ∈ s.slots, slot ∈ slots) : s.Obeys (.regular (· ∈ slots)) := by
  refine h.obeys (fun slot i entry => subset slot ?_) fun c hc slot mem => subset slot ?_
  · exact List.mem_append_left _ (Std.ExtTreeMap.mem_keys.2 (mem_iff_exists_getElem?.2 ⟨i, entry⟩))
  · exact List.mem_append_right _ (List.mem_flatMap.2
      ⟨c, Std.ExtTreeSet.mem_toList.2 hc, Std.ExtTreeSet.mem_toList.2 mem⟩)

/-! ## Reading -/

theorem Obeys.bits_value (h : s.Obeys D) (slot : Slot) : (s.value slot).bits = slot.bits :=
  bits_value_of_width h.width

theorem Obeys.value (lawful : D.Lawful) (h : s.Obeys D) (valid : Width.isValid slot.bits) :
    D.Value (s.value slot) := by
  cases entry : s.values[slot]? with
  | none =>
    rw [value_of_getElem?_eq_none entry]
    exact lawful.closed.proper (Interval.proper_top valid)
  | some i =>
    rw [value_of_getElem? entry]
    exact lawful.value (h.fact entry)

theorem Obeys.bits_eval (h : s.Obeys D) (operand : Operand) :
    (s.eval operand).bits = operand.bits := by
  cases operand with
  | slot slot => exact h.bits_value slot
  | constant constant => exact Interval.bits_constant _ _

theorem Obeys.eval (lawful : D.Lawful) (h : s.Obeys D) {operand : Operand}
    (valid : Width.isValid operand.bits) : D.Value (s.eval operand) := by
  cases operand with
  | slot slot => exact h.value lawful valid
  | constant constant => exact lawful.closed.proper (Interval.proper_constant valid _)

theorem Obeys.trimmable (h : s.Obeys .bounded) : s.Trimmable := by
  intro scrutinee cases valid
  exact trims_of_inside (h.eval Discipline.lawful_bounded valid) (by rwa [h.bits_eval])

/-! ## Writing -/

/-- A state keeps to a discipline if its entries are old ones or keep to it. -/
theorem Obeys.of_entries (h : s.Obeys D) {s' : State} (classes : D.Classes s'.aliases)
    (entries : ∀ {z : Slot} {j : Interval}, s'.values[z]? = some j → s.values[z]? = some j ∨
      D.Occurs z ∧ Width.isValid z.bits ∧ j.bits = z.bits ∧ D.Fact j) : s'.Obeys D where
  occurs entry := (entries entry).elim h.occurs fun new => new.1
  valid entry := (entries entry).elim h.valid fun new => new.2.1
  width entry := (entries entry).elim h.width fun new => new.2.2.1
  fact entry := (entries entry).elim h.fact fun new => new.2.2.2
  classes := classes

theorem Obeys.store (lawful : D.Lawful) (h : s.Obeys D) (occurs : D.Occurs slot)
    (valid : Width.isValid slot.bits) (hi : D.Value i) : (s.store slot i).Obeys D := by
  refine h.of_entries (by rw [aliases_store]; exact h.classes) fun {z j} entry => ?_
  rw [getElem?_store] at entry
  split_ifs at entry with here
  · subst here
    obtain ⟨proper, width, rfl⟩ := informative?_eq_some.1 entry
    exact .inr ⟨occurs, valid, width, lawful.fact hi proper⟩
  · exact .inl entry

theorem Obeys.withAliases (h : s.Obeys D) {a : AliasClasses} (ha : D.Classes a) :
    { s with aliases := a }.Obeys D :=
  ⟨h.occurs, h.valid, h.width, h.fact, ha⟩

theorem Obeys.set (lawful : D.Lawful) (h : s.Obeys D) (occurs : D.Occurs slot)
    (valid : Width.isValid slot.bits) (hi : D.Value i) : (s.set slot i).Obeys D :=
  (h.withAliases (lawful.invalidate slot h.classes)).store lawful occurs valid hi

theorem Obeys.forget (lawful : D.Lawful) (h : s.Obeys D) (occurs : D.Occurs slot)
    (valid : Width.isValid slot.bits) : (s.forget slot).Obeys D :=
  h.set lawful occurs valid (lawful.closed.proper (Interval.proper_top valid))

theorem Obeys.copy (lawful : D.Lawful) (h : s.Obeys D) (hd : D.Occurs dst) (hs : D.Occurs src)
    (validDst : Width.isValid dst.bits) (validSrc : Width.isValid src.bits) :
    (s.copy dst src).Obeys D := by
  have classes : D.Classes (s.aliases.copy dst src) := by
    unfold AliasClasses.copy
    split_ifs
    · exact h.classes
    · exact lawful.union (lawful.invalidate dst h.classes) hd hs
  exact (h.withAliases classes).store lawful hd validDst (h.value lawful validSrc)

/-! ## Narrowing -/

theorem Obeys.narrowed (lawful : D.Lawful) (h : s.Obeys D) (occurs : D.Occurs slot)
    (valid : Width.isValid i.bits) {s' : State} (narrowed : s.Narrowed slot i s') :
    s'.Obeys D := by
  refine h.of_entries (by rw [narrowed.aliases]; exact h.classes) fun {z j} entry => ?_
  rw [narrowed.entries] at entry
  split_ifs at entry with mem
  · obtain ⟨proper, width, rfl⟩ := informative?_eq_some.1 entry
    by_cases same : (s.value z).bits = i.bits
    · rw [h.bits_value] at same
      have validZ : Width.isValid z.bits := same ▸ valid
      have hv := lawful.closed.meet (by rwa [h.bits_value]) (h.value lawful validZ)
        (narrowed.full z mem)
      exact .inr ⟨lawful.occurs h.classes occurs mem, validZ, width, lawful.fact hv proper⟩
    · -- An entry of another width stays the old one.
      rw [Interval.meet_of_bits_ne same] at proper ⊢
      cases old : s.values[z]? with
      | none =>
        rw [value_of_getElem?_eq_none old] at proper
        cases proper
      | some k => exact .inl (by rw [value_of_getElem? old])
  · exact .inl entry

theorem Obeys.narrow? (lawful : D.Lawful) (h : s.Obeys D) {operand : Operand}
    (occurs : ∀ slot, operand.slot? = some slot → D.Occurs slot) (valid : Width.isValid i.bits)
    {s' : State} (result : s.narrow? operand i = some s') : s'.Obeys D := by
  rcases narrow?_cases result with ⟨slot, rfl, narrowed⟩ | ⟨-, rfl⟩
  · exact h.narrowed lawful (occurs slot rfl) valid narrowed
  · exact h

theorem Obeys.equate? (lawful : D.Lawful) (h : s.Obeys D) {lhs rhs : Operand}
    (left : ∀ slot, lhs.slot? = some slot → D.Occurs slot)
    (right : ∀ slot, rhs.slot? = some slot → D.Occurs slot)
    (valid : Width.isValid lhs.bits) {s' : State} (result : s.equate? lhs rhs = some s') :
    s'.Obeys D := by
  rcases equate?_cases result with ⟨x, y, rfl, rfl, equated⟩ | ⟨-, rfl⟩
  · obtain ⟨s₁, s₂, first, second, rfl⟩ := equate_cases equated
    have validCommon : Width.isValid ((s.value x).meet (s.value y)).bits := by
      rwa [Interval.bits_meet, h.bits_value]
    have h₁ := h.narrowed lawful (left x rfl) validCommon first
    have h₂ := h₁.narrowed lawful (right y rfl) validCommon second
    split_ifs
    · exact h₂.withAliases (lawful.union h₂.classes (left x rfl) (right y rfl))
    · exact h₂
  · exact h

/-! ## Tests -/

section Tests

variable (lawful : D.Lawful) (h : s.Obeys D)
include lawful h

theorem Obeys.assume {condition : Condition}
    (left : ∀ slot, condition.lhs.slot? = some slot → D.Occurs slot)
    (right : ∀ slot, condition.rhs.slot? = some slot → D.Occurs slot)
    (validLeft : Width.isValid condition.lhs.bits) (validRight : Width.isValid condition.rhs.bits)
    {s' : State} (result : s.assume condition = some s') : s'.Obeys D := by
  rcases assume_cases result with ⟨-, -, rfl⟩ | ⟨-, lhs, rfl, -, s₁, first, s₂, second, result⟩
  · exact h
  · have h₁ := h.narrow? lawful left (by rwa [Interval.bits_refine, h.bits_eval]) first
    have h₂ := h₁.narrow? lawful right (by rwa [Interval.bits_refine, h.bits_eval]) second
    split_ifs at result with equality
    · exact h₂.equate? lawful left right validLeft result
    · obtain rfl := Option.some.inj result
      exact h₂

variable {scrutinee : Operand} {values : CaseSet}
  (occurs : ∀ slot, scrutinee.slot? = some slot → D.Occurs slot)
  (valid : Width.isValid scrutinee.bits)
include occurs valid

theorem Obeys.assumeCase {s' : State} (result : s.assumeCase scrutinee values = some s') :
    s'.Obeys D := by
  obtain ⟨_, -, -, _, -, -, narrowed⟩ := assumeCase_cases result
  exact h.narrow? lawful occurs (by rwa [Interval.bits_meet, h.bits_eval]) narrowed

theorem Obeys.assumeDefault {s' : State} (result : s.assumeDefault scrutinee values = some s') :
    s'.Obeys D := by
  exact h.narrow? lawful occurs (by rwa [bits_trim, h.bits_eval]) (assumeDefault_cases result).2

end Tests

/-! ## Merging -/

theorem Obeys.combine (lawful : D.Lawful) (h : s.Obeys D) (h' : t.Obeys D)
    {f : Interval → Interval → Interval}
    (hf : ∀ {a b : Interval}, Width.isValid a.bits → D.Value a → D.Value b → D.Value (f a b)) :
    (combine f s t).Obeys D := by
  refine h.of_entries (lawful.intersect h.classes h'.classes) fun entry => .inr ?_
  obtain ⟨a, b, ha, hb, proper, width, rfl⟩ := getElem?_combine.1 entry
  have valid : Width.isValid a.bits := by
    rw [h.width ha]
    exact h.valid ha
  exact ⟨h.occurs ha, h.valid ha, width,
    lawful.fact (hf valid (lawful.value (h.fact ha)) (lawful.value (h'.fact hb))) proper⟩

theorem Obeys.join (lawful : D.Lawful) (h : s.Obeys D) (h' : t.Obeys D) : (s.join t).Obeys D :=
  h.combine lawful h' lawful.closed.join

theorem Obeys.widen (lawful : D.Lawful) (h : s.Obeys D) (h' : t.Obeys D) : (s.widen t).Obeys D :=
  h.combine lawful h' lawful.closed.widen

theorem Obeys.setResult (lawful : D.Lawful) (h : s.Obeys D) {summary : Option CallSummary}
    {arguments : List Operand} (occurs : D.Occurs dst) (valid : Width.isValid dst.bits)
    (arguments_occur : ∀ a ∈ arguments, ∀ slot, a.slot? = some slot → D.Occurs slot)
    (arguments_valid : ∀ a ∈ arguments, Width.isValid a.bits) :
    (s.setResult summary dst arguments).Obeys D := by
  unfold State.setResult
  split
  · split
    · rename_i argument passed
      have mem := List.mem_of_getElem? passed
      split_ifs
      · exact h.copy lawful occurs (arguments_occur _ mem _ rfl) valid (arguments_valid _ mem)
      · exact h.set lawful occurs valid
          (lawful.closed.cast valid (h.value lawful (arguments_valid _ mem)))
    · rename_i argument _ passed
      exact h.set lawful occurs valid
        (lawful.closed.cast valid (h.eval lawful (arguments_valid _ (List.mem_of_getElem? passed))))
    · exact h.forget lawful occurs valid
  · rename_i summary _
    refine h.set lawful occurs valid (lawful.closed.proper ?_)
    cases summary with
    | returns lo hi =>
      simp only [CallSummary.returnedInterval?, Option.getD_some]
      split_ifs with empty
      · exact Interval.proper_top valid
      · exact Interval.proper_ofExact valid (not_lt.1 empty)
    | returnsArgument position => exact Interval.proper_top valid
  · exact h.forget lawful occurs valid

end State

/-! ## Operations and edges -/

/-- Every operation takes a state that keeps to a discipline to one that does. -/
theorem Operation.obeys_apply {D : Discipline} (lawful : D.Lawful) (summaries : Summaries)
    {operation : Operation} (sorted : operation.WellSorted)
    (occurs : ∀ slot ∈ operation.slots, D.Occurs slot) {s : State} (h : s.Obeys D) :
    (operation.apply summaries s).Obeys D := by
  have written : ∀ slot ∈ operation.slotsWritten, D.Occurs slot :=
    fun slot mem => occurs slot (mem_slots_of_mem_slotsWritten mem)
  have read : ∀ operand ∈ operation.operandsRead, ∀ slot, operand.slot? = some slot →
      D.Occurs slot :=
    fun operand mem slot hs => occurs slot (mem_slots_of_mem_operandsRead mem hs)
  cases operation with
  | const dst constant =>
    have valid : Width.isValid dst.bits := sorted.written (List.mem_singleton_self _)
    have width : dst.bits = constant.bits := of_decide_eq_true sorted.2
    exact h.set lawful (written dst (List.mem_singleton_self _)) valid
      (lawful.closed.proper (Interval.proper_constant (width ▸ valid) _))
  | copy dst src =>
    obtain ⟨-, validDst, validSrc⟩ := sorted.copied
    exact h.copy lawful (written dst (List.mem_singleton_self _)) (occurs src (by simp [slots]))
      validDst validSrc
  | unary dst operator operand =>
    have valid : Width.isValid operand.bits := sorted.read (List.mem_singleton_self _)
    exact h.set lawful (written dst (List.mem_singleton_self _))
      (sorted.written (List.mem_singleton_self _))
      (lawful.closed.unary operator (by rwa [h.bits_eval]) (h.eval lawful valid))
  | binary dst operator lhs rhs =>
    have validLeft : Width.isValid lhs.bits := sorted.read (by simp [operandsRead])
    have validRight : Width.isValid rhs.bits := sorted.read (by simp [operandsRead])
    have agree := sorted.2
    simp only [sortsAgree, Bool.and_eq_true, Bool.or_eq_true, decide_eq_true_eq] at agree
    exact h.set lawful (written dst (List.mem_singleton_self _))
      (sorted.written (List.mem_singleton_self _))
      (lawful.closed.binary operator (by rwa [h.bits_eval])
        (by simpa only [h.bits_eval] using agree.2) (h.eval lawful validLeft)
        (h.eval lawful validRight))
  | cast dst src =>
    have valid : Width.isValid dst.bits := sorted.written (List.mem_singleton_self _)
    exact h.set lawful (written dst (List.mem_singleton_self _)) valid
      (lawful.closed.cast valid (h.eval lawful (sorted.read (List.mem_singleton_self _))))
  | arrayLoad dst index length =>
    exact h.forget lawful (written dst (List.mem_singleton_self _))
      (sorted.written (List.mem_singleton_self _))
  | call dst target arguments =>
    cases dst with
    | none => exact h
    | some dst =>
      exact h.setResult lawful (written dst (List.mem_singleton_self _))
        (sorted.written (List.mem_singleton_self _)) read fun a mem => sorted.read mem
  | unsupported mnemonic writes =>
    have valid : ∀ slot ∈ writes, Width.isValid slot.bits := fun slot mem => sorted.written mem
    change (writes.foldl State.forget s).Obeys D
    refine List.foldlRecOn writes State.forget h fun s hs slot mem => ?_
    exact hs.forget lawful (written slot mem) (valid slot mem)
  | branch condition => exact h
  | switch scrutinee => exact h
  | arrayStore index value length => exact h
  | ret value => exact h
  | nop => exact h

/-- Every edge takes a state that keeps to a discipline to one that does. -/
theorem FlowGraph.obeys_along {D : Discipline} (lawful : D.Lawful) (g : FlowGraph)
    {operation : Operation} (sorted : operation.WellSorted)
    (occurs : ∀ slot ∈ operation.slots, D.Occurs slot) {edge : Edge} {s s' : State}
    (h : s.Obeys D) (result : g.along operation edge s = some s') : s'.Obeys D := by
  have read : ∀ operand ∈ operation.operandsRead, ∀ slot, operand.slot? = some slot →
      D.Occurs slot :=
    fun operand mem slot hs => occurs slot (Operation.mem_slots_of_mem_operandsRead mem hs)
  unfold along at result
  split at result
  · exact h.assume lawful (read _ (by simp [Operation.operandsRead]))
      (read _ (by simp [Operation.operandsRead])) (sorted.read (by simp [Operation.operandsRead]))
      (sorted.read (by simp [Operation.operandsRead])) result
  · exact h.assume lawful (read _ (by simp [Operation.operandsRead, Condition.negate]))
      (read _ (by simp [Operation.operandsRead, Condition.negate]))
      (sorted.read (by simp [Operation.operandsRead, Condition.negate]))
      (sorted.read (by simp [Operation.operandsRead, Condition.negate])) result
  · exact h.assumeCase lawful (read _ (List.mem_singleton_self _))
      (sorted.read (List.mem_singleton_self _)) result
  · exact h.assumeDefault lawful (read _ (List.mem_singleton_self _))
      (sorted.read (List.mem_singleton_self _)) result
  · obtain rfl := Option.some.inj result
    exact h

end RangeFlow
