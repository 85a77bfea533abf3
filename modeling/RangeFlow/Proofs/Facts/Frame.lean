import RangeFlow.Proofs.Facts.Equivalence
import RangeFlow.Proofs.Facts.Lattice

/-!
# What an operation changes

An operation either copies a slot into the one it writes, or overwrites the slots it writes one after the
other (`Operation.Effect`). What it leaves alone follows from that for all operations at once: the
intervals of the other slots, and which of them are equal. A slot that is copied to joins the class of
its source (`Operation.source?`), and any other slot that is written is alone afterwards.

Main statement: `Operation.apply_changes_only_written`.
-/

namespace RangeFlow

variable {s : State} {x y slot dst src : Slot}

/-! ## Several slots overwritten -/

/-- Overwriting slots separates each of them, and nothing else. -/
theorem AliasClasses.Partition.areAliased_foldl_invalidate {a : AliasClasses} (ha : a.Partition)
    (slots : List Slot) :
    (slots.foldl AliasClasses.invalidate a).areAliased x y ↔
      x = y ∨ a.areAliased x y ∧ x ∉ slots ∧ y ∉ slots := by
  induction slots generalizing a with
  | nil =>
    have reflexive : x = y → a.areAliased x y := fun e => e ▸ ha.equivalence.refl x
    simpa using reflexive
  | cons slot slots ih =>
    rw [List.foldl_cons, ih (ha.invalidate slot), ha.areAliased_invalidate, List.mem_cons, List.mem_cons]
    tauto

namespace State

/-- Overwrites slots, one after the other. -/
def setAll (s : State) (writes : List (Slot × Interval)) : State :=
  writes.foldl (fun s write => s.set write.1 write.2) s

theorem aliases_set (s : State) (slot : Slot) (i : Interval) :
    (s.set slot i).aliases = s.aliases.invalidate slot := by
  rw [set, aliases_store]

theorem value_setAll_of_notMem {writes : List (Slot × Interval)} (h : x ∉ writes.map Prod.fst) :
    (s.setAll writes).value x = s.value x := by
  induction writes generalizing s with
  | nil => rfl
  | cons write writes ih =>
    rw [List.map_cons, List.mem_cons, not_or] at h
    rw [setAll, List.foldl_cons, ← setAll, ih h.2, value_set_of_ne _ _ h.1]

theorem aliases_setAll (s : State) (writes : List (Slot × Interval)) :
    (s.setAll writes).aliases = (writes.map Prod.fst).foldl AliasClasses.invalidate s.aliases := by
  induction writes generalizing s with
  | nil => rfl
  | cons write writes ih =>
    rw [setAll, List.foldl_cons, ← setAll, ih, aliases_set, List.map_cons, List.foldl_cons]

theorem foldl_forget_eq_setAll (s : State) (writes : List Slot) :
    writes.foldl forget s = s.setAll (writes.map fun slot => (slot, .top slot.bits)) := by
  rw [setAll, List.foldl_map]
  rfl

end State

/-! ## The effect of an operation -/

namespace Operation

/-- The slot whose value is passed on unchanged to the slot that is written: the source of a copy, or
the argument that a call is known to return, if it has the width of the result. -/
def source? (summaries : Summaries) : Operation → Option Slot
  | copy _ src => some src
  | call (some dst) target arguments =>
      match summaries[target]? with
      | some (.returnsArgument position) =>
          match arguments[position]? with
          | some (.slot argument) => if argument.bits = dst.bits then some argument else none
          | _ => none
      | _ => none
  | _ => none

/-- The slot that an operation computes, with what its operator makes of the intervals of its
operands. -/
def result? (s : State) : Operation → Option (Slot × Interval)
  | const dst constant => some (dst, .constant constant.bits constant.value)
  | copy dst src => some (dst, s.value src)
  | unary dst operator operand => some (dst, .unary operator (s.eval operand))
  | binary dst operator lhs rhs => some (dst, .binary operator (s.eval lhs) (s.eval rhs))
  | cast dst src => some (dst, (s.eval src).cast dst.bits)
  | _ => none

/-- What an operation may make of a state: one copy, or its slots overwritten in turn. -/
inductive Effect (summaries : Summaries) (operation : Operation) (s : State) : State → Prop where
  | copies {dst src : Slot} : operation.slotsWritten = [dst] →
      operation.source? summaries = some src → Effect summaries operation s (s.copy dst src)
  | overwrites (writes : List (Slot × Interval)) : writes.map Prod.fst = operation.slotsWritten →
      operation.source? summaries = none → Effect summaries operation s (s.setAll writes)

variable {summaries : Summaries} {operation : Operation}

theorem effect_set (written : operation.slotsWritten = [dst])
    (plain : operation.source? summaries = none) (i : Interval) :
    Effect summaries operation s (s.set dst i) :=
  .overwrites [(dst, i)] written.symm plain

theorem effect_setResult (dst : Slot) (target : String) (arguments : List Operand) :
    Effect summaries (call (some dst) target arguments) s
      (s.setResult summaries[target]? dst arguments) := by
  have sets (plain : (call (some dst) target arguments).source? summaries = none) (i : Interval) :
      Effect summaries (call (some dst) target arguments) s (s.set dst i) := effect_set rfl plain i
  cases found : summaries[target]? with
  | none => exact sets (by simp only [source?, found]) (.top dst.bits)
  | some summary =>
    cases summary with
    | returns lo hi => exact sets (by simp only [source?, found]) _
    | returnsArgument position =>
      simp only [State.setResult]
      cases passed : arguments[position]? with
      | none => exact sets (by simp only [source?, found, passed]) _
      | some argument =>
        cases argument with
        | constant constant => exact sets (by simp only [source?, found, passed]) _
        | slot argument =>
          dsimp only
          split_ifs with width
          · exact .copies rfl (by simp only [source?, found, passed, if_pos width])
          · exact sets (by simp only [source?, found, passed, if_neg width]) _

theorem effect_apply (summaries : Summaries) (operation : Operation) (s : State) :
    Effect summaries operation s (operation.apply summaries s) := by
  cases operation with
  | const dst constant => exact effect_set rfl rfl _
  | copy dst src => exact .copies rfl rfl
  | unary dst operator operand => exact effect_set rfl rfl _
  | binary dst operator lhs rhs => exact effect_set rfl rfl _
  | cast dst src => exact effect_set rfl rfl _
  | arrayLoad dst index length => exact .overwrites [(dst, .top dst.bits)] rfl rfl
  | call dst target arguments =>
    cases dst with
    | none => exact .overwrites [] rfl rfl
    | some dst => exact effect_setResult dst target arguments
  | unsupported mnemonic writes =>
    rw [apply, State.foldl_forget_eq_setAll]
    refine .overwrites _ ?_ rfl
    rw [List.map_map]
    exact List.map_id writes
  | branch _ | switch _ | arrayStore _ _ _ | ret _ | nop => exact .overwrites [] rfl rfl

/-! ## What is left alone and what is written -/

/-- A slot that is not written keeps its interval. -/
theorem Effect.value_of_notMem {t : State} (effect : Effect summaries operation s t)
    (h : x ∉ operation.slotsWritten) : t.value x = s.value x := by
  cases effect with
  | copies written =>
    rw [written, List.mem_singleton] at h
    exact State.value_store_of_ne h
  | overwrites writes written =>
    rw [← written] at h
    exact State.value_setAll_of_notMem h

/-- Slots that are not written stay equal or apart. -/
theorem Effect.areAliased_of_notMem {t : State} (effect : Effect summaries operation s t)
    (partition : s.aliases.Partition) (hx : x ∉ operation.slotsWritten)
    (hy : y ∉ operation.slotsWritten) : t.aliases.areAliased x y ↔ s.aliases.areAliased x y := by
  have reflexive : x = y → s.aliases.areAliased x y := fun e => e ▸ partition.equivalence.refl x
  cases effect with
  | @copies dst src written =>
    rw [written, List.mem_singleton] at hx hy
    rw [State.copy, State.aliases_store]
    by_cases self : dst = src
    · rw [AliasClasses.copy, if_pos self]
    · rw [partition.areAliased_copy self]
      tauto
  | overwrites writes written =>
    rw [State.aliases_setAll, written, partition.areAliased_foldl_invalidate]
    tauto

/-- A slot that is written is equal to itself, to the slot it was copied from and to the aliases of
that. -/
theorem Effect.areAliased_of_mem {t : State} (effect : Effect summaries operation s t)
    (partition : s.aliases.Partition) (h : dst ∈ operation.slotsWritten) :
    t.aliases.areAliased dst x ↔
      x = dst ∨ ∃ src, operation.source? summaries = some src ∧ s.aliases.areAliased src x := by
  cases effect with
  | @copies dst' src written source =>
    rw [written, List.mem_singleton] at h
    subst h
    rw [State.copy, State.aliases_store, source]
    simp only [Option.some.injEq, exists_eq_left']
    by_cases self : dst = src
    · subst self
      rw [AliasClasses.copy, if_pos rfl]
      exact (or_iff_right_of_imp fun e => e ▸ partition.equivalence.refl x).symm
    · rw [partition.areAliased_copy self, eq_comm]
      tauto
  | overwrites writes written source =>
    rw [State.aliases_setAll, written, partition.areAliased_foldl_invalidate, source, eq_comm]
    simp [h]

theorem Effect.partition {t : State} (effect : Effect summaries operation s t)
    (partition : s.aliases.Partition) : t.aliases.Partition := by
  cases effect with
  | copies =>
    rw [State.copy, State.aliases_store]
    exact partition.copy _ _
  | overwrites writes =>
    rw [State.aliases_setAll]
    exact List.foldlRecOn _ AliasClasses.invalidate partition fun a ha slot _ => ha.invalidate slot

/-- A result has the width of the slot it is written to. -/
theorem bits_of_result? (sorted : operation.WellSorted) (regular : s.Regular) {i : Interval}
    (h : operation.result? s = some (dst, i)) : i.bits = dst.bits := by
  have width := regular.obeys_all.bits_eval
  cases operation with
  | const dst constant =>
    obtain ⟨rfl, rfl⟩ := Prod.mk.inj (Option.some.inj h)
    have agree : dst.bits = constant.bits := of_decide_eq_true sorted.2
    rw [Interval.bits_constant, agree]
  | copy dst src =>
    obtain ⟨rfl, rfl⟩ := Prod.mk.inj (Option.some.inj h)
    rw [regular.obeys_all.bits_value, sorted.copied.1]
  | unary dst operator operand =>
    obtain ⟨rfl, rfl⟩ := Prod.mk.inj (Option.some.inj h)
    have agree : dst.bits = operand.bits := of_decide_eq_true sorted.2
    rw [Interval.bits_unary, width, agree]
  | binary dst operator lhs rhs =>
    obtain ⟨rfl, rfl⟩ := Prod.mk.inj (Option.some.inj h)
    have agree := sorted.2
    simp only [sortsAgree, Bool.and_eq_true, decide_eq_true_eq] at agree
    rw [Interval.bits_binary, width, agree.1]
  | cast dst src =>
    obtain ⟨rfl, rfl⟩ := Prod.mk.inj (Option.some.inj h)
    exact Interval.bits_cast _ _
  | arrayLoad _ _ _ | call _ _ _ | unsupported _ _ | branch _ | switch _ | arrayStore _ _ _ | ret _
  | nop => cases h

/-- A computed slot holds what its operator gives. -/
theorem value_apply_of_result? (sorted : operation.WellSorted) (regular : s.Regular) {i : Interval}
    (h : operation.result? s = some (dst, i)) : (operation.apply summaries s).value dst = i := by
  have width := bits_of_result? sorted regular h
  cases operation with
  | const _ _ | unary _ _ _ | binary _ _ _ _ | cast _ _ | copy _ _ =>
    obtain ⟨rfl, rfl⟩ := Prod.mk.inj (Option.some.inj h)
    exact State.value_store_self width
  | arrayLoad _ _ _ | call _ _ _ | unsupported _ _ | branch _ | switch _ | arrayStore _ _ _ | ret _
  | nop => cases h

/-- A well-sorted operation changes nothing but the slots that it declares to write. The other slots keep
their intervals, and are equal to each other as before. A computed slot has exactly the interval that
its operator gives of the old ones, also where it is an operand itself. A written slot is equal to
itself alone, or to the slot that was passed on to it and the former aliases of that. -/
theorem apply_changes_only_written {point : Nat} (sorted : operation.checkSorts point = .ok ())
    (summaries : Summaries) (regular : s.Regular) :
    (∀ x, x ∉ operation.slotsWritten → (operation.apply summaries s).value x = s.value x) ∧
      (∀ x y, x ∉ operation.slotsWritten → y ∉ operation.slotsWritten →
        ((operation.apply summaries s).aliases.areAliased x y ↔ s.aliases.areAliased x y)) ∧
      (∀ dst i, operation.result? s = some (dst, i) →
        (operation.apply summaries s).value dst = i) ∧
      ∀ dst ∈ operation.slotsWritten, ∀ x,
        ((operation.apply summaries s).aliases.areAliased dst x ↔
          x = dst ∨ ∃ src, operation.source? summaries = some src ∧ s.aliases.areAliased src x) ∧
        ((operation.apply summaries s).aliases.areAliased x dst ↔
          (operation.apply summaries s).aliases.areAliased dst x) := by
  have partition : s.aliases.Partition := ⟨regular.disjoint, regular.nontrivial⟩
  have effect := effect_apply summaries operation s
  have symm := fun {x y} => (effect.partition partition).equivalence.symm (x := x) (y := y)
  exact ⟨fun x => effect.value_of_notMem, fun x y => effect.areAliased_of_notMem partition,
    fun dst i => value_apply_of_result? (checkSorts_eq_ok.1 sorted) regular,
    fun dst written x => ⟨effect.areAliased_of_mem partition written, symm, symm⟩⟩

section Shared

private abbrev byte (name : String) : Slot := ⟨name, 8⟩

/-- Three equal slots and one apart. -/
def sharedCount : State where
  values := {(byte "a", .range 8 0 5), (byte "b", .range 8 0 5), (byte "c", .range 8 0 5),
    (byte "d", .range 8 1 2)}
  aliases := ⟨{{byte "a", byte "b", byte "c"}}⟩

/-- A call to `first` returns its first argument. -/
def firstArgument : Summaries := {("first", .returnsArgument 0)}

/-- A slot that is added to leaves its class, and the others stay together. A slot that is given what a
call returns joins the class of the argument. -/
theorem apply_changes_only_written_shared :
    let sum := binary (byte "a") .add (.slot (byte "a")) (.slot (byte "b"))
    let passed := call (some (byte "d")) "first" [.slot (byte "b"), .slot (byte "a")]
    sum.checkSorts 0 = .ok () ∧ passed.checkSorts 1 = .ok () ∧ sharedCount.Regular ∧
      (sum.apply firstArgument sharedCount).value (byte "a") = .range 8 0 10 ∧
      (sum.apply firstArgument sharedCount).value (byte "b") = .range 8 0 5 ∧
      (sum.apply firstArgument sharedCount).aliases.areAliased (byte "b") (byte "c") ∧
      ¬(sum.apply firstArgument sharedCount).aliases.areAliased (byte "a") (byte "b") ∧
      (passed.apply firstArgument sharedCount).aliases.areAliased (byte "d") (byte "c") ∧
      (passed.apply firstArgument sharedCount).aliases.areAliased (byte "a") (byte "d") := by
  intro sum passed
  have sorted : sum.checkSorts 0 = .ok () := by decide +kernel
  have sorted' : passed.checkSorts 1 = .ok () := by decide +kernel
  have regular : sharedCount.Regular := by decide +kernel
  obtain ⟨values, equal, results, written⟩ :=
    apply_changes_only_written sorted firstArgument regular
  obtain ⟨-, -, -, written'⟩ := apply_changes_only_written sorted' firstArgument regular
  refine ⟨sorted, sorted', regular, results _ _ (by decide +kernel), ?_, ?_, fun h => ?_, ?_, ?_⟩
  · exact (values (byte "b") (by decide)).trans (by decide +kernel)
  · exact (equal (byte "b") (byte "c") (by decide) (by decide)).2 (by decide +kernel)
  · rcases (written (byte "a") (by decide) (byte "b")).1.1 h with same | ⟨src, source, -⟩
    · exact absurd same (by decide)
    · cases source
  · exact (written' (byte "d") (by decide) (byte "c")).1.2
      (.inr ⟨byte "b", by decide +kernel, by decide +kernel⟩)
  · obtain ⟨joined, symm⟩ := written' (byte "d") (by decide) (byte "a")
    exact symm.2 (joined.2 (.inr ⟨byte "b", by decide +kernel, by decide +kernel⟩))

end Shared

end Operation

end RangeFlow
