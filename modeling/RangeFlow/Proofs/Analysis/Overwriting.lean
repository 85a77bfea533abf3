import RangeFlow.Proofs.Analysis.Soundness
import RangeFlow.Proofs.Codec.Facts
import RangeFlow.Proofs.Facts.Frame

/-!
# Aliases of an overwritten slot

A write takes the slot out of one class, the first that holds it. Among disjoint classes there is no
other, and the slot is alone afterwards (`AliasClasses.Alone`). Classes that were read may overlap; then
the slot stays in all but one of those that held it (`AliasClasses.card_holders_invalidate`), and is
taken for equal to slots that it no longer equals.

Main statement: `Operation.alone_overwritten_iff`, with `Procedure.stale_alias_hides_point` for the
consequence: an accepted state with overlapping classes makes an analysis miss a point that is reached.
-/

namespace RangeFlow

variable {a : AliasClasses} {slot : Slot}

/-! ## The classes that hold a slot -/

namespace AliasClasses

/-- The classes that hold a slot. There is at most one among disjoint classes. -/
def holders (a : AliasClasses) (slot : Slot) : Finset SlotSet :=
  {c ∈ a.classes.toList.toFinset | slot ∈ c}

theorem mem_holders {c : SlotSet} : c ∈ a.holders slot ↔ c ∈ a.classes ∧ slot ∈ c := by
  simp [holders]

/-- A slot that is in no class and equal to none but itself. -/
structure Alone (a : AliasClasses) (slot : Slot) : Prop where
  notMem : ∀ c ∈ a.classes, slot ∉ c
  eq_of_areAliased : ∀ x, a.areAliased slot x → x = slot
  eq_of_areAliased' : ∀ x, a.areAliased x slot → x = slot

theorem card_holders_eq_zero_iff : (a.holders slot).card = 0 ↔ ∀ c ∈ a.classes, slot ∉ c := by
  rw [Finset.card_eq_zero, Finset.eq_empty_iff_forall_notMem]
  simp only [mem_holders, not_and]

theorem alone_iff : a.Alone slot ↔ (a.holders slot).card = 0 := by
  rw [card_holders_eq_zero_iff]
  refine ⟨Alone.notMem, fun apart => ⟨apart, fun x aliased => ?_, fun x aliased => ?_⟩⟩
  · rcases same_of_areAliased aliased with same | ⟨c, hc, here, -⟩
    · exact same.symm
    · exact absurd here (apart c hc)
  · rcases same_of_areAliased aliased with same | ⟨c, hc, -, here⟩
    · exact same
    · exact absurd here (apart c hc)

theorem PairwiseDisjoint.card_holders_le_one (disjoint : a.PairwiseDisjoint) (slot : Slot) :
    (a.holders slot).card ≤ 1 := by
  refine Finset.card_le_one.2 fun c hc d hd => ?_
  obtain ⟨hc, inc⟩ := mem_holders.1 hc
  obtain ⟨hd, ind⟩ := mem_holders.1 hd
  exact disjoint c hc d hd slot inc ind

/-- A write takes a slot out of one of the classes that hold it. -/
theorem card_holders_invalidate (a : AliasClasses) (slot : Slot) :
    ((a.invalidate slot).holders slot).card = (a.holders slot).card - 1 := by
  cases found : a.find? slot with
  | none =>
    have unheld : (a.holders slot).card = 0 := card_holders_eq_zero_iff.2 (find?_eq_none_iff.1 found)
    rw [invalidate, found, unheld]
  | some c =>
    have left : (a.invalidate slot).holders slot = (a.holders slot).erase c := by
      ext d
      rw [Finset.mem_erase, mem_holders, mem_holders, mem_classes_invalidate found]
      constructor
      · rintro ⟨⟨other, hd⟩ | ⟨rfl, -⟩, here⟩
        · exact ⟨other, hd, here⟩
        · exact absurd rfl (mem_erase_iff.1 here).1
      · rintro ⟨other, hd, here⟩
        exact ⟨.inl ⟨other, hd⟩, here⟩
    rw [left, Finset.card_erase_of_mem (mem_holders.2 (find?_mem found))]

theorem card_holders_foldl_invalidate (a : AliasClasses) (slot : Slot) (writes : Nat) :
    (((List.replicate writes slot).foldl invalidate a).holders slot).card =
      (a.holders slot).card - writes := by
  induction writes generalizing a with
  | zero => rfl
  | succ writes ih =>
    rw [List.replicate_succ, List.foldl_cons, ih, card_holders_invalidate, Nat.sub_sub, Nat.add_comm]

end AliasClasses

/-! ## Operations that overwrite one slot -/

namespace Operation

variable {summaries : Summaries} {operation : Operation} {s : State}

/-- An operation that writes one slot, with a value it does not pass on from another, takes the slot out of
as many classes as there are writes. So the slot is alone afterwards exactly if no more classes than that
held it; and always if the classes are disjoint. -/
theorem alone_overwritten_iff (plain : operation.source? summaries = none)
    (written : ∀ x, x ∈ operation.slotsWritten ↔ x = slot) :
    ((operation.apply summaries s).aliases.holders slot).card =
        (s.aliases.holders slot).card - operation.slotsWritten.length ∧
      ((operation.apply summaries s).aliases.Alone slot ↔
        (s.aliases.holders slot).card ≤ operation.slotsWritten.length) ∧
      (s.aliases.PairwiseDisjoint → (operation.apply summaries s).aliases.Alone slot) := by
  have repeated : operation.slotsWritten = List.replicate operation.slotsWritten.length slot :=
    List.eq_replicate_iff.2 ⟨rfl, fun x mem => (written x).1 mem⟩
  have positive : 0 < operation.slotsWritten.length := List.length_pos_of_mem ((written slot).2 rfl)
  have left : ((operation.apply summaries s).aliases.holders slot).card =
      (s.aliases.holders slot).card - operation.slotsWritten.length := by
    generalize after : operation.apply summaries s = t
    cases after ▸ effect_apply summaries operation s with
    | copies _ source => cases plain.symm.trans source
    | overwrites writes slots =>
      rw [State.aliases_setAll, slots, repeated, AliasClasses.card_holders_foldl_invalidate,
        List.length_replicate]
  refine ⟨left, ?_, fun disjoint => ?_⟩
  · rw [AliasClasses.alone_iff, left, Nat.sub_eq_zero_iff_le]
  · have := disjoint.card_holders_le_one slot
    rw [AliasClasses.alone_iff, left]
    omega

end Operation

section Overlapping

private abbrev cell (name : String) : Slot := ⟨name, 32⟩

/-- Two classes that share a slot. -/
def State.overlapping : State where
  values := ∅
  aliases := ⟨{{cell "a", cell "b"}, {cell "a", cell "c"}}⟩

/-- Two writes take the shared slot out of both of its classes, and one write takes a slot out of its only
class. -/
theorem Operation.alone_overwritten_twice :
    let twice := unsupported "swap" [cell "a", cell "a"]
    (twice.apply ∅ .overlapping).aliases.Alone (cell "a") ∧
      ((const (cell "c") ⟨5, 32⟩).apply ∅ .overlapping).aliases.Alone (cell "c") ∧
      ((const (cell "a") ⟨5, 32⟩).apply ∅ Procedure.counterFacts).aliases.Alone (cell "a") := by
  have once (slot : Slot) (x : Slot) : x ∈ (const slot ⟨5, 32⟩).slotsWritten ↔ x = slot :=
    List.mem_singleton
  refine ⟨?_, ?_, ?_⟩
  · exact (alone_overwritten_iff rfl (by simp [slotsWritten])).2.1.2 (by decide)
  · exact (alone_overwritten_iff rfl (once _)).2.1.2 (by decide)
  · exact (alone_overwritten_iff rfl (once _)).2.2 Procedure.counterFacts_regular.disjoint

theorem State.overlapping_survives (source : Json.Source) :
    ofJson source overlapping.toJson = .ok overlapping := by
  have nothing (slot : Slot) (i : Interval) : overlapping.values[slot]? ≠ some i := by
    simp [overlapping]
  have words : ∀ c ∈ overlapping.aliases.classes.toList, ∀ slot ∈ c.toList,
      slot.bits < 2 ^ 64 := by decide
  have fits : overlapping.Fits :=
    ⟨fun slot i entry => absurd entry (nothing slot i), fun c hc slot here =>
      words c (Std.ExtTreeSet.mem_toList.2 hc) slot (Std.ExtTreeSet.mem_toList.2 here)⟩
  exact (survives fits (fun slot i entry => absurd entry (nothing slot i)) source).read

theorem State.overlapping_describes : overlapping.Describes 0 :=
  describes_of_entries (fun _ entry => by simp [overlapping] at entry) fun _ _ _ => by simp

/-- Overwrites a slot and compares it with one that it was equal to. -/
def stalePoints : List Point :=
  [⟨0, .const (cell "a") ⟨5, 32⟩, none⟩, ⟨1, .branch ⟨.eq, .slot (cell "a"), .slot (cell "c")⟩, none⟩,
    ⟨2, .ret none, none⟩, ⟨3, .ret none, none⟩]

def staleEdges : List Edge :=
  [⟨0, 1, .sequential⟩, ⟨1, 2, .branchTrue⟩, ⟨1, 3, .branchFalse⟩]

namespace Procedure

def stale : Procedure where
  name := "stale"
  parameters := []
  graph := (FlowGraph.assemble (some 0) stalePoints staleEdges).toOption.getD .empty

/-- The slot that was overwritten differs from what it was equal to. -/
theorem stale_reaches :
    stale.Reaches ∅ ⟨0, 0⟩ ⟨3, Function.update 0 (cell "a") 5⟩ := by
  have overwritten : stale.Step ∅ ⟨0, 0⟩ ⟨1, Function.update 0 (cell "a") 5⟩ :=
    ⟨⟨0, .const (cell "a") ⟨5, 32⟩, none⟩, ⟨0, 1, .sequential⟩, by decide, rfl, by decide, trivial⟩
  have differs : stale.Step ∅ ⟨1, Function.update 0 (cell "a") 5⟩
      ⟨3, Function.update 0 (cell "a") 5⟩ := by
    refine ⟨⟨1, .branch ⟨.eq, .slot (cell "a"), .slot (cell "c")⟩, none⟩, ⟨1, 3, .branchFalse⟩,
      by decide, rfl, by decide, ?_⟩
    have apart : Comparison.eq.holds (5 : BitVec 32).toInt (0 : BitVec 32).toInt = false := by decide
    rw [FlowGraph.takes_branchFalse rfl]
    exact Bool.eq_false_iff.1 apart
  exact .tail (.single overwritten) differs

/-- A state with overlapping classes can be read and is accepted. The slot in two of its classes keeps an
alias when it is overwritten, the branch that compares the two is taken to be decided, and a point that
an execution gets to has no state in the report. -/
theorem stale_alias_hides_point :
    (∀ source, State.ofJson source State.overlapping.toJson = .ok .overlapping) ∧
      ((Operation.const (cell "a") ⟨5, 32⟩).apply ∅ .overlapping).aliases.areAliased
        (cell "a") (cell "c") ∧
      ¬((Operation.const (cell "a") ⟨5, 32⟩).apply ∅ .overlapping).aliases.Alone (cell "a") ∧
      (∃ report, stale.analyze .overlapping {} = .ok report ∧ report.outcome = .converged ∧
        report.states[3]? = none) ∧
      State.overlapping.Describes 0 ∧
      stale.Reaches ∅ ⟨0, 0⟩ ⟨3, Function.update 0 (cell "a") 5⟩ := by
  have aliased : ((Operation.const (cell "a") ⟨5, 32⟩).apply ∅ .overlapping).aliases.areAliased
      (cell "a") (cell "c") := by decide
  have looked : (stale.analyze .overlapping {}).map (fun report =>
      (report.outcome, report.states[3]?.isNone)) = .ok (.converged, true) := by decide
  obtain ⟨report, analysed, seen⟩ := exists_of_map_eq_ok looked
  obtain ⟨converged, missing⟩ := Prod.mk.inj seen
  have kept : ¬((Operation.const (cell "a") ⟨5, 32⟩).apply ∅ .overlapping).aliases.Alone (cell "a") :=
    fun alone => absurd (alone.eq_of_areAliased _ aliased) (by decide)
  exact ⟨State.overlapping_survives, aliased, kept,
    ⟨report, analysed, converged, Option.isNone_iff_eq_none.1 missing⟩, State.overlapping_describes,
    stale_reaches⟩

end Procedure

end Overlapping

end RangeFlow
