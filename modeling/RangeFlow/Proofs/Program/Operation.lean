import RangeFlow.Program.Operation
import RangeFlow.Proofs.Width

/-!
# Well-sorted operations

`Operation.WellSorted` is what a passed check of sorts guarantees, and `Operation.slots` lists the
slots that an operation speaks of.
-/

namespace RangeFlow.Operation

/-- Every width is valid, and operands that are combined with each other have one width. -/
def WellSorted (operation : Operation) : Prop :=
  (∀ bits ∈ operation.widths, Width.isValid bits) ∧ operation.sortsAgree

theorem checkSorts_eq_ok {operation : Operation} {point : Nat} :
    operation.checkSorts point = .ok () ↔ operation.WellSorted := by
  unfold checkSorts WellSorted
  cases invalid : operation.widths.find? fun bits => !Width.isValid bits with
  | some bits =>
    have found := List.find?_some invalid
    have mem := List.mem_of_find?_eq_some invalid
    simp only [reduceCtorEq, false_iff, not_and]
    intro all
    simp [all bits mem] at found
  | none =>
    have all : ∀ bits ∈ operation.widths, Width.isValid bits := by
      simpa using List.find?_eq_none.1 invalid
    cases operation.sortsAgree <;> simp_all

/-- The slots that an operation writes or reads. -/
def slots (operation : Operation) : List Slot :=
  operation.slotsWritten ++ operation.operandsRead.filterMap Operand.slot? ++
    match operation with
    | copy _ src => [src]
    | _ => []

theorem mem_slots_of_mem_slotsWritten {operation : Operation} {slot : Slot}
    (h : slot ∈ operation.slotsWritten) : slot ∈ operation.slots :=
  List.mem_append_left _ (List.mem_append_left _ h)

theorem mem_slots_of_mem_operandsRead {operation : Operation} {operand : Operand} {slot : Slot}
    (h : operand ∈ operation.operandsRead) (hs : operand.slot? = some slot) :
    slot ∈ operation.slots :=
  List.mem_append_left _ (List.mem_append_right _ (List.mem_filterMap.2 ⟨operand, h, hs⟩))

variable {operation : Operation}

theorem WellSorted.written (sorted : operation.WellSorted) {slot : Slot}
    (h : slot ∈ operation.slotsWritten) : Width.isValid slot.bits :=
  sorted.1 _ (List.mem_append_left _ (List.mem_append_left _ (List.mem_map_of_mem h)))

theorem WellSorted.read (sorted : operation.WellSorted) {operand : Operand}
    (h : operand ∈ operation.operandsRead) : Width.isValid operand.bits :=
  sorted.1 _ (List.mem_append_left _ (List.mem_append_right _ (List.mem_map_of_mem h)))

theorem WellSorted.copied {dst src : Slot} (sorted : (copy dst src).WellSorted) :
    dst.bits = src.bits ∧ Width.isValid dst.bits ∧ Width.isValid src.bits := by
  refine ⟨of_decide_eq_true sorted.2, ?_, ?_⟩
  · exact sorted.1 _ (by simp [widths, slotsWritten])
  · exact sorted.1 _ (by simp [widths])

theorem WellSorted.valid_of_mem_slots (sorted : operation.WellSorted) {slot : Slot}
    (h : slot ∈ operation.slots) : Width.isValid slot.bits := by
  unfold slots at h
  rw [List.mem_append, List.mem_append] at h
  rcases h with (written | read) | copied
  · exact sorted.written written
  · obtain ⟨operand, mem, named⟩ := List.mem_filterMap.1 read
    have valid := sorted.read mem
    cases operand with
    | slot s =>
      obtain rfl := Option.some.inj named
      exact valid
    | constant c => cases named
  · split at copied
    · obtain rfl := List.mem_singleton.1 copied
      exact sorted.copied.2.2
    · cases copied

end RangeFlow.Operation
