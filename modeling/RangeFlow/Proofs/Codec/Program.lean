import RangeFlow.Codec.Program
import RangeFlow.Proofs.Json.Reader

/-!
# Programs that survive

A part of a program fits if its indices and widths are natural numbers of 64 bits and its constants and
case values are signed integers of 64 bits (`Operation.Fits` and its like). What fits survives being
written and read, and what is read fits.
-/

namespace RangeFlow

open Json (Survives)

/-! ## What fits -/

def Slot.Fits (slot : Slot) : Prop := slot.bits < 2 ^ 64

def Constant.Fits (constant : Constant) : Prop :=
  Width.Holds 64 constant.value ∧ constant.bits < 2 ^ 64

def Operand.Fits : Operand → Prop
  | slot s => s.Fits
  | constant c => c.Fits

def Condition.Fits (condition : Condition) : Prop := condition.lhs.Fits ∧ condition.rhs.Fits

/-- The widths and constants of an operation are machine numbers. -/
def Operation.Fits : Operation → Prop
  | const dst constant => dst.Fits ∧ constant.Fits
  | copy dst src => dst.Fits ∧ src.Fits
  | unary dst _ operand => dst.Fits ∧ operand.Fits
  | binary dst _ lhs rhs => dst.Fits ∧ lhs.Fits ∧ rhs.Fits
  | cast dst src => dst.Fits ∧ src.Fits
  | branch condition => condition.Fits
  | switch scrutinee => scrutinee.Fits
  | arrayLoad dst index length => dst.Fits ∧ index.Fits ∧ ∀ l ∈ length, l.Fits
  | arrayStore index value length => index.Fits ∧ value.Fits ∧ ∀ l ∈ length, l.Fits
  | call dst _ arguments => (∀ d ∈ dst, d.Fits) ∧ ∀ a ∈ arguments, a.Fits
  | ret value => ∀ v ∈ value, v.Fits
  | nop => True
  | unsupported _ writes => ∀ slot ∈ writes, slot.Fits

/-- The case values of an edge are machine numbers. -/
def EdgeKind.Fits : EdgeKind → Prop
  | switchCase values => ∀ value ∈ values, Width.Holds 64 value
  | _ => True

def Edge.Fits (edge : Edge) : Prop := edge.head < 2 ^ 64 ∧ edge.tail < 2 ^ 64 ∧ edge.kind.Fits

def Point.Fits (point : Point) : Prop := point.index < 2 ^ 64 ∧ point.operation.Fits

/-- Merging brings in no other case values. -/
theorem EdgeKind.fits_merge? {a b c : EdgeKind} (left : a.Fits) (right : b.Fits)
    (h : a.merge? b = some c) : c.Fits := by
  cases a <;> cases b <;> simp [merge?] at h <;> subst h <;> try trivial
  intro value mem
  rcases Std.ExtTreeSet.mem_union_iff.1 mem with mem | mem
  · exact left value mem
  · exact right value mem

/-! ## What survives -/

theorem Slot.survives {slot : Slot} (fits : slot.Fits) : Survives toJson ofJson slot where
  written := Json.written_record (by simp)
  read := by simp [toJson, ofJson, Json.toFields_record, Json.toNat_nat fits, pure_eq_ok]

theorem Constant.survives {constant : Constant} (fits : constant.Fits) :
    Survives toJson ofJson constant where
  written := Json.written_record (by simp)
  read := by
    simp [toJson, ofJson, Json.toFields_record, Json.toInt_int fits.1, Json.toNat_nat fits.2,
      pure_eq_ok]

theorem Operand.survives {operand : Operand} (fits : operand.Fits) :
    Survives toJson ofJson operand := by
  cases operand with
  | slot slot =>
    have inner := Slot.survives fits
    exact ⟨Json.written_variant _ inner.written, by simp [toJson, ofJson, Json.filled, inner.read]⟩
  | constant constant =>
    have inner := Constant.survives fits
    exact ⟨Json.written_variant _ inner.written, by simp [toJson, ofJson, Json.filled, inner.read]⟩

theorem Comparison.survives (comparison : Comparison) : Survives toJson ofJson comparison := by
  cases comparison <;> exact ⟨Json.written_text _, by simp [toJson, ofJson, Json.bare]⟩

theorem UnaryOperator.survives (operator : UnaryOperator) : Survives toJson ofJson operator := by
  cases operator <;> exact ⟨Json.written_text _, by simp [toJson, ofJson, Json.bare]⟩

theorem BinaryOperator.survives (operator : BinaryOperator) : Survives toJson ofJson operator := by
  cases operator <;> exact ⟨Json.written_text _, by simp [toJson, ofJson, Json.bare]⟩

theorem Condition.survives {condition : Condition} (fits : condition.Fits) :
    Survives toJson ofJson condition := by
  have comparison := condition.comparison.survives
  have lhs := Operand.survives fits.1
  have rhs := Operand.survives fits.2
  constructor
  · exact Json.written_record (by simp [comparison.written, lhs.written, rhs.written])
  · simp [toJson, ofJson, Json.toFields_record, comparison.read, lhs.read, rhs.read, pure_eq_ok]

theorem Slot.toJson_ne_null (slot : Slot) : slot.toJson ≠ .null := by
  simp [toJson, Json.record]

theorem Operand.toJson_ne_null (operand : Operand) : operand.toJson ≠ .null := by
  cases operand <;> simp [toJson, Json.variant, Json.record]

theorem survives_operands {operands : List Operand} (fits : ∀ operand ∈ operands, operand.Fits) :
    Survives (Json.ofList Operand.toJson) (Json.toList Operand.ofJson) operands :=
  .ofList fun operand mem => Operand.survives (fits operand mem)

theorem survives_operand? {operand : Option Operand} (fits : ∀ o ∈ operand, o.Fits) :
    Survives (Json.ofOption Operand.toJson) (Json.toOption Operand.ofJson) operand :=
  .ofOption Operand.toJson_ne_null fun operand mem => Operand.survives (fits operand mem)

theorem survives_slots {slots : List Slot} (fits : ∀ slot ∈ slots, slot.Fits) :
    Survives (Json.ofList Slot.toJson) (Json.toList Slot.ofJson) slots :=
  .ofList fun slot mem => Slot.survives (fits slot mem)

theorem survives_slot? {slot : Option Slot} (fits : ∀ s ∈ slot, s.Fits) :
    Survives (Json.ofOption Slot.toJson) (Json.toOption Slot.ofJson) slot :=
  .ofOption Slot.toJson_ne_null fun slot mem => Slot.survives (fits slot mem)

theorem Operation.survives {operation : Operation} (fits : operation.Fits) (source : Json.Source) :
    Survives toJson (ofJson source) operation := by
  cases operation with
  | const dst constant =>
    have dst := Slot.survives fits.1
    have constant := Constant.survives fits.2
    constructor
    · exact Json.written_variant _ (Json.written_record (by simp [dst.written, constant.written]))
    · simp [toJson, ofJson, Json.filledFields_record, dst.read, constant.read, pure_eq_ok]
  | copy dst src =>
    have dst := Slot.survives fits.1
    have src := Slot.survives fits.2
    constructor
    · exact Json.written_variant _ (Json.written_record (by simp [dst.written, src.written]))
    · simp [toJson, ofJson, Json.filledFields_record, dst.read, src.read, pure_eq_ok]
  | unary dst operator operand =>
    have dst := Slot.survives fits.1
    have operator := operator.survives
    have operand := Operand.survives fits.2
    constructor
    · exact Json.written_variant _ (Json.written_record (by
        simp [dst.written, operator.written, operand.written]))
    · simp [toJson, ofJson, Json.filledFields_record, dst.read, operator.read, operand.read,
        pure_eq_ok]
  | binary dst operator lhs rhs =>
    have dst := Slot.survives fits.1
    have operator := operator.survives
    have lhs := Operand.survives fits.2.1
    have rhs := Operand.survives fits.2.2
    constructor
    · exact Json.written_variant _ (Json.written_record (by
        simp [dst.written, operator.written, lhs.written, rhs.written]))
    · simp [toJson, ofJson, Json.filledFields_record, dst.read, operator.read, lhs.read, rhs.read,
        pure_eq_ok]
  | cast dst src =>
    have dst := Slot.survives fits.1
    have src := Operand.survives fits.2
    constructor
    · exact Json.written_variant _ (Json.written_record (by simp [dst.written, src.written]))
    · simp [toJson, ofJson, Json.filledFields_record, dst.read, src.read, pure_eq_ok]
  | branch condition =>
    have condition := Condition.survives fits
    constructor
    · exact Json.written_variant _ (Json.written_record (by simp [condition.written]))
    · simp [toJson, ofJson, Json.filledFields_record, condition.read, pure_eq_ok]
  | switch scrutinee =>
    have scrutinee := Operand.survives fits
    constructor
    · exact Json.written_variant _ (Json.written_record (by simp [scrutinee.written]))
    · simp [toJson, ofJson, Json.filledFields_record, scrutinee.read, pure_eq_ok]
  | arrayLoad dst index length =>
    have dst := Slot.survives fits.1
    have index := Operand.survives fits.2.1
    have length := survives_operand? fits.2.2
    constructor
    · exact Json.written_variant _ (Json.written_record (by
        simp [dst.written, index.written, length.written]))
    · simp [toJson, ofJson, Json.filledFields_record, dst.read, index.read, length.read, pure_eq_ok]
  | arrayStore index value length =>
    have index := Operand.survives fits.1
    have value := Operand.survives fits.2.1
    have length := survives_operand? fits.2.2
    constructor
    · exact Json.written_variant _ (Json.written_record (by
        simp [index.written, value.written, length.written]))
    · simp [toJson, ofJson, Json.filledFields_record, index.read, value.read, length.read,
        pure_eq_ok]
  | call dst target arguments =>
    have dst := survives_slot? fits.1
    have arguments := survives_operands fits.2
    constructor
    · exact Json.written_variant _ (Json.written_record (by simp [dst.written, arguments.written]))
    · simp [toJson, ofJson, Json.filledFields_record, dst.read, arguments.read, pure_eq_ok]
  | ret value =>
    have value := survives_operand? fits
    constructor
    · exact Json.written_variant _ (Json.written_record (by simp [value.written]))
    · simp [toJson, ofJson, Json.filledFields_record, value.read, pure_eq_ok]
  | nop =>
    exact ⟨Json.written_text _, by simp [toJson, ofJson, Json.bare]⟩
  | unsupported mnemonic writes =>
    have writes := survives_slots fits
    constructor
    · exact Json.written_variant _ (Json.written_record (by simp [writes.written]))
    · simp [toJson, ofJson, Json.filledFields_record, writes.read, pure_eq_ok]

theorem EdgeKind.survives {kind : EdgeKind} (fits : kind.Fits) : Survives toJson ofJson kind := by
  cases kind with
  | switchCase values =>
    have listed : Survives (Json.ofList Json.int) (Json.toList Json.toInt) values.toList :=
      .ofList fun value mem =>
        ⟨Json.written_int value, Json.toInt_int (fits value (Std.ExtTreeSet.mem_toList.1 mem))⟩
    constructor
    · exact Json.written_variant _ listed.written
    · simp [toJson, ofJson, Json.filled, listed.read, pure_eq_ok, ofList_toList]
  | _ => exact ⟨Json.written_text _, by simp [toJson, ofJson, Json.bare]⟩

theorem Edge.survives {edge : Edge} (fits : edge.Fits) : Survives toJson ofJson edge := by
  have kind := EdgeKind.survives fits.2.2
  constructor
  · exact Json.written_record (by simp [kind.written])
  · simp [toJson, ofJson, Json.toFields_record, Json.toNat_nat fits.1, Json.toNat_nat fits.2.1,
      kind.read, pure_eq_ok]

theorem Point.survives {point : Point} (fits : point.Fits) (source : Json.Source) :
    Survives toJson (ofJson source) point := by
  have operation := Operation.survives fits.2 source
  have comment : Survives (Json.ofOption Json.text) (Json.toOption Json.toText) point.comment :=
    .ofOption (by simp [Json.text]) fun text _ => ⟨Json.written_text text, Json.toText_text text⟩
  constructor
  · exact Json.written_record (by simp [operation.written, comment.written])
  · simp [toJson, ofJson, Json.toFields_record, Json.toNat_nat fits.1, operation.read, comment.read,
      pure_eq_ok]

/-! ## What is read -/

theorem Slot.fits_of_ofJson {json : Json} {slot : Slot} (h : ofJson json = .ok slot) : slot.Fits := by
  simp only [ofJson, bind_eq_ok_iff, pure_eq_ok, Except.ok.injEq] at h
  obtain ⟨fields, -, name, -, bits, read, rfl⟩ := h
  obtain ⟨json, read⟩ := Json.Fields.exists_of_get read
  exact Json.lt_of_toNat read

theorem Constant.fits_of_ofJson {json : Json} {constant : Constant} (h : ofJson json = .ok constant) :
    constant.Fits := by
  simp only [ofJson, bind_eq_ok_iff, pure_eq_ok, Except.ok.injEq] at h
  obtain ⟨fields, -, value, readValue, bits, readBits, rfl⟩ := h
  obtain ⟨json, readValue⟩ := Json.Fields.exists_of_get readValue
  obtain ⟨json', readBits⟩ := Json.Fields.exists_of_get readBits
  exact ⟨Json.holds_of_toInt readValue, Json.lt_of_toNat readBits⟩

theorem Operand.fits_of_ofJson {json : Json} {operand : Operand} (h : ofJson json = .ok operand) :
    operand.Fits := by
  obtain ⟨⟨name, contents⟩, -, h⟩ := bind_eq_ok_iff.1 h
  split at h
  · obtain ⟨slot, read, rfl⟩ := exists_of_map_eq_ok h
    obtain ⟨json, read⟩ := Json.exists_of_filled read
    exact Slot.fits_of_ofJson read
  · obtain ⟨constant, read, rfl⟩ := exists_of_map_eq_ok h
    obtain ⟨json, read⟩ := Json.exists_of_filled read
    exact Constant.fits_of_ofJson read
  · cases h

section Fields

variable {fields : Json.Fields} {name : String}

theorem Slot.fits_of_get {slot : Slot} (h : fields.get name Slot.ofJson = .ok slot) : slot.Fits :=
  (Json.Fields.exists_of_get h).elim fun _ => Slot.fits_of_ofJson

theorem Operand.fits_of_get {operand : Operand} (h : fields.get name Operand.ofJson = .ok operand) :
    operand.Fits :=
  (Json.Fields.exists_of_get h).elim fun _ => Operand.fits_of_ofJson

theorem Operand.fits_of_get? {operand : Option Operand}
    (h : fields.get? name Operand.ofJson = .ok operand) : ∀ o ∈ operand, o.Fits := fun o mem =>
  (Json.Fields.exists_of_get? h o mem).elim fun _ => Operand.fits_of_ofJson

theorem Condition.fits_of_get {condition : Condition}
    (h : fields.get name Condition.ofJson = .ok condition) : condition.Fits := by
  obtain ⟨json, h⟩ := Json.Fields.exists_of_get h
  simp only [ofJson, bind_eq_ok_iff, pure_eq_ok, Except.ok.injEq] at h
  obtain ⟨fields, -, comparison, -, lhs, left, rhs, right, rfl⟩ := h
  exact ⟨Operand.fits_of_get left, Operand.fits_of_get right⟩

/-- The members of a list that is read are read each. -/
theorem forall_of_get {α : Type} {read : Json → Except Error α} {l : List α} {P : α → Prop}
    (each : ∀ {json a}, read json = .ok a → P a) (h : fields.get name (Json.toList read) = .ok l) :
    ∀ a ∈ l, P a := by
  obtain ⟨json, h⟩ := Json.Fields.exists_of_get h
  intro a mem
  obtain ⟨item, found⟩ := Json.exists_of_mem_toList h mem
  exact each found

end Fields

theorem Operation.fits_of_ofJson {source : Json.Source} {json : Json} {operation : Operation}
    (h : ofJson source json = .ok operation) : operation.Fits := by
  obtain ⟨⟨name, contents⟩, -, h⟩ := bind_eq_ok_iff.1 h
  split at h <;> try simp only [bind_eq_ok_iff, pure_eq_ok, Except.ok.injEq] at h
  case h_1 =>
    obtain ⟨fields, -, dst, written, constant, read, rfl⟩ := h
    obtain ⟨json, read⟩ := Json.Fields.exists_of_get read
    exact ⟨Slot.fits_of_get written, Constant.fits_of_ofJson read⟩
  case h_2 =>
    obtain ⟨fields, -, dst, written, src, read, rfl⟩ := h
    exact ⟨Slot.fits_of_get written, Slot.fits_of_get read⟩
  case h_3 =>
    obtain ⟨fields, -, dst, written, operator, -, operand, read, rfl⟩ := h
    exact ⟨Slot.fits_of_get written, Operand.fits_of_get read⟩
  case h_4 =>
    obtain ⟨fields, -, dst, written, operator, -, lhs, left, rhs, right, rfl⟩ := h
    exact ⟨Slot.fits_of_get written, Operand.fits_of_get left, Operand.fits_of_get right⟩
  case h_5 =>
    obtain ⟨fields, -, dst, written, src, read, rfl⟩ := h
    exact ⟨Slot.fits_of_get written, Operand.fits_of_get read⟩
  case h_6 =>
    obtain ⟨fields, -, condition, read, rfl⟩ := h
    exact Condition.fits_of_get read
  case h_7 =>
    obtain ⟨fields, -, scrutinee, read, rfl⟩ := h
    exact Operand.fits_of_get read
  case h_8 =>
    obtain ⟨fields, -, dst, written, index, read, length, bounded, rfl⟩ := h
    exact ⟨Slot.fits_of_get written, Operand.fits_of_get read, Operand.fits_of_get? bounded⟩
  case h_9 =>
    obtain ⟨fields, -, index, read, value, stored, length, bounded, rfl⟩ := h
    exact ⟨Operand.fits_of_get read, Operand.fits_of_get stored, Operand.fits_of_get? bounded⟩
  case h_10 =>
    obtain ⟨fields, -, dst, written, target, -, arguments, passed, rfl⟩ := h
    refine ⟨fun slot mem => ?_, forall_of_get Operand.fits_of_ofJson passed⟩
    obtain ⟨json, read⟩ := Json.Fields.exists_of_get? written slot mem
    exact Slot.fits_of_ofJson read
  case h_11 =>
    obtain ⟨fields, -, value, read, rfl⟩ := h
    exact Operand.fits_of_get? read
  case h_12 =>
    obtain rfl := Json.eq_of_bare h
    trivial
  case h_13 =>
    obtain ⟨fields, -, mnemonic, -, writes, read, rfl⟩ := h
    exact forall_of_get Slot.fits_of_ofJson read
  case h_14 => cases h

theorem EdgeKind.fits_of_ofJson {json : Json} {kind : EdgeKind} (h : ofJson json = .ok kind) :
    kind.Fits := by
  obtain ⟨⟨name, contents⟩, -, h⟩ := bind_eq_ok_iff.1 h
  split at h
  case h_6 =>
    simp only [bind_eq_ok_iff, pure_eq_ok, Except.ok.injEq] at h
    obtain ⟨values, read, rfl⟩ := h
    obtain ⟨json, read⟩ := Json.exists_of_filled read
    intro value mem
    obtain ⟨item, found⟩ := Json.exists_of_mem_toList read (mem_ofList_iff.1 mem)
    exact Json.holds_of_toInt found
  case h_8 => cases h
  all_goals
    obtain rfl := Json.eq_of_bare h
    trivial

theorem Edge.fits_of_ofJson {json : Json} {edge : Edge} (h : ofJson json = .ok edge) : edge.Fits := by
  simp only [ofJson, bind_eq_ok_iff, pure_eq_ok, Except.ok.injEq] at h
  obtain ⟨fields, -, head, readHead, tail, readTail, kind, readKind, rfl⟩ := h
  obtain ⟨_, readHead⟩ := Json.Fields.exists_of_get readHead
  obtain ⟨_, readTail⟩ := Json.Fields.exists_of_get readTail
  obtain ⟨_, readKind⟩ := Json.Fields.exists_of_get readKind
  exact ⟨Json.lt_of_toNat readHead, Json.lt_of_toNat readTail, EdgeKind.fits_of_ofJson readKind⟩

theorem Point.fits_of_ofJson {source : Json.Source} {json : Json} {point : Point}
    (h : ofJson source json = .ok point) : point.Fits := by
  simp only [ofJson, bind_eq_ok_iff, pure_eq_ok, Except.ok.injEq] at h
  obtain ⟨fields, -, index, readIndex, operation, readOperation, comment, -, rfl⟩ := h
  obtain ⟨_, readIndex⟩ := Json.Fields.exists_of_get readIndex
  obtain ⟨_, readOperation⟩ := Json.Fields.exists_of_get readOperation
  exact ⟨Json.lt_of_toNat readIndex, Operation.fits_of_ofJson readOperation⟩

end RangeFlow
