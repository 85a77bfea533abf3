import RangeFlow.Facts.Summary
import RangeFlow.FlowGraph.Procedure
import RangeFlow.Proofs.Semantics.Word

/-!
# Executions

The meaning of procedures on concrete stores. `Operation.Step` says what an operation does to a
store, `FlowGraph.Takes` along which edges control leaves a point, and `Procedure.Step` puts both
together. An execution is a path of `Procedure.Step` from the entry. Nothing here speaks of intervals
or abstract states.
-/

namespace RangeFlow

/-- A value of its own width for every slot. -/
abbrev Store := (slot : Slot) → BitVec slot.bits

/-- The word that an operand stands for. -/
def Operand.read (σ : Store) : (operand : Operand) → BitVec operand.bits
  | slot s => σ s
  | constant c => c.word

/-- Whether a condition is true, of the signed values of its sides. -/
def Condition.Holds (condition : Condition) (σ : Store) : Prop :=
  condition.comparison.holds (condition.lhs.read σ).toInt (condition.rhs.read σ).toInt

/-! ## Operations -/

/-- The values that a call may return in a word of some width. A call without a summary, or whose
summary names an argument that is not passed, may return anything. -/
def CallSummary.Allows {bits : Nat} (summary : Option CallSummary) (arguments : List Operand)
    (σ : Store) (result : BitVec bits) : Prop :=
  match summary with
  | some (.returns lo hi) => ∃ value : Int, lo ≤ value ∧ value ≤ hi ∧ result = BitVec.ofInt bits value
  | some (.returnsArgument position) =>
      ∀ argument, arguments[position]? = some argument →
        result = (argument.read σ).signExtend bits
  | none => True

/-- What an operation may do to a store. Results are sign-extended or truncated to the width of the
slot they are written to. An operation without a result leads nowhere. -/
def Operation.Step (summaries : Summaries) (operation : Operation) (σ σ' : Store) : Prop :=
  match operation with
  | const dst constant => σ' = Function.update σ dst (constant.word.signExtend dst.bits)
  | copy dst src => σ' = Function.update σ dst ((σ src).signExtend dst.bits)
  | unary dst operator operand =>
      σ' = Function.update σ dst ((operator.onWord (operand.read σ)).signExtend dst.bits)
  | binary dst operator lhs rhs =>
      ∃ result, operator.onWords (lhs.read σ) (rhs.read σ) = some result ∧
        σ' = Function.update σ dst (result.signExtend dst.bits)
  | cast dst src => σ' = Function.update σ dst ((src.read σ).signExtend dst.bits)
  | arrayLoad dst _ _ => ∃ element, σ' = Function.update σ dst element
  | call (some dst) target arguments =>
      ∃ result, CallSummary.Allows summaries[target]? arguments σ result ∧
        σ' = Function.update σ dst result
  | unsupported _ writes => ∀ slot, slot ∉ writes → σ' slot = σ slot
  | call none _ _ | branch _ | switch _ | arrayStore _ _ _ | ret _ | nop => σ' = σ

/-! ## Edges -/

namespace FlowGraph

/-- Whether control leaves a point with some operation along one of its edges. A default edge is
taken when the scrutinee is a value of no case edge of the same point. -/
def Takes (g : FlowGraph) (operation : Operation) (edge : Edge) (σ : Store) : Prop :=
  match operation, edge.kind with
  | .branch condition, .branchTrue => condition.Holds σ
  | .branch condition, .branchFalse => ¬condition.Holds σ
  | .switch scrutinee, .switchCase values => (scrutinee.read σ).toInt ∈ values
  | .switch scrutinee, .switchDefault =>
      ∀ tail sibling values, g.graph.edges[(⟨edge.head, tail⟩ : Link)]? = some sibling →
        sibling.kind = .switchCase values → (scrutinee.read σ).toInt ∉ values
  | _, _ => True

variable {g : FlowGraph} {edge : Edge} {σ : Store} {condition : Condition} {scrutinee : Operand}

theorem takes_branchTrue (kind : edge.kind = .branchTrue) :
    g.Takes (.branch condition) edge σ ↔ condition.Holds σ := by
  simp only [Takes, kind]

theorem takes_branchFalse (kind : edge.kind = .branchFalse) :
    g.Takes (.branch condition) edge σ ↔ ¬condition.Holds σ := by
  simp only [Takes, kind]

theorem takes_switchCase {values : CaseSet} (kind : edge.kind = .switchCase values) :
    g.Takes (.switch scrutinee) edge σ ↔ (scrutinee.read σ).toInt ∈ values := by
  simp only [Takes, kind]

theorem takes_switchDefault (kind : edge.kind = .switchDefault) :
    g.Takes (.switch scrutinee) edge σ ↔
      ∀ tail sibling values, g.graph.edges[(⟨edge.head, tail⟩ : Link)]? = some sibling →
        sibling.kind = .switchCase values → (scrutinee.read σ).toInt ∉ values := by
  simp only [Takes, kind]

/-- An edge that nothing decides about is always taken. -/
theorem takes_of_undecided {operation : Operation}
    (onTrue : ∀ condition, operation = .branch condition → edge.kind ≠ .branchTrue)
    (onFalse : ∀ condition, operation = .branch condition → edge.kind ≠ .branchFalse)
    (onCase : ∀ scrutinee values, operation = .switch scrutinee → edge.kind ≠ .switchCase values)
    (onDefault : ∀ scrutinee, operation = .switch scrutinee → edge.kind ≠ .switchDefault) :
    g.Takes operation edge σ := by
  unfold Takes
  split
  · exact absurd ‹_› (onTrue _ rfl)
  · exact absurd ‹_› (onFalse _ rfl)
  · exact absurd ‹_› (onCase _ _ rfl)
  · exact absurd ‹_› (onDefault _ rfl)
  · trivial

end FlowGraph

/-! ## Procedures -/

/-- Where an execution is, and what its slots hold in front of that point. -/
structure Configuration where
  point : Nat
  store : Store

namespace Procedure

/-- One step of an execution: the operation of a point is done and an edge taken. -/
def Step (p : Procedure) (summaries : Summaries) (before after : Configuration) : Prop :=
  ∃ point edge,
    p.graph.graph.vertices[before.point]? = some point ∧
    point.operation.Step summaries before.store after.store ∧
    p.graph.graph.edges[(⟨before.point, after.point⟩ : Link)]? = some edge ∧
    p.graph.Takes point.operation edge after.store

/-- The configurations that an execution can get to, in any number of steps. -/
def Reaches (p : Procedure) (summaries : Summaries) (first last : Configuration) : Prop :=
  Relation.ReflTransGen (p.Step summaries) first last

end Procedure

end RangeFlow
