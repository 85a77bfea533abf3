import RangeFlow.Journal.Event

/-!
# Noted results

A computation that may fail and that notes events on the way. The events in front of a failure are
kept.
-/

namespace RangeFlow

/-- The events of a computation and its result. -/
structure Noted (α : Type) where
  events : List Event
  result : Except Error α

namespace Noted

variable {α β : Type}

/-- A result without events. -/
def ofExcept (result : Except Error α) : Noted α := ⟨[], result⟩

/-- Notes some events. -/
def note (events : List Event) : Noted Unit := ⟨events, .ok ()⟩

/-- Continues with the result of a computation, unless that failed. -/
def andThen (x : Noted α) (f : α → Noted β) : Noted β :=
  match x.result with
  | .ok a =>
      let y := f a
      ⟨x.events ++ y.events, y.result⟩
  | .error e => ⟨x.events, .error e⟩

instance : Monad Noted where
  pure a := ofExcept (.ok a)
  bind := andThen

instance : MonadLift (Except Error) Noted where
  monadLift := ofExcept

end Noted

/-- Checks a graph and notes the points that control cannot reach. -/
def FlowGraph.validateNoted (g : FlowGraph) : Noted Unit := do
  g.validate
  Noted.note g.events

/-- Checks a procedure and notes the points that control cannot reach. -/
def Procedure.validateNoted (p : Procedure) : Noted Unit := do
  p.checkParameters
  p.graph.validateNoted

end RangeFlow
