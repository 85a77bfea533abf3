import Mathlib
import RangeFlow.Journal.Noted

/-!
# Noted computations

Noted computations obey the laws of a monad: the events of a computation are those of its parts, in
their order, up to a failure. The result of a computation does not depend on events.
-/

namespace RangeFlow.Noted

variable {α β : Type}

theorem result_bind (x : Noted α) (f : α → Noted β) :
    (x >>= f).result = x.result >>= fun a => (f a).result := by
  change (andThen x f).result = _
  unfold andThen
  cases x.result with
  | ok a => rfl
  | error e => rfl

theorem result_pure (a : α) : (pure a : Noted α).result = .ok a := rfl

theorem result_note (events : List Event) : (note events).result = .ok () := rfl

theorem result_lift (x : Except Error α) : (liftM x : Noted α).result = x := rfl

theorem events_bind (x : Noted α) (f : α → Noted β) :
    (x >>= f).events = x.events ++ match x.result with
      | .ok a => (f a).events
      | .error _ => [] := by
  change (andThen x f).events = _
  unfold andThen
  cases x.result with
  | ok a => rfl
  | error e => exact (List.append_nil _).symm

theorem andThen_ofExcept (x : Noted α) : x.andThen (fun a => ofExcept (.ok a)) = x := by
  obtain ⟨events, result⟩ := x
  cases result <;> simp [andThen, ofExcept]

theorem andThen_assoc {γ : Type} (x : Noted α) (f : α → Noted β) (g : β → Noted γ) :
    (x.andThen f).andThen g = x.andThen fun a => (f a).andThen g := by
  obtain ⟨events, result⟩ := x
  cases result with
  | error e => rfl
  | ok a => cases later : (f a).result <;> simp [andThen, later]

instance : LawfulMonad Noted :=
  LawfulMonad.mk' Noted andThen_ofExcept (fun _ _ => rfl) andThen_assoc

theorem result_map (f : α → β) (x : Noted α) : (f <$> x).result = f <$> x.result := by
  rw [map_eq_pure_bind, result_bind]
  cases x.result with
  | ok a => rfl
  | error e => rfl

instance : LawfulMonadLift (Except Error) Noted where
  monadLift_pure _ := rfl
  monadLift_bind x f := by
    cases x with
    | ok a => simp [bind, Except.bind, andThen, MonadLift.monadLift, ofExcept]
    | error e => rfl

end RangeFlow.Noted
