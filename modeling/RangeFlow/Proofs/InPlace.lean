import RangeFlow.Proofs.Result

/-!
# Computations that write in place

A computation that changes a value in place, write by write, and that may be refused on the way. What
was written before it was refused stays written (`InPlace.outcome`), so that a refusal that leaves the
value as it was is a property of the order of its checks and writes. A computation has it that is an
update made at once (`atomically`). Arithmetic on indices that are words can overflow, and then there is
no value to go on with (`overflow`).
-/

namespace RangeFlow

variable {σ κ α β : Type}

/-- A computation on a value that is changed in place. -/
abbrev InPlace (σ : Type) : Type → Type := ExceptT Error (StateT σ Option)

namespace InPlace

/-- The result, or the error, and what the value has become. -/
def outcome (x : InPlace σ α) (s : σ) : Option (Except Error α × σ) := x.run.run s

theorem ext {x y : InPlace σ α} (h : ∀ s, x.outcome s = y.outcome s) : x = y := funext h

theorem outcome_get_bind (f : σ → InPlace σ α) (s : σ) :
    (get >>= f : InPlace σ α).outcome s = (f s).outcome s := rfl

theorem outcome_bind (x : InPlace σ α) (f : α → InPlace σ β) (s : σ) : (x >>= f).outcome s =
    match x.outcome s with
    | some (.ok a, s') => (f a).outcome s'
    | some (.error e, s') => some (.error e, s')
    | none => none := by
  show Option.bind (x.outcome s) _ = _
  rcases x.outcome s with _ | ⟨_ | _, _⟩ <;> rfl

/-- Refuses to go on under a condition. -/
def refuseIf (c : Prop) [Decidable c] (e : Error) : InPlace σ Unit := if c then throw e else pure ()

theorem outcome_refuseIf_bind (c : Prop) [Decidable c] (e : Error) (f : Unit → InPlace σ α) (s : σ) :
    (refuseIf c e >>= f : InPlace σ α).outcome s =
      if c then some (.error e, s) else (f ()).outcome s := by
  rw [refuseIf]
  split_ifs <;> rfl

/-- The end of a computation that cannot go on. -/
def overflow : InPlace σ α := ExceptT.mk fun _ => none

/-- The update that a function gives, made at once if there is one. -/
def atomically (f : σ → Except Error σ) : InPlace σ Unit := do
  match f (← get) with
  | .ok s => set s
  | .error e => throw e

theorem outcome_atomically (f : σ → Except Error σ) (s : σ) : (atomically f).outcome s =
    match f s with
    | .ok s' => some (.ok (), s')
    | .error e => some (.error e, s) := by
  rw [atomically, outcome_get_bind]
  cases f s <;> rfl

theorem outcome_atomically_ne_none (f : σ → Except Error σ) (s : σ) :
    (atomically f).outcome s ≠ none := by
  rw [outcome_atomically]
  cases f s <;> exact Option.some_ne_none _

/-- A computation that ends in an error, whatever it has written. -/
def Refused (x : InPlace σ α) (s : σ) : Prop := ∃ e s', x.outcome s = some (.error e, s')

theorem refused_atomically_iff {f : σ → Except Error σ} {s : σ} :
    Refused (atomically f) s ↔ ∃ e, f s = .error e := by
  rw [Refused, outcome_atomically]
  cases f s <;> simp

/-- What the value has become after some calls, the refused ones included. -/
def history (perform : κ → InPlace σ Unit) (start : σ) (calls : List κ) : Option σ :=
  calls.foldlM (fun s call => ((perform call).outcome s).map Prod.snd) start

theorem history_cons_eq_some_iff {perform : κ → InPlace σ Unit} {start s : σ} {call : κ}
    {calls : List κ} : history perform start (call :: calls) = some s ↔
      ∃ r s', (perform call).outcome start = some (r, s') ∧ history perform s' calls = some s := by
  rw [history, List.foldlM_cons]
  cases (perform call).outcome start with
  | none => simp
  | some made => simp [history, Prod.ext_iff]

/-- A history keeps what every call keeps. -/
theorem history_induction {perform : κ → InPlace σ Unit} {P : σ → Prop} {start s : σ} {calls : List κ}
    (first : P start)
    (step : ∀ {call s s' r}, P s → (perform call).outcome s = some (r, s') → P s')
    (h : history perform start calls = some s) : P s := by
  induction calls generalizing start with
  | nil => exact Option.some.inj h ▸ first
  | cons call calls ih =>
    obtain ⟨r, s', made, h⟩ := history_cons_eq_some_iff.1 h
    exact ih (step first made) h

/-- A history that is not cut short is a fold over what each call leaves. -/
theorem eq_foldl_of_history {perform : κ → InPlace σ Unit} {leave : σ → κ → σ} {start s : σ}
    {calls : List κ}
    (step : ∀ {call s s' r}, (perform call).outcome s = some (r, s') → s' = leave s call)
    (h : history perform start calls = some s) : s = calls.foldl leave start := by
  induction calls generalizing start with
  | nil => exact (Option.some.inj h).symm
  | cons call calls ih =>
    obtain ⟨r, s', made, h⟩ := history_cons_eq_some_iff.1 h
    rw [List.foldl_cons, ← step made]
    exact ih h

/-- Updates that are made at once leave what the accepted ones among them give. -/
theorem history_atomically (run : σ → κ → Except Error σ) (start : σ) (calls : List κ) :
    history (fun call => atomically fun s => run s call) start calls =
      some (calls.foldl (fun s call => (run s call).toOption.getD s) start) := by
  induction calls generalizing start with
  | nil => rfl
  | cons call calls ih =>
    rw [history_cons_eq_some_iff, outcome_atomically, List.foldl_cons]
    cases run start call with
    | ok s => exact ⟨_, _, rfl, ih s⟩
    | error e => exact ⟨_, _, rfl, ih start⟩

end InPlace

end RangeFlow
