import Mathlib
import RangeFlow.Error

/-!
# Computations that may fail

When a sequence of computations succeeds, for the ways in which the library puts them together: one
after the other, over a list for its effect, over a list for its results, and as a fold.
-/

namespace RangeFlow

variable {α β γ : Type} {l : List α}

-- Rewriting with these is to leave a trace in the proof, so they are not stated as definitional.
@[simp] theorem ok_bind (a : α) (f : α → Except Error β) : (Except.ok a >>= f) = f a := by
  simp [bind, Except.bind]

@[simp] theorem map_ok (f : α → β) (a : α) :
    (f <$> (Except.ok a : Except Error α)) = .ok (f a) := by
  simp [Functor.map, Except.map]

theorem pure_eq_ok (a : α) : (pure a : Except Error α) = .ok a := by
  simp [pure, Except.pure]

theorem bind_eq_ok_iff {x : Except Error α} {f : α → Except Error β} {r : β} :
    (x >>= f) = .ok r ↔ ∃ a, x = .ok a ∧ f a = .ok r := by
  cases x with
  | ok a => simp [bind, Except.bind]
  | error e => simp [bind, Except.bind]

theorem exists_of_map_eq_ok {x : Except Error α} {f : α → β} {r : β} (h : x.map f = .ok r) :
    ∃ a, x = .ok a ∧ f a = r := by
  cases x with
  | ok a => exact ⟨a, rfl, Except.ok.inj h⟩
  | error e => cases h

theorem forM_eq_ok_iff {f : α → Except Error Unit} :
    l.forM f = .ok () ↔ ∀ a ∈ l, f a = .ok () := by
  induction l with
  | nil => simp [pure, Except.pure]
  | cons a l ih =>
    change (f a >>= fun _ => l.forM f) = .ok () ↔ _
    rw [bind_eq_ok_iff, List.forall_mem_cons, ← ih]
    exact ⟨fun ⟨_, first, rest⟩ => ⟨first, rest⟩, fun ⟨first, rest⟩ => ⟨(), first, rest⟩⟩

/-- A computation whose results are known gives the list of them. -/
theorem mapM_eq_ok_map {f : α → Except Error β} {h : α → β} (each : ∀ a ∈ l, f a = .ok (h a)) :
    l.mapM f = .ok (l.map h) := by
  induction l with
  | nil => rfl
  | cons a l ih =>
    rw [List.mapM_cons, each a List.mem_cons_self, ih fun a ha => each a (List.mem_cons_of_mem _ ha)]
    rfl

/-- Results can be changed one by one or all together. -/
theorem mapM_map_eq (f : α → Except Error β) (h : β → γ) :
    (l.mapM fun a => h <$> f a) = List.map h <$> l.mapM f := by
  induction l with
  | nil => rfl
  | cons a l ih =>
    rw [List.mapM_cons, List.mapM_cons, ih]
    cases f a with
    | error e => rfl
    | ok b => cases l.mapM f <;> rfl

/-- A computation that succeeds on every member gives the list of its results. -/
theorem exists_mapM_eq_ok {f : α → Except Error β} (each : ∀ a ∈ l, ∃ b, f a = .ok b) :
    ∃ bs, l.mapM f = .ok bs ∧ ∀ b, b ∈ bs ↔ ∃ a ∈ l, f a = .ok b := by
  induction l with
  | nil => exact ⟨[], rfl, by simp⟩
  | cons a l ih =>
    obtain ⟨b, hb⟩ := each a List.mem_cons_self
    obtain ⟨bs, hbs, mem⟩ := ih fun a ha => each a (List.mem_cons_of_mem _ ha)
    refine ⟨b :: bs, ?_, fun b' => ?_⟩
    · rw [List.mapM_cons, hb, hbs]
      rfl
    · rw [List.mem_cons, List.exists_mem_cons_iff, mem, hb, Except.ok.injEq, eq_comm]

/-- Every member of a list of results is the result for some member. -/
theorem exists_of_mem_mapM {f : α → Except Error β} {bs : List β}
    (h : l.mapM f = .ok bs) {b : β} (mem : b ∈ bs) : ∃ a ∈ l, f a = .ok b := by
  induction l generalizing bs with
  | nil =>
    obtain rfl := Except.ok.inj h
    simp at mem
  | cons a l ih =>
    rw [List.mapM_cons] at h
    obtain ⟨first, done, h⟩ := bind_eq_ok_iff.1 h
    obtain ⟨rest, others, h⟩ := bind_eq_ok_iff.1 h
    obtain rfl := Except.ok.inj h
    rcases List.mem_cons.1 mem with rfl | mem
    · exact ⟨a, List.mem_cons_self, done⟩
    · obtain ⟨a', ha', found⟩ := ih others mem
      exact ⟨a', List.mem_cons_of_mem _ ha', found⟩

/-- Every member of a list has its result among the results. -/
theorem exists_mem_mapM {f : α → Except Error β} {bs : List β} (h : l.mapM f = .ok bs) {a : α}
    (mem : a ∈ l) : ∃ b ∈ bs, f a = .ok b := by
  induction l generalizing bs with
  | nil => cases mem
  | cons a' l ih =>
    rw [List.mapM_cons] at h
    obtain ⟨first, done, h⟩ := bind_eq_ok_iff.1 h
    obtain ⟨rest, others, h⟩ := bind_eq_ok_iff.1 h
    obtain rfl := Except.ok.inj h
    rcases List.mem_cons.1 mem with rfl | mem
    · exact ⟨first, List.mem_cons_self, done⟩
    · obtain ⟨b, hb, found⟩ := ih others mem
      exact ⟨b, List.mem_cons_of_mem _ hb, found⟩

/-- A fold that succeeds keeps what its successful steps keep. -/
theorem foldlM_induction {f : β → α → Except Error β} {I : β → Prop} {b r : β} (start : I b)
    (step : ∀ {b b' a}, a ∈ l → I b → f b a = .ok b' → I b') (h : l.foldlM f b = .ok r) : I r := by
  induction l generalizing b with
  | nil => exact Except.ok.inj h ▸ start
  | cons a l ih =>
    rw [List.foldlM_cons] at h
    obtain ⟨b', hb', h⟩ := bind_eq_ok_iff.1 h
    exact ih (step List.mem_cons_self start hb') (fun mem => step (List.mem_cons_of_mem _ mem)) h

end RangeFlow
