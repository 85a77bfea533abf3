import RangeFlow.Json.Reader
import RangeFlow.Proofs.Facts.Reading
import RangeFlow.Proofs.Json.Parser
import RangeFlow.Proofs.Width

/-!
# Values that survive

A value survives being written and read if its tree can be written and the value is what is read from
the tree (`Json.Survives`). Texts and machine numbers survive, and lists, options and pairs of what
survives. A record is read field by field, in the order in which it was written
(`Json.visitRecord_record`). The text of a tree is read as the tree is (`Json.readText_render`).
-/

namespace RangeFlow.Json

/-- A value is read back from its tree, and the tree from its text. -/
structure Survives {α : Type} (write : α → Json) (read : Json → Except Error α) (a : α) : Prop where
  written : (write a).Written
  read : read (write a) = .ok a

variable {α β : Type} {write : α → Json} {read : Json → Except Error α}

/-! ## Simple values -/

@[simp] theorem toPlain_encode (name : String) : toPlain (encode name) = .ok name := by
  rw [toPlain, decode?_encode]

@[simp] theorem toText_text (t : String) : (text t).toText = .ok t := toPlain_encode t

@[simp] theorem written_text (t : String) : (text t).Written := .str (legible_encode t)

@[simp] theorem written_nat (n : Nat) : (nat n).Written := .int n

@[simp] theorem written_int (value : Int) : (int value).Written := .int value

theorem toNat_nat {n : Nat} (h : n < 2 ^ 64) : (nat n).toNat = .ok n := by
  have small : (n : Int) < Width.twoPow 64 := by
    show (n : Int) < 18446744073709551616
    omega
  simp [nat, toNat, small]

theorem toInt_int {value : Int} (h : Width.Holds 64 value) : (int value).toInt = .ok value :=
  if_pos h

/-- A number is the index that its digits stand for. -/
theorem toIndex_toString {n : Nat} (h : n < 2 ^ 64) : toIndex (toString n) = .ok n := by
  have number : readNumber false (toString n).toList = some (nat n, []) := by
    rw [Nat.toString_eq_ofList_toDigits, String.toList_ofList, ← List.append_nil (Nat.toDigits 10 n)]
    exact readNumber_toDigits (by simp) delimited_nil
  rw [toIndex, number]
  exact toNat_nat h

theorem Survives.ofList {l : List α} (each : ∀ a ∈ l, Survives write read a) :
    Survives (ofList write) (toList read) l where
  written := by
    refine .arr fun item mem => ?_
    obtain ⟨a, ha, rfl⟩ := List.mem_map.1 mem
    exact (each a ha).written
  read := by
    show (l.map write).mapM read = .ok l
    rw [List.mapM_map]
    refine (mapM_eq_ok_map (h := id) ?_).trans (by rw [List.map_id])
    exact fun a ha => (each a ha).read

theorem Survives.ofOption {o : Option α} (nonnull : ∀ a, write a ≠ null)
    (each : ∀ a ∈ o, Survives write read a) : Survives (ofOption write) (toOption read) o := by
  cases o with
  | none => exact ⟨.null, rfl⟩
  | some a =>
    have survives := each a rfl
    refine ⟨survives.written, ?_⟩
    show (write a).toOption read = _
    unfold toOption
    split
    · exact absurd ‹_› (nonnull a)
    · rw [survives.read]
      rfl

theorem Survives.pair {writeSnd : β → Json} {readSnd : Json → Except Error β} {a : α} {b : β}
    (first : Survives write read a) (second : Survives writeSnd readSnd b) :
    Survives (fun (a, b) => arr [write a, writeSnd b]) (toPair read readSnd) (a, b) where
  written := .arr (by simp [first.written, second.written])
  read := by
    show toPair read readSnd (arr [write a, writeSnd b]) = _
    rw [toPair, first.read, second.read]
    rfl

/-! ## Records -/

theorem written_record {fields : List (String × Json)} (each : ∀ field ∈ fields, field.2.Written) :
    (record fields).Written := by
  refine .obj (fun member mem => ?_) fun member mem => ?_
  · obtain ⟨field, -, rfl⟩ := List.mem_map.1 mem
    exact legible_encode field.1
  · obtain ⟨field, here, rfl⟩ := List.mem_map.1 mem
    exact each field here

theorem written_variant {contents : Json} (name : String) (h : contents.Written) :
    (variant name contents).Written :=
  written_record (by simpa using h)

section Visit

variable {m : Type → Type} [Monad m] [LawfulMonad m] [MonadLiftT (Except Error) m]
  [LawfulMonadLiftT (Except Error) m] {σ : Type} {visit : σ → String → Json → m σ}

/-- The members of a record are visited one after the other. -/
theorem visitMembers_map_encode {names seen : List String} {fields : List (String × Json)}
    (known : ∀ field ∈ fields, field.1 ∈ names) (fresh : ∀ field ∈ fields, field.1 ∉ seen)
    (nodup : (fields.map Prod.fst).Nodup) (s : σ) :
    visitMembers names visit seen (fields.map fun (name, value) => (encode name, value)) s =
      fields.foldlM (fun s field => visit s field.1 field.2) s := by
  induction fields generalizing seen s with
  | nil => rfl
  | cons field fields ih =>
    obtain ⟨name, value⟩ := field
    rw [List.map_cons, List.nodup_cons] at nodup
    have others : ∀ field ∈ fields, field.1 ∉ name :: seen := by
      intro field mem
      rw [List.mem_cons, not_or]
      refine ⟨?_, fresh field (List.mem_cons_of_mem _ mem)⟩
      rintro rfl
      exact nodup.1 (List.mem_map.2 ⟨field, mem, rfl⟩)
    have rest := ih (fun field mem => known field (List.mem_cons_of_mem _ mem)) others nodup.2
    rw [List.map_cons, List.foldlM_cons, visitMembers, toPlain_encode]
    have lifted : (liftM (Except.ok name : Except Error String) : m String) = pure name :=
      liftM_pure name
    simp only [lifted, pure_bind, known (name, value) List.mem_cons_self, if_true,
      fresh (name, value) List.mem_cons_self, if_false, rest]

/-- A record is read field by field, in the order in which it was written. -/
theorem visitRecord_record {names : List String} {fields : List (String × Json)}
    (named : fields.map Prod.fst = names) (nodup : names.Nodup) (start : σ) :
    visitRecord names visit start (record fields) =
      fields.foldlM (fun s field => visit s field.1 field.2) start := by
  subst named
  have complete : (record fields).hasMembers (fields.map Prod.fst) = true := by
    simp only [record, hasMembers, List.all_eq_true, List.any_eq_true]
    intro name mem
    obtain ⟨field, here, rfl⟩ := List.mem_map.1 mem
    exact ⟨(encode field.1, field.2), List.mem_map.2 ⟨field, here, rfl⟩, by simp [decode?_encode]⟩
  rw [visitRecord, complete]
  simp only [if_true, bind_pure]
  rw [record, visitFields, List.append_nil]
  exact visitMembers_map_encode (fun field mem => List.mem_map_of_mem mem) (by simp) nodup start

end Visit

/-- The fields of a record are those that were written. -/
theorem toFields_record {names tail : List String} {fields : List (String × Json)}
    (named : fields.map Prod.fst = names ++ tail) (nodup : (names ++ tail).Nodup) :
    (record fields).toFields names tail = .ok fields := by
  have collected (front : Fields) :
      (fields.foldlM (fun found field => return found ++ [(field.1, field.2)]) front :
        Except Error Fields) = .ok (front ++ fields) := by
    clear named nodup
    induction fields generalizing front with
    | nil => simp [pure, Except.pure]
    | cons field fields ih =>
      rw [List.foldlM_cons]
      exact (ih _).trans (by simp)
  have known : ∀ field ∈ fields, field.1 ∈ names ++ tail := by
    intro field mem
    rw [← named]
    exact List.mem_map_of_mem mem
  rw [toFields, record, visitFields, visitMembers_map_encode known (by simp) (named ▸ nodup)]
  exact collected []

theorem filledFields_record {source : Source} {names : List String} {fields : List (String × Json)}
    (named : fields.map Prod.fst = names) (nodup : names.Nodup) :
    filledFields source (some (record fields)) names = .ok fields := by
  have read : (record fields).toFields names [] = .ok fields :=
    toFields_record (by rw [named, List.append_nil]) (by rwa [List.append_nil])
  cases source <;> exact read

/-- Looking for a field goes through the fields in their order. -/
@[simp] theorem Fields.get_cons (fields : Fields) (name name' : String) (json : Json) :
    Fields.get ((name', json) :: fields) name read =
      if name = name' then read json else Fields.get fields name read := by
  by_cases here : name = name'
  · simp [Fields.get, List.lookup, here]
  · simp [Fields.get, List.lookup, here, beq_false_of_ne here]

@[simp] theorem Fields.get?_cons (fields : Fields) (name name' : String) (json : Json) :
    Fields.get? ((name', json) :: fields) name read =
      if name = name' then json.toOption read else Fields.get? fields name read := by
  by_cases here : name = name'
  · simp [Fields.get?, List.lookup, here]
  · simp [Fields.get?, List.lookup, here, beq_false_of_ne here]

/-! ## Variants -/

@[simp] theorem toVariant_text (name : String) : (text name).toVariant = .ok (name, none) := by
  rw [text, toVariant, toPlain_encode]
  rfl

@[simp] theorem toVariant_variant (name : String) (contents : Json) :
    (variant name contents).toVariant = .ok (name, some contents) := by
  rw [variant, record, List.map_singleton, toVariant, toPlain_encode]
  rfl

/-! ## What is read -/

theorem lt_of_toNat {json : Json} {n : Nat} (h : json.toNat = .ok n) : n < 2 ^ 64 := by
  unfold toNat at h
  split at h
  · rename_i value
    split_ifs at h with range
    obtain rfl := Except.ok.inj h
    have upper : value < 18446744073709551616 := range.2
    omega
  · cases h

theorem holds_of_toInt {json : Json} {value : Int} (h : json.toInt = .ok value) :
    Width.Holds 64 value := by
  unfold toInt at h
  split at h
  · split_ifs at h with range
    exact Except.ok.inj h ▸ range
  · cases h

theorem eq_of_toNat_nat {n m : Nat} (h : (nat n).toNat = .ok m) : m = n := by
  unfold nat toNat at h
  dsimp only at h
  split_ifs at h
  exact (Except.ok.inj h).symm

theorem eq_of_toInt_int {value x : Int} (h : (int value).toInt = .ok x) : x = value := by
  unfold toInt at h
  dsimp only at h
  split_ifs at h
  exact (Except.ok.inj h).symm

theorem Fields.exists_of_get {fields : Fields} {name : String} {a : α}
    (h : fields.get name read = .ok a) : ∃ json, read json = .ok a := by
  unfold Fields.get at h
  split at h
  · exact ⟨_, h⟩
  · cases h

theorem Fields.exists_of_get? {fields : Fields} {name : String} {o : Option α}
    (h : fields.get? name read = .ok o) : ∀ a ∈ o, ∃ json, read json = .ok a := by
  unfold Fields.get? at h
  split at h
  · unfold toOption at h
    split at h
    · obtain rfl := Except.ok.inj h
      simp
    · intro a mem
      obtain ⟨b, found, rfl⟩ := exists_of_map_eq_ok h
      obtain rfl := Option.some.inj mem
      exact ⟨_, found⟩
  · obtain rfl := Except.ok.inj h
    simp

theorem eq_of_bare {contents : Option Json} {a b : α} (h : bare contents a = .ok b) : b = a := by
  unfold bare at h
  split at h
  · exact (Except.ok.inj h).symm
  · exact (Except.ok.inj h).symm
  · cases h

theorem exists_of_filled {contents : Option Json} {a : α} (h : filled contents read = .ok a) :
    ∃ json, read json = .ok a := by
  unfold filled at h
  split at h
  · exact ⟨_, h⟩
  · cases h

/-! ## Texts -/

/-- What is read from a text is read from a tree. -/
theorem exists_of_readText {text : String} {a : α} (h : readText read text = .ok a) :
    ∃ json, read json = .ok a := by
  obtain ⟨a', found, h⟩ := bind_eq_ok_iff.1 h
  split_ifs at h
  · obtain rfl := Except.ok.inj h
    exact ⟨_, found⟩
  · cases h

/-- The text of a tree that can be written is read as the tree is. -/
theorem readText_render {m : Type → Type} [Monad m] [LawfulMonad m] [MonadLiftT (Except Error) m]
    {read : Json → m α} {json : Json} (h : json.Written) : readText read json.render = read json := by
  simp only [readText, parse_render h, if_true, bind_pure]

end RangeFlow.Json
