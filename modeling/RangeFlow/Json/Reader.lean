import RangeFlow.Error
import RangeFlow.Json.Parser
import RangeFlow.Width

/-!
# Reading values out of trees

The rules by which records, variants and numbers are read. A record is an object with its fields
under their names, in any order and beside others, or an array of its fields in their own order. A
variant is its name alone, or an object with its name over its contents. Contents that have the form
of a record may be an array only inside a text.

Values are read in the order in which they stand, and the first failure is the result. So a tree is
read up to its fault, and `Json.visitFields` reads each field of a record where it meets it.
-/

namespace RangeFlow.Json

/-- Where a value is read from: directly out of a text, or out of a tree that is already there. -/
inductive Source where
  | text
  | tree
deriving DecidableEq, Inhabited

/-! ## Simple values -/

/-- A natural number of 64 bits. -/
def toNat : Json → Except Error Nat
  | int value =>
      if 0 ≤ value ∧ value < Width.twoPow 64 then .ok value.toNat else .error .malformed
  | _ => .error .malformed

/-- A signed integer of 64 bits. -/
def toInt : Json → Except Error Int
  | int value =>
      if Width.minValue 64 ≤ value ∧ value ≤ Width.maxValue 64 then .ok value
      else .error .malformed
  | _ => .error .malformed

def toBool : Json → Except Error Bool
  | bool value => .ok value
  | _ => .error .malformed

/-- The text of a string or a name. -/
def toPlain (written : String) : Except Error String :=
  match decode? written with
  | some text => .ok text
  | none => .error .malformed

def toText : Json → Except Error String
  | str written => toPlain written
  | _ => .error .malformed

/-- The natural number that a name in digits stands for. -/
def toIndex (written : String) : Except Error Nat :=
  match readNumber false written.toList with
  | some (json, []) => json.toNat
  | _ => .error .malformed

def toList {α : Type} (read : Json → Except Error α) : Json → Except Error (List α)
  | arr items => items.mapM read
  | _ => .error .malformed

def toPair {α β : Type} (readFst : Json → Except Error α) (readSnd : Json → Except Error β) :
    Json → Except Error (α × β)
  | arr [a] => do
      let _ ← readFst a
      .error .malformed
  | arr (a :: b :: rest) => do
      let first ← readFst a
      let second ← readSnd b
      if rest.isEmpty then return (first, second) else .error .malformed
  | _ => .error .malformed

/-- The members of an object whose names can be anything. -/
def toMembers : Json → Except Error (List (String × Json))
  | obj members => .ok members
  | _ => .error .malformed

/-- A value that is missing when it is null. -/
def toOption {α : Type} (read : Json → Except Error α) : Json → Except Error (Option α)
  | null => .ok none
  | json => some <$> read json

/-! ## Records -/

section Visit

variable {m : Type → Type} [Monad m] [MonadLiftT (Except Error) m] {σ : Type}

/-- The failure of a value that does not have the expected form. -/
def malformed : m σ := liftM (.error .malformed : Except Error σ)

/-- Visits the members of an object in their order. A member with one of the names is a field, which
may not be given twice. Any other member is ignored, as long as it has no fault. -/
def visitMembers (names : List String) (visit : σ → String → Json → m σ) :
    List String → List (String × Json) → σ → m σ
  | _, [], s => return s
  | seen, (written, value) :: rest, s => do
      let name ← toPlain written
      if name ∈ names then
        if name ∈ seen then
          malformed
        else
          visitMembers names visit (name :: seen) rest (← visit s name value)
      else if value.isSound then
        visitMembers names visit seen rest s
      else
        malformed

/-- Visits the items of an array as the fields with some names, of which the last `optional` may be
left out. -/
def visitItems (optional : Nat) (visit : σ → String → Json → m σ) :
    List String → List Json → σ → m σ
  | name :: names, item :: rest, s => do
      visitItems optional visit names rest (← visit s name item)
  | names, [], s =>
      if names.length ≤ optional then return s else malformed
  | [], _ :: _, _ => malformed

/-- Visits the fields of a record with some names in the order in which they are given. The array
form may leave out those of `tail`. -/
def visitFields (names tail : List String) (visit : σ → String → Json → m σ) (start : σ) :
    Json → m σ
  | obj members => visitMembers (names ++ tail) visit [] members start
  | arr items => visitItems tail.length visit (names ++ tail) items start
  | _ => malformed

/-- Whether an object has members with all of some names. -/
def hasMembers (names : List String) : Json → Bool
  | obj members => names.all fun name => members.any fun member => decode? member.1 = some name
  | _ => true

/-- Visits the fields of a record that has to have all of them. -/
def visitRecord (names : List String) (visit : σ → String → Json → m σ) (start : σ)
    (json : Json) : m σ := do
  let s ← json.visitFields names [] visit start
  if json.hasMembers names then return s else malformed

end Visit

/-- The fields of a record that are given. -/
abbrev Fields := List (String × Json)

/-- The fields of a record with some names. The array form may leave out those of `tail`. -/
def toFields (names tail : List String) (json : Json) : Except Error Fields :=
  json.visitFields names tail (fun fields name value => return fields ++ [(name, value)]) []

/-- A field that a record has to have. -/
def Fields.get {α : Type} (fields : Fields) (name : String) (read : Json → Except Error α) :
    Except Error α :=
  match fields.lookup name with
  | some json => read json
  | none => .error .malformed

/-- A field that may be missing or null. -/
def Fields.get? {α : Type} (fields : Fields) (name : String) (read : Json → Except Error α) :
    Except Error (Option α) :=
  match fields.lookup name with
  | some json => json.toOption read
  | none => .ok none

/-! ## Variants -/

/-- The name of a variant, with its contents if it has any. -/
def toVariant : Json → Except Error (String × Option Json)
  | str written => do return (← toPlain written, none)
  | obj [(written, contents)] => do return (← toPlain written, some contents)
  | _ => .error .malformed

/-- A variant without contents. -/
def bare {α : Type} (contents : Option Json) (a : α) : Except Error α :=
  match contents with
  | none | some null => .ok a
  | _ => .error .malformed

/-- A variant with contents. -/
def filled {α : Type} (contents : Option Json) (read : Json → Except Error α) : Except Error α :=
  match contents with
  | some json => read json
  | none => .error .malformed

/-- The contents of a variant that have the form of a record. -/
def filledFields (source : Source) (contents : Option Json) (names : List String) :
    Except Error Fields :=
  filled contents fun json =>
    match source, json with
    | .tree, arr _ => .error .malformed
    | _, json => json.toFields names []

/-! ## Refusals -/

/-- A value that was read but not accepted. -/
def accept {α : Type} (result : Except Error α) : Except Error α :=
  result.mapError fun e => .refused e.message

/-! ## Texts -/

/-- Reads a text with a reader of trees. Nothing may follow the value. -/
def readText {m : Type → Type} [Monad m] [MonadLiftT (Except Error) m] {α : Type}
    (read : Json → m α) (text : String) : m α := do
  let document := parse text
  let a ← read document.value
  if document.isComplete then return a else malformed

end RangeFlow.Json
