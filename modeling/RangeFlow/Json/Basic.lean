import RangeFlow.Json.Quoted

/-!
# Value trees

The tree of values that a JSON text stands for. Strings and names are kept as they are written, and
members of an object in the order in which they are written. The only numbers with a value are
integers; any other number is kept as its text. A text that goes wrong has a tree too, which holds
everything in front of the fault and ends there.
-/

namespace RangeFlow

/-- A JSON value. -/
inductive Json where
  | null
  | bool (value : Bool)
  | int (value : Int)
  /-- A number that is not written as an integer. -/
  | number (text : String)
  /-- A string, as it is written between its quotes. -/
  | str (written : String)
  | arr (items : List Json)
  /-- Members under their names, as these are written between their quotes. -/
  | obj (members : List (String × Json))
  /-- The place where a text goes wrong. Nothing follows it. -/
  | broken
deriving Inhabited

namespace Json

/-! ## Building trees -/

/-- A natural number. -/
def nat (n : Nat) : Json := int (Int.ofNat n)

/-- A text. -/
def text (t : String) : Json := str (encode t)

/-- An optional value, which is null when it is missing. -/
def ofOption {α : Type} (f : α → Json) : Option α → Json
  | some a => f a
  | none => null

/-- A list of values. -/
def ofList {α : Type} (f : α → Json) (items : List α) : Json := arr (items.map f)

/-- An object with some named values. -/
def record (fields : List (String × Json)) : Json :=
  obj (fields.map fun (name, value) => (encode name, value))

/-- A variant with contents, as an object. -/
def variant (name : String) (contents : Json) : Json := record [(name, contents)]

/-! ## Names -/

/-- The value of a member, which is null when there is none. -/
def get (json : Json) (name : String) : Json :=
  match json with
  | obj members =>
      ((members.find? fun member => decode? member.1 = some name).map Prod.snd).getD null
  | _ => null

/-- The text that a name stands for. One that stands for none is taken as it is. -/
def plainName (written : String) : String := (decode? written).getD written

/-- A member with the text that its name stands for. -/
abbrev NamedMember := String × String × Json

/-- Adds a member in its place by name, in front of an equal name. -/
def insertMember (member : NamedMember) : List NamedMember → List NamedMember
  | [] => [member]
  | other :: rest =>
      match compare member.1 other.1 with
      | .gt => other :: insertMember member rest
      | _ => member :: other :: rest

mutual

/-- The tree in which the members of every object are sorted by name. Of equal names the one that
is written last remains. -/
def sorted : Json → Json
  | arr items => arr (sortedItems items)
  | obj members => obj ((sortedMembers members).map Prod.snd)
  | json => json

def sortedItems : List Json → List Json
  | [] => []
  | item :: rest => item.sorted :: sortedItems rest

def sortedMembers : List (String × Json) → List NamedMember
  | [] => []
  | (written, value) :: rest =>
      let name := plainName written
      let others := sortedMembers rest
      if others.any fun other => other.1 = name then others
      else insertMember (name, written, value.sorted) others

end

/-! ## Faults -/

mutual

/-- Whether a tree has no fault. -/
def isSound : Json → Bool
  | arr items => itemsSound items
  | obj members => membersSound members
  | broken => false
  | _ => true

def itemsSound : List Json → Bool
  | [] => true
  | item :: rest => item.isSound && itemsSound rest

def membersSound : List (String × Json) → Bool
  | [] => true
  | (_, value) :: rest => value.isSound && membersSound rest

end

end Json

end RangeFlow
