import RangeFlow.Json.Basic

/-!
# Writing value trees

A tree is written without blanks, with a comma between the parts of an array or an object.
-/

namespace RangeFlow.Json

/-- What is written between two quotes. -/
def quoted (written : String) : List Char := '"' :: written.toList ++ ['"']

mutual

/-- The characters of a written tree. A fault has none. -/
def chars : Json → List Char
  | null => ['n', 'u', 'l', 'l']
  | bool true => ['t', 'r', 'u', 'e']
  | bool false => ['f', 'a', 'l', 's', 'e']
  | int value => (toString value).toList
  | number text => text.toList
  | str written => quoted written
  | arr items => '[' :: itemsChars items ++ [']']
  | obj members => '\x7b' :: membersChars members ++ ['\x7d']
  | broken => []

/-- Values with commas between them. -/
def itemsChars : List Json → List Char
  | [] => []
  | [item] => item.chars
  | item :: next :: rest => item.chars ++ ',' :: itemsChars (next :: rest)

/-- Members with commas between them. -/
def membersChars : List (String × Json) → List Char
  | [] => []
  | [(name, value)] => quoted name ++ ':' :: value.chars
  | (name, value) :: next :: rest =>
      quoted name ++ ':' :: value.chars ++ ',' :: membersChars (next :: rest)

end

/-- The text of a tree. -/
def render (json : Json) : String := String.ofList json.chars

end RangeFlow.Json
