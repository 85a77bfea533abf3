import RangeFlow.Json.Basic

/-!
# Reading value trees

Reads a text as one value with blanks around its parts. Every reader takes the characters in front
of it and returns what it read with the characters that follow. `Json.parse` gives every text its
tree, broken where the text goes wrong, and `Json.parse?` refuses any text that is not one value.
-/

namespace RangeFlow.Json

/-- The blanks that can stand between the parts of a text. -/
def isBlank (c : Char) : Bool := c = ' ' || c = '\n' || c = '\t' || c = '\r'

def skipBlanks (cs : List Char) : List Char := cs.dropWhile isBlank

/-! ## Strings -/

/-- Reads the rest of a string as it is written, up to and with its closing quote. Escapes have to
be complete, but need not stand for a character. -/
def readQuoted : List Char → Option (List Char × List Char)
  | '"' :: rest => some ([], rest)
  | '\\' :: 'u' :: a :: b :: c :: d :: rest => do
      let _ ← hexQuad? a b c d
      let (written, rest) ← readQuoted rest
      return ('\\' :: 'u' :: a :: b :: c :: d :: written, rest)
  | '\\' :: c :: rest => do
      let _ ← unescape? c
      let (written, rest) ← readQuoted rest
      return ('\\' :: c :: written, rest)
  | c :: rest =>
      if isPlain c then do
        let (written, rest) ← readQuoted rest
        return (c :: written, rest)
      else
        none
  | [] => none

/-! ## Numbers -/

/-- Splits off the digits in front. -/
def spanDigits (cs : List Char) : List Char × List Char :=
  (cs.takeWhile Char.isDigit, cs.dropWhile Char.isDigit)

/-- The number that decimal digits stand for. -/
def digitsValue (digits : List Char) : Nat :=
  digits.foldl (fun n c => n * 10 + (c.toNat - '0'.toNat)) 0

/-- Reads the fraction of a number, if there is one. -/
def readFraction : List Char → Option (List Char × List Char)
  | '.' :: rest =>
      match spanDigits rest with
      | ([], _) => none
      | (digits, rest) => some ('.' :: digits, rest)
  | cs => some ([], cs)

/-- Reads the exponent of a number, if there is one. -/
def readExponent : List Char → Option (List Char × List Char)
  | c :: rest =>
      if c = 'e' ∨ c = 'E' then
        let (sign, rest) := match rest with
          | '+' :: rest => (['+'], rest)
          | '-' :: rest => (['-'], rest)
          | rest => ([], rest)
        match spanDigits rest with
        | ([], _) => none
        | (digits, rest) => some (c :: sign ++ digits, rest)
      else
        some ([], c :: rest)
  | [] => some ([], [])

/-- Reads a number without its sign. A first zero stands alone, and a negative zero is no
integer. -/
def readNumber (negative : Bool) (cs : List Char) : Option (Json × List Char) := do
  let (digits, rest) := spanDigits cs
  let leadingZero := match digits with
    | '0' :: _ :: _ => true
    | _ => false
  if digits.isEmpty || leadingZero then
    none
  else
    let (fraction, rest) ← readFraction rest
    let (exponent, rest) ← readExponent rest
    let value := Int.ofNat (digitsValue digits)
    if fraction.isEmpty && exponent.isEmpty && !(negative && value = 0) then
      return (int (if negative then -value else value), rest)
    else
      let sign := if negative then ['-'] else []
      return (number (String.ofList (sign ++ digits ++ fraction ++ exponent)), rest)

/-! ## Values -/

/-- What was read, or a fault. -/
def orBroken : Option (Json × List Char) → Json × Option (List Char)
  | some (json, rest) => (json, some rest)
  | none => (broken, none)

/-- Reads the name of a member and the colon behind it. -/
def readName (cs : List Char) : Option (String × List Char) :=
  match skipBlanks cs with
  | '"' :: rest => do
      let (written, rest) ← readQuoted rest
      match skipBlanks rest with
      | ':' :: rest => return (String.ofList written, rest)
      | _ => none
  | _ => none

mutual

/-- Reads a value, nested less deep than `fuel`. Nothing follows a fault. -/
def readValue : Nat → List Char → Json × Option (List Char)
  | 0, _ => (broken, none)
  | fuel + 1, cs =>
      match skipBlanks cs with
      | 'n' :: 'u' :: 'l' :: 'l' :: rest => (null, some rest)
      | 't' :: 'r' :: 'u' :: 'e' :: rest => (bool true, some rest)
      | 'f' :: 'a' :: 'l' :: 's' :: 'e' :: rest => (bool false, some rest)
      | '"' :: rest =>
          orBroken <| (readQuoted rest).map fun (written, rest) =>
            (str (String.ofList written), rest)
      | '[' :: rest =>
          match skipBlanks rest with
          | ']' :: rest => (arr [], some rest)
          | rest =>
              let (items, rest) := readItems fuel rest
              (arr items, rest)
      | '\x7b' :: rest =>
          match skipBlanks rest with
          | '\x7d' :: rest => (obj [], some rest)
          | rest =>
              let (members, rest) := readMembers fuel rest
              (obj members, rest)
      | '-' :: rest => orBroken (readNumber true rest)
      | rest => orBroken (readNumber false rest)

/-- Reads the items of an array, up to and with its closing bracket. -/
def readItems : Nat → List Char → List Json × Option (List Char)
  | 0, _ => ([broken], none)
  | fuel + 1, cs =>
      match readValue fuel cs with
      | (item, none) => ([item], none)
      | (item, some rest) =>
          match skipBlanks rest with
          | ',' :: rest =>
              let (items, rest) := readItems fuel rest
              (item :: items, rest)
          | ']' :: rest => ([item], some rest)
          | _ => ([item, broken], none)

/-- Reads the members of an object, up to and with its closing brace. A fault outside of a value
stands under an empty name. -/
def readMembers : Nat → List Char → List (String × Json) × Option (List Char)
  | 0, _ => ([("", broken)], none)
  | fuel + 1, cs =>
      match readName cs with
      | none => ([("", broken)], none)
      | some (name, rest) =>
          match readValue fuel rest with
          | (value, none) => ([(name, value)], none)
          | (value, some rest) =>
              match skipBlanks rest with
              | ',' :: rest =>
                  let (members, rest) := readMembers fuel rest
                  ((name, value) :: members, rest)
              | '\x7d' :: rest => ([(name, value)], some rest)
              | _ => ([(name, value), ("", broken)], none)

end

/-! ## Texts -/

/-- What a text holds. -/
structure Document where
  value : Json
  /-- Whether there are only blanks behind the value. -/
  isComplete : Bool

/-- Reads a text as far as it goes. -/
def parse (text : String) : Document :=
  let cs := text.toList
  let (value, rest) := readValue (cs.length + 1) cs
  ⟨value, rest.any fun cs => (skipBlanks cs).isEmpty⟩

/-- The value that a text stands for. -/
def parse? (text : String) : Option Json :=
  let document := parse text
  if document.isComplete then some document.value else none

end RangeFlow.Json
