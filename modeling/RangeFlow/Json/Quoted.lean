/-!
# Quoted text

How a text is written between the quotes of a string. `encode` escapes quotes, backslashes and
control characters and leaves every other character as it is. `decode?` goes back from anything that
can be written there: it takes every escape, joins pairs of surrogates, and refuses a surrogate that
stands alone.
-/

namespace RangeFlow.Json

/-! ## Writing -/

/-- How a character is written inside a string. -/
def escape (c : Char) : List Char :=
  match c with
  | '"' => ['\\', '"']
  | '\\' => ['\\', '\\']
  | '\n' => ['\\', 'n']
  | '\t' => ['\\', 't']
  | '\r' => ['\\', 'r']
  | '\x08' => ['\\', 'b']
  | '\x0c' => ['\\', 'f']
  | c =>
      if c.toNat < 32 then
        ['\\', 'u', '0', '0', Nat.digitChar (c.toNat / 16), Nat.digitChar (c.toNat % 16)]
      else
        [c]

/-- The written form of a text. -/
def encode (text : String) : String := String.ofList (text.toList.flatMap escape)

/-! ## Reading -/

/-- The value of a hexadecimal digit. -/
def hexValue? (c : Char) : Option Nat :=
  if '0' ≤ c ∧ c ≤ '9' then some (c.toNat - '0'.toNat)
  else if 'a' ≤ c ∧ c ≤ 'f' then some (c.toNat - 'a'.toNat + 10)
  else if 'A' ≤ c ∧ c ≤ 'F' then some (c.toNat - 'A'.toNat + 10)
  else none

/-- The value of four hexadecimal digits. -/
def hexQuad? (a b c d : Char) : Option Nat := do
  let a ← hexValue? a
  let b ← hexValue? b
  let c ← hexValue? c
  let d ← hexValue? d
  return ((a * 16 + b) * 16 + c) * 16 + d

/-- The character that a backslash and a letter stand for. -/
def unescape? : Char → Option Char
  | '"' => some '"'
  | '\\' => some '\\'
  | '/' => some '/'
  | 'b' => some '\x08'
  | 'f' => some '\x0c'
  | 'n' => some '\n'
  | 'r' => some '\r'
  | 't' => some '\t'
  | _ => none

/-- The character of a pair of surrogates. -/
def surrogatePair (high low : Nat) : Char :=
  Char.ofNat (0x10000 + (high - 0xD800) * 0x400 + (low - 0xDC00))

/-- Whether a character can stand in a string without an escape. -/
def isPlain (c : Char) : Bool := 32 ≤ c.toNat && c ≠ '"' && c ≠ '\\'

/-- The characters that written characters stand for. -/
def decodeChars? : List Char → Option (List Char)
  | [] => some []
  | '\\' :: 'u' :: a :: b :: c :: d :: '\\' :: 'u' :: e :: f :: g :: h :: rest => do
      let first ← hexQuad? a b c d
      if 0xD800 ≤ first ∧ first < 0xDC00 then
        let second ← hexQuad? e f g h
        if 0xDC00 ≤ second ∧ second < 0xE000 then
          return surrogatePair first second :: (← decodeChars? rest)
        else
          none
      else if 0xDC00 ≤ first ∧ first < 0xE000 then
        none
      else
        return Char.ofNat first :: (← decodeChars? ('\\' :: 'u' :: e :: f :: g :: h :: rest))
  | '\\' :: 'u' :: a :: b :: c :: d :: rest => do
      let code ← hexQuad? a b c d
      if 0xD800 ≤ code ∧ code < 0xE000 then
        none
      else
        return Char.ofNat code :: (← decodeChars? rest)
  | '\\' :: c :: rest => do
      let plain ← unescape? c
      return plain :: (← decodeChars? rest)
  | c :: rest =>
      if isPlain c then
        return c :: (← decodeChars? rest)
      else
        none

/-- The text of a written form. -/
def decode? (written : String) : Option String :=
  (decodeChars? written.toList).map String.ofList

end RangeFlow.Json
