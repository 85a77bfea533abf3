/-!
# Pieces of text

The number formats that rendered programs and reports use.
-/

namespace RangeFlow.Text

/-- A decimal number of at least two digits. -/
def twoDigits (n : Nat) : String :=
  if n < 10 then s!"0{n}" else toString n

/-- A number in lower case hexadecimal digits. -/
def hex (n : Nat) : String := String.ofList (Nat.toDigits 16 n)

/-- Texts with a comma and a blank between them. -/
def commaSeparated (texts : List String) : String := ", ".intercalate texts

end RangeFlow.Text
