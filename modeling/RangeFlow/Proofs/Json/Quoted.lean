import Mathlib
import RangeFlow.Json.Parser

/-!
# Quoted text

A text is what its written form stands for (`Json.decode?_encode`), and the reader takes a written form
as it is, up to the quote behind it (`Json.legible_encode`). Both go character by character: what
`Json.escape` writes for one character is taken back as one.
-/

namespace RangeFlow.Json

/-! ## Characters -/

/-- A character below 32 is written as two hexadecimal digits that give its number. -/
theorem hexQuad?_digitChar :
    ∀ n < 32, hexQuad? '0' '0' (Nat.digitChar (n / 16)) (Nat.digitChar (n % 16)) = some n := by
  decide

/-- How a character is written: as a backslash and a letter, by its number, or as itself. -/
theorem escape_cases (c : Char) :
    (∃ letter, escape c = ['\\', letter] ∧ letter ≠ 'u' ∧ unescape? letter = some c) ∨
    (∃ x y, escape c = ['\\', 'u', '0', '0', x, y] ∧ hexQuad? '0' '0' x y = some c.toNat ∧
      c.toNat < 32) ∨
    (escape c = [c] ∧ isPlain c = true) := by
  unfold escape
  split
  case h_8 quote backslash _ _ _ _ _ =>
    split_ifs with control
    · exact .inr (.inl ⟨_, _, rfl, hexQuad?_digitChar c.toNat control, control⟩)
    · refine .inr (.inr ⟨rfl, ?_⟩)
      have large : 32 ≤ c.toNat := by omega
      simp only [isPlain, large, decide_true, Bool.true_and, Bool.and_eq_true, decide_eq_true_eq]
      exact ⟨quote, backslash⟩
  all_goals exact .inl ⟨_, rfl, by decide, rfl⟩

/-! ## Decoding -/

/-- A number that is no surrogate stands for its character, whatever follows. -/
theorem decodeChars?_code {a b c d : Char} {n : Nat} (code : hexQuad? a b c d = some n)
    (small : n < 0xD800) {rest cs : List Char} (h : decodeChars? rest = some cs) :
    decodeChars? ('\\' :: 'u' :: a :: b :: c :: d :: rest) = some (Char.ofNat n :: cs) := by
  have low : ¬0xD800 ≤ n := by omega
  have low' : ¬0xDC00 ≤ n := by omega
  by_cases pair : ∃ e f g h more, rest = '\\' :: 'u' :: e :: f :: g :: h :: more
  · obtain ⟨e, f, g, h, more, rfl⟩ := pair
    rw [decodeChars?.eq_2, code]
    simp [low, low', h]
  · rw [decodeChars?.eq_3 _ _ _ _ _ fun e f g h more same => pair ⟨e, f, g, h, more, same⟩, code]
    simp [low, h]

theorem decodeChars?_escape (c : Char) {rest cs : List Char} (h : decodeChars? rest = some cs) :
    decodeChars? (escape c ++ rest) = some (c :: cs) := by
  rcases escape_cases c with ⟨letter, written, other, back⟩ | ⟨x, y, written, code, small⟩ |
    ⟨written, plain⟩
  · rw [written]
    show decodeChars? ('\\' :: letter :: rest) = _
    rw [decodeChars?.eq_4 _ _ (by simp [other]) (by simp [other])]
    simp [back, h]
  · rw [written]
    show decodeChars? ('\\' :: 'u' :: '0' :: '0' :: x :: y :: rest) = _
    rw [decodeChars?_code code (by omega) h, Char.ofNat_toNat]
  · have other : c ≠ '\\' := by
      rintro rfl
      revert plain
      decide
    rw [written]
    show decodeChars? (c :: rest) = _
    rw [decodeChars?.eq_5 _ _ (by simp [other]) (by simp [other]) (by simp [other])]
    simp [plain, h]

/-- A written text is read as what was written. -/
theorem decode?_encode (text : String) : decode? (encode text) = some text := by
  have chars (cs : List Char) : decodeChars? (cs.flatMap escape) = some cs := by
    induction cs with
    | nil => rfl
    | cons c cs ih =>
      rw [List.flatMap_cons]
      exact decodeChars?_escape c ih
  rw [decode?, encode, String.toList_ofList, chars, Option.map_some, String.ofList_toList]

/-! ## Reading -/

/-- A text between quotes that is read as it is written. -/
def Legible (written : String) : Prop :=
  ∀ rest, readQuoted (written.toList ++ '"' :: rest) = some (written.toList, rest)

theorem readQuoted_plain {c : Char} (plain : isPlain c = true) {rest written more : List Char}
    (h : readQuoted rest = some (written, more)) : readQuoted (c :: rest) = some (c :: written, more) := by
  have quote : c ≠ '"' := by
    rintro rfl
    revert plain
    decide
  have backslash : c ≠ '\\' := by
    rintro rfl
    revert plain
    decide
  rw [readQuoted.eq_4 _ _ quote (by simp [backslash]) (by simp [backslash])]
  simp [plain, h]

/-- A text without anything to escape is read as it is. -/
theorem legible_of_plain {written : String} (plain : ∀ c ∈ written.toList, isPlain c = true) :
    Legible written := by
  intro rest
  generalize written.toList = cs at plain ⊢
  induction cs with
  | nil => rfl
  | cons c cs ih =>
    exact readQuoted_plain (plain c List.mem_cons_self)
      (ih fun d mem => plain d (List.mem_cons_of_mem _ mem))

theorem readQuoted_escape (c : Char) {rest written more : List Char}
    (h : readQuoted rest = some (written, more)) :
    readQuoted (escape c ++ rest) = some (escape c ++ written, more) := by
  rcases escape_cases c with ⟨letter, escaped, other, back⟩ | ⟨x, y, escaped, code, -⟩ |
    ⟨escaped, plain⟩
  · rw [escaped]
    show readQuoted ('\\' :: letter :: rest) = _
    rw [readQuoted.eq_3 _ _ (by simp [other])]
    simp [back, h]
  · rw [escaped]
    show readQuoted ('\\' :: 'u' :: '0' :: '0' :: x :: y :: rest) = _
    rw [readQuoted.eq_2]
    simp [code, h]
  · rw [escaped]
    exact readQuoted_plain plain h

theorem legible_encode (text : String) : Legible (encode text) := by
  intro rest
  rw [encode, String.toList_ofList]
  induction text.toList with
  | nil => rfl
  | cons c cs ih =>
    rw [List.flatMap_cons, List.append_assoc]
    exact readQuoted_escape c ih

end RangeFlow.Json
