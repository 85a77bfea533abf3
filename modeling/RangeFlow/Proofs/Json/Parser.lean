import RangeFlow.Json.Printer
import RangeFlow.Proofs.Json.Quoted

/-!
# Reading what was written

The reader of value trees takes back every tree that is made of nulls, truth values, integers, legible
texts, arrays and objects (`Json.Written`), and nothing is left of the text (`Json.parse_render`). What
follows a value inside of a text is a comma or a closing bracket (`Json.Delimited`), so a number ends
where its digits end.
-/

namespace RangeFlow.Json

/-! ## Numbers -/

/-- What can follow a value inside of a text. -/
def Delimited (rest : List Char) : Prop := ∀ c ∈ rest.head?, c = ',' ∨ c = ']' ∨ c = '\x7d'

theorem delimited_nil : Delimited [] := by
  simp [Delimited]

theorem delimited_cons {c : Char} {rest : List Char} (h : c = ',' ∨ c = ']' ∨ c = '\x7d') :
    Delimited (c :: rest) := by
  simpa [Delimited] using h

theorem spanDigits_append {digits rest : List Char} (all : ∀ c ∈ digits, c.isDigit = true)
    (delimited : Delimited rest) : spanDigits (digits ++ rest) = (digits, rest) := by
  have ends : rest.takeWhile Char.isDigit = [] ∧ rest.dropWhile Char.isDigit = rest := by
    cases rest with
    | nil => exact ⟨rfl, rfl⟩
    | cons c rest => rcases delimited c rfl with rfl | rfl | rfl <;> exact ⟨rfl, rfl⟩
  rw [spanDigits, List.takeWhile_append_of_pos all, List.dropWhile_append_of_pos all, ends.1, ends.2,
    List.append_nil]

theorem readFraction_of_delimited {rest : List Char} (delimited : Delimited rest) :
    readFraction rest = some ([], rest) := by
  cases rest with
  | nil => rfl
  | cons c rest => rcases delimited c rfl with rfl | rfl | rfl <;> rfl

theorem readExponent_of_delimited {rest : List Char} (delimited : Delimited rest) :
    readExponent rest = some ([], rest) := by
  cases rest with
  | nil => rfl
  | cons c rest => rcases delimited c rfl with rfl | rfl | rfl <;> rfl

theorem digitsValue_toDigits (n : Nat) : digitsValue (Nat.toDigits 10 n) = n := by
  have value := @Nat.ofDigitChars_ten_toDigits n
  rw [Nat.ofDigitChars_eq_foldl] at value
  simpa only [digitsValue, Nat.mul_comm] using value

/-- The digits of a number start with a zero only if that is all. -/
theorem toDigits_ne_zero_cons (n : Nat) (c : Char) (rest : List Char) :
    Nat.toDigits 10 n ≠ '0' :: c :: rest := by
  induction n using Nat.strongRecOn generalizing c rest with
  | ind n ih =>
    by_cases small : n < 10
    · rw [Nat.toDigits_of_lt_base small]
      simp
    · intro digits
      rw [Nat.toDigits_of_base_le (by omega) (by omega)] at digits
      cases front : Nat.toDigits 10 (n / 10) with
      | nil => exact Nat.toDigits_ne_nil front
      | cons d others =>
        rw [front, List.cons_append, List.cons.injEq] at digits
        obtain ⟨rfl, -⟩ := digits
        cases others with
        | nil =>
          have zero := digitsValue_toDigits (n / 10)
          rw [front] at zero
          have : digitsValue ['0'] = 0 := rfl
          omega
        | cons e others => exact ih (n / 10) (by omega) e others front

theorem isDigit_toDigits (n : Nat) : ∀ c ∈ Nat.toDigits 10 n, c.isDigit = true :=
  fun _ mem => Nat.isDigit_of_mem_toDigits (by omega) (by omega) mem

theorem readNumber_toDigits {negative : Bool} {n : Nat} (proper : negative = true → n ≠ 0)
    {rest : List Char} (delimited : Delimited rest) :
    readNumber negative (Nat.toDigits 10 n ++ rest) =
      some (int (if negative then -Int.ofNat n else Int.ofNat n), rest) := by
  have signed : (negative && decide (Int.ofNat n = 0)) = false := by
    cases negative with
    | false => rfl
    | true => simpa using proper rfl
  unfold readNumber
  rw [spanDigits_append (isDigit_toDigits n) delimited]
  simp only [digitsValue_toDigits, readFraction_of_delimited delimited, signed]
  simp [Nat.toDigits_ne_nil, readExponent_of_delimited delimited]
  split
  · exact absurd ‹_› (toDigits_ne_zero_cons n _ _)
  · rfl

/-! ## Trees that can be written -/

/-- A tree whose text is read back. -/
inductive Written : Json → Prop where
  | null : Written null
  | bool (value : Bool) : Written (bool value)
  | int (value : Int) : Written (int value)
  | str {written : String} : Legible written → Written (str written)
  | arr {items : List Json} : (∀ item ∈ items, Written item) → Written (arr items)
  | obj {members : List (String × Json)} : (∀ member ∈ members, Legible member.1) →
      (∀ member ∈ members, Written member.2) → Written (obj members)

theorem chars_int (value : Int) :
    (int value).chars = if value < 0 then '-' :: Nat.toDigits 10 value.natAbs
      else Nat.toDigits 10 value.natAbs := by
  cases value with
  | ofNat n =>
    show (toString n).toList = _
    rw [Nat.toString_eq_ofList_toDigits, String.toList_ofList, if_neg (by simp)]
    rfl
  | negSucc n =>
    show ("-" ++ toString (n + 1)).toList = _
    rw [if_pos (Int.negSucc_lt_zero n), Int.natAbs_negSucc]
    simp [String.toList_append]

theorem digit_ne {c d : Char} (digit : c.isDigit = true) (other : d.isDigit = false) : c ≠ d := by
  rintro rfl
  rw [digit] at other
  cases other

/-- The digits of a number need no escapes. -/
theorem legible_toString (n : Nat) : Legible (toString n) := by
  refine legible_of_plain fun c mem => ?_
  rw [Nat.toString_eq_ofList_toDigits, String.toList_ofList] at mem
  have digit := isDigit_toDigits n c mem
  have large : 48 ≤ c.toNat := (Char.isDigit_iff_toNat.1 digit).1
  have quote : c ≠ '"' := digit_ne digit rfl
  have backslash : c ≠ '\\' := digit_ne digit rfl
  simp [isPlain, quote, backslash]
  omega

theorem isBlank_of_isDigit {c : Char} (digit : c.isDigit = true) : isBlank c = false := by
  have blanks : c ≠ ' ' ∧ c ≠ '\n' ∧ c ≠ '\t' ∧ c ≠ '\r' :=
    ⟨digit_ne digit rfl, digit_ne digit rfl, digit_ne digit rfl, digit_ne digit rfl⟩
  simp [isBlank, blanks]

theorem skipBlanks_cons {c : Char} (solid : isBlank c = false) (cs : List Char) :
    skipBlanks (c :: cs) = c :: cs := by
  simp [skipBlanks, solid]

/-- A digit starts a number. -/
theorem readValue_digit {fuel : Nat} {c : Char} (digit : c.isDigit = true) (cs : List Char) :
    readValue (fuel + 1) (c :: cs) = orBroken (readNumber false (c :: cs)) := by
  rw [readValue, skipBlanks_cons (isBlank_of_isDigit digit)]
  split
  case h_8 => rfl
  all_goals
    obtain ⟨rfl, -⟩ := List.cons.inj ‹_›
    cases digit

/-- A written tree starts with a character that is no blank and closes nothing. -/
theorem Written.exists_chars {json : Json} (h : json.Written) :
    ∃ c cs, json.chars = c :: cs ∧ isBlank c = false ∧ c ≠ ']' := by
  cases h with
  | null => exact ⟨_, _, rfl, rfl, by decide⟩
  | bool value => cases value <;> exact ⟨_, _, rfl, rfl, by decide⟩
  | int value =>
    rw [chars_int]
    split_ifs
    · exact ⟨_, _, rfl, rfl, by decide⟩
    · cases digits : Nat.toDigits 10 value.natAbs with
      | nil => exact absurd digits Nat.toDigits_ne_nil
      | cons c cs =>
        have digit := isDigit_toDigits value.natAbs c (by simp [digits])
        exact ⟨c, cs, rfl, isBlank_of_isDigit digit, digit_ne digit rfl⟩
  | str _ => exact ⟨_, _, rfl, rfl, by decide⟩
  | arr _ => exact ⟨_, _, rfl, rfl, by decide⟩
  | obj _ _ => exact ⟨_, _, rfl, rfl, by decide⟩

/-! ## Values -/

theorem chars_arr (items : List Json) (rest : List Char) :
    (arr items).chars ++ rest = '[' :: (itemsChars items ++ ']' :: rest) := by
  simp [chars]

theorem chars_obj (members : List (String × Json)) (rest : List Char) :
    (obj members).chars ++ rest = '\x7b' :: (membersChars members ++ '\x7d' :: rest) := by
  simp [chars]

theorem readName_quoted {name : String} (legible : Legible name) (rest : List Char) :
    readName (quoted name ++ ':' :: rest) = some (name, rest) := by
  have opened : quoted name ++ ':' :: rest = '"' :: (name.toList ++ '"' :: ':' :: rest) := by
    simp [quoted]
  rw [readName, opened, skipBlanks_cons rfl]
  simp [legible (':' :: rest), skipBlanks_cons, isBlank]

/-- An opened array that is not closed at once has items. -/
theorem readValue_open {fuel : Nat} {c : Char} (solid : isBlank c = false) (other : c ≠ ']')
    (cs : List Char) :
    readValue (fuel + 1) ('[' :: c :: cs) =
      (arr (readItems fuel (c :: cs)).1, (readItems fuel (c :: cs)).2) := by
  have opened : skipBlanks ('[' :: c :: cs) = '[' :: c :: cs := skipBlanks_cons rfl _
  rw [readValue, opened]
  simp only [skipBlanks_cons solid]
  split
  · exact absurd (List.cons.inj ‹_›).1 other
  · rfl

theorem exists_itemsChars {items : List Json} (nonempty : items ≠ [])
    (written : ∀ item ∈ items, Written item) :
    ∃ c cs, itemsChars items = c :: cs ∧ isBlank c = false ∧ c ≠ ']' := by
  cases items with
  | nil => exact absurd rfl nonempty
  | cons item items =>
    obtain ⟨c, cs, opened, solid, other⟩ := (written item List.mem_cons_self).exists_chars
    cases items with
    | nil => exact ⟨c, cs, opened, solid, other⟩
    | cons next items =>
      rw [itemsChars, opened]
      exact ⟨c, _, rfl, solid, other⟩

theorem exists_membersChars (member : String × Json) (members : List (String × Json)) :
    ∃ cs, membersChars (member :: members) = '"' :: cs := by
  cases members with
  | nil => exact ⟨_, rfl⟩
  | cons next members => exact ⟨_, rfl⟩

/-- The reader of values takes a tree back. -/
def ReadBack (json : Json) : Prop :=
  ∀ fuel rest, json.chars.length < fuel → Delimited rest →
    readValue fuel (json.chars ++ rest) = (json, some rest)

/-- Items are read back one by one. -/
theorem readItems_itemsChars {items : List Json} (nonempty : items ≠ [])
    (each : ∀ item ∈ items, ReadBack item) :
    ∀ fuel rest, (itemsChars items).length + 1 < fuel →
      readItems fuel (itemsChars items ++ ']' :: rest) = (items, some rest) := by
  induction items with
  | nil => exact absurd rfl nonempty
  | cons item items ih =>
    intro fuel rest enough
    cases fuel with
    | zero => omega
    | succ fuel =>
      cases items with
      | nil =>
        rw [itemsChars] at enough ⊢
        rw [readItems, each item List.mem_cons_self fuel _ (by omega) (delimited_cons (by simp))]
        simp [skipBlanks_cons, isBlank]
      | cons next items =>
        rw [itemsChars, List.length_append, List.length_cons] at enough
        rw [itemsChars, List.append_assoc, List.cons_append, readItems,
          each item List.mem_cons_self fuel _ (by omega) (delimited_cons (by simp))]
        have others := ih (by simp) (fun item mem => each item (List.mem_cons_of_mem _ mem)) fuel rest
          (by omega)
        simp [skipBlanks_cons, isBlank, others]

theorem readMembers_membersChars {members : List (String × Json)} (nonempty : members ≠ [])
    (legible : ∀ member ∈ members, Legible member.1) (each : ∀ member ∈ members, ReadBack member.2) :
    ∀ fuel rest, (membersChars members).length + 1 < fuel →
      readMembers fuel (membersChars members ++ '\x7d' :: rest) = (members, some rest) := by
  induction members with
  | nil => exact absurd rfl nonempty
  | cons member members ih =>
    obtain ⟨name, value⟩ := member
    have first : ReadBack value := each (name, value) List.mem_cons_self
    intro fuel rest enough
    cases fuel with
    | zero => omega
    | succ fuel =>
      cases members with
      | nil =>
        rw [membersChars, List.length_append, List.length_cons] at enough
        rw [membersChars, List.append_assoc, List.cons_append, readMembers,
          readName_quoted (legible _ List.mem_cons_self)]
        simp [first fuel ('\x7d' :: rest) (by omega) (delimited_cons (by simp)), skipBlanks_cons,
          isBlank]
      | cons next members =>
        have opened : membersChars ((name, value) :: next :: members) ++ '\x7d' :: rest =
            quoted name ++ ':' :: (value.chars ++ ',' ::
              (membersChars (next :: members) ++ '\x7d' :: rest)) := by
          simp [membersChars]
        simp only [membersChars, List.length_append, List.length_cons] at enough
        have others := ih (by simp) (fun member mem => legible member (List.mem_cons_of_mem _ mem))
          (fun member mem => each member (List.mem_cons_of_mem _ mem)) fuel rest (by omega)
        rw [opened, readMembers, readName_quoted (legible _ List.mem_cons_self)]
        simp [first fuel (',' :: (membersChars (next :: members) ++ '\x7d' :: rest)) (by omega)
          (delimited_cons (by simp)), skipBlanks_cons, isBlank, others]

theorem readBack_int (value : Int) : ReadBack (int value) := by
  rintro (_ | fuel) rest enough delimited
  · omega
  · rw [chars_int]
    split_ifs with negative
    · have nonzero : true = true → value.natAbs ≠ 0 := fun _ => by omega
      rw [List.cons_append, readValue, skipBlanks_cons rfl]
      simp only [readNumber_toDigits nonzero delimited, orBroken, if_true, Int.ofNat_eq_natCast]
      rw [show -(value.natAbs : Int) = value by omega]
    · have digits : readNumber false (Nat.toDigits 10 value.natAbs ++ rest) =
          some (int value, rest) := by
        rw [readNumber_toDigits (by simp) delimited]
        simp
        omega
      cases first : Nat.toDigits 10 value.natAbs with
      | nil => exact absurd first Nat.toDigits_ne_nil
      | cons c cs =>
        rw [first] at digits
        have digit : c.isDigit = true := isDigit_toDigits value.natAbs c (by simp [first])
        rw [List.cons_append, readValue_digit digit, ← List.cons_append, digits, orBroken]

/-- A tree that can be written is read back. -/
theorem Written.readBack {json : Json} (h : json.Written) : ReadBack json := by
  induction h with
  | null =>
    rintro (_ | fuel) rest enough -
    · omega
    · simp [chars, readValue, skipBlanks_cons, isBlank]
  | bool value =>
    rintro (_ | fuel) rest enough -
    · omega
    · cases value <;> simp [chars, readValue, skipBlanks_cons, isBlank]
  | int value => exact readBack_int value
  | str legible =>
    rintro (_ | fuel) rest enough -
    · omega
    · simp [chars, quoted, readValue, skipBlanks_cons, isBlank, legible rest, orBroken]
  | @arr items written each =>
    rintro (_ | fuel) rest enough -
    · omega
    · simp only [chars, List.length_append, List.length_cons, List.length_nil] at enough
      rw [chars_arr]
      cases items with
      | nil => simp [itemsChars, readValue, skipBlanks_cons, isBlank]
      | cons item items =>
        have nonempty : item :: items ≠ [] := by simp
        obtain ⟨c, cs, opened, solid, other⟩ := exists_itemsChars nonempty written
        have read := readItems_itemsChars nonempty each fuel rest (by omega)
        rw [opened, List.cons_append] at read ⊢
        rw [readValue_open solid other, read]
  | @obj members legible written each =>
    rintro (_ | fuel) rest enough -
    · omega
    · simp only [chars, List.length_append, List.length_cons, List.length_nil] at enough
      rw [chars_obj]
      cases members with
      | nil => simp [membersChars, readValue, skipBlanks_cons, isBlank]
      | cons member members =>
        obtain ⟨cs, opened⟩ := exists_membersChars member members
        have read := readMembers_membersChars (by simp) legible each fuel rest (by omega)
        rw [opened, List.cons_append] at read ⊢
        simp [readValue, skipBlanks_cons, isBlank, read]

/-- The text of a tree is read as the tree, with nothing behind it. -/
theorem parse_render {json : Json} (h : json.Written) : parse json.render = ⟨json, true⟩ := by
  have read := h.readBack (json.chars.length + 1) [] (by omega) delimited_nil
  rw [List.append_nil] at read
  rw [parse, render, String.toList_ofList, read]
  rfl

end RangeFlow.Json
