import LazyLisp.Proofs.Reader.Literal
import Mathlib.Data.List.TakeWhile

/-!
# Words, names and strings

The names and string payloads that the reader accepts, and how a word that does not go on
is read: as the whole word, and as the first kind of atom that it spells.
-/

set_option autoImplicit false

namespace LazyLisp.Reader

/-- A text of name characters that does not begin with a digit and is not reserved. -/
structure IsName (name : String) : Prop where
  nonempty : name.toList ≠ []
  chars : name.toList.all isNameChar = true
  noDigit : name.toList.head?.any Char.isDigit = false
  notReserved : name ∉ reservedWords

/-- A name that stands for a value: no operator is read at its beginning. -/
structure IsIdentifier (name : String) : Prop extends IsName name where
  noMinus : name.toList.head? ≠ some '-'
  notOperator : ∀ op ∈ Operator.words, name ≠ op.token

/-- A text without a quote, other than behind a backslash, and without a lone backslash. -/
inductive IsPayload : Text → Prop where
  | empty : IsPayload []
  | escaped {char : Char} {text : Text} : IsPayload text → IsPayload ('\\' :: char :: text)
  | plain {char : Char} {text : Text} :
      char ≠ '"' → char ≠ '\\' → IsPayload text → IsPayload (char :: text)

/-! ## Name characters -/

theorem toNat_lt_of_isNameChar {char : Char} (isName : isNameChar char = true) :
    char.toNat < 128 := by
  delta isNameChar Char.isAlphanum Char.isAlpha Char.isUpper Char.isLower Char.isDigit at isName
  simp only [Bool.or_eq_true, Bool.and_eq_true, decide_eq_true_eq, beq_iff_eq, ge_iff_le,
    UInt32.le_iff_toNat_le] at isName
  change char.val.toNat < 128
  rcases isName with ((((⟨-, most⟩ | ⟨-, most⟩) | ⟨-, most⟩) | rfl) | rfl) | rfl
  · exact Nat.lt_of_le_of_lt most (by decide)
  · exact Nat.lt_of_le_of_lt most (by decide)
  · exact Nat.lt_of_le_of_lt most (by decide)
  all_goals decide

/-- Among the name characters only the ASCII digits begin numbers, and only the minus is an
operator. -/
theorem name_char_table {char : Char} (isName : isNameChar char = true)
    (noDigit : char.isDigit = false) (noMinus : char ≠ '-') :
    startsMantissa char = false ∧ Operator.ofChar? char = none ∧ char ≠ '+' := by
  have table : ∀ code < 128,
      (isNameChar (Char.ofNat code) && !(Char.ofNat code).isDigit &&
        Char.ofNat code != '-') = true →
      startsMantissa (Char.ofNat code) = false ∧ Operator.ofChar? (Char.ofNat code) = none ∧
        Char.ofNat code ≠ '+' := by
    decide
  have entry := table char.toNat (toNat_lt_of_isNameChar isName)
  rw [Char.ofNat_toNat] at entry
  exact entry (by simp [isName, noDigit, noMinus])

/-! ## Names -/

theorem takeWhile_append_of_atNameEnd {text rest : Text}
    (chars : text.all isNameChar = true) (ends : AtNameEnd rest) :
    (text ++ rest).takeWhile isNameChar = text ∧ (text ++ rest).dropWhile isNameChar = rest := by
  rw [List.all_eq_true] at chars
  rw [List.takeWhile_append_of_pos chars, List.dropWhile_append_of_pos chars]
  cases rest with
  | nil => simp
  | cons char rest =>
      simp only [AtNameEnd, List.head?_cons, Option.any_some] at ends
      simp [ends]

/-- A name that does not go on is read whole. -/
theorem name?_append {name : String} (isName : IsName name) {rest : Text}
    (ends : AtNameEnd rest) : name? (name.toList ++ rest) = some (name, rest) := by
  obtain ⟨taken, dropped⟩ := takeWhile_append_of_atNameEnd isName.chars ends
  have notReserved : reservedWords.contains name = false := by
    simpa using isName.notReserved
  have nonempty : name.toList.isEmpty = false := by simpa using isName.nonempty
  simp only [name?, taken, dropped, String.ofList_toList, nonempty, isName.noDigit, notReserved]
  rfl

theorem isName_of_name? {text rest : Text} {name : String}
    (found : name? text = some (name, rest)) : IsName name := by
  simp only [name?] at found
  split at found
  · cases found
  next accepted =>
    cases found
    simp only [Bool.or_eq_true, not_or, Bool.not_eq_true] at accepted
    obtain ⟨⟨nonempty, noDigit⟩, notReserved⟩ := accepted
    refine ⟨by simpa using nonempty, ?_, ?_, by simpa using notReserved⟩
    · rw [String.toList_ofList]
      exact List.all_takeWhile
    · rw [String.toList_ofList]
      exact noDigit

theorem not_name_of_name? {text rest : Text} {name : String}
    (found : name? text = some (name, rest)) : rest.head?.any isNameChar = false := by
  simp only [name?] at found
  split at found
  · cases found
  · cases found
    have stops := List.head?_dropWhile_not isNameChar text
    cases left : text.dropWhile isNameChar with
    | nil => rfl
    | cons char rest => simpa [left] using stops

/-! ## Words -/

/-- A word of name characters that does not go on is read as itself only. -/
theorem word?_append {word : String} (wordChars : word.toList.all isNameChar = true)
    {text rest : Text} (chars : text.all isNameChar = true) (ends : AtNameEnd rest) :
    word? word (text ++ rest) = if text = word.toList then some rest else none := by
  split
  next same => exact word?_eq_some_iff.mpr ⟨by rw [same], ends⟩
  next differs =>
    cases found : word? word (text ++ rest) with
    | none => rfl
    | some rest' =>
        obtain ⟨split, stops⟩ := word?_eq_some_iff.mp found
        have taken := (takeWhile_append_of_atNameEnd chars ends).1
        rw [split, List.takeWhile_append_of_pos (List.all_eq_true.mp wordChars)] at taken
        refine absurd ?_ differs
        cases rest' with
        | nil => simpa using taken.symm
        | cons char rest' =>
            simp only [List.head?_cons, Option.any_some] at stops
            simpa [stops] using taken.symm

/-! ## Strings -/

theorem payload?_append {payload : Text} (isPayload : IsPayload payload) (rest : Text) :
    payload? (payload ++ '"' :: rest) = some (payload, rest) := by
  induction isPayload with
  | empty => rfl
  | escaped _ ih => simp [payload?, ih]
  | @plain char text noQuote noBackslash _ ih =>
      rw [List.cons_append, payload?, ih]
      · rfl
      · exact noQuote
      · intro same _
        exact noBackslash same
      · intro _ _ same _
        exact noBackslash same

theorem isPayload_of_payload? {text payload rest : Text}
    (found : payload? text = some (payload, rest)) : IsPayload payload := by
  fun_induction payload? text generalizing payload with
  | case1 => cases found
  | case2 text =>
      cases found
      exact .empty
  | case3 => cases found
  | case4 char text ih =>
      simp only [Option.map_eq_some_iff] at found
      obtain ⟨⟨payload', rest'⟩, inner, same⟩ := found
      cases same
      exact .escaped (ih inner)
  | case5 char text noQuote noLone noEscape ih =>
      simp only [Option.map_eq_some_iff] at found
      obtain ⟨⟨payload', rest'⟩, inner, same⟩ := found
      cases same
      refine .plain noQuote ?_ (ih inner)
      rintro rfl
      cases text with
      | nil => exact noLone rfl rfl
      | cons char text => exact noEscape char text rfl rfl

/-! ## Atoms -/

/-- No numeral is read where the text behind a sign begins neither with the word of a number nor
with a digit or point. -/
theorem numeral?_eq_none {text unsigned : Text} {negative : Bool}
    (signed : sign text = (negative, unsigned)) (notInfinite : word? "inf" unsigned = none)
    (notNan : word? "nan" unsigned = none)
    (noDigit : ∀ char ∈ unsigned.head?, startsMantissa char = false) : numeral? text = none := by
  have noMantissa : mantissa? unsigned = none := by
    cases unsigned with
    | nil => rfl
    | cons char unsigned =>
        have other := noDigit char rfl
        simp only [startsMantissa, Text.isDigit, Bool.or_eq_false_iff, Option.isSome_eq_false_iff,
          Option.isNone_iff_eq_none, beq_eq_false_iff_ne] at other
        simp only [mantissa?, Text.digitRun, other.1]
        split
        next same => exact absurd (List.cons.inj (Prod.mk.inj same).2).1 other.2
        next same => cases same; rfl
  simp only [numeral?, signed, notInfinite, notNan, noMantissa]
  rfl

/-- The characters that no number, boolean, operator or `nil` begins with, and that no name
contains. -/
def punctuation : List Char := ['(', '[', '\'', ':', '"']

theorem atom?_punctuation {char : Char} (mark : char ∈ punctuation) (text : Text) :
    atom? (char :: text) = committedAtom? (char :: text) := by
  simp only [punctuation, List.mem_cons, List.not_mem_nil, or_false] at mark
  rcases mark with rfl | rfl | rfl | rfl | rfl <;> rfl

theorem atom?_number {number : Number} {text rest : Text} (literal : Literal number text)
    (ends : AtTokenEnd rest) : atom? (text ++ rest) = .ok (some (.number number, rest)) := by
  simp only [atom?, literal.numeral?_append ends]

theorem atom?_symbol {name : String} (isName : IsName name) {rest : Text}
    (ends : AtNameEnd rest) :
    atom? (':' :: name.toList ++ rest) = .ok (some (.symbol name, rest)) := by
  rw [List.cons_append, atom?_punctuation (by decide)]
  simp only [committedAtom?, name?_append isName ends]

theorem atom?_string {payload : String} (isPayload : IsPayload payload.toList) (rest : Text) :
    atom? ('"' :: payload.toList ++ ['"'] ++ rest) = .ok (some (.string payload, rest)) := by
  rw [List.cons_append, List.cons_append, List.append_assoc, atom?_punctuation (by decide)]
  simp only [committedAtom?, List.singleton_append, payload?_append isPayload,
    String.ofList_toList]

/-! ## Atoms that are words -/

/-- A word of name characters at which no number and no minus begins. -/
structure IsPlainWord (word : String) : Prop where
  nonempty : word.toList ≠ []
  chars : word.toList.all isNameChar = true
  noDigit : word.toList.head?.any Char.isDigit = false
  noMinus : word.toList.head? ≠ some '-'

section

variable {word : String} (isPlain : IsPlainWord word) {rest : Text} (ends : AtNameEnd rest)

include isPlain

theorem IsPlainWord.exists_cons : ∃ char letters, word.toList = char :: letters ∧
    isNameChar char = true ∧ char.isDigit = false ∧ char ≠ '-' := by
  cases spelled : word.toList with
  | nil => exact absurd spelled isPlain.nonempty
  | cons char letters =>
      obtain ⟨-, chars, noDigit, noMinus⟩ := isPlain
      rw [spelled] at chars noDigit noMinus
      rw [List.all_cons, Bool.and_eq_true] at chars
      exact ⟨char, letters, rfl, chars.1, noDigit, fun same => noMinus (congrArg some same)⟩

include ends

theorem word?_plain {other : String} (otherChars : other.toList.all isNameChar = true) :
    word? other (word.toList ++ rest) = if word = other then some rest else none := by
  simp only [word?_append otherChars isPlain.chars ends, String.toList_inj]

theorem numeral?_plain (notInfinite : word ≠ "inf") (notNan : word ≠ "nan") :
    numeral? (word.toList ++ rest) = none := by
  obtain ⟨char, letters, spelled, isName, noDigit, noMinus⟩ := isPlain.exists_cons
  obtain ⟨noMantissa, -, noPlus⟩ := name_char_table isName noDigit noMinus
  have head : (word.toList ++ rest).head? = some char := by rw [spelled]; rfl
  have unsigned : sign (word.toList ++ rest) = (false, word.toList ++ rest) := by
    refine SignText.none.sign_append fun first member => ?_
    cases head.symm.trans member
    exact ⟨noMinus, noPlus⟩
  refine numeral?_eq_none unsigned ?_ ?_ fun first member => ?_
  · rw [word?_plain isPlain ends (by decide), if_neg notInfinite]
  · rw [word?_plain isPlain ends (by decide), if_neg notNan]
  · cases head.symm.trans member
    exact noMantissa

theorem boolean?_plain : boolean? (word.toList ++ rest) =
    if word = "true" then some (true, rest)
    else if word = "false" then some (false, rest) else none := by
  rw [boolean?, word?_plain isPlain ends (by decide), word?_plain isPlain ends (by decide)]
  split
  next same =>
    split at same
    next isTrue => cases same; rw [if_pos isTrue]
    next => cases same
  next same =>
    split at same
    next => cases same
    next isOther =>
      rw [if_neg isOther]
      split <;> rfl

theorem operator?_plain : operator? (word.toList ++ rest) =
    (Operator.words.find? fun op => op.token == word).map fun op => (op, rest) := by
  obtain ⟨char, letters, spelled, isName, noDigit, noMinus⟩ := isPlain.exists_cons
  obtain ⟨-, noOperator, -⟩ := name_char_table isName noDigit noMinus
  have chars : ∀ op ∈ Operator.words, op.token.toList.all isNameChar = true := by decide
  have read (op : Operator) (isWord : op ∈ Operator.words) :
      (word? op.token (word.toList ++ rest)).map (fun rest => (op, rest)) =
        if op.token == word then some (op, rest) else none := by
    rw [word?_plain isPlain ends (chars op isWord)]
    by_cases same : op.token = word
    · simp [same]
    · simp [same, Ne.symm same]
  have step : operator? (word.toList ++ rest) = Operator.words.findSome? fun op =>
      (word? op.token (word.toList ++ rest)).map fun rest => (op, rest) := by
    rw [spelled, List.cons_append, operator?, noOperator]
  rw [step]
  generalize Operator.words = ops at read
  induction ops with
  | nil => rfl
  | cons op ops ih =>
      have others := ih fun other member => read other (List.mem_cons_of_mem _ member)
      rw [List.findSome?_cons, List.find?_cons, read op List.mem_cons_self]
      by_cases same : op.token = word
      · simp [same]
      · have other : (op.token == word) = false := beq_eq_false_iff_ne.mpr same
        simp [other, others]

end

theorem IsIdentifier.isPlainWord {name : String} (isIdentifier : IsIdentifier name) :
    IsPlainWord name where
  nonempty := isIdentifier.nonempty
  chars := isIdentifier.chars
  noDigit := isIdentifier.noDigit
  noMinus := isIdentifier.noMinus

theorem atom?_boolean (value : Bool) {rest : Text} (ends : AtNameEnd rest) :
    atom? ((if value then "true" else "false").toList ++ rest) =
      .ok (some (.boolean value, rest)) := by
  cases value with
  | true =>
      have isPlain : IsPlainWord "true" := ⟨by decide, by decide, by decide, by decide⟩
      have noNumber := numeral?_plain isPlain ends (by decide) (by decide)
      have read := boolean?_plain isPlain ends
      simp only [if_true] at read ⊢
      simp only [atom?, noNumber, read]
  | false =>
      have isPlain : IsPlainWord "false" := ⟨by decide, by decide, by decide, by decide⟩
      have noNumber := numeral?_plain isPlain ends (by decide) (by decide)
      have read := boolean?_plain isPlain ends
      rw [if_neg (by decide), if_pos rfl] at read
      simp only [atom?, Bool.false_eq_true, if_false, noNumber, read]

theorem atom?_nil {rest : Text} (ends : AtNameEnd rest) :
    atom? ("nil".toList ++ rest) = .ok (some (.nil, rest)) := by
  have isPlain : IsPlainWord "nil" := ⟨by decide, by decide, by decide, by decide⟩
  have noNumber := numeral?_plain isPlain ends (by decide) (by decide)
  have noBoolean := boolean?_plain isPlain ends
  have noOperator := operator?_plain isPlain ends
  have read : word? "nil" ("nil".toList ++ rest) = some rest :=
    (word?_plain isPlain ends (by decide)).trans (if_pos rfl)
  rw [if_neg (by decide), if_neg (by decide)] at noBoolean
  have notFound : (Operator.words.find? fun op => op.token == "nil") = none := by decide
  rw [notFound, Option.map_none] at noOperator
  simp only [atom?, noNumber, noBoolean, noOperator, read]

/-! ## Operators and identifiers -/

theorem isPlainWord_of_mem_words {op : Operator} (isWord : op ∈ Operator.words) :
    IsPlainWord op.token := by
  simp only [Operator.words, List.mem_cons, List.not_mem_nil, or_false] at isWord
  rcases isWord with rfl | rfl | rfl | rfl <;>
    exact ⟨by decide, by decide, by decide, by decide⟩

theorem numeral?_sign {char : Char} (isSign : char = '-' ∨ char = '+') {rest : Text}
    (ends : AtTokenEnd rest) : numeral? (char :: rest) = none := by
  have signed : sign (char :: rest) = (char == '-', rest) := by
    rcases isSign with rfl | rfl <;> rfl
  have noName (letter : Char) (isName : isNameChar letter = true) :
      ∀ first ∈ rest.head?, first ≠ letter := by
    rintro first member rfl
    rw [(not_continues_of_endsToken (ends first member)).1] at isName
    cases isName
  refine numeral?_eq_none signed ?_ ?_ fun first member => ?_
  · exact word?_eq_none_of_head (show "inf".toList = 'i' :: ['n', 'f'] from rfl)
      (noName 'i' (by decide))
  · exact word?_eq_none_of_head (show "nan".toList = 'n' :: ['a', 'n'] from rfl)
      (noName 'n' (by decide))
  · have stops := (not_continues_of_endsToken (ends first member)).2
    simp only [continuesNumeral, Bool.or_eq_false_iff] at stops
    simp [startsMantissa, stops]

/-- An operator that does not go on as a name is read as itself wherever a head may stand. -/
theorem operator?_token (op : Operator) {rest : Text} (ends : AtNameEnd rest) :
    operator? (op.token.toList ++ rest) = some (op, rest) := by
  rcases op.mem_words_or_ofChar? with isWord | ⟨char, found⟩
  · have onlyOne : ∀ op ∈ Operator.words,
        (Operator.words.find? fun other => other.token == op.token) = some op := by
      decide
    rw [operator?_plain (isPlainWord_of_mem_words isWord) ends, onlyOne op isWord, Option.map_some]
  · rw [Operator.token_of_ofChar? found, List.singleton_append, operator?, found]

theorem atom?_operator_word {op : Operator} (isWord : op ∈ Operator.words) {rest : Text}
    (ends : AtNameEnd rest) :
    atom? (op.token.toList ++ rest) = .ok (some (.operator op, rest)) := by
  have table : ∀ op ∈ Operator.words, ∀ word ∈ reservedWords, op.token ≠ word := by decide
  have isOther {word : String} (reserved : word ∈ reservedWords) : op.token ≠ word :=
    table op isWord word reserved
  have isPlain := isPlainWord_of_mem_words isWord
  have noNumber := numeral?_plain isPlain ends (isOther (by decide)) (isOther (by decide))
  have noBoolean := boolean?_plain isPlain ends
  rw [if_neg (isOther (by decide)), if_neg (isOther (by decide))] at noBoolean
  simp only [atom?, noNumber, noBoolean, operator?_token op ends]

/-- The character of an operator is read wherever no number begins with it. -/
theorem atom?_operator_char {char : Char} {op : Operator} (isMark : Operator.ofChar? char = some op)
    {rest : Text} (noNumber : numeral? (char :: rest) = none) :
    atom? (char :: rest) = .ok (some (.operator op, rest)) := by
  have noWord {word : String} {first : Char} {letters : Text}
      (spelled : word.toList = first :: letters)
      (noMark : Operator.ofChar? first = none) : word? word (char :: rest) = none := by
    refine word?_eq_none_of_head spelled fun other member => ?_
    cases member
    rintro rfl
    rw [isMark] at noMark
    cases noMark
  have noBoolean : boolean? (char :: rest) = none := by
    rw [boolean?, noWord (show "true".toList = 't' :: ['r', 'u', 'e'] from rfl) rfl,
      noWord (show "false".toList = 'f' :: ['a', 'l', 's', 'e'] from rfl) rfl, Option.map_none]
  simp only [atom?, noNumber, noBoolean, operator?, isMark]

theorem atom?_operator (op : Operator) {rest : Text} (ends : AtTokenEnd rest) :
    atom? (op.token.toList ++ rest) = .ok (some (.operator op, rest)) := by
  rcases op.mem_words_or_ofChar? with isWord | ⟨char, isMark⟩
  · exact atom?_operator_word isWord ends.not_name
  · rw [Operator.token_of_ofChar? isMark]
    refine atom?_operator_char isMark ?_
    cases op with
    | plus | minus | times | divide | remainder | equal =>
        cases Operator.token_of_ofChar? isMark
        first
        | exact numeral?_sign (.inl rfl) ends
        | exact numeral?_sign (.inr rfl) ends
        | rfl
    | not | and | or | count => cases Operator.token_of_ofChar? isMark

theorem IsName.ne_of_mem_reservedWords {name word : String} (isName : IsName name)
    (reserved : word ∈ reservedWords) : name ≠ word := by
  rintro rfl
  exact isName.notReserved reserved

theorem operator?_identifier {name : String} (isIdentifier : IsIdentifier name) {rest : Text}
    (ends : AtNameEnd rest) : operator? (name.toList ++ rest) = none := by
  have notFound : (Operator.words.find? fun op => op.token == name) = none := by
    rw [List.find?_eq_none]
    intro op isWord same
    exact isIdentifier.notOperator op isWord (beq_iff_eq.mp same).symm
  rw [operator?_plain isIdentifier.isPlainWord ends, notFound, Option.map_none]

theorem atom?_identifier {name : String} (isIdentifier : IsIdentifier name) {rest : Text}
    (ends : AtNameEnd rest) :
    atom? (name.toList ++ rest) = .ok (some (.identifier name, rest)) := by
  have isPlain := isIdentifier.isPlainWord
  have isOther {word : String} (reserved : word ∈ reservedWords) : name ≠ word :=
    isIdentifier.ne_of_mem_reservedWords reserved
  have noNumber := numeral?_plain isPlain ends (isOther (by decide)) (isOther (by decide))
  have noBoolean := boolean?_plain isPlain ends
  have noNil : word? "nil" (name.toList ++ rest) = none :=
    (word?_plain isPlain ends (by decide)).trans (if_neg (isOther (by decide)))
  have committed : committedAtom? (name.toList ++ rest) = .ok (some (.identifier name, rest)) := by
    have read := name?_append isIdentifier.toIsName ends
    obtain ⟨char, letters, spelled, isNameChar, -, -⟩ := isPlain.exists_cons
    rw [spelled, List.cons_append] at read ⊢
    rw [committedAtom?, read, Option.map_some]
    all_goals
      rintro text same
      cases (List.cons.inj same).1
      revert isNameChar
      decide
  rw [if_neg (isOther (by decide)), if_neg (isOther (by decide))] at noBoolean
  simp only [atom?, noNumber, noBoolean, operator?_identifier isIdentifier ends, noNil, committed]

theorem functionName?_operator (op : Operator) {rest : Text} (ends : AtNameEnd rest) :
    functionName? (op.token.toList ++ rest) = some (.operator op, rest) := by
  simp only [functionName?, operator?_token op ends]

theorem functionName?_identifier {name : String} (isIdentifier : IsIdentifier name) {rest : Text}
    (ends : AtNameEnd rest) :
    functionName? (name.toList ++ rest) = some (.identifier name, rest) := by
  simp only [functionName?, operator?_identifier isIdentifier ends,
    name?_append isIdentifier.toIsName ends, Option.map_some]

end LazyLisp.Reader
