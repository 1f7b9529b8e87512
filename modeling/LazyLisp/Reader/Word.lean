import LazyLisp.Text.Basic

/-!
# Words and names

A word is only read where no name character follows it, so `notch` is a name and not the word
`not`. A name is the longest run of name characters that is not reserved.
-/

set_option autoImplicit false

namespace LazyLisp.Reader

/-- The characters of names: letters and digits of the ASCII range, underscore, question mark and
minus. -/
def isNameChar (char : Char) : Bool :=
  char.isAlphanum || char == '_' || char == '?' || char == '-'

/-- The words that are not names: the special forms, the constants and the spellings of the numbers
that are not finite. -/
def reservedWords : List String :=
  ["if", "true", "false", "nil", "def", "fn", "cond", "inf", "nan"]

/-- The text after the given word, if the text begins with it and no name character follows. -/
def word? (word : String) (text : Text) : Option Text :=
  if word.toList.isPrefixOf text then
    let rest := text.drop word.toList.length
    if rest.head?.any isNameChar then none else some rest
  else none

/-- The name at the beginning of the text and the text after it. A name does not begin with a
digit. -/
def name? (text : Text) : Option (String × Text) :=
  let name := text.takeWhile isNameChar
  if name.isEmpty || name.head?.any Char.isDigit || reservedWords.contains (String.ofList name) then
    none
  else some (String.ofList name, text.dropWhile isNameChar)

theorem word?_eq_some_iff {word : String} {text rest : Text} :
    word? word text = some rest ↔
      text = word.toList ++ rest ∧ rest.head?.any isNameChar = false := by
  unfold word?
  split
  next begins =>
    obtain ⟨rest', rfl⟩ := List.isPrefixOf_iff_prefix.mp begins
    simp only [List.drop_left, List.append_cancel_left_eq]
    split
    next continues =>
      simp only [reduceCtorEq, false_iff, not_and]
      rintro rfl
      simp [continues]
    next ends =>
      simp only [Option.some.injEq, iff_self_and]
      rintro rfl
      simpa using ends
  next other =>
    simp only [reduceCtorEq, false_iff, not_and]
    rintro rfl
    exact absurd (List.isPrefixOf_iff_prefix.mpr (List.prefix_append _ _)) other

theorem append_eq_of_name? {text rest : Text} {name : String}
    (found : name? text = some (name, rest)) : name.toList ++ rest = text := by
  simp only [name?] at found
  split at found
  · cases found
  · cases found
    simp [List.takeWhile_append_dropWhile]

end LazyLisp.Reader
