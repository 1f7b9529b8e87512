import LazyLisp.Proofs.Editor
import LazyLisp.Proofs.Outline
import LazyLisp.Proofs.Reader.Mentions
import LazyLisp.Proofs.Text.Lines

/-!
# Words and identifiers

The word under the cursor is found without the reader, from delimiters on the line of the cursor. It
is the identifier that is read there just if delimiters stand on both sides of the identifier. Not
everything that may stand beside one is a delimiter, comments and operators among it.
-/

set_option autoImplicit false

namespace LazyLisp

open Reader

namespace Editor

/-! ## Words in a text -/

/-- The word characters at the end of a text. -/
def wordBefore (text : Text) : Text :=
  (text.reverse.takeWhile fun char => !isDelimiter char).reverse

/-- The word characters at the beginning of a text. -/
def wordAfter (text : Text) : Text := text.takeWhile fun char => !isDelimiter char

/-- Delimiters stand on both sides, or nothing. -/
def delimited (before rest : Text) : Bool :=
  before.getLast?.all isDelimiter && rest.head?.all isDelimiter

theorem wordAfter_eq_nil_iff {text : Text} :
    wordAfter text = [] ↔ text.head?.all isDelimiter = true := by
  cases text with
  | nil => simp [wordAfter]
  | cons char text =>
      unfold wordAfter
      cases delimits : isDelimiter char <;> simp [delimits]

theorem wordBefore_eq_nil_iff {text : Text} :
    wordBefore text = [] ↔ text.getLast?.all isDelimiter = true := by
  rw [← List.head?_reverse, ← wordAfter_eq_nil_iff]
  exact List.reverse_eq_nil_iff

/-- A line feed ends a word, so the word characters before the cursor are on its line. -/
theorem wordBefore_lastLine (before : Text) :
    wordBefore (Text.lastLine before) = wordBefore before := by
  simp only [wordBefore, Text.lastLine, List.reverse_reverse, List.takeWhile_takeWhile]
  congr 2
  funext char
  by_cases lineFeed : char = '\n'
  · simp [lineFeed, isDelimiter]
  · simp [lineFeed]

theorem wordIn_length (before line : Text) :
    wordIn (before ++ line) before.length = wordBefore before ++ wordAfter line := by
  simp only [wordIn, List.take_left, List.drop_left, wordBefore, wordAfter]

theorem wordAt?_of_line {text content : Text} {line character : Nat}
    (found : (Text.editorLines text)[line]? = some content)
    (nonempty : wordIn content character ≠ []) :
    wordAt? text line character = some (wordIn content character) := by
  rw [wordAt?, found]
  dsimp only
  split
  next none => exact absurd none nonempty
  next => rfl

theorem endsToken_of_endsLine {char : Char} (ends : Text.endsLine char = true) :
    endsToken char = true := by
  have isBlank : Text.isBlank char = true := by
    simp only [Text.endsLine, Bool.or_eq_true, Bool.and_eq_true, decide_eq_true_eq,
      beq_iff_eq] at ends
    simp only [Text.isBlank, Bool.or_eq_true, Bool.and_eq_true, decide_eq_true_eq, beq_iff_eq]
    omega
  simp only [endsToken, startsGap, isBlank, Bool.true_or]

theorem endsToken_of_isDelimiter {char : Char} (delimits : isDelimiter char = true) :
    endsToken char = true := by
  simp only [isDelimiter, List.contains_iff_mem] at delimits
  have all : [' ', '\t', '(', ')', '[', ']', '\n', '\r', '"', '\''].all endsToken = true := rfl
  exact List.all_eq_true.mp all char delimits

/-- At the place of a word in a text the word goes on as far as no delimiter stands beside it. -/
theorem wordAt?_place {before word rest : Text} (ended : Text.endedByLineFeeds before = true)
    (chars : ∀ char ∈ word, endsToken char = false) (nonempty : word ≠ []) :
    let place := Text.Place.ofOffset (before ++ (word ++ rest)) before.length
    wordAt? (before ++ (word ++ rest)) place.line place.column =
      some (wordBefore before ++ (word ++ wordAfter (Text.firstLine rest))) := by
  intro place
  have noLineEnd : ∀ char ∈ word, Text.endsLine char = false := by
    intro char member
    apply Bool.eq_false_of_not_eq_true
    intro ends
    cases (chars char member).symm.trans (endsToken_of_endsLine ends)
  have noDelimiter : ∀ char ∈ word, (!isDelimiter char) = true := by
    intro char member
    rw [Bool.not_eq_true']
    apply Bool.eq_false_of_not_eq_true
    intro delimits
    cases (chars char member).symm.trans (endsToken_of_isDelimiter delimits)
  obtain ⟨others, lines⟩ :=
    Text.exists_editorLines (List.append_ne_nil_of_left_ne_nil nonempty rest)
  rw [Text.firstLine_append noLineEnd] at lines
  have line := Text.editorLines_getElem?_count ended lines
  have after : wordAfter (word ++ Text.firstLine rest) = word ++ wordAfter (Text.firstLine rest) :=
    List.takeWhile_append_of_pos noDelimiter
  have found : wordIn (Text.lastLine before ++ (word ++ Text.firstLine rest))
      (Text.lastLine before).length =
        wordBefore before ++ (word ++ wordAfter (Text.firstLine rest)) := by
    rw [wordIn_length, wordBefore_lastLine, after]
  simp only [place, Text.Place.ofOffset_length]
  rw [wordAt?_of_line line, found]
  rw [found]
  simp [nonempty]

theorem wordAt?_place_eq_iff {before word rest : Text}
    (ended : Text.endedByLineFeeds before = true)
    (chars : ∀ char ∈ word, endsToken char = false) (nonempty : word ≠ []) :
    let place := Text.Place.ofOffset (before ++ (word ++ rest)) before.length
    wordAt? (before ++ (word ++ rest)) place.line place.column = some word ↔
      delimited before rest = true := by
  intro place
  have boundary : delimited before rest = true ↔
      wordBefore before = [] ∧ wordAfter (Text.firstLine rest) = [] := by
    rw [wordBefore_eq_nil_iff, wordAfter_eq_nil_iff, Text.head?_firstLine, delimited,
      Bool.and_eq_true]
  rw [wordAt?_place ended chars nonempty, Option.some.injEq, boundary]
  constructor
  · intro same
    have lengths := congrArg List.length same
    simp only [List.length_append] at lengths
    constructor <;> apply List.eq_nil_of_length_eq_zero <;> omega
  · intro bounded
    rw [bounded.1, bounded.2, List.nil_append, List.append_nil]

/-! ## Explanations of definitions -/

/-- What the editor shows for a definition. -/
def explanation (definition : Definition) : Text :=
  definition.detail ++ '\n' :: (if definition.isFunction then "function" else "var").toList ++
    " defined at ".toList ++ Nat.toDigits 10 (definition.place.line + 1) ++
    ':' :: Nat.toDigits 10 (definition.place.column + 1)

/-- The words that are explained in every document. -/
def isBuiltIn (name : String) : Bool := (operatorHelp ++ formHelp).any fun entry => entry.1 = name

theorem explanation?_of_find? {outline : Outline} {name : String} {definition : Definition}
    (noBuiltIn : isBuiltIn name = false) (found : outline.find? name = some definition) :
    explanation? outline name.toList = some (explanation definition) := by
  have noHelp : ((operatorHelp ++ formHelp).find? fun entry => entry.1 = name) = none := by
    rw [List.find?_eq_none]
    exact List.any_eq_false.mp noBuiltIn
  rw [explanation?, String.ofList_toList]
  simp only [noHelp, found, Option.map_some, explanation]

/-- This is shown for the definition that the name has last in the source. -/
def ExplainsLast (source : Text) (name : String) (shown : Text) : Prop :=
  ∃ definition ∈ (Outline.ofSource source).definitions, ∃ value,
    definition.name = name ∧ DefinesLast (readAll source).1 name value ∧
      definition.Describes value ∧ shown = explanation definition

theorem exists_explanation? {source : Text} {name : String} (noBuiltIn : isBuiltIn name = false)
    (defined : name ∈ definedNames (readAll source).1) :
    ∃ shown, ExplainsLast source name shown ∧
      explanation? (Outline.ofSource source) name.toList = some shown := by
  have summarizes := Outline.summarizes_ofSource source
  rw [← summarizes.names, List.mem_map] at defined
  obtain ⟨inside, member, same⟩ := defined
  obtain ⟨definition, found⟩ : ∃ definition,
      (Outline.ofSource source).find? name = some definition := by
    rw [← Option.isSome_iff_exists, Outline.find?, List.find?_isSome]
    exact ⟨inside, member, by simpa using same⟩
  have member := List.mem_of_find?_eq_some found
  have named : definition.name = name := by simpa using List.find?_some found
  obtain ⟨value, defines, describes⟩ := summarizes.described member
  rw [named] at defines
  exact ⟨explanation definition, ⟨definition, member, value, named, defines, describes, rfl⟩,
    explanation?_of_find? noBuiltIn found⟩

theorem hover?_of_word {editor : Editor} {uri : String} {source word : Text}
    {line character : Nat} (isOpen : editor.document? uri = some (Document.ofText source))
    (found : wordAt? source line character = some word) :
    editor.hover? uri line character = explanation? (Outline.ofSource source) word := by
  simp only [hover?, isOpen, Option.bind_eq_bind, Option.bind_some, Document.ofText, found]

/-! ## Identifiers under the cursor -/

/-- Each identifier of the forms of a source is read at a place of the source. As long as line feeds
end the lines up to there, the word at this place is the identifier just if it is delimited. Then
the editor shows its last definition there, if it is defined and has no other explanation. -/
theorem word_of_mention (source : Text) :
    (mentionsOf source).map Prod.fst = Expr.identifiersAll (readAll source).1 ∧
      ∀ {name : String} {fromName : Text}, (name, fromName) ∈ mentionsOf source →
        ∃ before rest, source = before ++ fromName ∧ fromName = name.toList ++ rest ∧
          (Text.endedByLineFeeds before = true →
            let place := Text.Place.ofOffset source before.length
            (wordAt? source place.line place.column = some name.toList ↔
              delimited before rest = true) ∧
            (delimited before rest = true → isBuiltIn name = false →
              name ∈ definedNames (readAll source).1 →
              ∃ shown, ExplainsLast source name shown ∧
                ∀ editor uri, Editor.document? editor uri = some (Document.ofText source) →
                  editor.hover? uri place.line place.column = some shown)) := by
  constructor
  · exact map_mentionsOf source
  intro name fromName member
  obtain ⟨⟨before, split⟩, rest, isName⟩ := standIn_mentionsOf source _ member
  have spelled := append_eq_of_name? isName
  have nameChars := isName_of_name? isName
  have chars : ∀ char ∈ name.toList, endsToken char = false := by
    intro char member
    exact not_endsToken_of_isNameChar (List.all_eq_true.mp nameChars.chars char member)
  refine ⟨before, rest, split.symm, spelled.symm, fun ended => ?_⟩
  have word := @wordAt?_place_eq_iff before name.toList rest ended chars nameChars.nonempty
  rw [spelled, split] at word
  intro place
  constructor
  · exact word
  · intro apart noBuiltIn defined
    obtain ⟨shown, explains, isShown⟩ := exists_explanation? noBuiltIn defined
    refine ⟨shown, explains, fun editor uri isOpen => ?_⟩
    rw [hover?_of_word isOpen (word.mpr apart), isShown]

/-- A use of a definition, behind a carriage return and a line feed that end a line together. -/
theorem word_of_mention_behind_return :
    let source := "(def ab 1)\r\n(fn [c] (f ab))".toList
    wordAt? source 1 11 = some "ab".toList ∧
      ∃ shown, ExplainsLast source "ab" shown ∧
        (Editor.setText { } "a" source).1.hover? "a" 1 11 = some shown := by
  intro source
  have member : ("ab", "ab))".toList) ∈ mentionsOf source := by decide +kernel
  obtain ⟨before, rest, split, spelled, word⟩ := (word_of_mention source).2 member
  have before_eq : before = "(def ab 1)\r\n(fn [c] (f ".toList :=
    List.append_cancel_right split.symm
  have rest_eq : rest = "))".toList := List.append_cancel_left spelled.symm
  subst before_eq rest_eq
  obtain ⟨isWord, shows⟩ := word rfl
  have apart : delimited "(def ab 1)\r\n(fn [c] (f ".toList "))".toList = true := rfl
  obtain ⟨shown, explains, hovers⟩ := shows apart (by decide) (by decide +kernel)
  have isOpen := document?_setText_self { } "a" source
  exact ⟨isWord.mpr apart, shown, explains, hovers _ "a" isOpen⟩

/-- A comment directly behind an identifier is taken for a part of it, and a form feed in front of
one counts as the end of a line. -/
theorem word_of_mention_beside_comment :
    let commented := "(def x 1) x;c\n".toList
    let parted := "\x0c(def x 1)\nx".toList
    (readAll commented).2 = none ∧ ("x", "x;c\n".toList) ∈ mentionsOf commented ∧
      Text.Place.ofOffset commented 10 = ⟨0, 10⟩ ∧
      wordAt? commented 0 10 = some "x;c".toList ∧
      (Editor.setText { } "a" commented).1.hover? "a" 0 10 = none ∧
      (readAll parted).2 = none ∧ ("x", "x".toList) ∈ mentionsOf parted ∧
      Text.Place.ofOffset parted 11 = ⟨1, 0⟩ ∧ wordAt? parted 1 0 = none := by
  decide +kernel

end Editor

end LazyLisp
