import LazyLisp.Proofs.Reader.Gap

/-!
# Number literals

The grammar of number literals with the numbers that they denote. A literal in front of a character
that ends a token is read whole, as its number.
-/

set_option autoImplicit false

namespace LazyLisp.Reader

/-- An optional sign, and whether it is a minus. -/
inductive SignText : Bool → Text → Prop where
  | none : SignText false []
  | plus : SignText false ['+']
  | minus : SignText true ['-']

/-- Decimal digits of any script with their values. -/
def DigitsText (values : List Nat) (text : Text) : Prop :=
  text.map Text.digitValue? = values.map some

/-- Digits before and after a point. The point may be missing together with the digits after it, and
the digits on one side of it may be missing. -/
inductive MantissaText : List Nat → List Nat → Text → Prop where
  | whole {values : List Nat} {text : Text} :
      DigitsText values text → values ≠ [] → MantissaText values [] text
  | point {whole fraction : List Nat} {before after : Text} :
      DigitsText whole before → DigitsText fraction after → whole ≠ [] ∨ fraction ≠ [] →
      MantissaText whole fraction (before ++ '.' :: after)

/-- An optional power of ten. -/
inductive ExponentText : Int → Text → Prop where
  | none : ExponentText 0 []
  | power {negative : Bool} {letter : Char} {signText digits : Text} {values : List Nat} :
      letter = 'e' ∨ letter = 'E' → SignText negative signText → DigitsText values digits →
      values ≠ [] →
      ExponentText (if negative then -(Text.ofDigits values : Int) else Text.ofDigits values)
        (letter :: signText ++ digits)

/-- A text that denotes a number: the nearest one, if it is a decimal. -/
inductive Literal : Number → Text → Prop where
  | infinite {negative : Bool} {signText : Text} :
      SignText negative signText → Literal (.infinite negative) (signText ++ ['i', 'n', 'f'])
  | nan {negative : Bool} {signText : Text} :
      SignText negative signText → Literal (.nan .computed) (signText ++ ['n', 'a', 'n'])
  | decimal {negative : Bool} {signText mantissa powerText : Text} {whole fraction : List Nat}
      {power : Int} :
      SignText negative signText → MantissaText whole fraction mantissa →
      ExponentText power powerText →
      Literal (.ofDecimal negative ⟨Text.ofDigits (whole ++ fraction), power - fraction.length⟩)
        (signText ++ mantissa ++ powerText)

/-! ## Digits -/

theorem DigitsText.cons_inv {values : List Nat} {char : Char} {text : Text}
    (digits : DigitsText values (char :: text)) :
    ∃ value rest, values = value :: rest ∧ Text.digitValue? char = some value ∧
      DigitsText rest text := by
  cases values with
  | nil => simp [DigitsText] at digits
  | cons value rest =>
      simp only [DigitsText, List.map_cons, List.cons.injEq] at digits
      exact ⟨value, rest, rfl, digits.1, digits.2⟩

theorem DigitsText.eq_nil_iff {values : List Nat} {text : Text} (digits : DigitsText values text) :
    text = [] ↔ values = [] := by
  have lengths := congrArg List.length digits
  simp only [List.length_map] at lengths
  rw [← List.length_eq_zero_iff, ← List.length_eq_zero_iff, lengths]

theorem DigitsText.digitRun_append {values : List Nat} {text rest : Text}
    (digits : DigitsText values text) (stops : rest.head?.any Text.isDigit = false) :
    Text.digitRun (text ++ rest) = (values, rest) := by
  induction text generalizing values with
  | nil =>
      rw [digits.eq_nil_iff.mp rfl, List.nil_append]
      cases rest with
      | nil => rfl
      | cons char rest =>
          have none : Text.digitValue? char = none := by
            simpa [Text.isDigit] using stops
          simp [Text.digitRun, none]
  | cons char text ih =>
      obtain ⟨value, others, rfl, found, digits⟩ := digits.cons_inv
      simp [Text.digitRun, found, ih digits]

/-! ## Parts of a literal -/

/-- The characters that a mantissa can begin with. -/
def startsMantissa (char : Char) : Bool := Text.isDigit char || char == '.'

theorem ne_of_startsMantissa {char other : Char} (starts : startsMantissa char = true)
    (never : startsMantissa other = false) : char ≠ other := by
  rintro rfl
  rw [starts] at never
  cases never

theorem DigitsText.head_isDigit {values : List Nat} {text : Text}
    (digits : DigitsText values text) : ∀ char ∈ text.head?, Text.isDigit char = true := by
  intro char member
  cases text with
  | nil => cases member
  | cons first text =>
      cases member
      obtain ⟨value, others, -, found, -⟩ := digits.cons_inv
      simp [Text.isDigit, found]

theorem MantissaText.exists_cons {whole fraction : List Nat} {text : Text}
    (mantissa : MantissaText whole fraction text) :
    ∃ char rest, text = char :: rest ∧ startsMantissa char = true := by
  cases mantissa with
  | whole digits nonempty =>
      cases text with
      | nil => exact absurd (digits.eq_nil_iff.mp rfl) nonempty
      | cons char rest =>
          exact ⟨char, rest, rfl, by simp [startsMantissa, digits.head_isDigit char rfl]⟩
  | @point _ before after digits _ _ =>
      cases before with
      | nil => exact ⟨'.', after, rfl, rfl⟩
      | cons char rest =>
          exact ⟨char, rest ++ '.' :: after, rfl, by
            simp [startsMantissa, digits.head_isDigit char rfl]⟩

theorem SignText.sign_append {negative : Bool} {text : Text} (signed : SignText negative text)
    {rest : Text} (unsigned : ∀ char ∈ rest.head?, char ≠ '-' ∧ char ≠ '+') :
    sign (text ++ rest) = (negative, rest) := by
  cases signed with
  | plus | minus => rfl
  | none =>
      cases rest with
      | nil => rfl
      | cons char rest =>
          have differs := unsigned char rfl
          rw [List.nil_append, sign]
          · intro text same
            exact differs.1 (List.cons.inj same).1
          · intro text same
            exact differs.2 (List.cons.inj same).1

/-- A mantissa is read up to what neither a digit nor a point begins. -/
theorem MantissaText.mantissa?_append {whole fraction : List Nat} {text rest : Text}
    (mantissa : MantissaText whole fraction text)
    (stops : rest.head?.any startsMantissa = false) :
    mantissa? (text ++ rest) = some (whole, fraction, rest) := by
  have noDigit : rest.head?.any Text.isDigit = false := by
    cases rest with
    | nil => rfl
    | cons char rest =>
        simp only [List.head?_cons, Option.any_some, startsMantissa, Bool.or_eq_false_iff] at stops
        exact stops.1
  cases mantissa with
  | whole digits nonempty =>
      rw [mantissa?, digits.digitRun_append noDigit]
      split
      next digitsRead rest' same =>
        cases same
        cases stops
      next digitsRead rest' _ same =>
        cases same
        rw [if_neg (by simpa using nonempty)]
  | @point _ before after digits digits' nonempty =>
      have pointStops : (('.' :: after) ++ rest).head?.any Text.isDigit = false := rfl
      rw [mantissa?, List.append_assoc, digits.digitRun_append pointStops]
      simp only [List.cons_append, digits'.digitRun_append noDigit]
      rw [if_neg]
      rw [Bool.and_eq_true, List.isEmpty_iff, List.isEmpty_iff]
      rintro ⟨noWhole, noFraction⟩
      exact nonempty.elim (· noWhole) (· noFraction)

theorem exponent_of_not_letter {text : Text}
    (other : ∀ char ∈ text.head?, char ≠ 'e' ∧ char ≠ 'E') : exponent text = (0, text) := by
  cases text with
  | nil => rfl
  | cons char text =>
      have differs := other char rfl
      simp [exponent, differs.1, differs.2]

/-- An exponent is read up to what no digit begins, nor a letter if it is empty. -/
theorem ExponentText.exponent_append {power : Int} {text rest : Text}
    (exponentText : ExponentText power text)
    (stops : AtNumeralEnd rest) :
    exponent (text ++ rest) = (power, rest) := by
  cases exponentText with
  | none =>
      rw [List.nil_append]
      refine exponent_of_not_letter fun char member => ?_
      rw [AtNumeralEnd, Option.mem_def.mp member, Option.any_some] at stops
      constructor <;> (rintro rfl; revert stops; decide)
  | @power negative letter signText digits values isLetter signed digitsText nonempty =>
      have unsigned : ∀ char ∈ (digits ++ rest).head?, char ≠ '-' ∧ char ≠ '+' := by
        cases digits with
        | nil => exact absurd (digitsText.eq_nil_iff.mp rfl) nonempty
        | cons first digits =>
            intro char member
            cases member
            have isDigit := digitsText.head_isDigit first rfl
            constructor <;> (rintro rfl; revert isDigit; decide)
      have marked : (letter == 'e' || letter == 'E') = true := by
        rcases isLetter with rfl | rfl <;> rfl
      simp only [List.cons_append, List.append_assoc, exponent, marked, if_true,
        signed.sign_append unsigned, digitsText.digitRun_append stops.not_digit]

theorem ExponentText.head_not_startsMantissa {power : Int} {text rest : Text}
    (exponentText : ExponentText power text)
    (stops : AtNumeralEnd rest) :
    (text ++ rest).head?.any startsMantissa = false := by
  cases exponentText with
  | none =>
      cases rest with
      | nil => rfl
      | cons char rest =>
          simp only [AtNumeralEnd, List.head?_cons, Option.any_some, continuesNumeral,
            Bool.or_eq_false_iff] at stops
          simp [startsMantissa, stops]
  | power isLetter _ _ _ => rcases isLetter with rfl | rfl <;> rfl

/-! ## Literals -/

theorem word?_eq_none_of_head {word : String} {first : Char} {letters text : Text}
    (spelled : word.toList = first :: letters)
    (differs : ∀ char ∈ text.head?, char ≠ first) : word? word text = none := by
  cases found : word? word text with
  | none => rfl
  | some rest =>
      obtain ⟨rfl, -⟩ := word?_eq_some_iff.mp found
      rw [spelled] at differs
      exact absurd rfl (differs first rfl)

section

variable {negative : Bool} {signText rest : Text} (signed : SignText negative signText)

include signed

theorem numeral?_infinite (ends : AtNameEnd rest) :
    numeral? (signText ++ ['i', 'n', 'f'] ++ rest) = some (.infinite negative, rest) := by
  have read : word? "inf" (['i', 'n', 'f'] ++ rest) = some rest :=
    word?_eq_some_iff.mpr ⟨rfl, ends⟩
  rw [numeral?, List.append_assoc, signed.sign_append (by simp)]
  simp only [read]

theorem numeral?_nan (ends : AtNameEnd rest) :
    numeral? (signText ++ ['n', 'a', 'n'] ++ rest) = some (.nan .computed, rest) := by
  have notInfinite : word? "inf" (['n', 'a', 'n'] ++ rest) = none := rfl
  have read : word? "nan" (['n', 'a', 'n'] ++ rest) = some rest :=
    word?_eq_some_iff.mpr ⟨rfl, ends⟩
  rw [numeral?, List.append_assoc, signed.sign_append (by simp)]
  simp only [notInfinite, read]

theorem numeral?_decimal {whole fraction : List Nat} {power : Int} {mantissa powerText : Text}
    (mantissaText : MantissaText whole fraction mantissa)
    (exponentText : ExponentText power powerText) (ends : AtNumeralEnd rest) :
    numeral? (signText ++ mantissa ++ powerText ++ rest) =
      some (ofNumeral negative whole fraction power, rest) := by
  obtain ⟨char, others, split, starts⟩ := mantissaText.exists_cons
  have differs : ∀ other, startsMantissa other = false →
      ∀ first ∈ (mantissa ++ (powerText ++ rest)).head?, first ≠ other := by
    intro other never first member
    rw [split] at member
    cases member
    exact ne_of_startsMantissa starts never
  have notInfinite : word? "inf" (mantissa ++ (powerText ++ rest)) = none :=
    word?_eq_none_of_head (show "inf".toList = 'i' :: ['n', 'f'] from rfl)
      (differs 'i' (by decide))
  have notNan : word? "nan" (mantissa ++ (powerText ++ rest)) = none :=
    word?_eq_none_of_head (show "nan".toList = 'n' :: ['a', 'n'] from rfl)
      (differs 'n' (by decide))
  rw [numeral?, List.append_assoc, List.append_assoc, signed.sign_append fun first member =>
    ⟨differs '-' (by decide) first member, differs '+' (by decide) first member⟩]
  simp only [notInfinite, notNan, exponentText.exponent_append ends,
    mantissaText.mantissa?_append (exponentText.head_not_startsMantissa ends),
    Option.bind_eq_bind, Option.bind_some, ends]
  rfl

end

/-- A literal in front of a character that ends a token is read as its number. -/
theorem Literal.numeral?_append {number : Number} {text rest : Text}
    (literal : Literal number text) (ends : AtTokenEnd rest) :
    numeral? (text ++ rest) = some (number, rest) := by
  cases literal with
  | infinite signed => exact numeral?_infinite signed ends.not_name
  | nan signed => exact numeral?_nan signed ends.not_name
  | decimal signed mantissaText exponentText =>
      exact numeral?_decimal signed mantissaText exponentText ends.not_numeral

/-! ## Reading literals -/

theorem exists_signText (text : Text) :
    ∃ signText, SignText (sign text).1 signText ∧ text = signText ++ (sign text).2 := by
  unfold sign
  split
  · exact ⟨['-'], .minus, rfl⟩
  · exact ⟨['+'], .plus, rfl⟩
  · exact ⟨[], .none, rfl⟩

theorem exists_digitsText (text : Text) :
    ∃ digits, DigitsText (Text.digitRun text).1 digits ∧
      text = digits ++ (Text.digitRun text).2 := by
  induction text with
  | nil => exact ⟨[], rfl, rfl⟩
  | cons char text ih =>
      rw [Text.digitRun]
      split
      next value isDigit =>
        obtain ⟨digits, digitsText, split⟩ := ih
        refine ⟨char :: digits, ?_, by rw [List.cons_append, ← split]⟩
        rw [DigitsText, List.map_cons, List.map_cons, isDigit, digitsText]
      next => exact ⟨[], rfl, rfl⟩

theorem exists_mantissaText {text rest : Text} {whole fraction : List Nat}
    (found : mantissa? text = some (whole, fraction, rest)) :
    ∃ mantissa, MantissaText whole fraction mantissa ∧ text = mantissa ++ rest := by
  obtain ⟨before, digits, split⟩ := exists_digitsText text
  unfold mantissa? at found
  split at found
  next behind run =>
    rw [run] at digits split
    obtain ⟨after, digits', split'⟩ := exists_digitsText behind
    dsimp only at found
    split at found
    · cases found
    next nonempty =>
      cases found
      refine ⟨before ++ '.' :: after, .point digits digits' ?_, ?_⟩
      · rw [Bool.and_eq_true, List.isEmpty_iff, List.isEmpty_iff] at nonempty
        exact Decidable.not_and_iff_or_not.mp nonempty
      · rw [List.append_assoc, List.cons_append, ← split', split]
  next run =>
    rw [run] at digits split
    split at found
    · cases found
    next nonempty =>
      cases found
      exact ⟨before, .whole digits (by simpa using nonempty), split⟩

theorem exists_exponentText (text : Text) :
    ∃ powerText, ExponentText (exponent text).1 powerText ∧
      text = powerText ++ (exponent text).2 := by
  cases text with
  | nil => exact ⟨[], .none, rfl⟩
  | cons char text =>
      simp only [exponent]
      split
      next isLetter =>
        obtain ⟨signText, signed, split⟩ := exists_signText text
        obtain ⟨digits, digitsText, split'⟩ := exists_digitsText (sign text).2
        split
        next => exact ⟨[], .none, rfl⟩
        next values behind nonempty run =>
          rw [run] at digitsText split'
          refine ⟨char :: signText ++ digits,
            .power (by simpa using isLetter) signed digitsText nonempty, ?_⟩
          rw [List.cons_append, List.cons_append, List.append_assoc, ← split', ← split]
      next => exact ⟨[], .none, rfl⟩

/-- The numeral of a number behind its sign, and behind what it is at its end. -/
inductive UnsignedText : (Bool → Number) → Text → (Text → Prop) → Prop where
  | infinite : UnsignedText .infinite ['i', 'n', 'f'] AtNameEnd
  | nan : UnsignedText (fun _ => .nan .computed) ['n', 'a', 'n'] AtNameEnd
  | decimal {whole fraction : List Nat} {power : Int} {mantissa powerText : Text} :
      MantissaText whole fraction mantissa → ExponentText power powerText →
      UnsignedText (fun negative => ofNumeral negative whole fraction power)
        (mantissa ++ powerText) AtNumeralEnd

theorem UnsignedText.numeral?_append {value : Bool → Number} {unsigned rest : Text}
    {ends : Text → Prop} (unsignedText : UnsignedText value unsigned ends) (isEnd : ends rest)
    {negative : Bool} {signText : Text} (signed : SignText negative signText) :
    numeral? (signText ++ (unsigned ++ rest)) = some (value negative, rest) := by
  cases unsignedText with
  | infinite => rw [← List.append_assoc, numeral?_infinite signed isEnd]
  | nan => rw [← List.append_assoc, numeral?_nan signed isEnd]
  | decimal mantissaText exponentText =>
      have read := numeral?_decimal signed mantissaText exponentText isEnd
      rwa [List.append_assoc, List.append_assoc, ← List.append_assoc _ _ rest] at read

/-- What is read as a number is a numeral behind its sign. -/
theorem exists_unsignedText {text rest : Text} {number : Number}
    (found : numeral? text = some (number, rest)) :
    ∃ negative signText value unsigned ends, SignText negative signText ∧
      UnsignedText value unsigned ends ∧ ends rest ∧ number = value negative ∧
      text = signText ++ (unsigned ++ rest) := by
  obtain ⟨signText, signed, split⟩ := exists_signText text
  simp only [numeral?] at found
  split at found
  next isInfinite =>
    cases found
    obtain ⟨same, isEnd⟩ := word?_eq_some_iff.mp isInfinite
    rw [same] at split
    exact ⟨_, signText, _, _, _, signed, .infinite, isEnd, rfl, split⟩
  next =>
    split at found
    next isNan =>
      cases found
      obtain ⟨same, isEnd⟩ := word?_eq_some_iff.mp isNan
      rw [same] at split
      exact ⟨_, signText, _, _, _, signed, .nan, isEnd, rfl, split⟩
    next =>
      simp only [Option.bind_eq_bind, Option.bind_eq_some_iff] at found
      obtain ⟨⟨whole, fraction, behind⟩, isMantissa, found⟩ := found
      obtain ⟨mantissa, mantissaText, same⟩ := exists_mantissaText isMantissa
      obtain ⟨powerText, exponentText, same'⟩ := exists_exponentText behind
      dsimp only at found
      split at found
      · cases found
      next isEnd =>
        cases found
        rw [same, same', ← List.append_assoc mantissa] at split
        exact ⟨_, signText, _, _, _, signed, .decimal mantissaText exponentText,
          Bool.eq_false_iff.mpr isEnd, rfl, split⟩

end LazyLisp.Reader
