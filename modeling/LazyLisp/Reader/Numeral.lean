import LazyLisp.Number.Decimal
import LazyLisp.Reader.Word
import LazyLisp.Text.Digit

/-!
# Numerals

The spelling of a number: an optional sign, then either the word `inf` or `nan`, or decimal digits
of any script with an optional fraction and an optional exponent. A numeral of digits must not be
followed by a letter, an underscore, a question mark, a point or a digit. Since each shorter reading
of the same digits would be followed by one of these, a numeral has at most one end.
-/

set_option autoImplicit false

namespace LazyLisp.Reader

/-- A sign at the beginning of the text: whether it is a minus, and the text after it. -/
def sign : Text → Bool × Text
  | '-' :: text => (true, text)
  | '+' :: text => (false, text)
  | text => (false, text)

/-- The characters that a numeral of digits must not be followed by. -/
def continuesNumeral (char : Char) : Bool :=
  char.isAlpha || char == '_' || char == '?' || char == '.' || Text.isDigit char

/-- The digits before and after the point, and the text after them. There must be a digit on one
side of the point at least. -/
def mantissa? (text : Text) : Option (List Nat × List Nat × Text) :=
  match Text.digitRun text with
  | (whole, '.' :: rest) =>
    let (fraction, rest) := Text.digitRun rest
    if whole.isEmpty && fraction.isEmpty then none else some (whole, fraction, rest)
  | (whole, rest) => if whole.isEmpty then none else some (whole, [], rest)

/-- The exponent at the beginning of the text and the text after it. A letter `e` that no digits
follow is not an exponent. -/
def exponent : Text → Int × Text
  | [] => (0, [])
  | char :: text =>
    if char == 'e' || char == 'E' then
      let (negative, digits) := sign text
      match Text.digitRun digits with
      | ([], _) => (0, char :: text)
      | (digits, rest) =>
        let size : Int := Text.ofDigits digits
        (if negative then -size else size, rest)
    else (0, char :: text)

/-- The number that a sign, the digits around a point and an exponent denote. -/
def ofNumeral (negative : Bool) (whole fraction : List Nat) (exponent : Int) : Number :=
  Number.ofDecimal negative ⟨Text.ofDigits (whole ++ fraction), exponent - fraction.length⟩

/-- The number at the beginning of the text and the text after its numeral. -/
def numeral? (text : Text) : Option (Number × Text) :=
  let (negative, unsigned) := sign text
  match word? "inf" unsigned with
  | some rest => some (.infinite negative, rest)
  | none =>
    match word? "nan" unsigned with
    | some rest => some (.nan .computed, rest)
    | none => do
      let (whole, fraction, rest) ← mantissa? unsigned
      let (power, rest) := exponent rest
      if rest.head?.any continuesNumeral then none
      else some (ofNumeral negative whole fraction power, rest)

end LazyLisp.Reader
