import LazyLisp.Text.Basic
import LazyLisp.Text.Printable

/-!
# Quoted text

A text between quotes on one line, for messages. The quotes are single unless the text holds a
single quote and no double one; the quote itself, the backslash and the characters that do not
show as themselves are escaped.
-/

set_option autoImplicit false

namespace LazyLisp.Text

/-- The number in base sixteen, padded with zeros to at least `width` digits. -/
def hexadecimal (width number : Nat) : Text :=
  let digits := Nat.toDigits 16 number
  List.replicate (width - digits.length) '0' ++ digits

/-- One character as it stands between the quotes `quote`. -/
def escape (quote char : Char) : Text :=
  if char = quote || char = '\\' then ['\\', char]
  else if char = '\n' then ['\\', 'n']
  else if char = '\r' then ['\\', 'r']
  else if char = '\t' then ['\\', 't']
  else if isPrintable char then [char]
  else if char.toNat < 0x100 then '\\' :: 'x' :: hexadecimal 2 char.toNat
  else if char.toNat < 0x10000 then '\\' :: 'u' :: hexadecimal 4 char.toNat
  else '\\' :: 'U' :: hexadecimal 8 char.toNat

/-- The text between quotes, with all that would end or break it escaped. -/
def quoted (text : Text) : Text :=
  let quote := if text.contains '\'' && !text.contains '"' then '"' else '\''
  quote :: text.flatMap (escape quote) ++ [quote]

end LazyLisp.Text
