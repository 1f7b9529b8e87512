import LazyLisp.Text.Basic

/-!
# Blank characters

The characters that separate tokens, and the removal of blanks from both ends of a text.
-/

set_option autoImplicit false

namespace LazyLisp.Text

/-- A character is blank if it is a control character of the tab and separator groups, a space of
any width, a line or paragraph separator, or the next-line character. The zero-width space and the
byte order mark are not blank. -/
def isBlank (char : Char) : Bool :=
  let code := char.toNat
  (0x09 ≤ code && code ≤ 0x0D) || (0x1C ≤ code && code ≤ 0x20) || code == 0x85 || code == 0xA0 ||
    code == 0x1680 || (0x2000 ≤ code && code ≤ 0x200A) || code == 0x2028 || code == 0x2029 ||
    code == 0x202F || code == 0x205F || code == 0x3000

def strip (text : Text) : Text :=
  ((text.dropWhile isBlank).reverse.dropWhile isBlank).reverse

end LazyLisp.Text
