/-!
# Texts

A text is a list of characters. Every length, width, offset and column is a number of characters.
-/

set_option autoImplicit false

namespace LazyLisp

/-- A sequence of Unicode characters. -/
abbrev Text := List Char

end LazyLisp
