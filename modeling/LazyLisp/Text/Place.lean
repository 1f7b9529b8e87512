import LazyLisp.Text.Basic

/-!
# Places in a text

The line and column of an offset. Only the line feed ends a line, and every character counts as
one column.
-/

set_option autoImplicit false

namespace LazyLisp.Text

/-- A line and a column, both counted from zero. -/
structure Place where
  line : Nat
  column : Nat
  deriving DecidableEq, Repr

def Place.start : Place := ⟨0, 0⟩

def Place.after (place : Place) (char : Char) : Place :=
  if char = '\n' then ⟨place.line + 1, 0⟩ else { place with column := place.column + 1 }

/-- The place of the character at `offset`: the line is the number of line feeds before it, and
the column is the distance from the last of them. -/
def Place.ofOffset (text : Text) (offset : Nat) : Place :=
  let before := text.take offset
  ⟨before.count '\n', (before.reverse.takeWhile (· != '\n')).length⟩

theorem Place.ofOffset_zero (text : Text) : ofOffset text 0 = start := rfl

theorem Place.ofOffset_append_cons (before after : Text) (char : Char) :
    ofOffset (before ++ char :: after) (before.length + 1) =
      (ofOffset (before ++ char :: after) before.length).after char := by
  have taken : (before ++ char :: after).take (before.length + 1) = before ++ [char] := by
    simp [List.take_append, List.take_of_length_le]
  simp only [ofOffset, taken, List.take_left, Place.after]
  by_cases lineFeed : char = '\n'
  · simp [lineFeed]
  · simp [lineFeed, List.count_append]

end LazyLisp.Text
