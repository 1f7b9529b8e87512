import LazyLisp.Text.Split

/-!
# Lines of a text

Three ways to cut a text into lines: reading a file joins the three spellings of a line end into
the line feed, an interactive session reads up to each line feed, and an editor's position counts
every character that ends a line on some system.
-/

set_option autoImplicit false

namespace LazyLisp.Text

/-- The text with every carriage return, alone or before a line feed, read as one line feed. -/
def unifyLineEnds : Text → Text
  | '\r' :: '\n' :: text => '\n' :: unifyLineEnds text
  | '\r' :: text => '\n' :: unifyLineEnds text
  | char :: text => char :: unifyLineEnds text
  | [] => []

theorem carriageReturn_notMem_unifyLineEnds (text : Text) : '\r' ∉ unifyLineEnds text := by
  fun_induction unifyLineEnds text with
  | case1 text ih => simpa using ih
  | case2 text _ ih => simpa using ih
  | case3 char text _ other ih =>
      simp only [List.mem_cons, not_or]
      exact ⟨fun same => other same.symm, ih⟩
  | case4 => simp

theorem unifyLineEnds_of_notMem {text : Text} (absent : '\r' ∉ text) :
    unifyLineEnds text = text := by
  fun_induction unifyLineEnds text with
  | case1 | case2 => simp at absent
  | case3 char text _ _ ih => rw [ih (fun member => absent (List.mem_cons_of_mem _ member))]
  | case4 => rfl

/-- The lines that an interactive session reads: a last piece counts only if it is not empty. -/
def inputLines (text : Text) : List Text :=
  let pieces := split '\n' text
  if pieces.getLast?.any List.isEmpty then pieces.dropLast else pieces

/-- The characters that end a line in an editor. -/
def endsLine (char : Char) : Bool :=
  let code := char.toNat
  (0x0A ≤ code && code ≤ 0x0D) || (0x1C ≤ code && code ≤ 0x1E) || code == 0x85 ||
    code == 0x2028 || code == 0x2029

/-- The lines of a text together with the characters that end them; a carriage return and the line
feed after it end one line together. -/
def editorLines : Text → List Text
  | [] => []
  | char :: text =>
    if endsLine char && !(char == '\r' && text.head? == some '\n') then
      [char] :: editorLines text
    else
      match editorLines text with
      | [] => [[char]]
      | line :: rest => (char :: line) :: rest

theorem flatten_editorLines (text : Text) : (editorLines text).flatten = text := by
  induction text with
  | nil => rfl
  | cons char text ih =>
      rw [editorLines]
      split
      · simp [ih]
      · cases lines : editorLines text <;> simp_all

end LazyLisp.Text
