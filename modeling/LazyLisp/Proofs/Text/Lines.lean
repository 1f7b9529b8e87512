import LazyLisp.Text.Lines
import LazyLisp.Text.Place

/-!
# Lines and places

The place of an offset leads back to what stands there: on the line of the place, from the column
on, is what follows in the text up to the end of the line. An editor has the same lines as long as
only line feeds end them.
-/

set_option autoImplicit false

namespace LazyLisp.Text

/-- What stands on the last line of a text. -/
def lastLine (text : Text) : Text := (text.reverse.takeWhile (· != '\n')).reverse

theorem takeWhile_append_of_notMem {text : Text} (absent : '\n' ∉ text) (rest : Text) :
    (text ++ rest).takeWhile (· != '\n') = text ++ rest.takeWhile (· != '\n') := by
  apply List.takeWhile_append_of_pos
  intro char member
  rw [bne_iff_ne]
  intro lineFeed
  exact absent (lineFeed ▸ member)

theorem lastLine_of_notMem {text : Text} (absent : '\n' ∉ text) : lastLine text = text := by
  have all := takeWhile_append_of_notMem (mt List.mem_reverse.mp absent) []
  rw [List.append_nil, List.takeWhile_nil, List.append_nil] at all
  rw [lastLine, all, List.reverse_reverse]

theorem lastLine_cons_of_mem {text : Text} (present : '\n' ∈ text) (char : Char) :
    lastLine (char :: text) = lastLine text := by
  have stops : (text.reverse.takeWhile (· != '\n')).length ≠ text.reverse.length := by
    intro same
    have all := (List.takeWhile_prefix (· != '\n')).eq_of_length same
    have member : '\n' ∈ text.reverse.takeWhile (· != '\n') := by
      rwa [all, List.mem_reverse]
    simpa using List.all_eq_true.mp List.all_takeWhile '\n' member
  simp only [lastLine, List.reverse_cons, List.takeWhile_append, if_neg stops]

theorem lastLine_lineFeed_cons (text : Text) : lastLine ('\n' :: text) = lastLine text := by
  by_cases present : '\n' ∈ text
  · exact lastLine_cons_of_mem present '\n'
  · rw [lastLine_of_notMem present, lastLine, List.reverse_cons,
      takeWhile_append_of_notMem (mt List.mem_reverse.mp present)]
    simp

/-- The place at the end of a first part. -/
theorem Place.ofOffset_length (before after : Text) :
    ofOffset (before ++ after) before.length =
      ⟨before.count '\n', (lastLine before).length⟩ := by
  simp only [ofOffset, List.take_left, lastLine, List.length_reverse]

/-! ## Lines between line feeds -/

/-- What stands on the line of the place, from the column on. -/
def lineFrom (text : Text) (place : Place) : Text :=
  ((split '\n' text)[place.line]?.getD []).drop place.column

theorem split_cons_of_ne {char : Char} (other : char ≠ '\n') (text : Text) :
    ∃ first rest, split '\n' text = first :: rest ∧
      split '\n' (char :: text) = (char :: first) :: rest := by
  cases pieces : split '\n' text with
  | nil => exact absurd pieces (split_ne_nil '\n' text)
  | cons first rest => exact ⟨first, rest, rfl, by simp only [split, if_neg other, pieces]⟩

theorem split_append_lineFeed (before behind : Text) :
    split '\n' (before ++ '\n' :: behind) = split '\n' before ++ split '\n' behind := by
  induction before with
  | nil => rfl
  | cons char before ih =>
      by_cases lineFeed : char = '\n'
      · simp only [List.cons_append, split, lineFeed, if_true, ih]
      · obtain ⟨first, rest, pieces, pieces'⟩ := split_cons_of_ne lineFeed before
        rw [pieces']
        simp only [List.cons_append, split, if_neg lineFeed, ih, pieces]

theorem split_of_notMem {text : Text} (oneLine : '\n' ∉ text) : split '\n' text = [text] := by
  induction text with
  | nil => rfl
  | cons char text ih =>
      rw [List.mem_cons, not_or] at oneLine
      simp only [split, if_neg (Ne.symm oneLine.1), ih oneLine.2]

/-- What ends no line stands at the end of the last one. -/
theorem exists_split_append {word : Text} (oneLine : '\n' ∉ word) (before : Text) :
    ∃ lines last, split '\n' before = lines ++ [last] ∧
      split '\n' (before ++ word) = lines ++ [last ++ word] := by
  induction before with
  | nil => exact ⟨[], [], rfl, split_of_notMem oneLine⟩
  | cons char before ih =>
      obtain ⟨lines, last, pieces, pieces'⟩ := ih
      by_cases lineFeed : char = '\n'
      · refine ⟨[] :: lines, last, ?_, ?_⟩ <;>
          simp only [List.cons_append, split, lineFeed, if_true, pieces, pieces']
      · cases lines with
        | nil =>
            refine ⟨[], char :: last, ?_, ?_⟩ <;>
              simp only [List.cons_append, List.nil_append, split, if_neg lineFeed, pieces, pieces']
        | cons first lines =>
            refine ⟨(char :: first) :: lines, last, ?_, ?_⟩ <;>
              simp only [List.cons_append, split, if_neg lineFeed, pieces, pieces']

theorem split_getElem?_zero (text : Text) :
    (split '\n' text)[0]? = some (text.takeWhile (· != '\n')) := by
  induction text with
  | nil => rfl
  | cons char text ih =>
      by_cases lineFeed : char = '\n'
      · simp [split, lineFeed]
      · obtain ⟨first, rest, pieces, pieces'⟩ := split_cons_of_ne lineFeed text
        rw [pieces] at ih
        cases ih
        simp [pieces', lineFeed]

/-- A character in front of a text stands in front of the first of its lines. -/
theorem cons_getElem?_count {char : Char} (other : char ≠ '\n') {before line first : Text}
    {rest : List Text}
    (found : (first :: rest)[before.count '\n']? = some (lastLine before ++ line)) :
    ((char :: first) :: rest)[(char :: before).count '\n']? =
      some (lastLine (char :: before) ++ line) := by
  rw [List.count_cons_of_ne other]
  by_cases present : '\n' ∈ before
  · obtain ⟨count, counted⟩ : ∃ count, before.count '\n' = count + 1 :=
      Nat.exists_eq_succ_of_ne_zero (Nat.ne_of_gt (List.count_pos_iff.mpr present))
    rw [lastLine_cons_of_mem present]
    rw [counted] at found ⊢
    exact found
  · rw [List.count_eq_zero_of_not_mem present, lastLine_of_notMem present] at found
    rw [List.count_eq_zero_of_not_mem present,
      lastLine_of_notMem (by simp [present, Ne.symm other])]
    cases found
    rfl

/-- By induction on the first part: its line feeds lead to the line, which begins with the last line
of it. -/
theorem split_getElem?_count (before after : Text) :
    (split '\n' (before ++ after))[before.count '\n']? =
      some (lastLine before ++ after.takeWhile (· != '\n')) := by
  induction before with
  | nil => exact split_getElem?_zero after
  | cons char before ih =>
      by_cases lineFeed : char = '\n'
      · subst lineFeed
        rw [lastLine_lineFeed_cons, List.count_cons_self, List.cons_append]
        simpa only [split, if_true, List.getElem?_cons_succ] using ih
      · obtain ⟨first, rest, pieces, pieces'⟩ := split_cons_of_ne lineFeed (before ++ after)
        rw [pieces] at ih
        rw [List.cons_append, pieces']
        exact cons_getElem?_count lineFeed ih

/-- From the place of an offset on stands what follows there, up to the end of the line. -/
theorem lineFrom_ofOffset (before after : Text) :
    lineFrom (before ++ after) (Place.ofOffset (before ++ after) before.length) =
      after.takeWhile (· != '\n') := by
  rw [Place.ofOffset_length, lineFrom, split_getElem?_count, Option.getD_some, List.drop_left]

/-- A word without line feeds stands at the place of an offset just if it follows there. -/
theorem isPrefix_lineFrom_iff {word before after : Text} (oneLine : '\n' ∉ word) :
    word <+: lineFrom (before ++ after) (Place.ofOffset (before ++ after) before.length) ↔
      word <+: after := by
  rw [lineFrom_ofOffset]
  constructor
  · intro starts
    exact starts.trans (List.takeWhile_prefix _)
  · intro starts
    obtain ⟨rest, rfl⟩ := starts
    rw [takeWhile_append_of_notMem oneLine]
    exact List.prefix_append _ _

/-! ## Lines of an editor -/

/-- Only line feeds end lines of the text, alone or behind a carriage return. -/
def endedByLineFeeds : Text → Bool
  | [] => true
  | char :: text =>
    (!endsLine char || char == '\n' || char == '\r' && text.head? == some '\n') &&
      endedByLineFeeds text

theorem editorLines_ne_nil {text : Text} (nonempty : text ≠ []) : editorLines text ≠ [] := by
  intro noLines
  apply nonempty
  rw [← flatten_editorLines text, noLines]
  rfl

theorem editorLines_lineFeed_cons (text : Text) :
    editorLines ('\n' :: text) = ['\n'] :: editorLines text := rfl

/-- A character that ends no line stands in front of the first line behind it. -/
theorem editorLines_cons {char : Char} {text line : Text} {rest : List Text}
    (inside : (endsLine char && !(char == '\r' && text.head? == some '\n')) = false)
    (lines : editorLines text = line :: rest) :
    editorLines (char :: text) = (char :: line) :: rest := by
  rw [editorLines, inside, lines]
  rfl

/-- The first line of a text in an editor. -/
def firstLine (text : Text) : Text := (editorLines text).headD []

theorem exists_editorLines {text : Text} (nonempty : text ≠ []) :
    ∃ others, editorLines text = firstLine text :: others := by
  unfold firstLine
  cases lines : editorLines text with
  | nil => exact absurd lines (editorLines_ne_nil nonempty)
  | cons line others => exact ⟨others, rfl⟩

theorem head?_firstLine (text : Text) : (firstLine text).head? = text.head? := by
  cases text with
  | nil => rfl
  | cons char text =>
      unfold firstLine
      rw [editorLines]
      split
      · rfl
      · split <;> rfl

/-- A word that ends no line stands on the first line with what follows. -/
theorem firstLine_append {word : Text} (inside : ∀ char ∈ word, endsLine char = false)
    (rest : Text) : firstLine (word ++ rest) = word ++ firstLine rest := by
  induction word with
  | nil => rfl
  | cons char word ih =>
      rw [List.forall_mem_cons] at inside
      rw [List.cons_append, List.cons_append, ← ih inside.2]
      unfold firstLine
      rw [editorLines, inside.1, Bool.false_and]
      cases editorLines (word ++ rest) <;> rfl

/-- Where only line feeds end the lines of the first part, they lead to the line in an editor, which
begins with the last line of it. -/
theorem editorLines_getElem?_count {before after line : Text} {rest : List Text}
    (ended : endedByLineFeeds before = true) (lines : editorLines after = line :: rest) :
    (editorLines (before ++ after))[before.count '\n']? = some (lastLine before ++ line) := by
  induction before with
  | nil => simp [lines, lastLine]
  | cons char before ih =>
      simp only [endedByLineFeeds, Bool.and_eq_true, Bool.or_eq_true] at ended
      obtain ⟨endsBy, ended⟩ := ended
      have ih := ih ended
      by_cases lineFeed : char = '\n'
      · subst lineFeed
        rw [lastLine_lineFeed_cons, List.count_cons_self, List.cons_append,
          editorLines_lineFeed_cons, List.getElem?_cons_succ]
        exact ih
      · have inside : (endsLine char &&
            !(char == '\r' && (before ++ after).head? == some '\n')) = false := by
          cases ends : endsLine char with
          | false => rfl
          | true =>
              -- Only a carriage return is left, and the line feed behind it ends the line.
              obtain ⟨isReturn, lineEnd⟩ : char = '\r' ∧ before.head? = some '\n' := by
                simpa [ends, lineFeed] using endsBy
              simp [isReturn, List.head?_append, lineEnd]
        cases others : editorLines (before ++ after) with
        | nil =>
            rw [others] at ih
            cases ih
        | cons first others' =>
            rw [others] at ih
            rw [List.cons_append, editorLines_cons inside others]
            exact cons_getElem?_count lineFeed ih

end LazyLisp.Text
