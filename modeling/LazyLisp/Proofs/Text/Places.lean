import LazyLisp.Proofs.Text.Lines

/-!
# From places back to offsets

A place tells how to find its offset: skip as many line feeds as the line says, and then as many
characters of that line as the column says. A place can also be computed from the last line feed in
front of the offset, where the first line has no such line feed.
-/

set_option autoImplicit false

namespace LazyLisp.Text

variable {text word : Text} {offset : Nat}

/-! ## Skipping -/

/-- The text behind its first line feeds, if it has so many. -/
def skipLines : Nat → Text → Option Text
  | 0, text => some text
  | _ + 1, [] => none
  | lines + 1, char :: text =>
    if char = '\n' then skipLines lines text else skipLines (lines + 1) text

/-- The text behind its first characters, if its first line has so many. -/
def skipColumns : Nat → Text → Option Text
  | 0, text => some text
  | _ + 1, [] => none
  | columns + 1, char :: text => if char = '\n' then none else skipColumns columns text

/-- The text from the place on. -/
def Place.seek (text : Text) (place : Place) : Option Text :=
  (skipLines place.line text).bind (skipColumns place.column)

theorem lineFeed_notMem_lastLine (text : Text) : '\n' ∉ lastLine text := by
  rw [lastLine, List.mem_reverse]
  intro member
  simpa using List.all_eq_true.mp List.all_takeWhile '\n' member

/-- By induction on the first part: behind its line feeds follows its last line. -/
theorem skipLines_count (before after : Text) :
    skipLines (before.count '\n') (before ++ after) = some (lastLine before ++ after) := by
  induction before with
  | nil => rw [List.count_nil, skipLines, lastLine_of_notMem List.not_mem_nil]
  | cons char before ih =>
      by_cases lineFeed : char = '\n'
      · subst lineFeed
        rw [List.count_cons_self, List.cons_append, skipLines, if_pos rfl, ih,
          lastLine_lineFeed_cons]
      · rw [List.count_cons_of_ne lineFeed, List.cons_append]
        by_cases present : '\n' ∈ before
        · obtain ⟨lines, count⟩ := Nat.exists_eq_succ_of_ne_zero
            (Nat.ne_of_gt (List.count_pos_iff.mpr present))
          rw [count] at ih ⊢
          rw [skipLines, if_neg lineFeed, ih, lastLine_cons_of_mem present]
        · have absent : '\n' ∉ char :: before := by
            rw [List.mem_cons, not_or]
            exact ⟨Ne.symm lineFeed, present⟩
          rw [List.count_eq_zero_of_not_mem present, lastLine_of_notMem absent, skipLines,
            List.cons_append]

theorem skipColumns_length (oneLine : '\n' ∉ word) (rest : Text) :
    skipColumns word.length (word ++ rest) = some rest := by
  induction word with
  | nil => rfl
  | cons char word ih =>
      rw [List.mem_cons, not_or] at oneLine
      rw [List.length_cons, List.cons_append, skipColumns, if_neg (Ne.symm oneLine.1),
        ih oneLine.2]

theorem Place.seek_ofOffset (inside : offset ≤ text.length) :
    (ofOffset text offset).seek text = some (text.drop offset) := by
  have halves : text.take offset ++ text.drop offset = text := List.take_append_drop _ _
  have skipped := skipLines_count (text.take offset) (text.drop offset)
  have within := skipColumns_length (lineFeed_notMem_lastLine (text.take offset)) (text.drop offset)
  have place := ofOffset_length (text.take offset) (text.drop offset)
  rw [halves, List.length_take, Nat.min_eq_left inside] at place
  rw [halves] at skipped
  rw [place, seek, skipped, Option.bind_some, within]

/-! ## The last line feed -/

/-- The offset of the last line feed. -/
def lastLineFeed? : Text → Option Nat
  | [] => none
  | char :: text =>
    match lastLineFeed? text with
    | some offset => some (offset + 1)
    | none => if char = '\n' then some 0 else none

/-- The place of an offset. The column is counted from the last line feed, or from the beginning of
the text. -/
def Place.behindLineFeed (text : Text) (offset : Nat) : Place :=
  let before := text.take offset
  match lastLineFeed? before with
  | none => ⟨before.count '\n', offset⟩
  | some last => ⟨before.count '\n', offset - last - 1⟩

/-- The line and the column of an offset, counted from one. The column is counted from the beginning
of the line. -/
def lineAndColumn (text : Text) (offset : Nat) : Nat × Nat :=
  let before := text.take offset
  let lineStart := (lastLineFeed? before).elim 0 (· + 1)
  (before.count '\n' + 1, offset - lineStart + 1)

theorem lastLineFeed?_eq_none_iff : lastLineFeed? text = none ↔ '\n' ∉ text := by
  induction text with
  | nil => simp [lastLineFeed?]
  | cons char text ih =>
      rw [lastLineFeed?, List.mem_cons, not_or, ← ih]
      cases lastLineFeed? text with
      | some offset => simp
      | none => simp [eq_comm]

theorem length_lastLine (text : Text) :
    (lastLine text).length = text.length - (lastLineFeed? text).elim 0 (· + 1) := by
  induction text with
  | nil => rfl
  | cons char text ih =>
      rw [lastLineFeed?]
      cases found : lastLineFeed? text with
      | some offset =>
          have present : '\n' ∈ text := by
            apply Decidable.of_not_not
            rw [← lastLineFeed?_eq_none_iff, found]
            exact nofun
          rw [found] at ih
          rw [lastLine_cons_of_mem present, ih]
          simp
      | none =>
          have absent := lastLineFeed?_eq_none_iff.mp found
          by_cases lineFeed : char = '\n'
          · subst lineFeed
            rw [lastLine_lineFeed_cons, lastLine_of_notMem absent]
            simp
          · rw [lastLine_of_notMem (by simp [absent, Ne.symm lineFeed])]
            simp [lineFeed]

theorem Place.ofOffset_eq (inside : offset ≤ text.length) :
    ofOffset text offset = ⟨(text.take offset).count '\n',
      offset - (lastLineFeed? (text.take offset)).elim 0 (· + 1)⟩ := by
  have length := length_lastLine (text.take offset)
  rw [List.length_take, Nat.min_eq_left inside] at length
  rw [← length, ofOffset, lastLine, List.length_reverse]

theorem Place.behindLineFeed_eq (inside : offset ≤ text.length) :
    behindLineFeed text offset = ofOffset text offset := by
  rw [ofOffset_eq inside, behindLineFeed]
  cases lastLineFeed? (text.take offset) with
  | none => rfl
  | some last => simp only [Option.elim_some, Nat.sub_sub]

theorem lineAndColumn_eq (text : Text) (offset : Nat) :
    lineAndColumn text offset =
      ((Place.behindLineFeed text offset).line + 1,
        (Place.behindLineFeed text offset).column + 1) := by
  rw [lineAndColumn, Place.behindLineFeed]
  cases lastLineFeed? (text.take offset) with
  | none => rfl
  | some last => simp only [Option.elim_some, Nat.sub_sub]

end LazyLisp.Text
