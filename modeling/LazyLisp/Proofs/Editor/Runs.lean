import LazyLisp.Proofs.Editor.Words

/-!
# Words as runs

The word at a cursor is a run of word characters of the line that goes on in neither direction. It
is the one that the cursor touches: every cursor inside of a run or at one of its ends finds the
whole run.
-/

set_option autoImplicit false

namespace LazyLisp.Editor

/-- The word stands in the line between these texts, and no delimiter is in it. -/
structure IsRun (line before word after : Text) : Prop where
  split : line = before ++ (word ++ after)
  chars : ∀ char ∈ word, isDelimiter char = false

/-- There is a character in the run, and no run of the line properly extends it. -/
structure IsMaximalRun (line before word after : Text) : Prop
    extends IsRun line before word after where
  nonempty : word ≠ []
  maximal {before' word' after' : Text} : IsRun line before' word' after' →
    before'.length ≤ before.length → after'.length ≤ after.length → word' = word

variable {line before word after : Text}

/-! ## Delimiters on both sides -/

theorem eq_nil_of_delimited {left right : Text}
    (apart : delimited (before ++ left) (right ++ after))
    (inside : ∀ char ∈ left ++ right, isDelimiter char = false) : left = [] ∧ right = [] := by
  rw [delimited, Bool.and_eq_true, List.getLast?_append, List.head?_append] at apart
  rw [List.forall_mem_append] at inside
  constructor
  · cases last : left.getLast? with
    | none => exact List.getLast?_eq_none_iff.mp last
    | some char =>
        have delimits := apart.1
        rw [last, Option.some_or, Option.all_some, inside.1 char (List.mem_of_getLast? last)]
          at delimits
        cases delimits
  · cases first : right.head? with
    | none => exact List.head?_eq_none_iff.mp first
    | some char =>
        have delimits := apart.2
        rw [first, Option.some_or, Option.all_some, inside.2 char (List.mem_of_head? first)]
          at delimits
        cases delimits

/-- A run that has delimiters on both sides cannot be extended by what is between a wider run and
it. -/
theorem IsRun.eq_of_wider (run : IsRun line before word after) (apart : delimited before after)
    {before' word' after' : Text} (wider : IsRun line before' word' after')
    (starts : before'.length ≤ before.length) (ends : after'.length ≤ after.length) :
    word' = word := by
  have lineSuffix : after' <:+ line := ⟨before' ++ word', by rw [wider.split, List.append_assoc]⟩
  have lineSuffix' : after <:+ line := ⟨before ++ word, by rw [run.split, List.append_assoc]⟩
  obtain ⟨left, rfl⟩ : before' <+: before :=
    List.prefix_of_prefix_length_le ⟨_, wider.split.symm⟩ ⟨_, run.split.symm⟩ starts
  obtain ⟨right, rfl⟩ : after' <:+ after :=
    List.suffix_of_suffix_length_le lineSuffix lineSuffix' ends
  have same : word' = left ++ (word ++ right) := by
    have whole := wider.split.symm.trans run.split
    simp only [← List.append_assoc] at whole
    simpa [List.append_assoc] using List.append_cancel_right whole
  have inside : ∀ char ∈ left ++ right, isDelimiter char = false := by
    intro char member
    refine wider.chars char ?_
    simp only [same, List.mem_append] at member ⊢
    tauto
  obtain ⟨rfl, rfl⟩ := eq_nil_of_delimited apart inside
  rw [same, List.nil_append, List.append_nil]

/-- A run extended by a character is a run, unless the character is a delimiter. -/
theorem IsMaximalRun.delimited (run : IsMaximalRun line before word after) :
    delimited before after = true := by
  rw [Editor.delimited, Bool.and_eq_true]
  constructor
  · cases last : before.getLast? with
    | none => rfl
    | some char =>
        rw [Option.all_some]
        by_contra inside
        obtain ⟨rest, rfl⟩ := List.getLast?_eq_some_iff.mp last
        have wider : IsRun line rest (char :: word) after :=
          ⟨by simp [run.split], List.forall_mem_cons.mpr ⟨by simpa using inside, run.chars⟩⟩
        have same := run.maximal wider (by simp) (Nat.le_refl _)
        simp at same
  · cases after with
    | nil => rfl
    | cons char rest =>
        rw [List.head?_cons, Option.all_some]
        by_contra inside
        have wider : IsRun line before (word ++ [char]) rest := by
          refine ⟨by simp [run.split], List.forall_mem_append.mpr ⟨run.chars, ?_⟩⟩
          simpa using inside
        have same := run.maximal wider (Nat.le_refl _) (Nat.le_succ _)
        simp at same

theorem isMaximalRun_iff : IsMaximalRun line before word after ↔
    IsRun line before word after ∧ word ≠ [] ∧ delimited before after = true := by
  constructor
  · intro run
    exact ⟨run.toIsRun, run.nonempty, run.delimited⟩
  · rintro ⟨run, nonempty, apart⟩
    exact ⟨run, nonempty, run.eq_of_wider apart⟩

/-! ## Words on a line -/

theorem wordAfter_append (chars : ∀ char ∈ word, isDelimiter char = false)
    (ends : after.head?.all isDelimiter = true) : wordAfter (word ++ after) = word := by
  have noMore : wordAfter after = [] := wordAfter_eq_nil_iff.mpr ends
  rw [wordAfter, List.takeWhile_append_of_pos (by simpa using chars)]
  rw [wordAfter] at noMore
  rw [noMore, List.append_nil]

theorem wordBefore_append (chars : ∀ char ∈ word, isDelimiter char = false)
    (starts : before.getLast?.all isDelimiter = true) : wordBefore (before ++ word) = word := by
  have reversed : wordAfter (word.reverse ++ before.reverse) = word.reverse := by
    refine wordAfter_append (fun char member => chars char (List.mem_reverse.mp member)) ?_
    rwa [List.head?_reverse]
  rw [wordBefore, List.reverse_append]
  rw [wordAfter] at reversed
  rw [reversed, List.reverse_reverse]

theorem exists_wordAfter (text : Text) :
    ∃ rest, text = wordAfter text ++ rest ∧ rest.head?.all isDelimiter = true := by
  refine ⟨text.dropWhile fun char => !isDelimiter char, List.takeWhile_append_dropWhile.symm, ?_⟩
  have stops := List.head?_dropWhile_not (fun char => !isDelimiter char) text
  revert stops
  cases (text.dropWhile fun char => !isDelimiter char).head? with
  | none => exact fun _ => rfl
  | some char => simp

theorem exists_wordBefore (text : Text) :
    ∃ rest, text = rest ++ wordBefore text ∧ rest.getLast?.all isDelimiter = true := by
  obtain ⟨rest, split, ends⟩ := exists_wordAfter text.reverse
  refine ⟨rest.reverse, ?_, by rwa [List.getLast?_reverse]⟩
  have reversed := congrArg List.reverse split
  rwa [List.reverse_reverse, List.reverse_append] at reversed

/-- The word around a cursor is made of the word characters on both sides of it. -/
theorem exists_run_of_wordIn {character : Nat} (nonempty : wordIn line character ≠ []) :
    ∃ before after, IsMaximalRun line before (wordIn line character) after ∧
      before.length ≤ min character line.length ∧
      min character line.length ≤ (before ++ wordIn line character).length := by
  obtain ⟨before, left, starts⟩ := exists_wordBefore (line.take character)
  obtain ⟨after, right, ends⟩ := exists_wordAfter (line.drop character)
  have lengths := congrArg List.length left
  rw [List.length_append, List.length_take] at lengths
  refine ⟨before, after, isMaximalRun_iff.mpr ⟨⟨?_, ?_⟩, nonempty, ?_⟩, by omega, ?_⟩
  · calc line = line.take character ++ line.drop character := (List.take_append_drop _ _).symm
      _ = (before ++ wordBefore (line.take character)) ++
          (wordAfter (line.drop character) ++ after) := by rw [← left, ← right]
      _ = before ++ (wordIn line character ++ after) := by
        simp only [wordIn, wordBefore, wordAfter, List.append_assoc]
  · exact fun char => isDelimiter_of_mem_wordIn
  · rw [delimited, starts, ends, Bool.and_self]
  · rw [lengths, List.length_append]
    simp only [wordIn, wordBefore, List.length_append]
    omega

/-- A cursor in a run cuts it in two. -/
theorem IsRun.exists_halves (run : IsRun line before word after) {character : Nat}
    (starts : before.length ≤ min character line.length)
    (ends : min character line.length ≤ (before ++ word).length) :
    ∃ left right, word = left ++ right ∧ line.take character = before ++ left ∧
      line.drop character = right ++ after := by
  have halves : line.take character ++ line.drop character = line := List.take_append_drop _ _
  rw [← List.length_take] at starts ends
  obtain ⟨left, leftHalf⟩ : before <+: line.take character :=
    List.prefix_of_prefix_length_le ⟨_, run.split.symm⟩ ⟨_, halves⟩ starts
  obtain ⟨right, split⟩ : line.take character <+: before ++ word :=
    List.prefix_of_prefix_length_le ⟨_, halves⟩ ⟨after, by rw [run.split, List.append_assoc]⟩ ends
  have whole : word = left ++ right := by
    rw [← leftHalf, List.append_assoc] at split
    exact (List.append_cancel_left split).symm
  have same : (before ++ left) ++ line.drop character = (before ++ left) ++ (right ++ after) :=
    calc (before ++ left) ++ line.drop character
      _ = line := by rw [leftHalf, halves]
      _ = before ++ (left ++ right ++ after) := by rw [run.split, whole]
      _ = (before ++ left) ++ (right ++ after) := by simp only [List.append_assoc]
  exact ⟨left, right, whole, leftHalf.symm, List.append_cancel_left same⟩

theorem wordIn_of_run (run : IsMaximalRun line before word after) {character : Nat}
    (starts : before.length ≤ min character line.length)
    (ends : min character line.length ≤ (before ++ word).length) :
    wordIn line character = word := by
  obtain ⟨left, right, whole, leftHalf, rightHalf⟩ := run.exists_halves starts ends
  have apart := run.delimited
  have chars := run.chars
  rw [Editor.delimited, Bool.and_eq_true] at apart
  rw [whole, List.forall_mem_append] at chars
  change wordBefore (line.take character) ++ wordAfter (line.drop character) = word
  rw [leftHalf, rightHalf, wordBefore_append chars.1 apart.1, wordAfter_append chars.2 apart.2,
    whole]

/-! ## Words in a text -/

/-- The word at a position, of any line and any character, is the maximal run of the line that the
position touches. A position behind the line counts as the end of the line. There is no word just if
there is no line or the position touches no run. -/
theorem wordAt?_eq_some_iff {text word : Text} {line character : Nat} :
    wordAt? text line character = some word ↔
      ∃ content before after, (Text.editorLines text)[line]? = some content ∧
        IsMaximalRun content before word after ∧
        before.length ≤ min character content.length ∧
        min character content.length ≤ (before ++ word).length := by
  constructor
  · intro found
    unfold wordAt? at found
    split at found
    · cases found
    next content isLine =>
      split at found
      · cases found
      next word' nonempty =>
        cases found
        obtain ⟨before, after, touches⟩ := exists_run_of_wordIn nonempty
        exact ⟨content, before, after, isLine, touches⟩
  · rintro ⟨content, before, after, isLine, run, starts, ends⟩
    have found : wordIn content character = word := wordIn_of_run run starts ends
    rw [wordAt?_of_line isLine (by rw [found]; exact run.nonempty), found]

end LazyLisp.Editor
