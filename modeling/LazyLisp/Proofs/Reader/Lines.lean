import LazyLisp.Proofs.Reader.Following
import LazyLisp.Proofs.Reader.Forms

/-!
# Cutting and joining sources at line ends

At a line end where no bracket is open a source falls into two sources, and two sources may be
joined there. Where brackets are open, lines that are blank may be dropped or put in.
-/

set_option autoImplicit false

namespace LazyLisp.Reader

variable {depth : Int} {tail tail' text text' : Text} {exprs : List Expr}

/-! ## Sources that part at a line end -/

/-- A form that does not stand behind the line end is read in both texts. -/
theorem readForm_follows (parting : Parting depth tail tail') {rest : Text} {expr : Expr}
    (opens : openDepth text = depth) (notAtEnd : skipGap text ≠ [])
    (read : readForm (skipGap (text ++ tail)) = .ok (expr, rest)) (oneLine : expr.OneLine) :
    ∃ rest', readForm (skipGap (text ++ tail')) = .ok (expr, rest') ∧
      Beside depth tail tail' 0 rest rest' := by
  have skipped := skipGap_skipGap (text ++ tail)
  rw [skipGap_append text parting.lineEnd, if_neg notAtEnd] at read skipped
  rw [skipGap_append text parting.lineEnd', if_neg notAtEnd]
  have beside : Beside depth tail tail' 0 (skipGap text ++ tail) (skipGap text ++ tail') :=
    .before (by rw [openDepth_skipGap, Int.zero_add, opens])
  obtain ⟨rest', besideRest, -, reads⟩ :=
    readWithin_follows parting _ (Int.le_refl 0) beside skipped read oneLine
  exact ⟨rest', reads _ (by omega), besideRest⟩

/-- The forms of a source and what they are in another one, from which it parts at a line end. If no
bracket is open there, they fall into those in front of the line end, which the other source has
too, and those behind it. Otherwise both sources have the same forms. -/
inductive Parted (depth : Int) (tail tail' text' : Text) : List Expr → Prop where
  | closed {before behind : List Expr} :
      depth = 0 → ReadsAs tail behind →
      (∀ behind', ReadsAs tail' behind' → ReadsAs text' (before ++ behind')) →
      Parted depth tail tail' text' (before ++ behind)
  | crossed {exprs : List Expr} :
      0 < depth → skipGap tail ≠ [] → ReadsAs text' exprs → Parted depth tail tail' text' exprs

theorem Parted.form {rest' : Text} {expr : Expr}
    (read : readForm (skipGap text') = .ok (expr, rest'))
    (parted : Parted depth tail tail' rest' exprs) :
    Parted depth tail tail' text' (expr :: exprs) := by
  cases parted with
  | @closed before behind noneOpen readsTail joined =>
      rw [← List.cons_append]
      exact .closed noneOpen readsTail fun behind' readsTail' =>
        .form read (joined behind' readsTail')
  | crossed isOpen more reads => exact .crossed isOpen more (.form read reads)

/-- In front of the line end stands only a gap. -/
theorem parted_of_gap (parting : Parting depth tail tail') (opens : openDepth text = depth)
    (atEnd : skipGap text = []) (reads : ReadsAs (text ++ tail) exprs) :
    Parted depth tail tail' (text ++ tail') exprs := by
  have skipped : skipGap (text ++ tail) = skipGap tail := by
    rw [skipGap_append text parting.lineEnd, if_pos atEnd]
  have skipped' : skipGap (text ++ tail') = skipGap tail' := by
    rw [skipGap_append text parting.lineEnd', if_pos atEnd]
  have noneOpen : depth = 0 := by
    rw [← opens, ← openDepth_skipGap, atEnd]
    rfl
  rw [← List.nil_append exprs]
  exact .closed noneOpen (reads.congr skipped.symm) fun _ reads' => reads'.congr skipped'

/-- By induction on the forms of the one source. Behind the line end both texts are the same. -/
theorem ReadsAs.parted (parting : Parting depth tail tail')
    (beside : Beside depth tail tail' 0 text text') (reads : ReadsAs text exprs)
    (oneLine : Expr.AllOneLine exprs) : Parted depth tail tail' text' exprs := by
  induction reads generalizing text' with
  | @finished text atEnd =>
      cases beside with
      | @before text opens =>
          rw [Int.zero_add] at opens
          refine parted_of_gap parting opens ?_ (.finished atEnd)
          by_contra notAtEnd
          rw [skipGap_append text parting.lineEnd, if_neg notAtEnd] at atEnd
          exact notAtEnd (List.append_eq_nil_iff.mp atEnd).1
      | behind isOpen more => exact .crossed isOpen more (.finished atEnd)
  | @form text rest expr exprs read reads ih =>
      cases beside with
      | @before text opens =>
          rw [Int.zero_add] at opens
          by_cases atEnd : skipGap text = []
          · exact parted_of_gap parting opens atEnd (.form read reads)
          · obtain ⟨rest', read', beside'⟩ :=
              readForm_follows parting opens atEnd read oneLine.1
            exact (ih beside' oneLine.2).form read'
      | behind isOpen more => exact .crossed isOpen more (.form read reads)

/-! ## Cutting and joining -/

theorem parting_nil : Parting depth [] [] := ⟨.nil, .nil, fun _ => rfl⟩

theorem beside_self (text : Text) : Beside (openDepth text) [] [] 0 text text := by
  have beside : Beside (openDepth text) [] [] 0 (text ++ []) (text ++ []) :=
    .before (Int.zero_add _)
  rwa [List.append_nil] at beside

section

variable (oneLine : Expr.AllOneLine exprs)

include oneLine

/-- No bracket is open at the end of a source. -/
theorem ReadsAs.openDepth_eq (reads : ReadsAs text exprs) : openDepth text = 0 := by
  cases reads.parted parting_nil (beside_self text) oneLine with
  | closed noneOpen => exact noneOpen
  | crossed _ more => exact absurd rfl more

/-- At a line end where no bracket is open a source falls into two. -/
theorem ReadsAs.cut (lineEnd : LineEnd tail) (closed : openDepth text ≤ 0)
    (reads : ReadsAs (text ++ tail) exprs) :
    ∃ before behind, exprs = before ++ behind ∧ ReadsAs text before ∧ ReadsAs tail behind := by
  have parting : Parting (openDepth text) tail [] :=
    ⟨lineEnd, .nil, fun isOpen => absurd isOpen (by omega)⟩
  cases reads.parted parting (.before (Int.zero_add _)) oneLine with
  | @closed before behind _ readsTail joined =>
      have readsText := joined [] (.finished rfl)
      rw [List.append_nil, List.append_nil] at readsText
      exact ⟨before, behind, rfl, readsText, readsTail⟩
  | crossed isOpen => omega

/-- Two sources may be joined at a line end. -/
theorem ReadsAs.join {behind : List Expr} (reads : ReadsAs text exprs) (lineEnd : LineEnd tail)
    (readsTail : ReadsAs tail behind) : ReadsAs (text ++ tail) (exprs ++ behind) := by
  have parting : Parting 0 [] tail := ⟨.nil, lineEnd, fun never => absurd never (by omega)⟩
  have beside : Beside 0 [] tail 0 (text ++ []) (text ++ tail) :=
    .before (by rw [reads.openDepth_eq oneLine, Int.zero_add])
  rw [List.append_nil] at beside
  cases reads.parted parting beside oneLine with
  | closed _ readsNone joined =>
      cases readsNone with
      | finished =>
          rw [List.append_nil]
          exact joined behind readsTail
      | form read => cases read
  | crossed never => exact absurd never (by omega)

/-- What stands behind a line end may be replaced if it is the same behind its gap. -/
theorem ReadsAs.exchange (lineEnd : LineEnd tail) (lineEnd' : LineEnd tail')
    (same : skipGap tail = skipGap tail') (reads : ReadsAs (text ++ tail) exprs) :
    ReadsAs (text ++ tail') exprs := by
  have parting : Parting (openDepth text) tail tail' := ⟨lineEnd, lineEnd', fun _ => same⟩
  cases reads.parted parting (.before (Int.zero_add _)) oneLine with
  | @closed before behind _ readsTail joined => exact joined behind (readsTail.congr same.symm)
  | crossed _ _ reads' => exact reads'

end

/-! ## Lines -/

/-- The lines, each behind a line feed. -/
def newLines (lines : List Text) : Text := lines.flatMap ('\n' :: ·)

@[simp]
theorem newLines_nil : newLines [] = [] := rfl

theorem newLines_cons (line : Text) (lines : List Text) :
    newLines (line :: lines) = '\n' :: (line ++ newLines lines) := rfl

theorem newLines_concat (lines : List Text) (line : Text) :
    newLines (lines ++ [line]) = newLines lines ++ '\n' :: line := by
  simp [newLines]

theorem lineEnd_newLines (lines : List Text) : LineEnd (newLines lines) := by
  cases lines with
  | nil => exact .nil
  | cons line lines => exact .lineFeed _

theorem newLines_eq_intercalate (line : Text) (lines : List Text) :
    newLines (line :: lines) = '\n' :: ['\n'].intercalate (line :: lines) := by
  induction lines generalizing line with
  | nil => simp [newLines]
  | cons next lines ih =>
      rw [newLines_cons, ih, List.intercalate_cons_cons]
      simp

/-- A line feed in front of a text is a gap. -/
theorem skipGap_newLines (lines : List Text) :
    skipGap (newLines lines) = skipGap (['\n'].intercalate lines) := by
  cases lines with
  | nil => rfl
  | cons line lines => rw [newLines_eq_intercalate, skipGap_lineFeed]

theorem gap_of_strip {line : Text} (blank : Text.strip line = []) : Gap line := by
  induction line with
  | nil => exact .empty
  | cons char line ih =>
      simp only [Text.strip, List.reverse_eq_nil_iff] at blank ih
      cases isBlank : Text.isBlank char with
      | true =>
          rw [List.dropWhile_cons_of_pos isBlank] at blank
          exact .blank isBlank (ih blank)
      | false =>
          rw [List.dropWhile_cons_of_neg (by simp [isBlank]), List.dropWhile_eq_nil_iff] at blank
          exact absurd (blank char (by simp)) (by simp [isBlank])

/-- A blank line in front of a line end may be dropped or put in. -/
theorem readsAs_blank_line_iff {line : Text} (oneLine : Expr.AllOneLine exprs)
    (blank : Text.strip line = []) (lineEnd : LineEnd tail) :
    ReadsAs (text ++ '\n' :: (line ++ tail)) exprs ↔ ReadsAs (text ++ tail) exprs := by
  have same : skipGap ('\n' :: (line ++ tail)) = skipGap tail := by
    rw [skipGap_lineFeed, (gap_of_strip blank).skipGap_append]
  have lineEnd' := LineEnd.lineFeed (line ++ tail)
  exact ⟨fun reads => reads.exchange oneLine lineEnd' lineEnd same,
    fun reads => reads.exchange oneLine lineEnd lineEnd' same.symm⟩

end LazyLisp.Reader
