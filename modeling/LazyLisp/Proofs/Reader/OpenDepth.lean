import LazyLisp.Proofs.Reader.Brackets

/-!
# The test for unfinished sources

The shell waits for more of a source while the scanner counts an open bracket. A source that more
text behind a line end completes has as many open brackets as it has open forms, so the shell waits
exactly while the source is not read to its end.
-/

set_option autoImplicit false

namespace LazyLisp

open Reader

/-- The source ends in a string literal: it begins a string that it does not end. -/
def EndsInString (source : Text) : Prop :=
  (readAll source).2.map SyntaxError.fault = some .unterminatedString

instance (source : Text) : Decidable (EndsInString source) :=
  inferInstanceAs (Decidable (_ = _))

namespace Reader

variable {text rest : Text} {exprs : List Expr}

theorem ReadsAs.behind_form {expr : Expr} (reads : ReadsAs text exprs)
    (read : readForm (skipGap text) = .ok (expr, rest)) : ∃ exprs', ReadsAs rest exprs' := by
  cases reads with
  | finished atEnd =>
      rw [atEnd] at read
      cases read
  | form read' reads =>
      cases read.symm.trans read'
      exact ⟨_, reads⟩

theorem ReadsAs.not_failed {stop : Stop} (reads : ReadsAs text exprs) (more : skipGap text ≠ []) :
    readForm (skipGap text) ≠ .error stop := by
  intro failed
  cases reads with
  | finished atEnd => exact more atEnd
  | form read => cases failed.symm.trans read

end Reader

namespace OpenForms

variable {tail text rest : Text} {count : Nat} {stop : Option Stop}

/-- Where the reading of a text ends, with so many open forms, and what this means for the text with
more behind it. -/
inductive Ended (tail text : Text) (count : Nat) : Option Stop → Prop where
  /-- The text is read to its end. -/
  | whole : count = 0 → openDepth text = 0 → Ended tail text count none
  /-- The text ends inside of a form. -/
  | unfinished {fault : Fault} :
      0 < count → openDepth text = count → Ended tail text count (some ⟨fault, []⟩)
  /-- The text ends in a string. -/
  | inString {rest : Text} :
      openDepth text = count + openDepth rest →
      Ended tail text count (some ⟨.unterminatedString, rest⟩)
  /-- The text has a fault that the longer text has too. -/
  | fails {stop : Stop} :
      openDepth text = count + openDepth stop.rest → (∀ exprs, ¬ReadsAs (text ++ tail) exprs) →
      Ended tail text count (some stop)

theorem Ended.behindForm (ended : Ended tail rest count stop)
    (same : openDepth text = openDepth rest)
    (reads : ∀ {exprs}, ReadsAs (text ++ tail) exprs → ∃ exprs', ReadsAs (rest ++ tail) exprs') :
    Ended tail text count stop := by
  cases ended with
  | whole noForm depth => exact .whole noForm (same.trans depth)
  | unfinished isOpen depth => exact .unfinished isOpen (same.trans depth)
  | inString depth => exact .inString (same.trans depth)
  | fails depth never =>
      refine .fails (same.trans depth) fun exprs readsAs => ?_
      obtain ⟨exprs', readsAs'⟩ := reads readsAs
      exact never exprs' readsAs'

/-- The forms of a text up to where reading them stops. -/
theorem ended_formsWithin (lineEnd : LineEnd tail) {budget : Nat} (enough : text.length < budget) :
    Ended tail text (countWithin budget text) (formsWithin budget text).2 := by
  induction budget generalizing text with
  | zero => omega
  | succ budget ih =>
      have same := openDepth_skipGap text
      have shrinks := (skipGap_suffix text).length_le
      have behind := skipGap_append text lineEnd
      cases skipped : skipGap text with
      | nil =>
          simp only [countWithin, formsWithin, skipped]
          rw [skipped] at same
          exact .whole rfl same.symm
      | cons char inner =>
          rw [skipped] at same shrinks behind
          rw [if_neg (List.cons_ne_nil _ _)] at behind
          simp only [countWithin, formsWithin, skipped, readForm, ← uncounted_readWithin]
          have scans := readWithin_scans lineEnd
            (show (char :: inner).length + 1 ≤ (char :: inner ++ tail).length + 1 by simp)
            (Nat.lt_succ_self _)
            (by rw [← skipped, skipGap_skipGap, skipped]; exact List.cons_ne_nil _ _)
          rw [← readForm, ← behind] at scans
          generalize readWithin _ _ = counted at scans ⊢
          generalize longer : readForm _ = read at scans
          -- Only a form that is read leaves a rest, which is shorter; all other steps end here.
          cases scans with
          | @reads expr rest depth shorter =>
              rw [Int.sub_zero] at depth
              exact (ih (by omega)).behindForm (same.symm.trans depth)
                fun reads => reads.behind_form longer
          | fails depth =>
              exact .fails (same.symm.trans depth) fun _ reads =>
                reads.not_failed (by rw [behind]; exact List.cons_ne_nil _ _) longer
          | ended depth isOpen => exact .unfinished isOpen (same.symm.trans depth)
          | inString depth => exact .inString (same.symm.trans depth)

end OpenForms

theorem ended_readAll (source : Text) {tail : Text} (lineEnd : LineEnd tail) :
    ∃ stop, OpenForms.Ended tail source (openForms source) stop ∧
      (readAll source).2 = stop.map (·.locate source) :=
  ⟨_, OpenForms.ended_formsWithin lineEnd (Nat.lt_succ_self _), rfl⟩

section

variable {source : Text}

/-- A source that can be completed behind a line end is whole or ends inside of open forms. -/
theorem openDepth_of_completion {completion : Text}
    (whole : (readAll (source ++ '\n' :: completion)).2 = none) (noString : ¬EndsInString source) :
    openDepth source = openForms source ∧ (openForms source = 0 ↔ (readAll source).2 = none) := by
  have reads : ReadsAs (source ++ '\n' :: completion) _ := readAll_eq_iff.mp (Prod.ext rfl whole)
  obtain ⟨stop, ended, read⟩ := ended_readAll source (.lineFeed completion)
  unfold EndsInString at noString
  rw [read] at noString ⊢
  cases ended with
  | whole noForm depth => exact ⟨by rw [depth, noForm]; rfl, by simp [noForm]⟩
  | unfinished isOpen depth => exact ⟨depth, by simp [Nat.ne_of_gt isOpen]⟩
  | inString => exact absurd rfl noString
  | fails _ never => exact absurd reads (never _)

/-- No bracket is open at the end of a source that is read whole. -/
theorem openDepth_of_whole (whole : (readAll source).2 = none) : openDepth source = 0 := by
  obtain ⟨stop, ended, read⟩ := ended_readAll source .nil
  rw [whole] at read
  cases ended with
  | whole _ depth => exact depth
  | unfinished => cases read
  | inString => cases read
  | fails => cases read

/-- Where reading fails at the end of the source, the open brackets are the open forms. -/
theorem openDepth_of_end {error : SyntaxError} (failed : (readAll source).2 = some error)
    (atEnd : error.offset = source.length) : openDepth source = openForms source := by
  obtain ⟨stop, ended, read⟩ := ended_readAll source .nil
  rw [failed] at read
  obtain ⟨stop, rfl, rfl⟩ := Option.map_eq_some_iff.mp read.symm
  have nonempty : source.length ≠ 0 := by
    intro none
    rw [List.length_eq_zero_iff.mp none] at failed
    cases failed
  have nothing : stop.rest = [] := by
    refine List.length_eq_zero_iff.mp ?_
    simp only [Stop.locate] at atEnd
    omega
  cases ended with
  | unfinished _ depth => exact depth
  | inString depth =>
      cases nothing
      exact depth.trans (Int.add_zero _)
  | fails depth =>
      rw [nothing] at depth
      exact depth.trans (Int.add_zero _)

end

/-- The test of the shell is exact: the scanner counts the open forms of each source that can be
completed behind a line end and does not end in a string, and counts none just if the source is read
to its end. Without a completion it still counts none in a source that is read to its end, and some
in a source that fails at its end only, inside of a form. -/
theorem openDepth_exact (source : Text) :
    (∀ completion, (readAll (source ++ '\n' :: completion)).2 = none → ¬EndsInString source →
      openDepth source = openForms source ∧ 0 ≤ openDepth source ∧
        (openDepth source = 0 ↔ (readAll source).2 = none)) ∧
    ((readAll source).2 = none → openDepth source = 0) ∧
    ∀ error, (readAll source).2 = some error → error.offset = source.length →
      0 < openForms source → 0 < openDepth source := by
  refine ⟨fun completion whole noString => ?_, openDepth_of_whole,
    fun error failed atEnd isOpen => ?_⟩
  · obtain ⟨counted, iff⟩ := openDepth_of_completion whole noString
    rw [← iff]
    omega
  · rw [openDepth_of_end failed atEnd]
    exact Int.natCast_pos.mpr isOpen

/-- A list of formals goes on behind the line end, and a bracket in a comment stands before it. -/
theorem openDepth_exact_lambda :
    let source := "a (b ; )\n(fn [x ".toList
    let completion := "] x))".toList
    (readAll (source ++ '\n' :: completion)).2 = none ∧ ¬EndsInString source ∧
      openForms source = 3 ∧ openDepth source = 3 ∧ (readAll source).2 ≠ none := by
  have whole : (readAll ("a (b ; )\n(fn [x ".toList ++ '\n' :: "] x))".toList)).2 = none := by
    decide +kernel
  have noString : ¬EndsInString "a (b ; )\n(fn [x ".toList := by decide +kernel
  have three : openForms "a (b ; )\n(fn [x ".toList = 3 := by decide +kernel
  obtain ⟨counted, -, iff⟩ := (openDepth_exact _).1 _ whole noString
  rw [three] at counted
  refine ⟨whole, noString, three, counted, fun read => ?_⟩
  rw [iff.mpr read] at counted
  cases counted

end LazyLisp
