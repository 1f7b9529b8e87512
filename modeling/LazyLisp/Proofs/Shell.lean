import LazyLisp.Proofs.Concatenation
import LazyLisp.Proofs.Reader.Lines
import LazyLisp.Shell

/-!
# The shell and whole sources

A shell that is given the lines of a source one by one shows what is shown for the whole source. It
cuts the source where no bracket is open, and there no form is open either.
-/

set_option autoImplicit false

namespace LazyLisp

open Reader

/-- A source is shown without a failure if it is read to its end and its forms are performed. -/
theorem Display.showSource_eq_iff {display : Display} {session after : Session} {source : Text}
    {texts : List Text} :
    display.showSource session source = (texts, none, after) ↔
      (readAll source).2 = none ∧
        Session.performAll display.result (readAll source).1 session = (texts, none, after) :=
  Session.performSource_eq_iff

namespace Shell

/-- Takes in lines one after another: what the shell does after each, all that it prints but the
prompts, and the shell after them. -/
def enterEach : Shell → List Text → List Reply × Text × Shell
  | shell, [] => ([], [], shell)
  | shell, line :: lines =>
    let (reply, printed, shell) := shell.enter line
    let (replies, more, shell) := shell.enterEach lines
    (reply :: replies, printed ++ more, shell)

/-! ## Lines that are waited for -/

/-- The text is a source, and no string of it goes on over the end of a line. -/
def IsSource (text : Text) : Prop := ∃ exprs, Expr.AllOneLine exprs ∧ ReadsAs text exprs

/-- A shell that has been given some lines and is to be given others, which complete the pending
source to these expressions. Wherever the pending source is completed, so are the lines. -/
structure Reading (shell : Shell) (earlier later : List Text) (exprs : List Expr) : Prop where
  waits : shell.pending = [] ∨ 0 < openDepth shell.pending
  reads : ReadsAs (shell.pending ++ newLines later) exprs
  oneLine : Expr.AllOneLine exprs
  covers : ∀ {text : Text}, LineEnd text → IsSource (shell.pending ++ text) →
    IsSource (newLines earlier ++ text)

variable {shell : Shell} {earlier later : List Text} {line : Text} {exprs : List Expr}

/-- In front of a first line the shell puts no line feed, which is a gap. -/
theorem readsAs_sourceWith_iff {text : Text} :
    ReadsAs (shell.sourceWith line ++ text) exprs ↔
      ReadsAs (shell.pending ++ '\n' :: (line ++ text)) exprs := by
  unfold sourceWith
  split
  next noPending =>
    rw [List.isEmpty_iff.mp noPending]
    exact ⟨fun reads => reads.congr (skipGap_lineFeed _),
      fun reads => reads.congr (skipGap_lineFeed _).symm⟩
  next => rw [List.append_assoc, List.cons_append]

theorem IsSource.sourceWith {text : Text} (isSource : IsSource (shell.sourceWith line ++ text)) :
    IsSource (shell.pending ++ '\n' :: (line ++ text)) := by
  obtain ⟨exprs, oneLine, reads⟩ := isSource
  exact ⟨exprs, oneLine, readsAs_sourceWith_iff.mp reads⟩

theorem Reading.covers_line (reading : shell.Reading earlier (line :: later) exprs) {text : Text}
    (isSource : IsSource (shell.pending ++ '\n' :: (line ++ text))) :
    IsSource (newLines (earlier ++ [line]) ++ text) := by
  rw [newLines_concat, List.append_assoc, List.cons_append]
  exact reading.covers (.lineFeed _) isSource

theorem Reading.skip (reading : shell.Reading earlier (line :: later) exprs)
    (blank : Text.strip line = []) : shell.Reading (earlier ++ [line]) later exprs where
  waits := reading.waits
  reads := (readsAs_blank_line_iff reading.oneLine blank (lineEnd_newLines later)).mp reading.reads
  oneLine := reading.oneLine
  covers := by
    rintro text lineEnd ⟨others, oneLine, reads⟩
    have reads' := (readsAs_blank_line_iff oneLine blank lineEnd).mpr reads
    exact reading.covers_line ⟨others, oneLine, reads'⟩

theorem Reading.continue (reading : shell.Reading earlier (line :: later) exprs)
    (isOpen : 0 < openDepth (shell.sourceWith line)) :
    { shell with pending := shell.sourceWith line }.Reading (earlier ++ [line]) later exprs where
  waits := .inr isOpen
  reads := readsAs_sourceWith_iff.mpr reading.reads
  oneLine := reading.oneLine
  covers _ isSource := reading.covers_line isSource.sourceWith

/-- Where no bracket is open, the forms up to there have been read. -/
theorem Reading.complete (reading : shell.Reading earlier (line :: later) exprs)
    (closed : openDepth (shell.sourceWith line) ≤ 0) :
    ∃ before behind, exprs = before ++ behind ∧ Expr.AllOneLine before ∧
      ReadsAs (shell.sourceWith line) before ∧
      ∀ session,
        { shell with session, pending := [] }.Reading (earlier ++ [line]) later behind := by
  obtain ⟨before, behind, rfl, readsBefore, readsBehind⟩ :=
    (readsAs_sourceWith_iff.mpr reading.reads).cut reading.oneLine (lineEnd_newLines later) closed
  obtain ⟨oneLineBefore, oneLineBehind⟩ := Expr.allOneLine_append.mp reading.oneLine
  refine ⟨before, behind, rfl, oneLineBefore, readsBefore, fun session => ?_⟩
  exact {
    waits := .inl rfl
    reads := readsBehind
    oneLine := oneLineBehind
    covers := by
      rintro text lineEnd ⟨others, oneLine, reads⟩
      refine reading.covers_line (IsSource.sourceWith ⟨before ++ others, ?_, ?_⟩)
      · exact Expr.allOneLine_append.mpr ⟨oneLineBefore, oneLine⟩
      · exact readsBefore.join oneLineBefore lineEnd reads }

/-! ## Giving the shell all lines -/

/-- Where no source is pending, the lines given before are a source. -/
theorem Reading.readAll_intercalate (reading : shell.Reading earlier later exprs)
    (noPending : shell.pending = []) : (readAll (['\n'].intercalate earlier)).2 = none := by
  have finished : IsSource (shell.pending ++ []) := by
    rw [noPending]
    exact ⟨[], trivial, .finished rfl⟩
  obtain ⟨others, oneLine, reads⟩ := reading.covers .nil finished
  rw [List.append_nil] at reads
  rw [readAll_eq_iff.mpr (reads.congr (skipGap_newLines earlier).symm)]

/-- A line shows the first results of those that are left to show. -/
theorem Reading.enter (reading : shell.Reading earlier (line :: later) exprs)
    (noEnd : Text.strip line ≠ "EOF".toList)
    (noExit : shell.pending = [] → Text.strip line ≠ "exit".toList) {texts : List Text}
    {after : Session}
    (performed : Session.performAll shell.display.result exprs shell.session =
      (texts, none, after)) :
    ∃ reply shown left behind session pending,
      shell.enter line = (reply, renderLines shown, { shell with session, pending }) ∧
      reply ≠ .left ∧ texts = shown ++ left ∧
      Session.performAll shell.display.result behind session = (left, none, after) ∧
      { shell with session, pending }.Reading (earlier ++ [line]) later behind := by
  have notExit : ¬ (decide (Text.strip line = "exit".toList) && shell.pending.isEmpty) = true := by
    rw [Bool.and_eq_true, decide_eq_true_eq, List.isEmpty_iff]
    exact fun isExit => noExit isExit.2 isExit.1
  unfold Shell.enter
  dsimp only
  rw [if_neg noEnd, if_neg notExit]
  -- Only a line that closes the last bracket shows anything; it brings the forms up to there.
  by_cases blank : Text.strip line = []
  · rw [if_pos (List.isEmpty_iff.mpr blank)]
    exact ⟨.skipped, [], texts, exprs, shell.session, shell.pending, rfl, nofun, rfl, performed,
      reading.skip blank⟩
  · rw [if_neg (fun empty => blank (List.isEmpty_iff.mp empty)), enterSource]
    by_cases isOpen : 0 < openDepth (shell.sourceWith line)
    · rw [if_pos isOpen]
      exact ⟨.read, [], texts, exprs, shell.session, shell.sourceWith line, rfl, nofun, rfl,
        performed, reading.continue isOpen⟩
    · obtain ⟨before, behind, rfl, oneLine, reads, readingBehind⟩ :=
        reading.complete (Int.not_lt.mp isOpen)
      obtain ⟨shown, left, session, rfl, performedBefore, performedBehind⟩ :=
        Session.exists_of_performAll_append performed
      have shows : shell.display.showSource shell.session (shell.sourceWith line) =
          (shown, none, session) := by
        rw [Display.showSource_eq_iff, readAll_eq_iff.mpr reads]
        exact ⟨rfl, performedBefore⟩
      rw [if_neg isOpen, shows]
      refine ⟨.read, shown, left, behind, session, [], ?_, nofun, rfl, performedBehind,
        readingBehind session⟩
      simp only [Option.elim_none, List.append_nil]

/-- Given the lines that complete its pending source, the shell shows what is left to show. -/
theorem Reading.enterEach (reading : shell.Reading earlier later exprs)
    (noEnd : ∀ line ∈ later, Text.strip line ≠ "EOF".toList)
    (noExit : ∀ before line behind, later = before ++ line :: behind →
      (readAll (['\n'].intercalate (earlier ++ before))).2 = none →
      Text.strip line ≠ "exit".toList)
    {texts : List Text} {after : Session}
    (performed : Session.performAll shell.display.result exprs shell.session =
      (texts, none, after)) :
    ∃ replies, .left ∉ replies ∧ shell.enterEach later =
      (replies, renderLines texts, { shell with session := after, pending := [] }) := by
  induction later generalizing shell earlier exprs texts with
  | nil =>
      -- What is pending has open brackets, but at the end of a source there are none.
      have reads := reading.reads
      rw [newLines_nil, List.append_nil] at reads
      have closed := reads.openDepth_eq reading.oneLine
      have noPending : shell.pending = [] := reading.waits.resolve_right (by omega)
      rw [noPending] at reads
      cases reads with
      | finished =>
          cases performed
          exact ⟨[], List.not_mem_nil, by rw [← noPending]; rfl⟩
      | form read => cases read
  | cons line later ih =>
      rw [List.forall_mem_cons] at noEnd
      have noExitHere (noPending : shell.pending = []) : Text.strip line ≠ "exit".toList :=
        noExit [] line later rfl (by simpa using reading.readAll_intercalate noPending)
      obtain ⟨reply, shown, left, behind, session, pending, entered, goesOn, rfl, performedBehind,
        readingBehind⟩ := reading.enter noEnd.1 noExitHere performed
      have noExitLater (before : List Text) (next : Text) (behind : List Text)
          (same : later = before ++ next :: behind)
          (complete : (readAll (['\n'].intercalate (earlier ++ [line] ++ before))).2 = none) :
          Text.strip next ≠ "exit".toList :=
        noExit (line :: before) next behind (by rw [same, List.cons_append])
          (by rwa [List.append_assoc] at complete)
      obtain ⟨replies, noneLeft, enteredLater⟩ :=
        ih readingBehind noEnd.2 noExitLater performedBehind
      refine ⟨reply :: replies, ?_, ?_⟩
      · rw [List.mem_cons, not_or]
        exact ⟨goesOn.symm, noneLeft⟩
      · simp only [Shell.enterEach, entered, enteredLater, renderLines, List.flatMap_append]

/-- The lines of a source show what the whole source shows: for every source that is read to its
end and whose forms are evaluated without a failure. No string of it may go on over the end of a
line, no line may be the word for the end of input, and none that begins outside of all forms may
be the command that leaves the shell. -/
theorem enterEach_lines {source : Text} {texts : List Text} {after : Session}
    (noPending : shell.pending = [])
    (shown : shell.display.showSource shell.session source = (texts, none, after))
    (oneLine : Expr.AllOneLine (readAll source).1)
    (noEnd : ∀ line ∈ Text.split '\n' source, Text.strip line ≠ "EOF".toList)
    (noExit : ∀ earlier line later, Text.split '\n' source = earlier ++ line :: later →
      (readAll (['\n'].intercalate earlier)).2 = none → Text.strip line ≠ "exit".toList) :
    ∃ replies last, shell.enterEach (Text.split '\n' source) = (replies, renderLines texts, last) ∧
      .left ∉ replies ∧ last = { shell with session := after } ∧ last.pending = [] ∧
      last.prompt = ['>', ' '] := by
  obtain ⟨complete, performed⟩ := Display.showSource_eq_iff.mp shown
  have read : readAll source = ((readAll source).1, none) := by rw [← complete]
  have reads := readAll_eq_iff.mp read
  have reading : shell.Reading [] (Text.split '\n' source) (readAll source).1 := {
    waits := .inl noPending
    reads := by
      rw [noPending, List.nil_append]
      refine reads.congr ?_
      rw [skipGap_newLines, Text.intercalate_split]
    oneLine
    covers := by
      rw [noPending]
      exact fun _ isSource => isSource }
  obtain ⟨replies, noneLeft, entered⟩ := reading.enterEach noEnd noExit performed
  refine ⟨replies, _, entered, noneLeft, ?_, rfl, rfl⟩
  rw [← noPending]

/-- A form over four lines: there are brackets in a comment, `exit` is the name of a variable, and a
blank line is passed over. -/
theorem enterEach_lines_conditional :
    let shell : Shell := { session := { } }
    let source := "(if false ; (\nexit\n\n:a)".toList
    let shown := shell.display.showSource shell.session source
    shown.2.1 = none ∧ ∃ replies last,
      shell.enterEach (Text.split '\n' source) = (replies, renderLines shown.1, last) ∧
      .left ∉ replies ∧ last = { shell with session := shown.2.2 } ∧ last.pending = [] ∧
      last.prompt = ['>', ' '] := by
  intro shell source shown
  have complete : shown.2.1 = none := Option.isNone_iff_eq_none.mp (by decide +kernel)
  have lines : Text.split '\n' source =
      ["(if false ; (".toList, "exit".toList, [], ":a)".toList] := by decide +kernel
  have form : (readAll source).1 =
      [.ifThenElse (.boolean false) (.identifier "exit") (.symbol "a")] := rfl
  have inForm : (readAll "(if false ; (".toList).2.isSome = true := by decide +kernel
  refine ⟨complete, enterEach_lines rfl ?_ ?_ ?_ ?_⟩
  · rw [← complete]
  · rw [form]
    simp [Expr.AllOneLine, Expr.OneLine]
  · rw [lines]
    decide +kernel
  · rw [lines]
    rintro (_ | ⟨_, _ | ⟨_, _ | ⟨_, _ | ⟨_, earlier⟩⟩⟩⟩) line later same outside isExit
    · cases same
      exact absurd isExit (by decide +kernel)
    · cases same
      rw [List.intercalate_singleton] at outside
      rw [outside] at inForm
      cases inForm
    · cases same
      exact absurd isExit (by decide +kernel)
    · cases same
      exact absurd isExit (by decide +kernel)
    · simp at same

end Shell

end LazyLisp
