import LazyLisp.Proofs.Shell

/-!
# Unfinished forms

While a form is unfinished the shell keeps each line that is not blank, `exit` included, and passes
over the blank ones. The brackets that are open are those of the lines as they were typed. The text
that is read in the end is the typed text only if no line is blank, which makes a difference inside
of a string.
-/

set_option autoImplicit false

namespace LazyLisp

open Reader

/-! ## Brackets and blanks -/

theorem ScanState.bracketChange_of_isBlank {char : Char} (blank : Text.isBlank char = true)
    (state : ScanState) : state.bracketChange char = 0 := by
  cases state with
  | code => exact (ScanState.code_of_isBlank blank).2
  | comment | string | escape => rfl

/-- A state that blanks do not change. -/
def ScanState.Settled (state : ScanState) : Prop := state = .code ∨ state = .string

theorem ScanState.settled_lineFeed (state : ScanState) : (state.next '\n').Settled := by
  cases state with
  | code | comment => exact .inl rfl
  | string | escape => exact .inr rfl

theorem ScanState.Settled.next_of_isBlank {state : ScanState} (settled : state.Settled)
    {char : Char} (blank : Text.isBlank char = true) : state.next char = state := by
  rcases settled with rfl | rfl
  · exact (ScanState.code_of_isBlank blank).1
  · have noQuote : char ≠ '"' := by
      intro same
      subst char
      cases blank
    have noBackslash : char ≠ '\\' := by
      intro same
      subst char
      cases blank
    simp [ScanState.next, noQuote, noBackslash]

theorem openDepthFrom_of_blank {blanks : Text} (blank : ∀ char ∈ blanks, Text.isBlank char = true)
    (state : ScanState) : openDepthFrom state blanks = 0 := by
  induction blanks generalizing state with
  | nil => rfl
  | cons char blanks ih =>
      rw [List.forall_mem_cons] at blank
      rw [openDepthFrom, ScanState.bracketChange_of_isBlank blank.1, ih blank.2]
      rfl

theorem ScanState.Settled.openDepthFrom_append {state : ScanState} (settled : state.Settled)
    {blanks : Text} (blank : ∀ char ∈ blanks, Text.isBlank char = true) (text : Text) :
    openDepthFrom state (blanks ++ text) = openDepthFrom state text := by
  induction blanks with
  | nil => rfl
  | cons char blanks ih =>
      rw [List.forall_mem_cons] at blank
      rw [List.cons_append, openDepthFrom, ScanState.bracketChange_of_isBlank blank.1,
        settled.next_of_isBlank blank.1, ih blank.2, Int.zero_add]

/-- A line is what is left when it is stripped, between blanks. -/
theorem exists_blanks_strip (line : Text) :
    ∃ before behind, line = before ++ (Text.strip line ++ behind) ∧
      (∀ char ∈ before, Text.isBlank char = true) ∧ ∀ char ∈ behind, Text.isBlank char = true := by
  refine ⟨line.takeWhile Text.isBlank,
    ((line.dropWhile Text.isBlank).reverse.takeWhile Text.isBlank).reverse, ?_, ?_, ?_⟩
  · rw [Text.strip, ← List.reverse_append, List.takeWhile_append_dropWhile, List.reverse_reverse,
      List.takeWhile_append_dropWhile]
  · exact List.all_eq_true.mp List.all_takeWhile
  · intro char member
    exact List.all_eq_true.mp List.all_takeWhile char (List.mem_reverse.mp member)

theorem blank_of_strip {line : Text} (stripped : Text.strip line = []) :
    ∀ char ∈ line, Text.isBlank char = true := by
  obtain ⟨before, behind, split, blankBefore, blankBehind⟩ := exists_blanks_strip line
  rw [stripped, List.nil_append] at split
  rw [split]
  intro char member
  exact (List.mem_append.mp member).elim (blankBefore char) (blankBehind char)

theorem openDepth_strip (line : Text) : openDepth (Text.strip line) = openDepth line := by
  obtain ⟨before, behind, split, blankBefore, blankBehind⟩ := exists_blanks_strip line
  have code : ScanState.code.Settled := .inl rfl
  conv_rhs => rw [split, openDepth, code.openDepthFrom_append blankBefore, openDepthFrom_append,
    openDepthFrom_of_blank blankBehind, Int.add_zero]
  rfl

namespace Shell

/-! ## The lines that are kept -/

/-- The lines that are not blank. -/
def keptLines (lines : List Text) : List Text := lines.filter fun line => !(Text.strip line).isEmpty

theorem keptLines_cons_of_blank {line : Text} (stripped : Text.strip line = [])
    (lines : List Text) : keptLines (line :: lines) = keptLines lines := by
  simp [keptLines, stripped]

theorem keptLines_cons_of_source {line : Text} (source : Text.strip line ≠ [])
    (lines : List Text) : keptLines (line :: lines) = line :: keptLines lines := by
  simp [keptLines, source]

theorem keptLines_append (lines more : List Text) :
    keptLines (lines ++ more) = keptLines lines ++ keptLines more :=
  List.filter_append lines more

theorem openDepthFrom_next_newLines (state : ScanState) (lines : List Text) :
    openDepthFrom (state.next '\n') (newLines lines) = openDepthFrom state (newLines lines) := by
  cases lines with
  | nil => rfl
  | cons line lines =>
      have blank : Text.isBlank '\n' = true := rfl
      rw [newLines_cons, openDepthFrom, openDepthFrom,
        state.settled_lineFeed.next_of_isBlank blank, ScanState.bracketChange_of_isBlank blank,
        ScanState.bracketChange_of_isBlank blank]

/-- The blank lines open and close no bracket, whether or not a string goes on over them. -/
theorem openDepthFrom_keptLines (state : ScanState) (lines : List Text) :
    openDepthFrom state (newLines (keptLines lines)) = openDepthFrom state (newLines lines) := by
  induction lines generalizing state with
  | nil => rfl
  | cons line lines ih =>
      have isBlank : Text.isBlank '\n' = true := rfl
      have lineFeed := ScanState.bracketChange_of_isBlank isBlank state
      by_cases stripped : Text.strip line = []
      · rw [keptLines_cons_of_blank stripped, ih, newLines_cons, openDepthFrom, lineFeed,
          state.settled_lineFeed.openDepthFrom_append (blank_of_strip stripped),
          openDepthFrom_next_newLines, Int.zero_add]
      · rw [keptLines_cons_of_source stripped, newLines_cons, newLines_cons, openDepthFrom,
          openDepthFrom, openDepthFrom_append, openDepthFrom_append, ih]

theorem length_newLines_keptLines (lines : List Text) :
    (newLines (keptLines lines)).length ≤ (newLines lines).length := by
  induction lines with
  | nil => exact Nat.le_refl _
  | cons line lines ih =>
      by_cases stripped : Text.strip line = []
      · rw [keptLines_cons_of_blank stripped, newLines_cons, List.length_cons, List.length_append]
        omega
      · rw [keptLines_cons_of_source stripped, newLines_cons, newLines_cons, List.length_cons,
          List.length_cons, List.length_append, List.length_append]
        omega

/-- A text without its blank lines is a shorter one. -/
theorem newLines_keptLines_eq_iff {lines : List Text} :
    newLines (keptLines lines) = newLines lines ↔ ∀ line ∈ lines, Text.strip line ≠ [] := by
  induction lines with
  | nil => simp [keptLines]
  | cons line lines ih =>
      rw [List.forall_mem_cons]
      by_cases stripped : Text.strip line = []
      · have shorter := length_newLines_keptLines lines
        rw [keptLines_cons_of_blank stripped, newLines_cons]
        constructor
        · intro same
          rw [same, List.length_cons, List.length_append] at shorter
          omega
        · intro source
          exact absurd stripped source.1
      · rw [keptLines_cons_of_source stripped, newLines_cons, newLines_cons, List.cons_inj_right,
          List.append_cancel_left_eq, ih]
        exact ⟨fun source => ⟨stripped, source⟩, And.right⟩

theorem newLines_of_ne_nil {lines : List Text} (nonempty : lines ≠ []) :
    newLines lines = '\n' :: ['\n'].intercalate lines := by
  obtain ⟨first, rest, rfl⟩ := List.exists_cons_of_ne_nil nonempty
  exact newLines_eq_intercalate first rest

theorem openDepth_intercalate (lines : List Text) :
    openDepth (['\n'].intercalate lines) = openDepth (newLines lines) := by
  rw [← openDepth_skipGap, ← skipGap_newLines, openDepth_skipGap]

theorem openDepth_intercalate_keptLines (lines : List Text) :
    openDepth (['\n'].intercalate (keptLines lines)) = openDepth (['\n'].intercalate lines) := by
  rw [openDepth_intercalate, openDepth_intercalate]
  exact openDepthFrom_keptLines .code lines

/-! ## Single lines -/

/-- What the shell does after a line of a form. -/
def replyTo (line : Text) : Reply := if (Text.strip line).isEmpty then .skipped else .read

/-- Reads a completed source: the text that the shell prints for it and the shell after it. -/
def readSource (shell : Shell) (source : Text) : Text × Shell :=
  let (texts, failure, session) := shell.display.showSource shell.session source
  let report := failure.elim [] fun failure =>
    renderFailure shell.display.terminal failure.message
  (renderLines texts ++ report, { shell with session, pending := [] })

section

variable {shell : Shell} {entered lines : List Text} {line : Text}

theorem enter_of_blank (stripped : Text.strip line = []) :
    shell.enter line = (replyTo line, [], shell) := by
  simp only [enter, replyTo, stripped]
  rfl

/-- Where a source is pending, `exit` is a line of it like every other one. -/
theorem enter_of_source (source : Text.strip line ≠ [])
    (noEnd : Text.strip line ≠ "EOF".toList)
    (noExit : shell.pending = [] → Text.strip line ≠ "exit".toList) :
    shell.enter line = (replyTo line, shell.enterSource line) := by
  have notExit : ¬ (decide (Text.strip line = "exit".toList) && shell.pending.isEmpty) = true := by
    rw [Bool.and_eq_true, decide_eq_true_eq, List.isEmpty_iff]
    intro isExit
    exact noExit isExit.2 isExit.1
  simp only [enter, replyTo, if_neg noEnd, if_neg notExit, List.isEmpty_iff, if_neg source]

theorem enterSource_of_open (isOpen : 0 < openDepth (shell.sourceWith line)) :
    shell.enterSource line = ([], { shell with pending := shell.sourceWith line }) :=
  if_pos isOpen

theorem enterSource_of_closed (closed : openDepth (shell.sourceWith line) ≤ 0) :
    shell.enterSource line = shell.readSource (shell.sourceWith line) :=
  if_neg (Int.not_lt.mpr closed)

/-! ## The lines of a form -/

/-- The shell when it has been given these lines of a form. -/
def holding (shell : Shell) (entered : List Text) : Shell :=
  { shell with pending := ['\n'].intercalate (keptLines entered) }

/-- The lines leave a bracket open, unless all of them are blank. -/
def Waits (entered : List Text) : Prop :=
  keptLines entered = [] ∨ 0 < openDepth (['\n'].intercalate entered)

theorem Waits.holding_pending_eq_nil_iff (waits : Waits entered) (shell : Shell) :
    (shell.holding entered).pending = [] ↔ keptLines entered = [] := by
  constructor
  · intro noPending
    refine waits.resolve_right ?_
    rw [← openDepth_intercalate_keptLines]
    intro isOpen
    rw [show ['\n'].intercalate (keptLines entered) = [] from noPending] at isOpen
    exact absurd isOpen (by decide)
  · intro noneKept
    rw [holding, noneKept]
    rfl

theorem Waits.sourceWith (waits : Waits entered) (source : Text.strip line ≠ []) (shell : Shell) :
    (shell.holding entered).sourceWith line =
      ['\n'].intercalate (keptLines (entered ++ [line])) := by
  have noPending := waits.holding_pending_eq_nil_iff shell
  have kept : keptLines (entered ++ [line]) = keptLines entered ++ [line] := by
    rw [keptLines_append, keptLines_cons_of_source source]
    rfl
  simp only [Shell.sourceWith, List.isEmpty_iff, noPending, kept]
  split
  next noneKept => simp [noneKept]
  next begun =>
    have joined := newLines_concat (keptLines entered) line
    rw [newLines_of_ne_nil begun, newLines_of_ne_nil (List.concat_ne_nil _ _), List.cons_append,
      List.cons_inj_right] at joined
    exact joined.symm

/-- Only a form that is not begun can be left by `exit`, which opens no bracket. -/
theorem Waits.ne_exit (waits : Waits entered)
    (isOpen : 0 < openDepth (['\n'].intercalate (entered ++ [line])))
    (noPending : (shell.holding entered).pending = []) : Text.strip line ≠ "exit".toList := by
  intro isExit
  have source : Text.strip line ≠ [] := by
    rw [isExit]
    decide
  have sameSource := waits.sourceWith source shell
  rw [Shell.sourceWith, if_pos (List.isEmpty_iff.mpr noPending)] at sameSource
  rw [← openDepth_intercalate_keptLines, ← sameSource, ← openDepth_strip, isExit] at isOpen
  exact absurd isOpen (by decide)

theorem Waits.enter (waits : Waits entered) (noEnd : Text.strip line ≠ "EOF".toList)
    (isOpen : 0 < openDepth (['\n'].intercalate (entered ++ [line]))) :
    (shell.holding entered).enter line = (replyTo line, [], shell.holding (entered ++ [line])) := by
  by_cases stripped : Text.strip line = []
  · have kept : keptLines (entered ++ [line]) = keptLines entered := by
      rw [keptLines_append, keptLines_cons_of_blank stripped]
      exact List.append_nil _
    rw [enter_of_blank stripped, holding, holding, kept]
  · have joined := waits.sourceWith stripped shell
    rw [enter_of_source stripped noEnd (waits.ne_exit isOpen), enterSource_of_open, joined]
    · rfl
    · rwa [joined, openDepth_intercalate_keptLines]

/-- The line that closes the last bracket has the kept lines read. -/
theorem Waits.enter_last (waits : Waits entered) (begun : keptLines entered ≠ [])
    (noEnd : Text.strip line ≠ "EOF".toList)
    (closed : openDepth (['\n'].intercalate (entered ++ [line])) ≤ 0) :
    (shell.holding entered).enter line =
      (replyTo line, shell.readSource (['\n'].intercalate (keptLines (entered ++ [line])))) := by
  have source : Text.strip line ≠ [] := by
    intro stripped
    have isOpen := waits.resolve_left begun
    rw [← openDepth_intercalate_keptLines, keptLines_append, keptLines_cons_of_blank stripped]
      at closed
    rw [← openDepth_intercalate_keptLines] at isOpen
    exact absurd isOpen (by simpa [keptLines] using closed)
  have noExit (noPending : (shell.holding entered).pending = []) :
      Text.strip line ≠ "exit".toList := by
    exact absurd ((waits.holding_pending_eq_nil_iff shell).mp noPending) begun
  have joined := waits.sourceWith source shell
  rw [enter_of_source source noEnd noExit, enterSource_of_closed, joined]
  · rfl
  · rwa [joined, openDepth_intercalate_keptLines]

/-- What an unfinished form keeps while its lines are entered. -/
theorem Waits.enterEach (waits : Waits entered) (shell : Shell)
    (noEnd : ∀ line ∈ lines, Text.strip line ≠ "EOF".toList)
    (unfinished : ∀ more, more ≠ [] → more <+: lines →
      0 < openDepth (['\n'].intercalate (entered ++ more))) :
    (shell.holding entered).enterEach lines =
      (lines.map replyTo, [], shell.holding (entered ++ lines)) := by
  induction lines generalizing entered with
  | nil => rw [List.append_nil]; rfl
  | cons line lines ih =>
      rw [List.forall_mem_cons] at noEnd
      have isOpen := unfinished [line] (List.cons_ne_nil _ _) (List.prefix_append _ _)
      have later (more : List Text) (nonempty : more ≠ []) (isPrefix : more <+: lines) :
          0 < openDepth (['\n'].intercalate (entered ++ [line] ++ more)) := by
        rw [List.append_assoc]
        exact unfinished (line :: more) (List.cons_ne_nil _ _)
          (List.prefix_cons_inj line |>.mpr isPrefix)
      have waitsNext : Waits (entered ++ [line]) := .inr isOpen
      rw [Shell.enterEach, waits.enter noEnd.1 isOpen]
      simp only [ih waitsNext noEnd.2 later, List.map_cons, List.append_assoc, List.nil_append,
        List.cons_append]

end

theorem enterEach_concat (shell : Shell) (lines : List Text) (last : Text) :
    shell.enterEach (lines ++ [last]) =
      let (replies, printed, before) := shell.enterEach lines
      let (reply, more, after) := before.enter last
      (replies ++ [reply], printed ++ more, after) := by
  induction lines generalizing shell with
  | nil => simp [Shell.enterEach]
  | cons line lines ih => simp [Shell.enterEach, ih]

/-- The lines of a form, none of which is the end of input, print nothing until the last one closes
the last bracket. The text that is then read consists of the lines that are not blank, `exit`
included, joined by line feeds. So it is the text that was typed if and only if no line is blank. -/
theorem enterEach_form {shell : Shell} {lines : List Text} {last : Text}
    (noPending : shell.pending = []) (several : lines ≠ [])
    (noEnd : ∀ line ∈ lines ++ [last], Text.strip line ≠ "EOF".toList)
    (unfinished : ∀ entered, entered ≠ [] → entered <+: lines →
      0 < openDepth (['\n'].intercalate entered))
    (complete : openDepth (['\n'].intercalate (lines ++ [last])) ≤ 0) :
    let typed := lines ++ [last]
    let source := ['\n'].intercalate (keptLines typed)
    shell.enterEach typed = (typed.map replyTo, shell.readSource source) ∧
      (source = ['\n'].intercalate typed ↔ ∀ line ∈ typed, Text.strip line ≠ []) := by
  intro typed source
  have isOpen := unfinished lines several (List.prefix_refl lines)
  have begun : keptLines lines ≠ [] := by
    intro noneKept
    rw [← openDepth_intercalate_keptLines, noneKept] at isOpen
    exact absurd isOpen (by decide)
  constructor
  · have fresh : shell.holding [] = shell := by
      rw [holding, keptLines, List.filter_nil, List.intercalate_nil, ← noPending]
    have held : shell.enterEach lines = (lines.map replyTo, [], shell.holding lines) := by
      have nothing : Waits [] := .inl rfl
      have entered := nothing.enterEach shell
        (fun line member => noEnd line (List.mem_append_left _ member)) unfinished
      rwa [fresh] at entered
    have waits : Waits lines := .inr isOpen
    have noEndLast := noEnd last (List.mem_append_right _ (List.mem_singleton.mpr rfl))
    rw [enterEach_concat, held]
    simp only [waits.enter_last begun noEndLast complete, typed, List.map_append, List.map_cons,
      List.map_nil, List.nil_append]
    rfl
  · have keptSome : keptLines typed ≠ [] := by
      rw [keptLines_append]
      exact List.append_ne_nil_of_left_ne_nil begun _
    have typedSome : typed ≠ [] := List.append_ne_nil_of_left_ne_nil several _
    rw [← newLines_keptLines_eq_iff, newLines_of_ne_nil keptSome, newLines_of_ne_nil typedSome,
      List.cons_inj_right]

/-- In an unfinished form `exit` is a line like the others, here one of a string. -/
theorem enterEach_form_exit :
    let shell : Shell := { session := { } }
    let lines := ["(cond".toList, "\"a".toList, "exit".toList]
    let last := "b\")".toList
    openDepth (['\n'].intercalate (lines ++ [last])) ≤ 0 ∧
      (shell.enterEach (lines ++ [last])).2.1 =
        (shell.readSource "(cond\n\"a\nexit\nb\")".toList).1 ∧
      (shell.enterEach (lines ++ [last])).2.1 = "\"a\nexit\nb\"\n".toList := by
  intro shell lines last
  have noEnd : ∀ line ∈ lines ++ [last], Text.strip line ≠ "EOF".toList := by decide +kernel
  have unfinished (entered : List Text) (nonempty : entered ≠ []) (isPrefix : entered <+: lines) :
      0 < openDepth (['\n'].intercalate entered) := by
    have member := (List.mem_inits entered lines).mpr isPrefix
    have table : ∀ entered ∈ lines.inits, entered ≠ [] →
        0 < openDepth (['\n'].intercalate entered) := by decide +kernel
    exact table entered member nonempty
  have complete : openDepth (['\n'].intercalate (lines ++ [last])) ≤ 0 := by decide +kernel
  obtain ⟨entered, -⟩ :=
    enterEach_form (show shell.pending = [] from rfl) (by decide +kernel) noEnd unfinished complete
  refine ⟨complete, ?_, ?_⟩
  · rw [entered]
    rfl
  · rw [entered]
    decide +kernel

/-- A blank line of a string is lost: the text that is read is not the one that was typed. -/
theorem enterEach_form_blank_line :
    let shell : Shell := { session := { } }
    let lines := ["(cond \"a".toList, []]
    let last := "b\")".toList
    (∀ line ∈ lines ++ [last], Text.strip line ≠ "EOF".toList) ∧
      (∀ entered ∈ lines.inits, entered ≠ [] → 0 < openDepth (['\n'].intercalate entered)) ∧
      openDepth (['\n'].intercalate (lines ++ [last])) ≤ 0 ∧
      (shell.enterEach (lines ++ [last])).2.1 = "\"a\nb\"\n".toList ∧
      (shell.readSource (['\n'].intercalate (lines ++ [last]))).1 = "\"a\n\nb\"\n".toList := by
  decide +kernel

end Shell

end LazyLisp
