import LazyLisp.Proofs.Session.Drivers
import LazyLisp.Proofs.Session.Failures

/-!
# Failures at the command line

Once a session has been started, a run of the program with an expression or a file ends with a
report, and whatever fails in it is reported on a single line.
-/

set_option autoImplicit false

namespace LazyLisp

open Evaluation

/-! ## Showing results -/

namespace Display

variable {display : Display} {session : Session} {expr : Expr}

theorem reached_result (reached : session.environment.Reached) (read : IsRead expr) :
    (display.result session expr).2.environment.Reached := by
  unfold result
  split
  · exact reached
  · exact reached.evaluate read .program

theorem named_of_result (reached : session.environment.Reached) (read : IsRead expr)
    {failure : Failure} (failed : (display.result session expr).1 = .error failure) :
    failure.Named := by
  unfold result at failed
  split at failed
  · cases failed
  · change (session.evaluate expr).1.map Expr.render = .error failure at failed
    refine Session.named_of_evaluate reached read ?_
    cases ended : (session.evaluate expr).1 with
    | ok value =>
        rw [ended] at failed
        cases failed
    | error first =>
        rw [ended] at failed
        cases failed
        rfl

theorem named_of_showSource (reached : session.environment.Reached) {source : Text}
    {failure : Failure} (failed : (display.showSource session source).2.1 = some failure) :
    failure.Named :=
  Session.performSource_fails (fun _ _ kept read => reached_result kept read)
    (fun _ _ _ kept read => named_of_result kept read)
    (fun _ unreadable => Reader.named_of_readAll unreadable) reached failed

end Display

/-! ## Starting -/

/-- What holds of the characters of a literal holds of its text. -/
theorem Text.of_characters {holds : Text → Prop} {characters : List Char}
    (given : holds characters) : holds (String.ofList characters).toList := by
  rwa [String.toList_ofList]

-- The characters are taken from the literal first, as evaluation would decode it at every step.
set_option maxRecDepth 4000 in
/-- The core prelude can be loaded. -/
theorem Session.start_core (strict : Bool) :
    (start strict (some Prelude.core)).toOption.isSome = true := by
  have loads : ∀ strict, (start strict (some Prelude.core)).toOption.isSome = true :=
    @Text.of_characters
      (fun source => ∀ strict, (start strict (some source)).toOption.isSome = true) _
      (by decide +kernel)
  exact loads strict

namespace Settings

variable {settings : Variables} {files : Files}

/-- The session that a program starts with is reached. -/
theorem reached_of_startSession {withPrelude : Bool} {session : Session}
    (started : startSession settings files withPrelude = .ok session) :
    session.environment.Reached := by
  have fresh {prelude : Option Text} {fresh : Session}
      (starts : (Session.start (strict settings) prelude).mapError Breakdown.prelude =
        .ok fresh) :
      fresh.environment.Reached := by
    cases begun : Session.start (strict settings) prelude with
    | error failure =>
        rw [begun] at starts
        cases starts
    | ok begun' =>
        rw [begun] at starts
        cases starts
        exact Session.reached.start begun
  unfold startSession at started
  split at started
  · obtain ⟨path?, -, started⟩ := Reader.exists_of_bind_eq_ok started
    split at started
    · exact fresh started
    · obtain ⟨entry, -, started⟩ := Reader.exists_of_bind_eq_ok started
      split at started
      · exact fresh started
      · obtain ⟨begun, begins, started⟩ := Reader.exists_of_bind_eq_ok started
        cases started
        exact (fresh begins).recorded
  · exact fresh started

/-- The core prelude is chosen if the variable is not set or empty. -/
theorem preludePath_of_unset (unset : (value? settings preludeVariable).getD [] = []) :
    preludePath settings files = .ok none := by
  unfold preludePath preludeRoot
  cases value : value? settings preludeVariable with
  | none => rfl
  | some list =>
      rw [value, Option.getD_some] at unset
      subst unset
      rfl

/-- A session starts without a prelude, and with the core prelude. -/
theorem exists_startSession {withPrelude : Bool}
    (harmless : withPrelude = false ∨ (value? settings preludeVariable).getD [] = []) :
    ∃ session, startSession settings files withPrelude = .ok session := by
  cases withPrelude with
  | false => exact ⟨{ strict := strict settings }, rfl⟩
  | true =>
      have unset : preludePath settings files = .ok none :=
        preludePath_of_unset (harmless.resolve_left (by decide))
      have loads := Session.start_core (strict settings)
      cases begun : Session.start (strict settings) (some Prelude.core) with
      | error failure =>
          rw [begun] at loads
          cases loads
      | ok session =>
          refine ⟨session, ?_⟩
          simp only [startSession, unset, if_true, begun, bind, Except.bind]
          rfl

/-- A prelude that is not there is not loaded, and a warning is recorded. -/
theorem startSession_of_missing {path : Path}
    (located : preludePath settings files = .ok (some path))
    (noFile : ∀ content, files path.render ≠ .file content)
    (shortName : files path.render ≠ .nameTooLong) :
    startSession settings files true =
      .ok (({ strict := strict settings } : Session).record (.preludeMissing path.render)) := by
  simp only [startSession, located, if_true, lookUp, bind, Except.bind]
  cases found : files path.render with
  | file content => exact absurd found (noFile content)
  | nameTooLong => exact absurd found shortName
  | missing | directory | insideFile => rfl

end Settings

namespace CommandLine

/-! ## Running -/

/-- How a session deals with an expression or a file: the texts that are shown, the message of the
failure, if there is one, and the session afterwards. -/
inductive Performs (files : Files) (display : Display) (options : Options) (session : Session) :
    List Text → Option String → Session → Prop where
  | unreadable {source : Text} {failure : Failure} {after : Session} :
      options.expr = some (.source source) → session.parse source = (.error failure, after) →
      Performs files display options session [] (some failure.message) after
  | failed {source : Text} {expr : Expr} {failure : Failure} {middle after : Session} :
      options.expr = some (.source source) → session.parse source = (.ok expr, middle) →
      display.result middle expr = (.error failure, after) →
      Performs files display options session [] (some failure.message) after
  | shown {source : Text} {expr : Expr} {text : Text} {middle after : Session} :
      options.expr = some (.source source) → session.parse source = (.ok expr, middle) →
      display.result middle expr = (.ok text, after) →
      Performs files display options session [text] none after
  | refused {path : Text} {message : String} :
      options.expr = none → options.file = some path →
      (files path).refusal? path = some message →
      Performs files display options session [] (some message) (session.record (.running path))
  | ran {path content : Text} {texts : List Text} {failure : Option Failure} {after : Session} :
      options.expr = none → options.file = some path → files path = .file content →
      display.showSource (session.record (.running path)) (Text.unifyLineEnds content) =
        (texts, failure, after) →
      Performs files display options session texts (failure.map Failure.message) after

/-- Every message of a failure is a single line. -/
theorem Performs.singleLine {files : Files} {display : Display} {options : Options}
    {session after : Session} {texts : List Text} {failure : Option String}
    (performs : Performs files display options session texts failure after)
    (reached : session.environment.Reached) : ∀ message, failure = some message →
    SingleLine message := by
  rintro message failed
  cases performs with
  | unreadable _ parsed =>
      cases failed
      exact Failure.singleLine_message (Session.named_of_parse (congrArg Prod.fst parsed))
  | @failed source expr failure middle _ _ parsed result =>
      cases failed
      have reached' := Session.parse_of_reached reached source
      rw [parsed] at reached'
      exact Failure.singleLine_message (Display.named_of_result reached'
        (Session.isRead_of_parse (congrArg Prod.fst parsed)) (congrArg Prod.fst result))
  | shown => cases failed
  | refused _ _ refusal =>
      cases failed
      exact Entry.singleLine_refusal refusal
  | ran _ _ _ shows =>
      obtain ⟨failure, rfl, rfl⟩ := Option.map_eq_some_iff.mp failed
      have named := @Display.named_of_showSource display _ (reached.recorded) _ failure
        (congrArg (·.2.1) shows)
      exact Failure.singleLine_message named

theorem run_of_expr {invocation : Invocation} {options : Options} {session : Session}
    {source : Text} (arguments : Request.ofArguments invocation.arguments = .run options)
    (expr : options.expr = some (.source source))
    (started : Settings.startSession invocation.settings invocation.files options.prelude =
      .ok session) :
    run invocation = .ok (runExpr (invocation.display options) (invocation.errorOutput options)
      session source) := by
  simp only [run, start, arguments, openOptions, started, expr, bind, Except.bind]

theorem exists_performs_of_expr {files : Files} {options : Options} {source : Text}
    (expr : options.expr = some (.source source)) (display : Display) (errors : ErrorOutput)
    (session : Session) :
    ∃ texts failure after, Performs files display options session texts failure after ∧
      runExpr display errors session source = finish errors after texts failure := by
  unfold runExpr
  cases parsed : session.parse source with
  | mk outcome middle =>
      cases outcome with
      | error failure => exact ⟨_, _, _, .unreadable expr parsed, rfl⟩
      | ok form =>
          cases shows : display.result middle form with
          | mk outcome after =>
              cases outcome with
              | ok text =>
                  refine ⟨_, _, _, .shown expr parsed shows, ?_⟩
                  simp only [shows]
              | error failure =>
                  refine ⟨_, _, _, .failed expr parsed shows, ?_⟩
                  simp only [shows]

theorem exists_performs_of_file {files : Files} {options : Options} {path : Text}
    (noExpr : options.expr = none) (file : options.file = some path) (display : Display)
    (errors : ErrorOutput) (session : Session) :
    ∃ texts failure after, Performs files display options session texts failure after ∧
      runFile display errors files session path = finish errors after texts failure := by
  cases found : files path with
  | file content =>
      cases shows : display.showSource (session.record (.running path))
          (Text.unifyLineEnds content) with
      | mk texts ended =>
          refine ⟨_, _, _, .ran noExpr file found shows, ?_⟩
          simp only [runFile, readFile, found, shows]
  | missing | directory | insideFile | nameTooLong =>
      refine ⟨_, _, _, .refused noExpr file (by rw [found]; rfl), ?_⟩
      simp only [runFile, readFile, found]
      rfl

theorem exists_performs {invocation : Invocation} {options : Options} {session : Session}
    (accepted : Request.ofArguments invocation.arguments = .run options)
    (given : (∃ source, options.expr = some (.source source)) ∨
      options.expr = none ∧ ∃ path, options.file = some path ∧ '\x00' ∉ path)
    (started : Settings.startSession invocation.settings invocation.files options.prelude =
      .ok session) :
    ∃ texts failure after,
      Performs invocation.files (invocation.display options) options session texts failure after ∧
      run invocation = .ok (finish (invocation.errorOutput options) after texts failure) := by
  rcases given with ⟨source, expr⟩ | ⟨noExpr, path, file, noZero⟩
  · rw [run_of_expr accepted expr started]
    obtain ⟨texts, failure, after, performs, ends⟩ := exists_performs_of_expr expr
      (invocation.display options) (invocation.errorOutput options) session
    exact ⟨texts, failure, after, performs, congrArg Except.ok ends⟩
  · rw [run_of_file accepted noExpr file noZero started]
    obtain ⟨texts, failure, after, performs, ends⟩ := exists_performs_of_file noExpr file
      (invocation.display options) (invocation.errorOutput options) session
    exact ⟨texts, failure, after, performs, congrArg Except.ok ends⟩

/-- With an expression or a file, the session is started if no prelude or the core prelude is to be
loaded, and a prelude that is not there is only warned of. Once the session has been started, the
program ends with a report: the exit code is one and the message of the failure stands behind the
log on a single line if the source cannot be read or evaluated, and else the exit code is zero. -/
theorem run_reports {invocation : Invocation} {options : Options}
    (accepted : Request.ofArguments invocation.arguments = .run options)
    (given : (∃ source, options.expr = some (.source source)) ∨
      options.expr = none ∧ ∃ path, options.file = some path ∧ '\x00' ∉ path) :
    let errors := invocation.errorOutput options
    (options.prelude = false ∨
        (Settings.value? invocation.settings Settings.preludeVariable).getD [] = [] →
      ∃ session, Settings.startSession invocation.settings invocation.files options.prelude =
        .ok session) ∧
    (∀ path, options.prelude = true →
      Settings.preludePath invocation.settings invocation.files = .ok (some path) →
      (∀ content, invocation.files path.render ≠ .file content) →
      invocation.files path.render ≠ .nameTooLong →
      Settings.startSession invocation.settings invocation.files options.prelude =
        .ok (({ strict := Settings.strict invocation.settings } : Session).record
          (.preludeMissing path.render))) ∧
    ∀ session,
      Settings.startSession invocation.settings invocation.files options.prelude = .ok session →
      ∃ texts failure after,
        Performs invocation.files (invocation.display options) options session texts failure
          after ∧
        run invocation = .ok
          { code := if failure.isNone then 0 else 1
            output := renderLines texts
            errors := renderLog errors.level after.environment.events.toList ++
              failure.elim [] (renderFailure errors.terminal) } ∧
        ∀ message, failure = some message → SingleLine message := by
  intro errors
  refine ⟨Settings.exists_startSession, fun path withPrelude located noFile shortName => ?_,
    fun session started => ?_⟩
  · rw [withPrelude]
    exact Settings.startSession_of_missing located noFile shortName
  · obtain ⟨texts, failure, after, performs, ends⟩ := exists_performs accepted given started
    rw [finish_eq] at ends
    exact ⟨texts, failure, after, performs, ends,
      performs.singleLine (Settings.reached_of_startSession started)⟩

/-- A file that is not there, and no prelude either. Only the errors are printed on a terminal. -/
theorem run_reports_missing_file :
    ∃ log message, SingleLine message ∧
      run { arguments := ["f".toList], settings := [("CECEIO_PRELUDE_PATH", "nope")],
            files := FileTree.find { }, terminal := false, errorTerminal := true } =
        .ok { code := 1, output := [], errors := log ++ renderFailure true message } := by
  have missing : FileTree.find { } (Path.render ⟨[], ["core.cec".toList]⟩) = .missing := by
    decide +kernel
  obtain ⟨-, starts, reports⟩ := @run_reports
    { arguments := ["f".toList], settings := [("CECEIO_PRELUDE_PATH", "nope")],
      files := FileTree.find { }, terminal := false, errorTerminal := true }
    { file := some "f".toList } (by decide +kernel) (.inr ⟨rfl, _, rfl, by decide⟩)
  have started := starts ⟨[], ["core.cec".toList]⟩ rfl (by decide +kernel)
    (fun content found => by cases missing.symm.trans found)
    (fun found => by cases missing.symm.trans found)
  obtain ⟨texts, failure, after, performs, ran, single⟩ := reports _ started
  cases performs with
  | unreadable expr | failed expr | shown expr => cases expr
  | refused _ _ _ => exact ⟨_, _, single _ rfl, ran⟩
  | ran _ file found _ =>
      cases file
      have none : FileTree.find { } "f".toList = .missing := by decide +kernel
      cases none.symm.trans found

/-- Where the prelude is not there, an expression is evaluated without it, the exit code is zero and
no error is reported. -/
theorem run_of_missing_prelude :
    let settings : Variables := [("CECEIO_PRELUDE_PATH", "nope")]
    let files := FileTree.find { }
    (∃ path, Settings.preludePath settings files = .ok (some path) ∧
        files path.render = .missing) ∧
      run { arguments := ["-e".toList, "true".toList], settings, files } =
        .ok
          { code := 0
            output := "true\n".toList
            errors := ("WARNING ceceio.interpreter: Cannot find prelude 'core.cec' " ++
              "(set CECEIO_PRELUDE_PATH)\n").toList } := by
  intro settings files
  have located : Settings.preludePath settings files = .ok (some ⟨[], ["core.cec".toList]⟩) := rfl
  have missing : files (Path.render ⟨[], ["core.cec".toList]⟩) = .missing := by decide +kernel
  have started := Settings.startSession_of_missing located
    (fun content found => by cases missing.symm.trans found)
    (fun found => by cases missing.symm.trans found)
  refine ⟨⟨_, located, missing⟩, ?_⟩
  rw [@run_of_expr _ { expr := some (.source "true".toList) } _ "true".toList (by decide +kernel)
    rfl started]
  decide +kernel

end CommandLine

end LazyLisp
