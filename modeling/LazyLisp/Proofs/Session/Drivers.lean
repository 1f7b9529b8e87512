import LazyLisp.CommandLine.Run
import LazyLisp.Proofs.Reader.Forms
import LazyLisp.Proofs.Session.Marks

/-!
# The drivers of a source

A source is run in a session, is loaded as a prelude, or is run as a file and its values are shown.
Each of these drivers reads a form, performs its step for it and only then reads on. They perform
the same forms, end with the same failure and leave the same environment.
-/

set_option autoImplicit false

namespace LazyLisp

open Reader Evaluation

/-! ## Traces do not matter -/

namespace Environment

/-- The environment without the trace of what has happened. -/
def untraced (environment : Environment) : Environment := { environment with events := #[] }

theorem untraced_eq_iff {environment other : Environment} :
    environment.untraced = other.untraced ↔
      environment.Relabels .refl other ∧ environment.nanCounts = other.nanCounts := by
  simp only [relabels_refl_iff, untraced, nanCounts, Environment.mk.injEq, Prod.mk.injEq, true_and]
  tauto

theorem untraced_evaluate {environment other : Environment}
    (same : environment.untraced = other.untraced) (expr : Expr) :
    (environment.evaluate expr).1 = (other.evaluate expr).1 ∧
      (environment.evaluate expr).2.untraced = (other.evaluate expr).2.untraced := by
  obtain ⟨relabels, counts⟩ := untraced_eq_iff.mp same
  obtain ⟨outcome, relabels'⟩ := relabels.evaluate expr
  rw [Expr.relabeled_refl] at outcome relabels'
  refine ⟨?_, untraced_eq_iff.mpr ⟨relabels', ?_⟩⟩
  · rw [outcome, funext Expr.relabeled_refl]
    cases (environment.evaluate expr).1 <;> rfl
  · rw [nanCounts_evaluate, nanCounts_evaluate, counts]

end Environment

namespace Session

theorem untraced_evaluate {session other : Session}
    (same : session.environment.untraced = other.environment.untraced) (expr : Expr) :
    (session.evaluate expr).1 = (other.evaluate expr).1 ∧
      (session.evaluate expr).2.environment.untraced =
        (other.evaluate expr).2.environment.untraced := by
  have counts := (Environment.untraced_eq_iff.mp same).2
  simp only [Environment.nanCounts, Prod.mk.injEq] at counts
  have marked : (session.environment.adopt expr).1 = (other.environment.adopt expr).1 := by
    simp only [Environment.adopt, counts.2]
  have adopted : (session.environment.adopt expr).2.untraced =
      (other.environment.adopt expr).2.untraced := by
    simp only [Environment.untraced, Environment.mk.injEq] at same
    simp only [Environment.adopt, Environment.untraced, counts, same]
  have evaluated := Environment.untraced_evaluate adopted (session.environment.adopt expr).1
  rw [marked] at evaluated
  simp only [evaluate, marked]
  exact evaluated

/-! ## Driving -/

/-- Form after form of the text is read and performed, each in the session that the one before it
left, up to the end, to a form that cannot be read, or to one whose step fails. These are the forms
that are performed, the results, the failure and the session that is left. The text is what is left
of the source. -/
inductive Drives {α : Type} (step : Session → Expr → Except Failure α × Session) (source : Text) :
    Text → Session → List Expr → List α → Option Failure → Session → Prop where
  | finished {text : Text} {session : Session} :
      skipGap text = [] → Drives step source text session [] [] none session
  | unreadable {text : Text} {session : Session} {stop : Stop} :
      skipGap text ≠ [] → readForm (skipGap text) = .error stop →
      Drives step source text session [] [] (some (.unreadable (stop.locate source))) session
  | failed {text rest : Text} {session after : Session} {expr : Expr} {failure : Failure} :
      readForm (skipGap text) = .ok (expr, rest) → step session expr = (.error failure, after) →
      Drives step source text session [expr] [] (some failure) after
  | performed {text rest : Text} {session middle after : Session} {expr : Expr} {result : α}
      {forms : List Expr} {results : List α} {failure : Option Failure} :
      readForm (skipGap text) = .ok (expr, rest) → step session expr = (.ok result, middle) →
      Drives step source rest middle forms results failure after →
      Drives step source text session (expr :: forms) (result :: results) failure after

variable {α β : Type} {step : Session → Expr → Except Failure α × Session}
  {step' : Session → Expr → Except Failure β × Session} {source text : Text}
  {session after : Session} {failure : Option Failure}

theorem drives_performAll {exprs : List Expr} {stop : Option Stop} {results : List α}
    (reads : ReadsUpTo text exprs stop)
    (performed : performAll step exprs session = (results, failure, after)) :
    Drives step source text session (exprs.take (results.length + 1)) results
      (failure <|> stop.map fun stop => .unreadable (stop.locate source)) after := by
  induction reads generalizing session results with
  | finished atEnd =>
      cases performed
      exact .finished atEnd
  | failed more failed =>
      cases performed
      exact .unreadable more failed
  | @form text rest expr exprs stop read _ ih =>
      rw [performAll] at performed
      cases stepped : step session expr with
      | mk outcome middle =>
          rw [stepped] at performed
          cases outcome with
          | error failure =>
              cases performed
              exact .failed read stepped
          | ok result =>
              dsimp only at performed
              cases performedRest : performAll step exprs middle with
              | mk results failure =>
                  rw [performedRest] at performed
                  cases performed
                  exact .performed read stepped (ih performedRest)

/-- Performing all forms that are read is performing each before the next one is read. -/
theorem drives_performSource {results : List α}
    (performed : performSource step session source = (results, failure, after)) :
    Drives step source source session ((readAll source).1.take (results.length + 1)) results failure
      after := by
  cases read : readAll source with
  | mk exprs error =>
      obtain ⟨stop, reads, rfl⟩ := readAll_eq_iff_readsUpTo.mp read
      simp only [performSource, read, Prod.mk.injEq, Option.map_map] at performed
      obtain ⟨rfl, rfl, rfl⟩ := performed
      exact drives_performAll reads rfl

/-! ## Two drivers -/

/-- In related sessions the second step has the translated outcome of the first one, and leaves
related sessions. -/
def StepsAlike (related : Session → Session → Prop) (translate : α → β)
    (step : Session → Expr → Except Failure α × Session)
    (step' : Session → Expr → Except Failure β × Session) : Prop :=
  ∀ ⦃session other : Session⦄, related session other → ∀ expr,
    (step' other expr).1 = (step session expr).1.map translate ∧
      related (step session expr).2 (step' other expr).2

theorem performAll_alike {related : Session → Session → Prop} {translate : α → β}
    (alike : StepsAlike related translate step step') (exprs : List Expr)
    {session other : Session} (same : related session other) :
    ∃ after', performAll step' exprs other =
        ((performAll step exprs session).1.map translate, (performAll step exprs session).2.1,
          after') ∧
      related (performAll step exprs session).2.2 after' := by
  induction exprs generalizing session other with
  | nil => exact ⟨other, rfl, same⟩
  | cons expr exprs ih =>
      obtain ⟨outcome, same'⟩ := alike same expr
      rw [performAll, performAll]
      generalize step session expr = stepped at outcome same' ⊢
      generalize step' other expr = stepped' at outcome same' ⊢
      obtain ⟨failure | result, middle⟩ := stepped
      · obtain ⟨_, middle'⟩ := stepped'
        cases outcome
        exact ⟨middle', rfl, same'⟩
      · obtain ⟨_, middle'⟩ := stepped'
        cases outcome
        obtain ⟨after', performed, sameAfter⟩ := ih same'
        refine ⟨after', ?_, sameAfter⟩
        simp only [performed, List.map_cons]

theorem performSource_alike {related : Session → Session → Prop} {translate : α → β}
    (alike : StepsAlike related translate step step') {session other : Session}
    (same : related session other) {results : List α}
    (performed : performSource step session source = (results, failure, after)) :
    ∃ after', performSource step' other source = (results.map translate, failure, after') ∧
      related after after' := by
  obtain ⟨after', performed', sameAfter⟩ := performAll_alike alike (readAll source).1 same
  simp only [performSource, Prod.mk.injEq] at performed ⊢
  obtain ⟨rfl, rfl, rfl⟩ := performed
  exact ⟨after', by rw [performed']; exact ⟨rfl, rfl, rfl⟩, sameAfter⟩

/-- A form is performed in a prelude as in a program. -/
theorem evaluatePrelude_alike (preludes programs : Nat) :
    StepsAlike (Exchanged preludes programs) (Expr.relabeled (.exchange preludes programs))
      (fun session expr => (session.record (.evaluating expr)).evaluate expr) evaluatePrelude :=
  fun _ _ exchanged expr => (exchanged.record (.evaluating expr)).evaluate expr

/-- A form is performed for its text as it is for its value. -/
theorem result_alike {display : Display} (values : display.trees = false) :
    StepsAlike (fun session shown => shown.environment.untraced = session.environment.untraced)
      Expr.render (fun session expr => (session.record (.evaluating expr)).evaluate expr)
      display.result := by
  intro session other same expr
  obtain ⟨outcome, same'⟩ := @untraced_evaluate other (session.record (.evaluating expr)) same expr
  simp only [Display.result, values, Bool.false_eq_true, if_false]
  exact ⟨by rw [outcome], same'⟩

/-- Loading a prelude is driving it. The end of it is recorded. -/
theorem loadPrelude_of_performSource {results : List Expr}
    (performed : performSource evaluatePrelude session source = (results, failure, after)) :
    session.loadPrelude source = (failure, if failure.isNone then
      after.record (.preludeLoaded after.environment.table.length) else after) := by
  unfold loadPrelude
  rw [performed]
  cases failure <;> rfl

end Session

namespace CommandLine

theorem finish_eq (errors : ErrorOutput) (session : Session) (texts : List Text)
    (failure : Option String) :
    finish errors session texts failure =
      { code := if failure.isNone then 0 else 1
        output := renderLines texts
        errors := renderLog errors.level session.environment.events.toList ++
          failure.elim [] (renderFailure errors.terminal) } := by
  cases failure with
  | none => simp [finish]
  | some message => simp [finish]

theorem runFile_of_showSource {display : Display} {errors : ErrorOutput} {files : Files}
    {session shown : Session} {path content : Text} {texts : List Text} {failure : Option Failure}
    (found : files path = .file content)
    (shows : display.showSource (session.record (.running path)) (Text.unifyLineEnds content) =
      (texts, failure, shown)) :
    runFile display errors files session path =
      { code := if failure.isNone then 0 else 1
        output := renderLines texts
        errors := renderLog errors.level shown.environment.events.toList ++
          failure.elim [] fun failure => renderFailure errors.terminal failure.message } := by
  simp only [runFile, readFile, found, shows, finish_eq]
  cases failure <;> rfl

theorem run_of_file {invocation : Invocation} {options : Options} {session : Session}
    {path : Text} (arguments : Request.ofArguments invocation.arguments = .run options)
    (noExpr : options.expr = none) (file : options.file = some path)
    (noZero : '\x00' ∉ path)
    (started : Settings.startSession invocation.settings invocation.files options.prelude =
      .ok session) :
    run invocation = .ok (runFile (invocation.display options) (invocation.errorOutput options)
      invocation.files session path) := by
  simp only [run, start, arguments, openOptions, started, noExpr, file, bind, Except.bind,
    List.contains_iff_mem, noZero, if_false]

end CommandLine

namespace Session

open CommandLine

/-- Running a source, loading it as a prelude and running it as a file perform the same forms one
after another: those that are read before the source fails to be read, up to and including the first
whose evaluation fails. They end with the same failure. A prelude leaves the same environment but
for the marks of its `nan`s, and a file leaves the same one but for the trace. For a file the values
before the failure are shown, each on a line of its own, and the exit code is zero unless there was
a failure. -/
theorem drivers_agree {session after : Session} {source : Text} {values : List Expr}
    {failure : Option Failure} (reached : session.environment.Reached)
    (ran : session.run source = (values, failure, after)) :
    let forms := (readAll source).1.take (values.length + 1)
    Drives (fun session expr => (session.record (.evaluating expr)).evaluate expr) source source
        session forms values failure after ∧
      (∃ relabeling loaded, session.environment.Relabels relabeling session.environment ∧
        Drives evaluatePrelude source source session forms (values.map (Expr.relabeled relabeling))
          failure loaded ∧
        after.environment.Relabels relabeling loaded.environment ∧
        session.loadPrelude source = (failure, if failure.isNone then
          loaded.record (.preludeLoaded loaded.environment.table.length) else loaded)) ∧
      (∀ {display : Display} {errors : ErrorOutput} {files : Files} {path content : Text},
        display.trees = false → files path = .file content → Text.unifyLineEnds content = source →
        ∃ shown, Drives display.result source source (session.record (.running path)) forms
            (values.map Expr.render) failure shown ∧
          shown.environment.untraced = after.environment.untraced ∧
          runFile display errors files session path =
            { code := if failure.isNone then 0 else 1
              output := renderLines (values.map Expr.render)
              errors := renderLog errors.level shown.environment.events.toList ++
                failure.elim [] fun failure => renderFailure errors.terminal failure.message }) ∧
      ∀ {invocation : Invocation} {options : Options} {path : Text},
        Request.ofArguments invocation.arguments = .run options → options.expr = none →
        options.file = some path → '\x00' ∉ path →
        Settings.startSession invocation.settings invocation.files options.prelude = .ok session →
        CommandLine.run invocation =
          .ok (runFile (invocation.display options) (invocation.errorOutput options)
            invocation.files session path) := by
  intro forms
  have ran' := ran
  unfold run at ran'
  refine ⟨drives_performSource ran', ?_, fun {display errors files path content} noTrees found
    unified => ?_, run_of_file⟩
  · obtain ⟨loaded, performed, exchanged⟩ := performSource_alike
      (evaluatePrelude_alike session.environment.preludeNans session.environment.programNans)
      (exchanged_of_reached reached) ran'
    have drives := drives_performSource performed
    rw [List.length_map] at drives
    exact ⟨_, loaded, (exchanged_of_reached reached).environment, drives, exchanged.environment,
      loadPrelude_of_performSource performed⟩
  · subst unified
    obtain ⟨shown, performed, same⟩ := performSource_alike (result_alike noTrees)
      (show (session.record (.running path)).environment.untraced = session.environment.untraced
        from rfl) ran'
    have drives := drives_performSource performed
    rw [List.length_map] at drives
    exact ⟨shown, drives, same, runFile_of_showSource found performed⟩

/-- A call of an unknown name between two values and text that cannot be read. -/
theorem drivers_agree_at_unknown_call :
    let source := "(def x nan) (= x x) (oops) (".toList
    (∃ loaded, ({ } : Session).loadPrelude source = (some (.unknownSymbol "oops"), loaded)) ∧
      ∃ report, CommandLine.run
          { arguments := ["--no-prelude".toList, "f".toList], files := fun _ => .file source } =
            .ok report ∧
        report.code = 1 ∧ report.output = "nan\nfalse\n".toList := by
  intro source
  have ends : (({ } : Session).run source).2.1 = some (.unknownSymbol "oops") ∧
      (({ } : Session).run source).1.map Expr.render = ["nan".toList, "false".toList] := by
    decide +kernel
  generalize ran : ({ } : Session).run source = outcome at ends
  obtain ⟨values, failure, after⟩ := outcome
  obtain ⟨rfl, texts⟩ := ends
  obtain ⟨-, ⟨_, loaded, -, -, -, loads⟩, shows, runs⟩ := drivers_agree .empty ran
  let invocation : Invocation :=
    { arguments := ["--no-prelude".toList, "f".toList], files := fun _ => .file source }
  let options : Options := { file := some "f".toList, prelude := false }
  obtain ⟨shown, -, -, report⟩ := @shows { } (invocation.errorOutput options) invocation.files
    "f".toList source rfl rfl (by decide +kernel)
  have ended := @runs invocation options "f".toList (by decide +kernel) rfl rfl (by decide) rfl
  refine ⟨⟨loaded, loads⟩, _, ended, ?_, ?_⟩
  · exact congrArg Report.code report
  · rw [texts] at report
    exact congrArg Report.output report

end Session

end LazyLisp
