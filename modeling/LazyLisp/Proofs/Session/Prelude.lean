import LazyLisp.Proofs.Evaluation.Extension
import LazyLisp.Proofs.Session.Invariant

/-!
# Preludes are conservative

A session that has loaded a prelude is an extension of a fresh one: its environment has the cells of
the prelude in front and binds the names of the prelude. So a source that finds all its names in a
fresh session does the same behind a prelude, whatever names both bind.
-/

set_option autoImplicit false

namespace LazyLisp

open Reader Evaluation

namespace Environment

/-- No call is going on, and no `nan` of a program has been written. -/
def Unused (environment : Environment) : Prop :=
  environment.callStacks = Environment.empty.callStacks ∧ environment.programNans = 0

/-- The empty environment is extended by all of these. -/
theorem Unused.extends {environment : Environment} (unused : environment.Unused) :
    Environment.empty.ExtendedBy environment.cells.size environment := by
  obtain ⟨callStacks, programNans⟩ := unused
  simp only [Environment.callStacks, Environment.empty, Prod.mk.injEq] at callStacks
  obtain ⟨scopes, group, waiting⟩ := callStacks
  refine ⟨fun bound => ?_, scopes, group, waiting, (Nat.zero_add _).symm, fun index => ?_,
    programNans⟩
  · simp [Environment.empty, Bindings.find?] at bound
  · simp [Environment.empty]

theorem ExtendedBy.adopt {offset : Nat} {environment extended : Environment}
    (extension : environment.ExtendedBy offset extended) (expr : Expr) :
    (extended.adopt expr).1 = (environment.adopt expr).1 ∧
      (environment.adopt expr).2.ExtendedBy offset (extended.adopt expr).2 := by
  unfold Environment.adopt
  rw [extension.programNans]
  exact ⟨rfl, extension.table, extension.scopes, extension.group, extension.waiting,
    extension.size, extension.cells, rfl⟩

end Environment

namespace Session

/-- A session that has loaded a prelude has not been used otherwise. -/
theorem unused_of_start {strict : Bool} {prelude : Option Text} {session : Session}
    (started : start strict prelude = .ok session) : session.environment.Unused := by
  refine @start_keeps Environment.Unused ⟨rfl, rfl⟩ (fun _ _ unused => unused)
    (fun loading expr unused _ => ?_) _ _ _ started
  have kept := (evaluateWithin_keepsStacks Environment.depthBound
    (loading.environment.adoptPrelude expr).1).afterwards (loading.environment.adoptPrelude expr).2
  have counts := nanCounts_afterwards Environment.depthBound
    (loading.environment.adoptPrelude expr).1 (loading.environment.adoptPrelude expr).2
  rw [← Environment.evaluate_snd] at kept counts
  exact ⟨kept.trans unused.1, (congrArg Prod.snd counts).trans unused.2⟩

theorem evaluate_agrees {offset : Nat} {session extended : Session} (expr : Expr)
    (extension : session.environment.ExtendedBy offset extended.environment) :
    (∃ name, (session.evaluate expr).1 = .error (.unknownSymbol name)) ∨
      ∃ after, extended.evaluate expr = ((session.evaluate expr).1, after) ∧
        (session.evaluate expr).2.environment.ExtendedBy offset after.environment := by
  obtain ⟨marked, extension'⟩ := extension.adopt expr
  have agrees := evaluateWithin_extends offset Environment.depthBound
    (session.environment.adopt expr).1 extension'
  simp only [evaluate, Environment.evaluate, marked]
  cases ended : evaluateWithin Environment.depthBound (session.environment.adopt expr).1
      (session.environment.adopt expr).2 with
  | ok value after =>
      rw [ended] at agrees
      obtain ⟨after', ended', extension'', -⟩ := agrees
      rw [ended']
      exact .inr ⟨_, rfl, extension''⟩
  | error failure after =>
      rw [ended] at agrees
      rcases agrees with ⟨name, rfl⟩ | ⟨after', ended', extension''⟩
      · exact .inl ⟨name, rfl⟩
      · rw [ended']
        exact .inr ⟨_, rfl, extension''⟩

/-- A source does the same in an extended environment, unless a name was missing. -/
theorem performAll_agrees {α : Type} {offset : Nat}
    {step : Session → Expr → Except Failure α × Session}
    (agrees : ∀ {session extended : Session} (expr : Expr),
      session.environment.ExtendedBy offset extended.environment →
      (∃ name, (step session expr).1 = .error (.unknownSymbol name)) ∨
        ∃ after, step extended expr = ((step session expr).1, after) ∧
          (step session expr).2.environment.ExtendedBy offset after.environment)
    (exprs : List Expr) {session extended : Session}
    (extension : session.environment.ExtendedBy offset extended.environment) :
    (∃ name, (performAll step exprs session).2.1 = some (.unknownSymbol name)) ∨
      ∃ after, performAll step exprs extended =
          ((performAll step exprs session).1, (performAll step exprs session).2.1, after) ∧
        (performAll step exprs session).2.2.environment.ExtendedBy offset after.environment := by
  induction exprs generalizing session extended with
  | nil => exact .inr ⟨extended, rfl, extension⟩
  | cons expr exprs ih =>
      have stepAgrees := agrees expr extension
      simp only [performAll]
      generalize step session expr = stepped at stepAgrees
      obtain ⟨failure | result, middle⟩ := stepped
      · rcases stepAgrees with ⟨name, same⟩ | ⟨middle', stepped', extension'⟩
        · cases same
          exact .inl ⟨name, rfl⟩
        · rw [stepped']
          exact .inr ⟨middle', rfl, extension'⟩
      · rcases stepAgrees with ⟨name, same⟩ | ⟨middle', stepped', extension'⟩
        · cases same
        · rw [stepped']
          rcases ih extension' with missing | ⟨after, performed, extension''⟩
          · exact .inl missing
          · exact .inr ⟨after, by simp only [performed], extension''⟩

/-- A source that a fresh session runs to its end, or to a failure that is not about a missing name,
gives the same values and the same failure behind a prelude. Every name that is bound afterwards is
bound to a value, and to the same one behind the prelude. -/
theorem run_of_prelude {strict : Bool} {prelude source : Text} {loaded after : Session}
    {values : List Expr} {failure : Option Failure}
    (loads : start strict (some prelude) = .ok loaded)
    (ran : ({ strict } : Session).run source = (values, failure, after))
    (known : ∀ name, failure ≠ some (.unknownSymbol name)) :
    ∃ after', loaded.run source = (values, failure, after') ∧
      ∀ {name slot}, after.environment.table.find? name = some slot →
        (∃ value, slot = .expr value) ∧ after'.environment.table.find? name = some slot := by
  have agrees := performAll_agrees (fun expr extension =>
      @evaluate_agrees _ (Session.record _ _) (Session.record _ _) expr
        (extension.record (.evaluating expr) (.evaluating expr)))
    (readAll source).1 (show ({ strict } : Session).environment.ExtendedBy _ _ from
      (unused_of_start loads).extends)
  simp only [run, performSource, Prod.mk.injEq] at ran ⊢
  obtain ⟨rfl, rfl, rfl⟩ := ran
  rcases agrees with ⟨name, missing⟩ | ⟨after', performed, extension⟩
  · exact absurd (by rw [missing]; rfl) (known name)
  · exact ⟨after', by rw [performed]; exact ⟨rfl, rfl, rfl⟩, extension.table⟩

/-- A source that binds a name of the prelude again. -/
theorem run_of_prelude_rebound :
    ∃ loaded values after, start false (some "(def f true)".toList) = .ok loaded ∧
      loaded.run "(def f (fn [x] x)) (f (not true))".toList = (values, none, after) ∧
      values.map Expr.kind = [.lambda, .boolean] := by
  have ends : (({ } : Session).run "(def f (fn [x] x)) (f (not true))".toList).2.1 = none ∧
      (({ } : Session).run "(def f (fn [x] x)) (f (not true))".toList).1.map Expr.kind =
        [.lambda, .boolean] := by decide +kernel
  have isOk : (start false (some "(def f true)".toList)).toBool = true := by decide +kernel
  generalize ran : ({ } : Session).run "(def f (fn [x] x)) (f (not true))".toList = outcome at ends
  obtain ⟨values, failure, ended⟩ := outcome
  obtain ⟨rfl, kinds⟩ := ends
  cases loads : start false (some "(def f true)".toList) with
  | error failure =>
      rw [loads] at isOk
      cases isOk
  | ok loaded =>
      obtain ⟨after, ranLoaded, -⟩ := run_of_prelude loads ran nofun
      exact ⟨loaded, values, after, rfl, ranLoaded, kinds⟩

end Session

end LazyLisp
