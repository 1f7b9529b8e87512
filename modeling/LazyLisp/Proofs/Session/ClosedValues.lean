import LazyLisp.Proofs.Evaluation.Values
import LazyLisp.Proofs.Session.Invariant

/-!
# Closed values

The session table only ever binds names to values, and scopes bind formals to cells, whose values
are values too. So evaluation gives values, and it fails only for reasons that lie in the program. A
value evaluates to itself.
-/

set_option autoImplicit false

namespace LazyLisp

/-- Why a program fails: a name is not bound, a value has the wrong kind, or the number of arguments
is wrong. A value with the wrong kind is a value, not a form that could still be evaluated. -/
def Failure.IsProgramFailure : Failure → Prop
  | .unknownSymbol _ | .exactArity _ _ | .minimumArity _ _ => True
  | .typeMismatch _ received =>
    received.label ∉ ["identifier", "application", "if", "binding", "cond"]
  | .unreadable _ | .noScope | .tooDeep => False

/-- Names are bound to values in the session table and to cells in scopes, and arguments stay
unevaluated until their cells get values. -/
def closedContents : Contents where
  inTable slot := ∃ value, slot = .expr value ∧ value.IsValue
  inScope slot := ∃ cell, slot = .deferred cell
  argument _ := True
  value := Expr.IsValue

theorem admissible_closedContents : closedContents.Admissible where
  define isValue := ⟨_, rfl, isValue⟩
  call cell := ⟨cell, rfl⟩
  inTable bound := by
    obtain ⟨value, same, isValue⟩ := bound
    cases same
    exact isValue
  inScope bound := by
    obtain ⟨cell, same⟩ := bound
    cases same

/-- Neither an unevaluated form nor a deferred argument is where a value should stand. -/
abbrev Environment.Closed (environment : Environment) : Prop := environment.Holds closedContents

namespace Evaluation

theorem hereditary_isValue : Hereditary (fun _ => True) Expr.IsValue where
  number _ := trivial
  boolean _ := trivial
  nil := trivial
  value _ isValue := isValue
  head _ := trivial
  argument _ _ := trivial
  ifThen _ := ⟨trivial, trivial⟩
  ifThenElse _ := ⟨trivial, trivial, trivial⟩
  binding _ := trivial
  body _ := trivial
  clause _ _ := trivial
  element _ _ _ := trivial

theorem label_kind_of_isValue {value : Expr} (isValue : value.IsValue) :
    value.kind.label ∉ ["identifier", "application", "if", "binding", "cond"] := by
  cases value with
  | identifier | application | ifThen | ifThenElse | binding | cond => exact isValue.elim
  | number | boolean | string | symbol | nil | lambda | list =>
      simp only [Expr.kind, Kind.label]
      decide
  | operator op => cases op <;> decide

theorem IsCheckFailure.isProgramFailure {failure : Failure}
    (check : IsCheckFailure Expr.IsValue failure) : failure.IsProgramFailure := by
  cases check with
  | exactArity | minimumArity => trivial
  | typeMismatch _ isValue => exact label_kind_of_isValue isValue

/-- A value evaluates to itself and changes nothing. -/
theorem evaluateWithin_of_isValue {value : Expr} (isValue : value.IsValue) (bound : Nat)
    (environment : Environment) :
    evaluateWithin (bound + 1) value environment = .ok value environment := by
  cases value with
  | identifier | application | ifThen | ifThenElse | binding | cond => exact isValue.elim
  | number | boolean | string | symbol | operator | nil | lambda | list => rfl

theorem evaluateWithin_closed {environment : Environment} (closed : environment.Closed)
    (bound : Nat) (expr : Expr) :
    Leaves Environment.Closed (fun failure => failure = .tooDeep ∨ failure.IsProgramFailure)
      Expr.IsValue environment (evaluateWithin bound expr environment) :=
  @evaluateWithin_preserves _ _ _ (Environment.Holds.invariant admissible_closedContents)
    hereditary_isValue _ (fun _ check => .inr check.isProgramFailure) (fun _ _ => .inr trivial)
    (.inl rfl) bound expr trivial environment closed

end Evaluation

open Evaluation

theorem Environment.Adopts.closed {environment start : Environment} {expr marked : Expr}
    (adopts : environment.Adopts expr (marked, start)) (closed : environment.Closed) :
    start.Closed := by
  cases adopts <;> exact ⟨closed.table, closed.scopes, closed.waiting, closed.cells⟩

/-- The environments of all sessions are closed, whatever sources they have run. -/
theorem Session.invariant_closed : Session.Invariant Environment.Closed where
  empty := .empty
  record _ closed := ⟨closed.table, closed.scopes, closed.waiting, closed.cells⟩
  evaluate {_ _ _ marked} closed _ adopts := by
    rw [Environment.evaluate_snd]
    exact (evaluateWithin_closed (adopts.closed closed) _ marked).afterwards.2

/-- In every session, whatever sources it has run, names are bound to values, also in front of the
evaluation of a form. Wherever no form stands for a value, evaluation to any depth leaves it so;
what it gives is a value, which evaluates to itself everywhere; and if it ends with a failure, that
lies in the program. -/
theorem Session.evaluation_closed {strict : Bool} {prelude : Option Text} {session : Session}
    (started : start strict prelude = .ok session) (sources : List Text) :
    let environment := (session.runAll sources).environment
    (∀ entry ∈ environment.table, ∃ value, entry.2 = .expr value ∧ value.IsValue) ∧
      (∀ {expr marked start}, environment.Adopts expr (marked, start) → start.Closed) ∧
      ∀ present : Environment, present.Closed → ∀ bound expr,
        match evaluateWithin bound expr present with
        | .ok value after =>
          after.Closed ∧ value.IsValue ∧
            ∀ bound anywhere, evaluateWithin (bound + 1) value anywhere = .ok value anywhere
        | .error failure after =>
          after.Closed ∧ (failure = .tooDeep ∨ failure.IsProgramFailure) := by
  intro environment
  have closed : environment.Closed :=
    invariant_closed.runAll (invariant_closed.start started) sources
  refine ⟨closed.table, fun adopts => adopts.closed closed, fun present presentClosed bound expr =>
    ?_⟩
  have leaves := evaluateWithin_closed presentClosed bound expr
  cases ended : evaluateWithin bound expr present with
  | ok value after =>
      rw [ended] at leaves
      exact ⟨leaves.2.1, leaves.2.2, evaluateWithin_of_isValue leaves.2.2⟩
  | error failure after =>
      rw [ended] at leaves
      exact leaves.2

/-- A definition inside a call stores the value of a formal, not its cell. The failure of the next
source changes nothing about that. -/
theorem Session.evaluation_closed_formal :
    let session := ({ } : Session).runAll
      ["((fn [x] (def y x)) (not true))".toList, "(y)".toList]
    session.environment.table.map Prod.fst = ["y"] ∧
      ∀ entry ∈ session.environment.table, ∃ value, entry.2 = .expr value ∧ value.IsValue :=
  ⟨by decide +kernel, (evaluation_closed (show start false none = .ok { } from rfl) _).1⟩

end LazyLisp
