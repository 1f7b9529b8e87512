import LazyLisp.Environment.Bindings
import LazyLisp.Evaluation.Form

/-!
# Evaluation by value

A call evaluates all of its arguments in their order, in the scopes of the caller, before the body
is entered, and binds each formal to the value. A lookup of a formal gives the value. Apart from
that, evaluation by value is evaluation by need: the innermost scope is searched first and the
session table last, definitions go to the session table, the elements of a list are counted by the
same calls, and evaluation is bounded by the same depth.
-/

set_option autoImplicit false

namespace LazyLisp.ByValue

open Evaluation

/-- The session table and the scopes of the calls that are going on, the innermost first. -/
structure State where
  table : Bindings Expr
  scopes : List (Bindings Expr)

/-- Runs an action in one more scope; the present ones are back afterwards, also after a failure. -/
def inScope {α : Type} (scope : Bindings Expr) (action : Action State α) : Action State α :=
  fun state =>
    match action { state with scopes := scope :: state.scopes } with
    | .ok value after => .ok value { after with scopes := state.scopes }
    | .error failure after => .error failure { after with scopes := state.scopes }

theorem exists_of_inScope_eq_ok {α : Type} {scope : Bindings Expr} {action : Action State α}
    {state after : State} {value : α} (done : inScope scope action state = .ok value after) :
    ∃ inner, action { state with scopes := scope :: state.scopes } = .ok value inner ∧
      after = { inner with scopes := state.scopes } := by
  unfold inScope at done
  split at done
  · next found =>
    cases done
    exact ⟨_, found, rfl⟩
  · cases done

def lookUp (name : String) : Action State Expr := do
  let state ← get
  match state.scopes.findSome? (·.find? name) with
  | some value => pure value
  | none =>
    match state.table.find? name with
    | some value => pure value
    | none => throw (.unknownSymbol name)

theorem lookUp_eq (name : String) (state : State) :
    lookUp name state =
      (((state.scopes.findSome? (·.find? name)).or (state.table.find? name)).elim
        (throw (.unknownSymbol name)) pure : Action State Expr) state := by
  simp only [lookUp, Action.get_bind]
  cases state.scopes.findSome? (·.find? name) with
  | some value => rfl
  | none => cases state.table.find? name <;> rfl

def define (name : String) (value : Expr) : Action State Unit :=
  modify fun state => { state with table := state.table.insert name value }

section

variable (evaluate : Expr → Action State Expr)

/-- Evaluates the body of a lambda in a scope that binds its formals to values. A body that is
itself a lambda is entered with the same values. -/
def enter (values : List Expr) (formals : List String) : Expr → Action State Expr
  | .lambda formals' body =>
    inScope (Bindings.ofPairs (formals.zip values)) do
      requireExactArity formals'.length values.length
      enter values formals' body
  | body => inScope (Bindings.ofPairs (formals.zip values)) (evaluate body)

theorem enter_of_not_lambda {body : Expr}
    (notLambda : ∀ formals' body', body ≠ .lambda formals' body') (values : List Expr)
    (formals : List String) :
    enter evaluate values formals body =
      inScope (Bindings.ofPairs (formals.zip values)) (evaluate body) := by
  cases body with
  | lambda formals' body => exact absurd rfl (notLambda formals' body)
  | _ => rfl

/-- Applies a lambda to the values of its arguments. -/
def call (formals : List String) (body : Expr) (arguments : List Expr) : Action State Expr := do
  requireExactArity formals.length arguments.length
  let values ← evaluateAll evaluate arguments
  enter evaluate values formals body

def rules : NameRules State where
  lookUp := lookUp
  define := define
  call := call evaluate

end

/-- Evaluates an expression to a depth less than the bound. -/
def evaluateWithin : Nat → Expr → Action State Expr
  | 0, _ => throw .tooDeep
  | bound + 1, expr => form (rules (evaluateWithin bound)) (evaluateWithin bound) expr

end LazyLisp.ByValue
