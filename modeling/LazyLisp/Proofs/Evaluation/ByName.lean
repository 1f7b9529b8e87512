import LazyLisp.Environment.Bindings
import LazyLisp.Evaluation.Form

/-!
# Evaluation by name

A call binds each formal to its argument together with the scopes of the caller. Every lookup of a
formal evaluates the argument again in these scopes; no value is kept. Apart from that, evaluation
by name is evaluation by need: the innermost scope is searched first and the session table last,
definitions go to the session table, and evaluation is bounded by the same depth.
-/

set_option autoImplicit false

namespace LazyLisp.ByName

open Evaluation

/-- An argument expression and the scopes of its caller, which bind names to such arguments. -/
inductive Thunk where
  | mk (expr : Expr) (scopes : List (List (String × Thunk)))

def Thunk.expr : Thunk → Expr
  | .mk expr _ => expr

def Thunk.scopes : Thunk → List (Bindings Thunk)
  | .mk _ scopes => scopes

/-- The session table and the scopes of the calls that are going on, the innermost first. -/
structure State where
  table : Bindings Expr
  scopes : List (Bindings Thunk)

/-- Runs an action in other scopes; the present ones are back afterwards, also after a failure. -/
def inScopes {α : Type} (scopes : List (Bindings Thunk)) (action : Action State α) :
    Action State α := fun state =>
  match action { state with scopes } with
  | .ok value after => .ok value { after with scopes := state.scopes }
  | .error failure after => .error failure { after with scopes := state.scopes }

def inScope {α : Type} (scope : Bindings Thunk) (action : Action State α) : Action State α :=
  fun state => inScopes (scope :: state.scopes) action state

section

variable (evaluate : Expr → Action State Expr)

def lookUp (name : String) : Action State Expr := do
  let state ← get
  match state.scopes.findSome? (·.find? name) with
  | some thunk => inScopes thunk.scopes (evaluate thunk.expr)
  | none =>
    match state.table.find? name with
    | some value => pure value
    | none => throw (.unknownSymbol name)

def define (name : String) (value : Expr) : Action State Unit :=
  modify fun state => { state with table := state.table.insert name value }

/-- Evaluates the body of a lambda in a scope that binds its formals to arguments. A body that is
itself a lambda is entered with the same arguments. -/
def enter (thunks : List Thunk) (formals : List String) : Expr → Action State Expr
  | .lambda formals' body =>
    inScope (Bindings.ofPairs (formals.zip thunks)) do
      requireExactArity formals'.length thunks.length
      enter thunks formals' body
  | body => inScope (Bindings.ofPairs (formals.zip thunks)) (evaluate body)

theorem enter_of_not_lambda {body : Expr}
    (notLambda : ∀ formals' body', body ≠ .lambda formals' body') (thunks : List Thunk)
    (formals : List String) :
    enter evaluate thunks formals body =
      inScope (Bindings.ofPairs (formals.zip thunks)) (evaluate body) := by
  cases body with
  | lambda formals' body => exact absurd rfl (notLambda formals' body)
  | _ => rfl

def call (formals : List String) (body : Expr) (arguments : List Expr) : Action State Expr := do
  requireExactArity formals.length arguments.length
  let state ← get
  enter evaluate (arguments.map (.mk · state.scopes)) formals body

def rules : NameRules State where
  lookUp := lookUp evaluate
  define := define
  call := call evaluate

theorem lookUp_inScopes {name : String} {state : State} {thunk : Thunk}
    (found : state.scopes.findSome? (·.find? name) = some thunk) :
    lookUp evaluate name state = inScopes thunk.scopes (evaluate thunk.expr) state := by
  simp only [lookUp, Action.get_bind, found]

theorem lookUp_inTable {name : String} {state : State}
    (notFound : state.scopes.findSome? (·.find? name) = none) :
    lookUp evaluate name state =
      ((state.table.find? name).elim (throw (.unknownSymbol name)) pure : Action State Expr)
        state := by
  simp only [lookUp, Action.get_bind, notFound]
  cases state.table.find? name <;> rfl

end

/-- Evaluates an expression to a depth less than the bound. -/
def evaluateWithin : Nat → Expr → Action State Expr
  | 0, _ => throw .tooDeep
  | bound + 1, expr => form (rules (evaluateWithin bound)) (evaluateWithin bound) expr

end LazyLisp.ByName
