import LazyLisp.Environment.Basic
import LazyLisp.Evaluation.Form

/-!
# Evaluation by need

A call opens a scope that binds each formal to its deferred argument. The first lookup of a formal
evaluates the argument in the caller's scopes and keeps the value; an argument that is never looked
up is never evaluated. Names are looked up in the scopes of the calls that are going on, and
definitions go to the session table.

Evaluation is bounded by a depth: each evaluation of a part is one level deeper, and beyond the
bound it fails as too deep.
-/

set_option autoImplicit false

namespace LazyLisp.Evaluation

def record (event : Event) : Action Environment Unit := modify (·.record event)

/-- Runs an action in other scopes, which are the stack of a group if there is one; the present ones
are back afterwards, also after a failure. -/
def inScopes {α : Type} (group : Option Nat) (scopes : List Bindings)
    (action : Action Environment α) : Action Environment α := fun environment =>
  match action (environment.switch group scopes) with
  | .ok value after => .ok value (after.restore environment)
  | .error failure after => .error failure (after.restore environment)

/-- Runs an action in one more scope, which is closed afterwards, also after a failure. -/
def inScope {α : Type} (scope : Bindings) (action : Action Environment α) :
    Action Environment α := fun environment =>
  match action (environment.push scope) with
  | .ok value after =>
    match after.pop? with
    | some (_, after) => .ok value after
    | none => .error .noScope after
  | .error failure after =>
    match after.pop? with
    | some (_, after) => .error failure after
    | none => .error .noScope after

section

variable {α : Type} {action : Action Environment α} {scope closed : Bindings}
  {environment after outer : Environment}

theorem inScope_of_ok {value : α} (done : action (environment.push scope) = .ok value after)
    (popped : after.pop? = some (closed, outer)) :
    inScope scope action environment = .ok value outer := by
  simp only [inScope, done, popped]

theorem inScope_of_error {failure : Failure}
    (failed : action (environment.push scope) = .error failure after)
    (popped : after.pop? = some (closed, outer)) :
    inScope scope action environment = .error failure outer := by
  simp only [inScope, failed, popped]

end

section

variable (evaluate : Expr → Action Environment Expr)

/-- The value of a deferred argument, which is evaluated unless it has been before. -/
def force (cell : Nat) (deferred : Cell) : Action Environment Expr :=
  match deferred.value? with
  | some value => pure value
  | none => do
    record (.forcing cell)
    let scopes := (← get).scopesOf deferred
    let value ← inScopes (some deferred.group) scopes (evaluate deferred.expr)
    modify (·.fill cell value)
    record (.forced cell)
    pure value

theorem force_of_ok {index : Nat} {cell : Cell} {environment after : Environment} {value : Expr}
    (unforced : cell.value? = none)
    (done : evaluate cell.expr ((environment.record (.forcing index)).switch (some cell.group)
      (environment.scopesOf cell)) = .ok value after) :
    force evaluate index cell environment =
      .ok value (((after.restore environment).fill index value).record (.forced index)) := by
  have inScopes_done : inScopes (some cell.group) (environment.scopesOf cell)
      (evaluate cell.expr) (environment.record (.forcing index)) =
        .ok value (after.restore environment) := by
    simp only [inScopes, done]
    rfl
  simp only [force, unforced]
  exact Action.bind_of_ok inScopes_done _

theorem force_of_error {index : Nat} {cell : Cell} {environment after : Environment}
    {failure : Failure} (unforced : cell.value? = none)
    (failed : evaluate cell.expr ((environment.record (.forcing index)).switch (some cell.group)
      (environment.scopesOf cell)) = .error failure after) :
    force evaluate index cell environment = .error failure (after.restore environment) := by
  have inScopes_failed : inScopes (some cell.group) (environment.scopesOf cell)
      (evaluate cell.expr) (environment.record (.forcing index)) =
        .error failure (after.restore environment) := by
    simp only [inScopes, failed]
    rfl
  simp only [force, unforced]
  exact Action.bind_of_error inScopes_failed _

def lookUp (name : String) : Action Environment Expr := do
  let environment ← get
  match environment.find? name with
  | none => throw (.unknownSymbol name)
  | some (.expr expr) => pure expr
  | some (.deferred cell) =>
    match environment.cells[cell]? with
    | none => throw (.unknownSymbol name)
    | some deferred => do
      record (.lookedUp cell)
      force evaluate cell deferred

theorem lookUp_of_unbound {name : String} {environment : Environment}
    (unbound : environment.find? name = none) :
    lookUp evaluate name environment = .error (.unknownSymbol name) environment := by
  simp only [lookUp, Action.get_bind, unbound]
  rfl

theorem lookUp_of_expr {name : String} {environment : Environment} {expr : Expr}
    (bound : environment.find? name = some (.expr expr)) :
    lookUp evaluate name environment = .ok expr environment := by
  simp only [lookUp, Action.get_bind, bound]
  rfl

theorem lookUp_of_missing {name : String} {environment : Environment} {index : Nat}
    (bound : environment.find? name = some (.deferred index))
    (missing : environment.cells[index]? = none) :
    lookUp evaluate name environment = .error (.unknownSymbol name) environment := by
  simp only [lookUp, Action.get_bind, bound, missing]
  rfl

theorem lookUp_of_deferred {name : String} {environment : Environment} {index : Nat} {cell : Cell}
    (bound : environment.find? name = some (.deferred index))
    (found : environment.cells[index]? = some cell) :
    lookUp evaluate name environment =
      force evaluate index cell (environment.record (.lookedUp index)) := by
  simp only [lookUp, Action.get_bind, bound, found]
  rfl

def define (name : String) (value : Expr) : Action Environment Unit :=
  modify (·.define name (.expr value))

/-- Evaluates the body of a lambda in a scope that binds its formals to deferred arguments. A body
that is itself a lambda is entered with the same arguments. -/
def enter (cells : List Nat) (formals : List String) : Expr → Action Environment Expr
  | .lambda formals' body => do
    record (.called formals (.lambda formals' body) cells.length)
    inScope (Bindings.ofPairs (formals.zip (cells.map .deferred))) do
      requireExactArity formals'.length cells.length
      enter cells formals' body
  | body => do
    record (.called formals body cells.length)
    inScope (Bindings.ofPairs (formals.zip (cells.map .deferred))) (evaluate body)

theorem enter_of_not_lambda {body : Expr}
    (notLambda : ∀ formals' body', body ≠ .lambda formals' body') (cells : List Nat)
    (formals : List String) :
    enter evaluate cells formals body =
      (record (.called formals body cells.length) >>= fun _ =>
        inScope (Bindings.ofPairs (formals.zip (cells.map .deferred))) (evaluate body)) := by
  cases body with
  | lambda formals' body => exact absurd rfl (notLambda formals' body)
  | _ => rfl

/-- Applies a lambda to unevaluated arguments. -/
def call (formals : List String) (body : Expr) (arguments : List Expr) :
    Action Environment Expr := do
  requireExactArity formals.length arguments.length
  let cells ← modifyGet (·.deferAll arguments)
  enter evaluate cells formals body

def byNeed : NameRules Environment where
  lookUp := lookUp evaluate
  define := define
  call := call evaluate

end

/-- Evaluates an expression to a depth less than the bound. -/
def evaluateWithin : Nat → Expr → Action Environment Expr
  | 0, _ => throw .tooDeep
  | bound + 1, expr => form (byNeed (evaluateWithin bound)) (evaluateWithin bound) expr

end LazyLisp.Evaluation

namespace LazyLisp.Environment

/-- The depth at which evaluation in a session is given up as endless. -/
def depthBound : Nat := 1000

/-- Evaluates an expression: the value or the failure, and the environment after it. -/
def evaluate (environment : Environment) (expr : Expr) : Except Failure Expr × Environment :=
  match Evaluation.evaluateWithin depthBound expr environment with
  | .ok value after => (.ok value, after)
  | .error failure after => (.error failure, after)

end LazyLisp.Environment
