import LazyLisp.Environment.Bindings
import LazyLisp.Expr.Equality
import LazyLisp.Failure
import LazyLisp.Trace

/-!
# Environments

An environment holds the session table, which definitions write, a stack of scopes, one for each
call that is going on, and the cells of the deferred arguments. A name is looked up in the innermost
scope first and in the session table last.

A deferred argument keeps the scopes of its caller. Its cell gets the value when it is evaluated.

The arguments of one call form a group, which has one stack of scopes. While an argument of the
group is evaluated, the calls in there open their scopes on that stack, and an argument of the same
group that is evaluated meanwhile sees them too. In a session this cannot happen, since the scopes
that a call keeps only hold older arguments; it takes a deferred argument in the session table.
-/

set_option autoImplicit false

namespace LazyLisp

/-- A deferred argument: the argument expression, the number of its group, the caller's scopes with
the innermost first, and the value once the expression has been evaluated. -/
structure Cell where
  expr : Expr
  group : Nat
  scopes : List Bindings
  value? : Option Expr

/-- The state of a session. The innermost scope comes first. While a deferred argument is evaluated,
the present scopes are the stack of its group; the groups whose evaluation waits for that are kept
with the scopes on their stacks, the latest first. The last two components count the `nan`s that
were written in preludes and in programs. -/
structure Environment where
  table : Bindings := []
  scopes : List Bindings := []
  group : Option Nat := none
  waiting : List (Nat × List Bindings) := []
  cells : Array Cell := #[]
  events : Array Event := #[]
  preludeNans : Nat := 0
  programNans : Nat := 0

namespace Environment

def empty : Environment := {}

def depth (environment : Environment) : Nat := environment.scopes.length

/-- What the name is bound to in the innermost scope that binds it, or else in the session table. -/
def find? (environment : Environment) (name : String) : Option Slot :=
  match environment.scopes.findSome? (·.find? name) with
  | some slot => some slot
  | none => environment.table.find? name

def contains (environment : Environment) (name : String) : Bool :=
  (environment.find? name).isSome

def record (environment : Environment) (event : Event) : Environment :=
  { environment with events := environment.events.push event }

def define (environment : Environment) (name : String) (slot : Slot) : Environment :=
  let environment :=
    if environment.table.contains name then environment.record (.rebound name) else environment
  { environment with table := environment.table.insert name slot }

/-- Binds the names of a table in the session table, in their order. -/
def defineAll (environment : Environment) (bindings : Bindings) : Environment :=
  bindings.foldl (fun environment (name, slot) => environment.define name slot) environment

def push (environment : Environment) (scope : Bindings) : Environment :=
  { environment with scopes := scope :: environment.scopes }

def pop? (environment : Environment) : Option (Bindings × Environment) :=
  match environment.scopes with
  | [] => none
  | scope :: scopes => some (scope, { environment with scopes })

theorem pop?_push (environment : Environment) (scope : Bindings) :
    (environment.push scope).pop? = some (scope, environment) := rfl

theorem find?_push (environment : Environment) (scope : Bindings) (name : String) :
    (environment.push scope).find? name = (scope.find? name).or (environment.find? name) := by
  simp only [find?, push, List.findSome?_cons]
  cases scope.find? name <;> rfl

/-- The groups that wait, and the one whose stack the present scopes are, with their scopes. -/
def groupStacks (environment : Environment) : List (Nat × List Bindings) :=
  match environment.group with
  | none => environment.waiting
  | some group => (group, environment.scopes) :: environment.waiting

/-- The scopes in which a deferred argument is evaluated: those on the stack of its group if that is
in use, and otherwise the caller's. -/
def scopesOf (environment : Environment) (cell : Cell) : List Bindings :=
  (environment.groupStacks.lookup cell.group).getD cell.scopes

/-- The environment with other scopes, which are the stack of a group if there is one. -/
def switch (environment : Environment) (group : Option Nat) (scopes : List Bindings) :
    Environment :=
  { environment with scopes, group, waiting := environment.groupStacks }

def restore (environment earlier : Environment) : Environment :=
  { environment with
    scopes := earlier.scopes, group := earlier.group, waiting := earlier.waiting }

/-- A group whose stack is not in use has its arguments evaluated in the caller's scopes. -/
theorem scopesOf_of_unused {environment : Environment} {cell : Cell}
    (unused : environment.groupStacks.lookup cell.group = none) :
    environment.scopesOf cell = cell.scopes := by
  simp [scopesOf, unused]

/-- Adds cells that defer expressions of a group over the present scopes, in their order, and gives
their numbers. -/
def deferIn (environment : Environment) (group : Nat) : List Expr → List Nat × Environment
  | [] => ([], environment)
  | expr :: exprs =>
    let cell : Cell := ⟨expr, group, environment.scopes, none⟩
    let (cells, after) :=
      deferIn { environment with cells := environment.cells.push cell } group exprs
    (environment.cells.size :: cells, after)

theorem deferIn_eq (environment : Environment) (group : Nat) (exprs : List Expr) :
    environment.deferIn group exprs = (List.range' environment.cells.size exprs.length,
      { environment with
        cells := environment.cells ++
          (exprs.map fun expr => ⟨expr, group, environment.scopes, none⟩).toArray }) := by
  induction exprs generalizing environment with
  | nil => simp [deferIn]
  | cons expr exprs ih => simp [deferIn, ih, List.range'_succ]

/-- Defers expressions as a group of their own, which is numbered by its first cell. -/
def deferAll (environment : Environment) (exprs : List Expr) : List Nat × Environment :=
  environment.deferIn environment.cells.size exprs

def fill (environment : Environment) (cell : Nat) (value : Expr) : Environment :=
  { environment with
    cells := environment.cells.modify cell fun deferred => { deferred with value? := some value } }

/-- The scopes that only the outermost `count` calls opened. -/
def outermost (environment : Environment) (count : Nat) : List Bindings :=
  environment.scopes.drop (environment.scopes.length - count)

/-- The expression with its written `nan`s told apart from all others of this environment, as a form
of a program. -/
def adopt (environment : Environment) (expr : Expr) : Expr × Environment :=
  let (expr, programNans) := expr.markNans .program environment.programNans
  (expr, { environment with programNans })

/-- The same for a form of a prelude. The `nan`s of preludes are counted apart, so a prelude does
not change how those of a program are counted. -/
def adoptPrelude (environment : Environment) (expr : Expr) : Expr × Environment :=
  let (expr, preludeNans) := expr.markNans .prelude environment.preludeNans
  (expr, { environment with preludeNans })

/-! ## Text -/

/-- The text of what a name is bound to: the expression, the value of an evaluated argument, or an
argument marked as deferred. -/
def renderSlot (environment : Environment) : Slot → Text
  | .expr expr => expr.render
  | .deferred cell =>
    match environment.cells[cell]? with
    | none => []
    | some deferred =>
      match deferred.value? with
      | some value => value.render
      | none => "<deferred ".toList ++ deferred.expr.render ++ ['>']

def renderBindings (environment : Environment) (bindings : Bindings) : Text :=
  let entries := bindings.map fun (name, slot) =>
    name.toList ++ ':' :: ' ' :: environment.renderSlot slot
  '{' :: [',', ' '].intercalate entries ++ ['}']

/-- The text of an environment: the session table and the number of scopes. -/
def render (environment : Environment) : Text :=
  environment.renderBindings environment.table ++
    if environment.scopes.isEmpty then []
    else " + ".toList ++ Nat.toDigits 10 environment.depth ++ " scope(s)".toList

/-- The text of all tables of an environment, the innermost scope first. -/
def renderChain (environment : Environment) : Text :=
  let tables := (environment.scopes ++ [environment.table]).map environment.renderBindings
  "<Environment: ".toList ++ " -> ".toList.intercalate tables ++ ['>']

end Environment

end LazyLisp
