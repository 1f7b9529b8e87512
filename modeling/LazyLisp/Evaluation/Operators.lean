import LazyLisp.Evaluation.Check
import LazyLisp.Expr.Equality
import LazyLisp.Number.Arithmetic

/-!
# Built-in operators

An operator receives its arguments unevaluated and evaluates them itself, so it decides which are
evaluated and in which order. How an expression is evaluated is a parameter of this module.
-/

set_option autoImplicit false

namespace LazyLisp.Evaluation

variable {σ : Type} (evaluate : Expr → Action σ Expr)

def evaluateNumber (argument : Expr) : Action σ Number := do
  expectNumber (← evaluate argument)

def evaluateBoolean (argument : Expr) : Action σ Bool := do
  expectBoolean (← evaluate argument)

/-- The values of all arguments, evaluated in their order. -/
def evaluateAll : List Expr → Action σ (List Expr)
  | [] => pure []
  | argument :: arguments => do
    let value ← evaluate argument
    let values ← evaluateAll arguments
    pure (value :: values)

/-- Combines a number with each of the arguments in turn. -/
def combineAll (combine : Number → Number → Number) (result : Number) :
    List Expr → Action σ Number
  | [] => pure result
  | argument :: arguments => do
    let number ← evaluateNumber evaluate argument
    combineAll combine (combine result number) arguments

/-- An arithmetic operator: zero without arguments, a single argument combined with the neutral
number, and otherwise the first argument combined with each of the others from the left. -/
def arithmetic (combine : Number → Number → Number) (neutral : Number) :
    List Expr → Action σ Expr
  | [] => pure (.number (Number.zero false))
  | [argument] => do
    let number ← evaluateNumber evaluate argument
    pure (.number (combine neutral number))
  | argument :: arguments => do
    let first ← evaluateNumber evaluate argument
    let result ← combineAll evaluate combine first arguments
    pure (.number result)

/-- The remainder of two arguments. The divisor is evaluated before the dividend. -/
def remainder : List Expr → Action σ Expr
  | [dividend, divisor] => do
    let divisor ← evaluateNumber evaluate divisor
    let dividend ← evaluateNumber evaluate dividend
    pure (.number (dividend.remainder divisor))
  | arguments => throw (.exactArity 2 arguments.length)

/-- All values are equal to the first one. -/
def allEqual : List Expr → Bool
  | [] => true
  | first :: others => others.all (·.equals first)

/-- Equality of two or more arguments, all of which are evaluated. -/
def equality (arguments : List Expr) : Action σ Expr := do
  requireMinimumArity 2 arguments.length
  let values ← evaluateAll evaluate arguments
  pure (.boolean (allEqual values))

def negation : List Expr → Action σ Expr
  | [argument] => do
    let value ← evaluateBoolean evaluate argument
    pure (.boolean !value)
  | arguments => throw (.exactArity 1 arguments.length)

/-- Evaluates arguments up to the first one that is the `decisive` boolean, which is then the
result. -/
def searchBoolean (decisive : Bool) : List Expr → Action σ Expr
  | [] => pure (.boolean !decisive)
  | argument :: arguments => do
    let value ← evaluateBoolean evaluate argument
    if value = decisive then pure (.boolean decisive) else searchBoolean decisive arguments

/-- Conjunction (`false` is decisive) and disjunction (`true` is decisive) of two or more
arguments. -/
def junction (decisive : Bool) (arguments : List Expr) : Action σ Expr := do
  requireMinimumArity 2 arguments.length
  searchBoolean evaluate decisive arguments

/-- How many elements the lambda gives `true` for; it is applied to one after another. -/
def countTrue (formals : List String) (body : Expr) : List Expr → Action σ Nat
  | [] => pure 0
  | element :: elements => do
    let result ← evaluate (.application (.lambda formals body) [element])
    let others ← countTrue formals body elements
    pure (if result.isTrue then others + 1 else others)

/-- The number of elements of a list that a lambda of one formal gives `true` for. -/
def count : List Expr → Action σ Expr
  | [predicate, list] => do
    let (formals, body) ← expectLambda (← evaluate predicate)
    let elements ← expectList (← evaluate list)
    requireExactArity 1 formals.length
    let total ← countTrue evaluate formals body elements
    pure (.number (Number.ofNat total))
  | arguments => throw (.exactArity 2 arguments.length)

def applyOperator : Operator → List Expr → Action σ Expr
  | .plus => arithmetic evaluate Number.add (Number.zero false)
  | .minus => arithmetic evaluate Number.subtract (Number.zero false)
  | .times => arithmetic evaluate Number.multiply (Number.ofNat 1)
  | .divide => arithmetic evaluate Number.divide (Number.ofNat 1)
  | .remainder => remainder evaluate
  | .equal => equality evaluate
  | .not => negation evaluate
  | .and => junction evaluate false
  | .or => junction evaluate true
  | .count => count evaluate

end LazyLisp.Evaluation
