import LazyLisp.Evaluation.Operators

/-!
# Evaluation of forms

One step of evaluation, given how parts are evaluated and how names and calls are treated.
-/

set_option autoImplicit false

namespace LazyLisp.Evaluation

/-- How an evaluation treats names: the value of an identifier, the effect of a definition, and the
application of a lambda to unevaluated arguments. -/
structure NameRules (σ : Type) where
  lookUp : String → Action σ Expr
  define : String → Expr → Action σ Unit
  call : List String → Expr → List Expr → Action σ Expr

section

variable {σ : Type} (rules : NameRules σ) (evaluate : Expr → Action σ Expr)

/-- The result of the first condition that is `true`, or of a last clause without a condition, or
else `nil`. -/
def clauses : List Expr → Action σ Expr
  | [] => pure .nil
  | [default] => evaluate default
  | condition :: result :: rest => do
    if (← evaluate condition).isTrue then evaluate result else clauses rest

/-- Evaluates a form. Atoms other than identifiers, lambdas and lists are values already. -/
def form : Expr → Action σ Expr
  | .identifier name => rules.lookUp name
  | .ifThen condition consequent => do
    if (← evaluate condition).isTrue then evaluate consequent else pure .nil
  | .ifThenElse condition consequent alternative => do
    if (← evaluate condition).isTrue then evaluate consequent else evaluate alternative
  | .binding name value => do
    let value ← evaluate value
    rules.define name value
    pure value
  | .application (.operator op) arguments => applyOperator evaluate op arguments
  | .application head arguments => do
    let (formals, body) ← expectLambda (← evaluate head)
    rules.call formals body arguments
  | .cond parts => clauses evaluate parts
  | value => pure value

end

end LazyLisp.Evaluation
