import LazyLisp.Evaluation.Form

/-!
# Comparing evaluations

The evaluation of forms is put together from the evaluation of parts by returning, failing and
running one action after another. So what holds of these three, and of the evaluation of parts, of
lookups, definitions and calls, holds of the evaluation of every form. It may be a property of one
evaluation, or a relation of an evaluation to a family of others.
-/

set_option autoImplicit false

namespace LazyLisp

/-- Induction on a body that may be a lambda, whose body may be one again. -/
theorem Expr.body_induction {motive : Expr → Prop}
    (lambda : ∀ formals body, motive body → motive (.lambda formals body))
    (other : ∀ body, (∀ formals' body', body ≠ .lambda formals' body') → motive body) :
    ∀ body, motive body
  | .lambda formals body => lambda formals body (body_induction lambda other body)
  | .number _ | .boolean _ | .string _ | .symbol _ | .identifier _ | .operator _ | .nil
  | .application _ _ | .ifThen _ _ | .ifThenElse _ _ _ | .binding _ _ | .cond _ | .list _ =>
    other _ nofun

/-- An expression that is its own value: an atom other than an identifier, a lambda or a list. -/
def Expr.IsValue : Expr → Prop
  | .number _ | .boolean _ | .string _ | .symbol _ | .operator _ | .nil | .lambda _ _ | .list _ =>
    True
  | .identifier _ | .application _ _ | .ifThen _ _ | .ifThenElse _ _ _ | .binding _ _ | .cond _ =>
    False

namespace Evaluation

/-- The value or the failure that an evaluation ends with. -/
def outcome {σ α : Type} : EStateM.Result Failure σ α → Except Failure α
  | .ok value _ => .ok value
  | .error failure _ => .error failure

/-- The state in which an evaluation ends, with a value or with a failure. -/
def afterwards {σ α : Type} : EStateM.Result Failure σ α → σ
  | .ok _ after => after
  | .error _ after => after

/-- A failure that a check of an evaluation step can end with: a wrong number of arguments, or one
of the values that are given has another kind than the expected one. -/
inductive IsCheckFailure (valued : Expr → Prop) : Failure → Prop where
  | exactArity (expected received : Int) : IsCheckFailure valued (.exactArity expected received)
  | minimumArity (least received : Int) : IsCheckFailure valued (.minimumArity least received)
  | typeMismatch {value : Expr} (expected : Kind) :
      valued value → IsCheckFailure valued (.typeMismatch expected value.kind)

theorem IsCheckFailure.ne_noScope {valued : Expr → Prop} {failure : Failure}
    (check : IsCheckFailure valued failure) : failure ≠ .noScope := by
  cases check <;> exact nofun

theorem IsCheckFailure.ne_tooDeep {valued : Expr → Prop} {failure : Failure}
    (check : IsCheckFailure valued failure) : failure ≠ .tooDeep := by
  cases check <;> exact nofun

/-- A relation of an action to a family of actions that includes a property of the results. Equal
results and equal failures are related, and running related actions one after another is. The values
that are checked have a property of their own. -/
structure Comparison (valued : Expr → Prop) (σ τ ι : Type) where
  holds {α : Type} : (α → Prop) → Action σ α → (ι → Action τ α) → Prop
  pure {α : Type} {good : α → Prop} {result : α} :
    good result → holds good (Pure.pure result) fun _ => Pure.pure result
  throw {α : Type} {good : α → Prop} {failure : Failure} :
    IsCheckFailure valued failure →
    holds good (MonadExcept.throw failure) fun _ => MonadExcept.throw failure
  bind {α β : Type} {good : α → Prop} {good' : β → Prop} {first : Action σ α}
    {next : α → Action σ β} {first' : ι → Action τ α} {next' : ι → α → Action τ β} :
    holds good first first' →
    (∀ result, good result → holds good' (next result) fun index => next' index result) →
    holds good' (first >>= next) fun index => first' index >>= next' index

/-- A property of expressions that the parts of a form have with the form, and that each form has
which evaluation makes of others. What evaluation gives has a property of its own, which is the same
one if nothing else is said. -/
structure Hereditary (property : Expr → Prop) (valued : Expr → Prop := property) : Prop where
  number (value : Number) : valued (.number value)
  boolean (value : Bool) : valued (.boolean value)
  nil : valued .nil
  value {expr : Expr} : property expr → expr.IsValue → valued expr := by
    exact fun good _ => good
  head {head : Expr} {arguments : List Expr} :
    property (.application head arguments) → property head
  argument {head argument : Expr} {arguments : List Expr} :
    property (.application head arguments) → argument ∈ arguments → property argument
  ifThen {condition consequent : Expr} :
    property (.ifThen condition consequent) → property condition ∧ property consequent
  ifThenElse {condition consequent alternative : Expr} :
    property (.ifThenElse condition consequent alternative) →
    property condition ∧ property consequent ∧ property alternative
  binding {name : String} {value : Expr} : property (.binding name value) → property value
  body {formals : List String} {body : Expr} : valued (.lambda formals body) → property body
  clause {clause : Expr} {clauses : List Expr} :
    property (.cond clauses) → clause ∈ clauses → property clause
  element {formals : List String} {body element : Expr} {elements : List Expr} :
    valued (.lambda formals body) → valued (.list elements) → element ∈ elements →
    property (.application (.lambda formals body) [element])

theorem hereditary_true : Hereditary fun _ => True where
  number _ := trivial
  boolean _ := trivial
  nil := trivial
  head _ := trivial
  argument _ _ := trivial
  ifThen _ := ⟨trivial, trivial⟩
  ifThenElse _ := ⟨trivial, trivial, trivial⟩
  binding _ := trivial
  body _ := trivial
  clause _ _ := trivial
  element _ _ _ := trivial

namespace Comparison

variable {valued : Expr → Prop} {σ τ ι : Type} (comparison : Comparison valued σ τ ι)

/-! ## Checks -/

theorem requireExactArity (expected received : Int) :
    comparison.holds (fun _ => True) (Evaluation.requireExactArity expected received)
      fun _ => Evaluation.requireExactArity expected received := by
  unfold Evaluation.requireExactArity
  split
  · exact comparison.pure trivial
  · exact comparison.throw (.exactArity expected received)

theorem requireMinimumArity (least received : Int) :
    comparison.holds (fun _ => True) (Evaluation.requireMinimumArity least received)
      fun _ => Evaluation.requireMinimumArity least received := by
  unfold Evaluation.requireMinimumArity
  split
  · exact comparison.throw (.minimumArity least received)
  · exact comparison.pure trivial

theorem expectNumber {value : Expr} (good : valued value) :
    comparison.holds (fun _ => True) (Evaluation.expectNumber value)
      fun _ => Evaluation.expectNumber value := by
  unfold Evaluation.expectNumber
  split
  · exact comparison.pure trivial
  · exact comparison.throw (.typeMismatch _ good)

theorem expectBoolean {value : Expr} (good : valued value) :
    comparison.holds (fun _ => True) (Evaluation.expectBoolean value)
      fun _ => Evaluation.expectBoolean value := by
  unfold Evaluation.expectBoolean
  split
  · exact comparison.pure trivial
  · exact comparison.throw (.typeMismatch _ good)

theorem expectLambda {value : Expr} (good : valued value) :
    comparison.holds (fun parts => valued (.lambda parts.1 parts.2))
      (Evaluation.expectLambda value) fun _ => Evaluation.expectLambda value := by
  unfold Evaluation.expectLambda
  split
  · exact comparison.pure good
  · exact comparison.throw (.typeMismatch _ good)

theorem expectList {value : Expr} (good : valued value) :
    comparison.holds (fun elements => valued (.list elements))
      (Evaluation.expectList value) fun _ => Evaluation.expectList value := by
  unfold Evaluation.expectList
  split
  · exact comparison.pure good
  · exact comparison.throw (.typeMismatch _ good)

end Comparison

/-! ## Operators -/

section

variable {property valued : Expr → Prop} {σ τ ι : Type} {comparison : Comparison valued σ τ ι}
  (hereditary : Hereditary property valued) {evaluate : Expr → Action σ Expr}
  {evaluate' : ι → Expr → Action τ Expr}
  (evaluates : ∀ expr, property expr →
    comparison.holds valued (evaluate expr) fun index => evaluate' index expr)

namespace Comparison

include evaluates

theorem evaluateNumber {argument : Expr} (good : property argument) :
    comparison.holds (fun _ => True) (Evaluation.evaluateNumber evaluate argument)
      fun index => Evaluation.evaluateNumber (evaluate' index) argument :=
  comparison.bind (evaluates argument good) fun _ valueGood => comparison.expectNumber valueGood

theorem evaluateBoolean {argument : Expr} (good : property argument) :
    comparison.holds (fun _ => True) (Evaluation.evaluateBoolean evaluate argument)
      fun index => Evaluation.evaluateBoolean (evaluate' index) argument :=
  comparison.bind (evaluates argument good) fun _ valueGood => comparison.expectBoolean valueGood

theorem evaluateAll {arguments : List Expr} (good : ∀ argument ∈ arguments, property argument) :
    comparison.holds (fun _ => True) (Evaluation.evaluateAll evaluate arguments)
      fun index => Evaluation.evaluateAll (evaluate' index) arguments := by
  induction arguments with
  | nil => exact comparison.pure trivial
  | cons argument arguments ih =>
      simp only [List.forall_mem_cons] at good
      exact comparison.bind (evaluates argument good.1) fun value _ =>
        comparison.bind (ih good.2) fun values _ => comparison.pure trivial

theorem combineAll (combine : Number → Number → Number) (result : Number) {arguments : List Expr}
    (good : ∀ argument ∈ arguments, property argument) :
    comparison.holds (fun _ => True) (Evaluation.combineAll evaluate combine result arguments)
      fun index => Evaluation.combineAll (evaluate' index) combine result arguments := by
  induction arguments generalizing result with
  | nil => exact comparison.pure trivial
  | cons argument arguments ih =>
      simp only [List.forall_mem_cons] at good
      exact comparison.bind (evaluateNumber evaluates good.1) fun number _ =>
        ih (combine result number) good.2

theorem searchBoolean (decisive : Bool) {arguments : List Expr}
    (boolean : ∀ value, valued (.boolean value))
    (good : ∀ argument ∈ arguments, property argument) :
    comparison.holds valued (Evaluation.searchBoolean evaluate decisive arguments)
      fun index => Evaluation.searchBoolean (evaluate' index) decisive arguments := by
  induction arguments with
  | nil => exact comparison.pure (boolean _)
  | cons argument arguments ih =>
      simp only [List.forall_mem_cons] at good
      refine comparison.bind (evaluateBoolean evaluates good.1) fun value _ => ?_
      split
      · exact comparison.pure (boolean _)
      · exact ih good.2

theorem countTrue {formals : List String} {body : Expr} {elements : List Expr}
    (good : ∀ element ∈ elements, property (.application (.lambda formals body) [element])) :
    comparison.holds (fun _ => True) (Evaluation.countTrue evaluate formals body elements)
      fun index => Evaluation.countTrue (evaluate' index) formals body elements := by
  induction elements with
  | nil => exact comparison.pure trivial
  | cons element elements ih =>
      simp only [List.forall_mem_cons] at good
      exact comparison.bind (evaluates _ good.1) fun _ _ =>
        comparison.bind (ih good.2) fun _ _ => comparison.pure trivial

include hereditary

theorem arithmetic (combine : Number → Number → Number) (neutral : Number)
    {arguments : List Expr} (good : ∀ argument ∈ arguments, property argument) :
    comparison.holds valued (Evaluation.arithmetic evaluate combine neutral arguments)
      fun index => Evaluation.arithmetic (evaluate' index) combine neutral arguments := by
  match arguments with
  | [] => exact comparison.pure (hereditary.number _)
  | [argument] =>
      simp only [List.forall_mem_cons] at good
      exact comparison.bind (evaluateNumber evaluates good.1) fun number _ =>
        comparison.pure (hereditary.number _)
  | argument :: second :: arguments =>
      rw [List.forall_mem_cons] at good
      exact comparison.bind (evaluateNumber evaluates good.1) fun first _ =>
        comparison.bind (combineAll evaluates combine first good.2) fun result _ =>
          comparison.pure (hereditary.number _)

theorem remainder {arguments : List Expr} (good : ∀ argument ∈ arguments, property argument) :
    comparison.holds valued (Evaluation.remainder evaluate arguments)
      fun index => Evaluation.remainder (evaluate' index) arguments := by
  unfold Evaluation.remainder
  split
  next dividend divisor =>
    simp only [List.forall_mem_cons] at good
    exact comparison.bind (evaluateNumber evaluates good.2.1) fun _ _ =>
      comparison.bind (evaluateNumber evaluates good.1) fun _ _ =>
        comparison.pure (hereditary.number _)
  next => exact comparison.throw (.exactArity _ _)

theorem equality {arguments : List Expr} (good : ∀ argument ∈ arguments, property argument) :
    comparison.holds valued (Evaluation.equality evaluate arguments)
      fun index => Evaluation.equality (evaluate' index) arguments :=
  comparison.bind (comparison.requireMinimumArity _ _) fun _ _ =>
    comparison.bind (evaluateAll evaluates good) fun _ _ =>
      comparison.pure (hereditary.boolean _)

theorem negation {arguments : List Expr} (good : ∀ argument ∈ arguments, property argument) :
    comparison.holds valued (Evaluation.negation evaluate arguments)
      fun index => Evaluation.negation (evaluate' index) arguments := by
  unfold Evaluation.negation
  split
  next argument =>
    exact comparison.bind (evaluateBoolean evaluates (good _ (List.mem_singleton.mpr rfl)))
      fun _ _ => comparison.pure (hereditary.boolean _)
  next => exact comparison.throw (.exactArity _ _)

theorem junction (decisive : Bool) {arguments : List Expr}
    (good : ∀ argument ∈ arguments, property argument) :
    comparison.holds valued (Evaluation.junction evaluate decisive arguments)
      fun index => Evaluation.junction (evaluate' index) decisive arguments :=
  comparison.bind (comparison.requireMinimumArity _ _) fun _ _ =>
    searchBoolean evaluates decisive hereditary.boolean good

theorem count {arguments : List Expr} (good : ∀ argument ∈ arguments, property argument) :
    comparison.holds valued (Evaluation.count evaluate arguments)
      fun index => Evaluation.count (evaluate' index) arguments := by
  unfold Evaluation.count
  split
  next predicate list =>
    simp only [List.forall_mem_cons] at good
    refine comparison.bind (evaluates predicate good.1) fun function functionGood => ?_
    refine comparison.bind (comparison.expectLambda functionGood) fun parts partsGood => ?_
    refine comparison.bind (evaluates list good.2.1) fun values valuesGood => ?_
    refine comparison.bind (comparison.expectList valuesGood) fun elements elementsGood => ?_
    refine comparison.bind (comparison.requireExactArity _ _) fun _ _ => ?_
    exact comparison.bind
      (countTrue evaluates fun element member =>
        hereditary.element partsGood elementsGood member)
      fun _ _ => comparison.pure (hereditary.number _)
  next => exact comparison.throw (.exactArity _ _)

theorem applyOperator (op : Operator) {arguments : List Expr}
    (good : ∀ argument ∈ arguments, property argument) :
    comparison.holds valued (Evaluation.applyOperator evaluate op arguments)
      fun index => Evaluation.applyOperator (evaluate' index) op arguments := by
  cases op with
  | plus | minus | times | divide => exact arithmetic hereditary evaluates _ _ good
  | remainder => exact remainder hereditary evaluates good
  | equal => exact equality hereditary evaluates good
  | not => exact negation hereditary evaluates good
  | and | or => exact junction hereditary evaluates _ good
  | count => exact count hereditary evaluates good

/-! ## Forms -/

theorem clauses {parts : List Expr} (good : ∀ part ∈ parts, property part) :
    comparison.holds valued (Evaluation.clauses evaluate parts)
      fun index => Evaluation.clauses (evaluate' index) parts := by
  match parts with
  | [] => exact comparison.pure hereditary.nil
  | [default] => exact evaluates default (good _ (List.mem_singleton.mpr rfl))
  | condition :: result :: parts =>
      simp only [List.forall_mem_cons] at good
      refine comparison.bind (evaluates condition good.1) fun value _ => ?_
      split
      · exact evaluates result good.2.1
      · exact clauses good.2.2

end Comparison

end

/-- The lookups, definitions and calls of an evaluation are related to those of a family. -/
structure Comparison.Rules {valued : Expr → Prop} {σ τ ι : Type}
    (comparison : Comparison valued σ τ ι) (property : Expr → Prop) (rules : NameRules σ)
    (rules' : ι → NameRules τ) : Prop where
  lookUp {name : String} : property (.identifier name) →
    comparison.holds valued (rules.lookUp name) fun index => (rules' index).lookUp name
  define {name : String} {value result : Expr} :
    property (.binding name value) → valued result →
    comparison.holds (fun _ => True) (rules.define name result)
      fun index => (rules' index).define name result
  call {formals : List String} {body : Expr} {arguments : List Expr} :
    valued (.lambda formals body) → (∀ argument ∈ arguments, property argument) →
    comparison.holds valued (rules.call formals body arguments)
      fun index => (rules' index).call formals body arguments

theorem form_application {σ : Type} (rules : NameRules σ) (evaluate : Expr → Action σ Expr)
    {head : Expr} (noOperator : ∀ op, head ≠ .operator op) (arguments : List Expr) :
    form rules evaluate (.application head arguments) =
      evaluate head >>= fun function => expectLambda function >>= fun (formals, body) =>
        rules.call formals body arguments := by
  cases head with
  | operator op => exact absurd rfl (noOperator op)
  | _ => rfl

/-- If the evaluation of parts, lookups, definitions and calls are related, so is the evaluation of
every form. -/
theorem Comparison.form {property valued : Expr → Prop} {σ τ ι : Type}
    {comparison : Comparison valued σ τ ι} (hereditary : Hereditary property valued)
    {evaluate : Expr → Action σ Expr} {evaluate' : ι → Expr → Action τ Expr}
    (evaluates : ∀ expr, property expr →
      comparison.holds valued (evaluate expr) fun index => evaluate' index expr)
    {rules : NameRules σ} {rules' : ι → NameRules τ}
    (rulesHold : comparison.Rules property rules rules') {expr : Expr} (good : property expr) :
    comparison.holds valued (Evaluation.form rules evaluate expr)
      fun index => Evaluation.form (rules' index) (evaluate' index) expr := by
  cases expr with
  | number | boolean | string | symbol | operator | nil | lambda | list =>
      exact comparison.pure (hereditary.value good trivial)
  | identifier name => exact rulesHold.lookUp good
  | ifThen condition consequent =>
      obtain ⟨conditionGood, consequentGood⟩ := hereditary.ifThen good
      refine comparison.bind (evaluates condition conditionGood) fun value _ => ?_
      split
      · exact evaluates consequent consequentGood
      · exact comparison.pure hereditary.nil
  | ifThenElse condition consequent alternative =>
      obtain ⟨conditionGood, consequentGood, alternativeGood⟩ := hereditary.ifThenElse good
      refine comparison.bind (evaluates condition conditionGood) fun value _ => ?_
      split
      · exact evaluates consequent consequentGood
      · exact evaluates alternative alternativeGood
  | binding name value =>
      refine comparison.bind (evaluates value (hereditary.binding good)) fun result resultGood => ?_
      exact comparison.bind (rulesHold.define good resultGood) fun _ _ =>
        comparison.pure resultGood
  | cond parts => exact Comparison.clauses hereditary evaluates fun _ => hereditary.clause good
  | application head arguments =>
      have argumentsGood : ∀ argument ∈ arguments, property argument :=
        fun _ => hereditary.argument good
      by_cases isOperator : ∃ op, head = .operator op
      · obtain ⟨op, rfl⟩ := isOperator
        exact Comparison.applyOperator hereditary evaluates op argumentsGood
      · have noOperator : ∀ op, head ≠ .operator op := fun op same => isOperator ⟨op, same⟩
        simp only [form_application _ _ noOperator]
        have headGood := hereditary.head good
        refine comparison.bind (evaluates head headGood) fun function functionGood => ?_
        refine comparison.bind (comparison.expectLambda functionGood) fun parts partsGood => ?_
        exact rulesHold.call partsGood argumentsGood

/-! ## Invariants -/

/-- Started where the invariant holds, the action leaves it in force: it gives a good result or
fails with one of the allowed failures. -/
def Upholds {σ α : Type} (invariant : σ → Prop) (allowed : Failure → Prop) (good : α → Prop)
    (action : Action σ α) : Prop :=
  ∀ state, invariant state → match action state with
    | .ok result after => invariant after ∧ good result
    | .error failure after => invariant after ∧ allowed failure

namespace Upholds

variable {σ α β : Type} {invariant : σ → Prop} {allowed : Failure → Prop} {good : α → Prop}
  {good' : β → Prop}

theorem pure {result : α} (isGood : good result) :
    Upholds invariant allowed good (Pure.pure result) :=
  fun _ holds => ⟨holds, isGood⟩

theorem throw {failure : Failure} (isAllowed : allowed failure) :
    Upholds invariant allowed good (MonadExcept.throw failure) :=
  fun _ holds => ⟨holds, isAllowed⟩

theorem bind {first : Action σ α} {next : α → Action σ β}
    (upholds : Upholds invariant allowed good first)
    (upholds' : ∀ result, good result → Upholds invariant allowed good' (next result)) :
    Upholds invariant allowed good' (first >>= next) := by
  intro state holds
  have outcome := upholds state holds
  cases same : first state with
  | ok result middle =>
      rw [same] at outcome
      rw [Action.bind_of_ok same]
      exact upholds' result outcome.2 middle outcome.1
  | error failure middle =>
      rw [same] at outcome
      rw [Action.bind_of_error same]
      exact outcome

theorem modify {change : σ → σ} (kept : ∀ state, invariant state → invariant (change state)) :
    Upholds invariant allowed (fun _ => True) (modifyGet fun state => ((), change state)) :=
  fun state holds => ⟨kept state holds, trivial⟩

end Upholds

/-- Upholding an invariant, as a comparison with nothing. -/
def upholding {valued : Expr → Prop} {σ : Type} (invariant : σ → Prop) (allowed : Failure → Prop)
    (allows : ∀ failure, IsCheckFailure valued failure → allowed failure) :
    Comparison valued σ σ Unit where
  holds good action _ := Upholds invariant allowed good action
  pure isGood := .pure isGood
  throw check := .throw (allows _ check)
  bind upholds upholds' := upholds.bind upholds'

/-- What the evaluation of parts, lookups, definitions and calls uphold, the evaluation of every
form does. -/
theorem form_upholds {property valued : Expr → Prop} {σ : Type} {invariant : σ → Prop}
    {allowed : Failure → Prop} (allows : ∀ failure, IsCheckFailure valued failure → allowed failure)
    (hereditary : Hereditary property valued) {evaluate : Expr → Action σ Expr}
    (evaluates : ∀ expr, property expr → Upholds invariant allowed valued (evaluate expr))
    {rules : NameRules σ}
    (rulesHold : (upholding invariant allowed allows).Rules property rules fun _ => rules)
    {expr : Expr} (good : property expr) :
    Upholds invariant allowed valued (form rules evaluate expr) :=
  @Comparison.form property valued σ σ Unit (upholding invariant allowed allows) hereditary evaluate
    (fun _ => evaluate) evaluates rules (fun _ => rules) rulesHold expr good

end Evaluation

end LazyLisp
