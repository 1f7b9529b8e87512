import LazyLisp.Evaluation.ByNeed
import LazyLisp.Proofs.Evaluation.Comparison

/-!
# Invariants of environments

Evaluation changes an environment in few ways: it records events, defines names, defers arguments,
opens, closes and exchanges scopes, and keeps the values of arguments. What each of these changes
keeps, every evaluation keeps, to any depth, whether it gives a value or fails.
-/

set_option autoImplicit false

namespace LazyLisp

/-! ## The stacks of scopes, and the counts -/

namespace Environment

/-- How many `nan`s have been marked as those of preludes and of programs. -/
def nanCounts (environment : Environment) : Nat × Nat :=
  (environment.preludeNans, environment.programNans)

/-- The open scopes, and the stacks of the groups that wait. -/
def callStacks (environment : Environment) :
    List Bindings × Option Nat × List (Nat × List Bindings) :=
  (environment.scopes, environment.group, environment.waiting)

theorem callStacks_define (environment : Environment) (name : String) (slot : Slot) :
    (environment.define name slot).callStacks = environment.callStacks := by
  unfold define
  split <;> rfl

theorem callStacks_deferIn (environment : Environment) (group : Nat) (exprs : List Expr) :
    (environment.deferIn group exprs).2.callStacks = environment.callStacks := by
  rw [deferIn_eq]
  rfl

/-- Where the stacks are those behind a call's opening of its scope, the scope can be closed. -/
theorem pop?_of_callStacks {environment after : Environment} {scope : Bindings}
    (same : after.callStacks = (environment.push scope).callStacks) :
    ∃ closed, after.pop? = some (scope, closed) ∧ closed.callStacks = environment.callStacks := by
  simp only [callStacks, Prod.mk.injEq] at same
  obtain ⟨scopes, group, waiting⟩ := same
  refine ⟨{ after with scopes := environment.scopes }, ?_, ?_⟩
  · rw [pop?, scopes]
    rfl
  · simp only [callStacks, group, waiting]
    rfl

end Environment

/-! ## What is kept -/

/-- A property of environments that every change by evaluation keeps, as long as expressions with
one property are evaluated and values with another are kept. In such environments only such
expressions and values are found. -/
structure Environment.Invariant (property valued : Expr → Prop) (holds : Environment → Prop) :
    Prop where
  record {environment : Environment} (event : Event) :
    holds environment → holds (environment.record event)
  define {environment : Environment} (name : String) {value : Expr} :
    valued value → holds environment → holds (environment.define name (.expr value))
  deferAll {environment : Environment} {exprs : List Expr} :
    (∀ expr ∈ exprs, property expr) → holds environment → holds (environment.deferAll exprs).2
  push {environment : Environment} (formals : List String) (cells : List Nat) :
    holds environment →
    holds (environment.push (Bindings.ofPairs (formals.zip (cells.map .deferred))))
  pop {environment after : Environment} {scope : Bindings} :
    environment.pop? = some (scope, after) → holds environment → holds after
  switch {environment : Environment} {index : Nat} {cell : Cell} :
    environment.cells[index]? = some cell → holds environment →
    holds (environment.switch (some cell.group) (environment.scopesOf cell))
  restore {environment after : Environment} :
    holds environment → holds after → holds (after.restore environment)
  fill {environment : Environment} (index : Nat) {value : Expr} :
    valued value → holds environment → holds (environment.fill index value)
  found {environment : Environment} {name : String} {expr : Expr} :
    environment.find? name = some (.expr expr) → holds environment → valued expr
  argument {environment : Environment} {index : Nat} {cell : Cell} :
    environment.cells[index]? = some cell → holds environment → property cell.expr
  value {environment : Environment} {index : Nat} {cell : Cell} {value : Expr} :
    environment.cells[index]? = some cell → cell.value? = some value → holds environment →
    valued value

namespace Evaluation

/-- How an action that is started in the environment may end: the stacks are as they were and the
invariant holds, and the action gives a good result or fails with an allowed failure. -/
def Leaves {α : Type} (holds : Environment → Prop) (allowed : Failure → Prop) (good : α → Prop)
    (environment : Environment) : EStateM.Result Failure Environment α → Prop
  | .ok result after => after.callStacks = environment.callStacks ∧ holds after ∧ good result
  | .error failure after =>
    after.callStacks = environment.callStacks ∧ holds after ∧ allowed failure

/-- Wherever the invariant holds, the action ends so. -/
def Preserves {α : Type} (holds : Environment → Prop) (allowed : Failure → Prop) (good : α → Prop)
    (action : Action Environment α) : Prop :=
  ∀ ⦃environment : Environment⦄, holds environment →
    Leaves holds allowed good environment (action environment)

theorem Leaves.of_callStacks {α : Type} {holds : Environment → Prop} {allowed : Failure → Prop}
    {good : α → Prop} {environment middle : Environment}
    {result : EStateM.Result Failure Environment α}
    (same : middle.callStacks = environment.callStacks)
    (leaves : Leaves holds allowed good middle result) :
    Leaves holds allowed good environment result := by
  cases result <;> exact ⟨leaves.1.trans same, leaves.2⟩

theorem Leaves.afterwards {α : Type} {holds : Environment → Prop} {allowed : Failure → Prop}
    {good : α → Prop} {environment : Environment}
    {result : EStateM.Result Failure Environment α}
    (leaves : Leaves holds allowed good environment result) :
    (afterwards result).callStacks = environment.callStacks ∧ holds (afterwards result) := by
  cases result <;> exact ⟨leaves.1, leaves.2.1⟩

namespace Preserves

variable {α β : Type} {holds : Environment → Prop} {allowed : Failure → Prop} {good : α → Prop}
  {good' : β → Prop}

theorem bind {first : Action Environment α} {next : α → Action Environment β}
    (preserves : Preserves holds allowed good first)
    (preserves' : ∀ result, good result → Preserves holds allowed good' (next result)) :
    Preserves holds allowed good' (first >>= next) := by
  intro environment kept
  have outcome := preserves kept
  cases ended : first environment with
  | ok result middle =>
      rw [ended] at outcome
      rw [Action.bind_of_ok ended]
      obtain ⟨same, kept', isGood⟩ := outcome
      exact (preserves' result isGood kept').of_callStacks same
  | error failure middle =>
      rw [ended] at outcome
      rw [Action.bind_of_error ended]
      exact outcome

theorem modify {change : Environment → Environment}
    (same : ∀ environment, (change environment).callStacks = environment.callStacks)
    (kept : ∀ environment, holds environment → holds (change environment)) :
    Preserves holds allowed (fun _ => True)
      (modifyGet fun environment => ((), change environment)) :=
  fun environment holds => ⟨same environment, kept environment holds, trivial⟩

end Preserves

/-- Preserving an invariant, as a comparison with nothing. -/
def preserving {valued : Expr → Prop} (holds : Environment → Prop) {allowed : Failure → Prop}
    (allows : ∀ failure, IsCheckFailure valued failure → allowed failure) :
    Comparison valued Environment Environment Unit where
  holds good action _ := Preserves holds allowed good action
  pure isGood := fun _ kept => ⟨rfl, kept, isGood⟩
  throw check := fun _ kept => ⟨rfl, kept, allows _ check⟩
  bind preserves preserves' := preserves.bind preserves'

section

variable {property valued : Expr → Prop} {holds : Environment → Prop}
  (invariant : Environment.Invariant property valued holds) {allowed : Failure → Prop}

include invariant

theorem record_preserves (event : Event) :
    Preserves holds allowed (fun _ => True) (record event) :=
  .modify (fun _ => rfl) fun _ => invariant.record event

theorem define_preserves (name : String) {value : Expr} (good : valued value) :
    Preserves holds allowed (fun _ => True) (define name value) :=
  .modify (fun environment => environment.callStacks_define name _) fun _ =>
    invariant.define name good

theorem inScope_preserves {α : Type} {good : α → Prop} {action : Action Environment α}
    (preserves : Preserves holds allowed good action) (formals : List String) (cells : List Nat) :
    Preserves holds allowed good
      (inScope (Bindings.ofPairs (formals.zip (cells.map .deferred))) action) := by
  intro environment kept
  have outcome := preserves (invariant.push formals cells kept)
  cases ended : action (environment.push _) with
  | ok result after =>
      rw [ended] at outcome
      obtain ⟨same, kept', isGood⟩ := outcome
      obtain ⟨closed, popped, back⟩ := Environment.pop?_of_callStacks same
      rw [inScope_of_ok ended popped]
      exact ⟨back, invariant.pop popped kept', isGood⟩
  | error failure after =>
      rw [ended] at outcome
      obtain ⟨same, kept', isAllowed⟩ := outcome
      obtain ⟨closed, popped, back⟩ := Environment.pop?_of_callStacks same
      rw [inScope_of_error ended popped]
      exact ⟨back, invariant.pop popped kept', isAllowed⟩

section

variable {evaluate : Expr → Action Environment Expr}
  (preserves : ∀ expr, property expr → Preserves holds allowed valued (evaluate expr))

include preserves

theorem force_leaves {environment : Environment} (kept : holds environment) {index : Nat}
    {cell : Cell} (found : environment.cells[index]? = some cell) :
    Leaves holds allowed valued environment (force evaluate index cell environment) := by
  cases unforced : cell.value? with
  | some value =>
      simp only [force, unforced]
      exact ⟨rfl, kept, invariant.value found unforced kept⟩
  | none =>
      have keptStart := invariant.record (.forcing index) kept
      have switched : holds ((environment.record (.forcing index)).switch (some cell.group)
          (environment.scopesOf cell)) :=
        @invariant.switch (environment.record (.forcing index)) index cell found keptStart
      have outcome := preserves _ (invariant.argument found kept) switched
      cases ended : evaluate cell.expr _ with
      | ok value after =>
          rw [ended] at outcome
          rw [force_of_ok _ unforced ended]
          have back := invariant.restore kept outcome.2.1
          exact ⟨rfl, invariant.record (.forced index) (invariant.fill index outcome.2.2 back),
            outcome.2.2⟩
      | error failure after =>
          rw [ended] at outcome
          rw [force_of_error _ unforced ended]
          exact ⟨rfl, invariant.restore kept outcome.2.1, outcome.2.2⟩

theorem lookUp_preserves {name : String} (unknown : allowed (.unknownSymbol name)) :
    Preserves holds allowed valued (lookUp evaluate name) := by
  intro environment kept
  cases bound : environment.find? name with
  | none =>
      rw [lookUp_of_unbound evaluate bound]
      exact ⟨rfl, kept, unknown⟩
  | some slot =>
      cases slot with
      | expr expr =>
          rw [lookUp_of_expr evaluate bound]
          exact ⟨rfl, kept, invariant.found bound kept⟩
      | deferred index =>
          cases found : environment.cells[index]? with
          | none =>
              rw [lookUp_of_missing evaluate bound found]
              exact ⟨rfl, kept, unknown⟩
          | some cell =>
              rw [lookUp_of_deferred evaluate bound found]
              exact (force_leaves invariant preserves (invariant.record (.lookedUp index) kept)
                found).of_callStacks rfl

variable (allows : ∀ failure, IsCheckFailure valued failure → allowed failure)
  (hereditary : Hereditary property valued)

include allows hereditary

/-- A body that is a lambda is entered like one that has been evaluated. -/
theorem enter_preserves (cells : List Nat) (formals : List String) {body : Expr}
    (good : property body) :
    Preserves holds allowed valued (enter evaluate cells formals body) := by
  induction body using Expr.body_induction generalizing formals with
  | lambda formals' body ih =>
      refine (record_preserves invariant _).bind fun _ _ =>
        inScope_preserves invariant ?_ formals cells
      exact ((preserving holds allows).requireExactArity _ _).bind fun _ _ =>
        ih formals' (hereditary.body (hereditary.value good trivial))
  | other body notLambda =>
      rw [enter_of_not_lambda evaluate notLambda]
      exact (record_preserves invariant _).bind fun _ _ =>
        inScope_preserves invariant (preserves body good) formals cells

theorem call_preserves {formals : List String} {body : Expr} {arguments : List Expr}
    (good : property body) (argumentsGood : ∀ argument ∈ arguments, property argument) :
    Preserves holds allowed valued (call evaluate formals body arguments) := by
  refine Preserves.bind ((preserving holds allows).requireExactArity _ _) fun _ _ => ?_
  have defer_preserves : Preserves holds allowed (fun _ => True)
      (modifyGet (·.deferAll arguments) : Action Environment (List Nat)) :=
    fun environment kept =>
      ⟨environment.callStacks_deferIn _ _, invariant.deferAll argumentsGood kept, trivial⟩
  exact defer_preserves.bind fun cells _ =>
    enter_preserves invariant preserves allows hereditary cells formals good

end

end

/-- Every evaluation of an expression with the property preserves an invariant and the stacks, gives
a value with the property of values, or fails because of a check, an unbound name or its depth. -/
theorem evaluateWithin_preserves {property valued : Expr → Prop} {holds : Environment → Prop}
    (invariant : Environment.Invariant property valued holds)
    (hereditary : Hereditary property valued) {allowed : Failure → Prop}
    (allows : ∀ failure, IsCheckFailure valued failure → allowed failure)
    (unknown : ∀ name, property (.identifier name) → allowed (.unknownSymbol name))
    (tooDeep : allowed .tooDeep) (bound : Nat) {expr : Expr} (good : property expr) :
    Preserves holds allowed valued (evaluateWithin bound expr) := by
  induction bound generalizing expr with
  | zero => exact fun _ kept => ⟨rfl, kept, tooDeep⟩
  | succ bound ih =>
      have rulesHold : (preserving holds allows).Rules property (byNeed (evaluateWithin bound))
          fun _ => byNeed (evaluateWithin bound) := {
        lookUp := fun known => lookUp_preserves invariant (fun _ => ih) (unknown _ known)
        define := fun _ valueGood => define_preserves invariant _ valueGood
        call := fun lambdaGood argumentsGood =>
          call_preserves invariant (fun _ => ih) allows hereditary (hereditary.body lambdaGood)
            argumentsGood }
      exact @Comparison.form _ _ _ _ _ (preserving holds allows) hereditary (evaluateWithin bound)
        (fun _ => evaluateWithin bound) (fun _ => ih) _ _ rulesHold expr good

/-! ## The stacks -/

theorem invariant_true :
    Environment.Invariant (fun _ => True) (fun _ => True) fun _ => True := by
  constructor <;> intros <;> trivial

/-- The action leaves the stacks as they were, whatever else it does. -/
def KeepsStacks {α : Type} (action : Action Environment α) : Prop :=
  Preserves (fun _ => True) (fun _ => True) (fun _ => True) action

theorem enter_keepsStacks {evaluate : Expr → Action Environment Expr}
    (keeps : ∀ expr, KeepsStacks (evaluate expr)) (cells : List Nat) (formals : List String)
    (body : Expr) : KeepsStacks (enter evaluate cells formals body) :=
  enter_preserves invariant_true (fun expr _ => keeps expr) (fun _ _ => trivial) hereditary_true
    cells formals trivial

/-- Keeping the stacks, as a comparison with nothing. -/
def keepingStacks : Comparison (fun _ => True) Environment Environment Unit :=
  @preserving _ (fun _ => True) (fun _ => True) fun _ _ => trivial

theorem byNeed_keepsStacks {evaluate : Expr → Action Environment Expr}
    (keeps : ∀ expr, KeepsStacks (evaluate expr)) :
    keepingStacks.Rules (fun _ => True) (byNeed evaluate) fun _ => byNeed evaluate where
  lookUp _ := lookUp_preserves invariant_true (fun expr _ => keeps expr) trivial
  define _ _ := define_preserves invariant_true _ trivial
  call _ _ := call_preserves invariant_true (fun expr _ => keeps expr) (fun _ _ => trivial)
    hereditary_true trivial fun _ _ => trivial

theorem form_keepsStacks {rules : NameRules Environment}
    {evaluate : Expr → Action Environment Expr} (keeps : ∀ expr, KeepsStacks (evaluate expr))
    (rulesKeep : keepingStacks.Rules (fun _ => True) rules fun _ => rules) (expr : Expr) :
    KeepsStacks (form rules evaluate expr) :=
  @Comparison.form _ _ _ _ _ keepingStacks hereditary_true evaluate (fun _ => evaluate)
    (fun expr _ => keeps expr) _ _ rulesKeep expr trivial

theorem evaluateWithin_keepsStacks (bound : Nat) (expr : Expr) :
    KeepsStacks (evaluateWithin bound expr) :=
  evaluateWithin_preserves invariant_true hereditary_true (fun _ _ => trivial)
    (fun _ _ => trivial) trivial bound trivial

theorem KeepsStacks.afterwards {α : Type} {action : Action Environment α}
    (keeps : KeepsStacks action) (environment : Environment) :
    (afterwards (action environment)).callStacks = environment.callStacks :=
  (@keeps environment trivial).afterwards.1

/-! ## The counted nans -/

theorem invariant_nanCounts (counts : Nat × Nat) :
    Environment.Invariant (fun _ => True) (fun _ => True) fun environment =>
      environment.nanCounts = counts where
  record _ same := same
  define name value _ same := by
    unfold Environment.define
    split <;> exact same
  deferAll _ same := by
    rw [Environment.deferAll, Environment.deferIn_eq]
    exact same
  push _ _ same := same
  pop popped same := by
    unfold Environment.pop? at popped
    split at popped
    next => cases popped
    next =>
      cases popped
      exact same
  switch _ same := same
  restore _ same := same
  fill _ _ _ same := same
  found _ _ := trivial
  argument _ _ := trivial
  value _ _ _ := trivial

/-- Evaluation marks no `nan`s. -/
theorem nanCounts_afterwards (bound : Nat) (expr : Expr) (environment : Environment) :
    (afterwards (evaluateWithin bound expr environment)).nanCounts = environment.nanCounts :=
  (@evaluateWithin_preserves _ _ _ (invariant_nanCounts environment.nanCounts) hereditary_true
    (fun _ => True) (fun _ _ => trivial) (fun _ _ => trivial) trivial bound expr trivial
    environment rfl).afterwards.2

end Evaluation

end LazyLisp
