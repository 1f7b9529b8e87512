import LazyLisp.Proofs.Evaluation.Order

/-!
# Evaluation in order

Where the open scopes bind only arguments that may be looked up, evaluation looks up no argument
that is being evaluated, and begins to evaluate none a second time.
-/

set_option autoImplicit false

namespace LazyLisp

namespace Evaluation

/-- How an action that is started in the environment may end: in order, and a result is good and
what has begun in between has given a value. -/
def EndsOrderly {α : Type} (good : α → Prop) (environment : Environment) :
    EStateM.Result Failure Environment α → Prop
  | .ok result after => after.Orderly ∧ environment.Finishes after ∧ good result
  | .error _ after => after.Orderly

/-- Where all is in order and the arguments in the open scopes may be looked up, the action ends
so. -/
def KeepsOrder {α : Type} (good : α → Prop) (action : Action Environment α) : Prop :=
  ∀ ⦃environment : Environment⦄, environment.Orderly → environment.Ready →
    EndsOrderly good environment (action environment)

section

variable {α β : Type} {good : α → Prop} {good' : β → Prop} {environment middle : Environment}

theorem EndsOrderly.of_finishes {result : EStateM.Result Failure Environment α}
    (finishes : environment.Finishes middle) (ends : EndsOrderly good middle result) :
    EndsOrderly good environment result := by
  cases result with
  | ok _ _ => exact ⟨ends.1, finishes.trans ends.2.1, ends.2.2⟩
  | error _ _ => exact ends

theorem EndsOrderly.bind {first : Action Environment α} {next : α → Action Environment β}
    (ends : EndsOrderly good environment (first environment))
    (ends' : ∀ result after, after.Orderly → environment.Finishes after → good result →
      EndsOrderly good' after (next result after)) :
    EndsOrderly good' environment ((first >>= next) environment) := by
  cases ended : first environment with
  | ok result middle =>
      rw [ended] at ends
      rw [Action.bind_of_ok ended]
      exact (ends' result middle ends.1 ends.2.1 ends.2.2).of_finishes ends.2.1
  | error failure middle =>
      rw [ended] at ends
      rw [Action.bind_of_error ended]
      exact ends

theorem KeepsOrder.bind {first : Action Environment α} {next : α → Action Environment β}
    (keeps : KeepsOrder good first)
    (keeps' : ∀ result, good result → KeepsOrder good' (next result)) :
    KeepsOrder good' (first >>= next) :=
  fun _ orderly ready => (keeps orderly ready).bind fun result _ orderly' finishes isGood =>
    keeps' result isGood orderly' (ready.later orderly finishes)

end

/-- Keeping order, as a comparison with nothing. -/
def keepingOrder : Comparison (fun _ => True) Environment Environment Unit where
  holds good action _ := KeepsOrder good action
  pure isGood := fun environment orderly _ => ⟨orderly, .refl environment, isGood⟩
  throw _ := fun _ orderly _ => orderly
  bind keeps keeps' := keeps.bind keeps'

theorem called_keepsOrder (formals : List String) (body : Expr) (arguments : Nat) :
    KeepsOrder (fun _ => True) (record (.called formals body arguments)) :=
  fun environment orderly _ =>
    ⟨orderly.record_other nofun nofun, .record environment nofun, trivial⟩

theorem define_keepsOrder (name : String) (value : Expr) :
    KeepsOrder (fun _ => True) (define name value) :=
  fun environment orderly _ => ⟨orderly.define name value, .define environment name _, trivial⟩

theorem inScope_endsOrderly {α : Type} {good : α → Prop} {action : Action Environment α}
    {environment : Environment} {scope : Bindings}
    (ends : EndsOrderly good (environment.push scope) (action (environment.push scope))) :
    EndsOrderly good environment (inScope scope action environment) := by
  cases ended : action (environment.push scope) with
  | ok result after =>
      rw [ended] at ends
      obtain ⟨after', popped, finishes⟩ := ends.2.1.pop
      rw [inScope_of_ok ended popped]
      exact ⟨ends.1.pop popped, finishes, ends.2.2⟩
  | error failure after =>
      rw [ended] at ends
      cases popped : after.pop? with
      | none =>
          simp only [inScope, ended, popped]
          exact ends
      | some outer =>
          rw [inScope_of_error ended popped]
          exact Environment.Orderly.pop ends popped

section

variable {evaluate : Expr → Action Environment Expr}
  (keeps : ∀ expr, KeepsOrder (fun _ => True) (evaluate expr))

include keeps

theorem force_endsOrderly {environment : Environment} (orderly : environment.Orderly)
    (ready : environment.Ready) {index : Nat} (available : environment.Available index)
    {cell : Cell} (found : environment.cells[index]? = some cell) :
    EndsOrderly (fun _ => True) environment (force evaluate index cell environment) := by
  cases unforced : cell.value? with
  | some value =>
      simp only [force, unforced]
      exact ⟨orderly, .refl environment, trivial⟩
  | none =>
      have ends := keeps cell.expr (orderly.switch_forcing available found unforced cell.scopes)
        (ready.switch orderly available found)
      rw [← available.scopesOf_eq found] at ends
      cases ended : evaluate cell.expr _ with
      | ok value after =>
          rw [ended] at ends
          rw [force_of_ok _ unforced ended]
          have finishes := Environment.Finishes.force found unforced value ends.2.1
          exact ⟨((ends.1.restore environment).fill value).record_forced index, finishes, trivial⟩
      | error failure after =>
          rw [ended] at ends
          rw [force_of_error _ unforced ended]
          exact Environment.Orderly.restore ends environment

theorem lookUp_keepsOrder (name : String) : KeepsOrder (fun _ => True) (lookUp evaluate name) := by
  intro environment orderly ready
  cases bound : environment.find? name with
  | none =>
      rw [lookUp_of_unbound evaluate bound]
      exact orderly
  | some slot =>
      cases slot with
      | expr expr =>
          rw [lookUp_of_expr evaluate bound]
          exact ⟨orderly, .refl environment, trivial⟩
      | deferred index =>
          have available := ready.find? orderly bound
          cases found : environment.cells[index]? with
          | none =>
              rw [lookUp_of_missing evaluate bound found]
              exact orderly
          | some cell =>
              rw [lookUp_of_deferred evaluate bound found]
              have finishes : environment.Finishes (environment.record (.lookedUp index)) :=
                .record environment nofun
              have looked : (environment.record (.lookedUp index)).Orderly :=
                orderly.record_lookedUp (available.idle .refl).finished
              exact (force_endsOrderly keeps looked (ready.later orderly finishes)
                (available.later orderly finishes) found).of_finishes finishes

theorem enter_endsOrderly {environment : Environment} (orderly : environment.Orderly)
    (ready : environment.Ready) {cells : List Nat}
    (available : ∀ index ∈ cells, environment.Available index) (formals : List String)
    (body : Expr) :
    EndsOrderly (fun _ => True) environment (enter evaluate cells formals body environment) := by
  induction body using Expr.body_induction generalizing formals environment with
  | lambda formals' body ih =>
      refine (called_keepsOrder _ _ _ orderly ready).bind fun _ after orderly' finishes _ => ?_
      have available' index member := (available index member).later orderly finishes
      have ready' := ready.later orderly finishes
      refine inScope_endsOrderly ?_
      refine EndsOrderly.bind (keepingOrder.requireExactArity _ _ (orderly'.push _)
        (ready'.push formals available')) fun _ after orderly'' finishes' _ => ?_
      exact ih orderly'' ((ready'.push formals available').later (orderly'.push _) finishes')
        (fun index member =>
          ((available' index member).push _).later (orderly'.push _) finishes') formals'
  | other body notLambda =>
      rw [enter_of_not_lambda evaluate notLambda]
      refine (called_keepsOrder _ _ _ orderly ready).bind fun _ after orderly' finishes _ => ?_
      exact inScope_endsOrderly (keeps body (orderly'.push _)
        ((ready.later orderly finishes).push formals
          fun index member => (available index member).later orderly finishes))

theorem call_keepsOrder (formals : List String) (body : Expr) (arguments : List Expr) :
    KeepsOrder (fun _ => True) (call evaluate formals body arguments) := by
  refine KeepsOrder.bind (keepingOrder.requireExactArity _ _) fun _ _ => ?_
  intro environment orderly ready
  have finishes := Environment.Finishes.deferAll environment arguments
  exact EndsOrderly.of_finishes finishes (enter_endsOrderly keeps (orderly.deferAll ready arguments)
    (ready.later orderly finishes) (ready.deferAll orderly arguments) formals body)

end

/-- Every evaluation, to any depth, keeps order. -/
theorem evaluateWithin_keepsOrder (bound : Nat) (expr : Expr) :
    KeepsOrder (fun _ => True) (evaluateWithin bound expr) := by
  induction bound generalizing expr with
  | zero => exact fun _ orderly _ => orderly
  | succ bound ih =>
      have rulesHold : keepingOrder.Rules (fun _ => True) (byNeed (evaluateWithin bound))
          fun _ => byNeed (evaluateWithin bound) := {
        lookUp := fun _ => lookUp_keepsOrder ih _
        define := fun _ _ => define_keepsOrder _ _
        call := fun _ _ => call_keepsOrder ih _ _ _ }
      exact @Comparison.form _ _ _ _ _ keepingOrder hereditary_true (evaluateWithin bound)
        (fun _ => evaluateWithin bound) (fun expr _ => ih expr) _ _ rulesHold expr trivial

end Evaluation

end LazyLisp
