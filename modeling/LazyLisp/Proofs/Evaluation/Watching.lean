import LazyLisp.Proofs.Evaluation.Invariant

/-!
# Watching an evaluation

An evaluation that is watched records each of the watched expressions when its evaluation begins,
among the other events of the trace. Two evaluations that leave the same environment have then also
evaluated the same watched expressions in the same order. Watching adds these events and changes
nothing else.
-/

set_option autoImplicit false

namespace LazyLisp

/-! ## The events of watching -/

def Event.isEvaluating : Event → Bool
  | .evaluating _ => true
  | .called _ _ _ | .rebound _ | .lookedUp _ | .forcing _ | .forced _ | .preludeLoaded _
  | .preludeMissing _ | .trailingIgnored _ | .running _ => false

namespace Environment

/-- The environment without the events that tell which expressions are evaluated. -/
def unwatched (environment : Environment) : Environment :=
  { environment with events := environment.events.filter (!·.isEvaluating) }

theorem unwatched_record_evaluating (environment : Environment) (expr : Expr) :
    (environment.record (.evaluating expr)).unwatched = environment.unwatched := by
  simp [unwatched, record, Event.isEvaluating]

theorem unwatched_record (environment : Environment) {event : Event}
    (other : event.isEvaluating = false) :
    (environment.record event).unwatched = environment.unwatched.record event := by
  simp [unwatched, record, other]

theorem unwatched_define (environment : Environment) (name : String) (slot : Slot) :
    (environment.define name slot).unwatched = environment.unwatched.define name slot := by
  by_cases bound : environment.table.contains name = true
  · have rebound := environment.unwatched_record (rfl : (Event.rebound name).isEvaluating = false)
    simp only [unwatched, record, mk.injEq, true_and, and_true] at rebound
    simp only [define, unwatched, bound, if_true, record, rebound]
  · simp only [define, unwatched, bound]
    rfl

theorem deferAll_unwatched (environment : Environment) (exprs : List Expr) :
    environment.unwatched.deferAll exprs =
      ((environment.deferAll exprs).1, (environment.deferAll exprs).2.unwatched) := by
  simp only [deferAll, deferIn_eq]
  rfl

end Environment

namespace Evaluation

/-! ## Watched evaluation -/

section

variable (watched : Expr → Bool)

def watch (expr : Expr) : Action Environment Unit :=
  if watched expr then record (.evaluating expr) else pure ()

/-- Evaluation by need to a depth less than the bound that is watched. -/
def watchedWithin : Nat → Expr → Action Environment Expr
  | 0, _ => throw .tooDeep
  | bound + 1, expr => do
    watch watched expr
    form (byNeed (watchedWithin bound)) (watchedWithin bound) expr

/-- The environment in which the form of an expression is evaluated when it is watched. -/
def noting (expr : Expr) (environment : Environment) : Environment :=
  if watched expr then environment.record (.evaluating expr) else environment

end

variable {watched : Expr → Bool}

theorem watch_eq (expr : Expr) (environment : Environment) :
    watch watched expr environment = .ok () (noting watched expr environment) := by
  unfold watch noting
  split <;> rfl

theorem watchedWithin_succ (bound : Nat) (expr : Expr) (environment : Environment) :
    watchedWithin watched (bound + 1) expr environment =
      form (byNeed (watchedWithin watched bound)) (watchedWithin watched bound) expr
        (noting watched expr environment) :=
  Action.bind_of_ok (watch_eq expr environment) _

theorem watchedWithin_of_unwatched {expr : Expr} (isUnwatched : watched expr = false)
    (bound : Nat) : watchedWithin watched (bound + 1) expr =
      form (byNeed (watchedWithin watched bound)) (watchedWithin watched bound) expr := by
  simp only [watchedWithin, watch, isUnwatched, Bool.false_eq_true, if_false]
  rfl

/-- If nothing is watched, evaluation is as usual. -/
theorem watchedWithin_nothing : watchedWithin (fun _ => false) = evaluateWithin := by
  funext bound
  induction bound with
  | zero => rfl
  | succ bound ih =>
      funext expr
      rw [watchedWithin_of_unwatched rfl, ih, evaluateWithin]

theorem watch_keepsStacks (expr : Expr) : KeepsStacks (watch watched expr) := by
  unfold watch
  split
  · exact record_preserves invariant_true _
  · exact fun _ _ => ⟨rfl, trivial, trivial⟩

theorem watchedWithin_keepsStacks (bound : Nat) (expr : Expr) :
    KeepsStacks (watchedWithin watched bound expr) := by
  induction bound generalizing expr with
  | zero => exact fun _ _ => ⟨rfl, trivial, trivial⟩
  | succ bound ih =>
      apply (watch_keepsStacks expr).bind
      intro _ _
      exact form_keepsStacks ih (byNeed_keepsStacks ih) expr

/-! ## Watching changes nothing else -/

/-- A result with the events of watching taken out of the trace. -/
def unwatchedResult {α : Type} :
    EStateM.Result Failure Environment α → EStateM.Result Failure Environment α
  | .ok result after => .ok result after.unwatched
  | .error failure after => .error failure after.unwatched

/-- The second action does what the first one does, without the events of watching. -/
def Unwatches {α : Type} (good : α → Prop) (action action' : Action Environment α) : Prop :=
  ∀ environment : Environment,
    action' environment.unwatched = unwatchedResult (action environment) ∧
      ∀ ⦃result : α⦄ ⦃after : Environment⦄, action environment = .ok result after → good result

namespace Unwatches

variable {α β : Type} {good : α → Prop} {good' : β → Prop}

theorem bind {first first' : Action Environment α} {next next' : α → Action Environment β}
    (unwatches : Unwatches good first first')
    (unwatches' : ∀ result, good result → Unwatches good' (next result) (next' result)) :
    Unwatches good' (first >>= next) (first' >>= next') := by
  intro environment
  obtain ⟨same, isGood⟩ := unwatches environment
  cases ended : first environment with
  | ok result middle =>
      rw [ended] at same
      rw [Action.bind_of_ok ended, Action.bind_of_ok same]
      exact unwatches' result (isGood ended) middle
  | error failure middle =>
      rw [ended] at same
      rw [Action.bind_of_error ended, Action.bind_of_error same]
      exact ⟨rfl, nofun⟩

theorem modify {change : Environment → Environment}
    (same : ∀ environment, (change environment).unwatched = change environment.unwatched) :
    Unwatches (fun _ => True) (modifyGet fun environment => ((), change environment))
      (modifyGet fun environment => ((), change environment)) := by
  intro environment
  constructor
  · exact congrArg (EStateM.Result.ok ()) (same environment).symm
  · exact fun _ _ _ => trivial

theorem inScope {action action' : Action Environment α} (unwatches : Unwatches good action action')
    (scope : Bindings) :
    Unwatches good (Evaluation.inScope scope action) (Evaluation.inScope scope action') := by
  intro environment
  obtain ⟨same, isGood⟩ := unwatches (environment.push scope)
  have same' : action' (environment.unwatched.push scope) =
      unwatchedResult (action (environment.push scope)) := same
  simp only [Evaluation.inScope, same']
  cases ended : action (environment.push scope) with
  | ok result after =>
      cases scopes : after.scopes with
      | nil => simp [unwatchedResult, Environment.pop?, Environment.unwatched, scopes]
      | cons closed scopes' =>
          have resultGood := isGood ended
          simpa [unwatchedResult, Environment.pop?, Environment.unwatched, scopes]
  | error failure after =>
      cases scopes : after.scopes with
      | nil => simp [unwatchedResult, Environment.pop?, Environment.unwatched, scopes]
      | cons closed scopes' =>
          simp [unwatchedResult, Environment.pop?, Environment.unwatched, scopes]

end Unwatches

/-- Leaving out the events of watching, as a comparison with one other evaluation. -/
def unwatching : Comparison (fun _ => True) Environment Environment Unit where
  holds good action action' := Unwatches good action (action' ())
  pure isGood := fun _ => ⟨rfl, fun _ _ ended => by cases ended; exact isGood⟩
  throw _ := fun _ => ⟨rfl, nofun⟩
  bind unwatches unwatches' := unwatches.bind unwatches'

theorem record_unwatches {event : Event} (other : event.isEvaluating = false) :
    Unwatches (fun _ => True) (record event) (record event) :=
  .modify fun environment => environment.unwatched_record other

section

variable {evaluate evaluate' : Expr → Action Environment Expr}
  (unwatches : ∀ expr, Unwatches (fun _ => True) (evaluate expr) (evaluate' expr))

include unwatches

theorem force_unwatches (index : Nat) (cell : Cell) :
    Unwatches (fun _ => True) (force evaluate index cell) (force evaluate' index cell) := by
  intro environment
  refine ⟨?_, fun _ _ _ => trivial⟩
  cases unforced : cell.value? with
  | some value =>
      simp only [force, unforced]
      rfl
  | none =>
      let start := (environment.record (.forcing index)).switch (some cell.group)
        (environment.scopesOf cell)
      have started : start.unwatched = (environment.unwatched.record (.forcing index)).switch
          (some cell.group) (environment.unwatched.scopesOf cell) := by
        rw [← environment.unwatched_record (rfl : (Event.forcing index).isEvaluating = false)]
        rfl
      have same := (unwatches cell.expr start).1
      rw [started] at same
      cases ended : evaluate cell.expr start with
      | ok value after =>
          rw [ended] at same
          rw [force_of_ok _ unforced ended, force_of_ok _ unforced same, unwatchedResult,
            Environment.unwatched_record _ rfl]
          rfl
      | error failure after =>
          rw [ended] at same
          rw [force_of_error _ unforced ended, force_of_error _ unforced same]
          rfl

theorem lookUp_unwatches (name : String) :
    Unwatches (fun _ => True) (lookUp evaluate name) (lookUp evaluate' name) := by
  intro environment
  refine ⟨?_, fun _ _ _ => trivial⟩
  have sameFind : environment.unwatched.find? name = environment.find? name := rfl
  cases bound : environment.find? name with
  | none =>
      rw [lookUp_of_unbound _ bound, lookUp_of_unbound _ (sameFind.trans bound)]
      rfl
  | some slot =>
      cases slot with
      | expr expr =>
          rw [lookUp_of_expr _ bound, lookUp_of_expr _ (sameFind.trans bound)]
          rfl
      | deferred index =>
          have sameCell : environment.unwatched.cells[index]? = environment.cells[index]? := rfl
          cases found : environment.cells[index]? with
          | none =>
              rw [lookUp_of_missing _ bound found,
                lookUp_of_missing _ (sameFind.trans bound) (sameCell.trans found)]
              rfl
          | some cell =>
              rw [lookUp_of_deferred _ bound found,
                lookUp_of_deferred _ (sameFind.trans bound) (sameCell.trans found),
                ← environment.unwatched_record (rfl : (Event.lookedUp index).isEvaluating = false)]
              exact (force_unwatches unwatches index cell _).1

theorem enter_unwatches (cells : List Nat) (formals : List String) (body : Expr) :
    Unwatches (fun _ => True) (enter evaluate cells formals body)
      (enter evaluate' cells formals body) := by
  induction body using Expr.body_induction generalizing formals with
  | lambda formals' body ih =>
      apply (record_unwatches rfl).bind
      intro _ _
      apply Unwatches.inScope
      apply (unwatching.requireExactArity _ _).bind
      intro _ _
      exact ih formals'
  | other body notLambda =>
      rw [enter_of_not_lambda _ notLambda, enter_of_not_lambda _ notLambda]
      apply (record_unwatches rfl).bind
      intro _ _
      exact (unwatches body).inScope _

theorem call_unwatches (formals : List String) (body : Expr) (arguments : List Expr) :
    Unwatches (fun _ => True) (call evaluate formals body arguments)
      (call evaluate' formals body arguments) := by
  apply (unwatching.requireExactArity _ _).bind
  intro _ _
  have deferred : Unwatches (fun _ => True)
      (modifyGet (·.deferAll arguments) : Action Environment (List Nat))
      (modifyGet (·.deferAll arguments)) := by
    intro environment
    refine ⟨?_, fun _ _ _ => trivial⟩
    exact congrArg (fun deferred => EStateM.Result.ok deferred.1 deferred.2)
      (environment.deferAll_unwatched arguments)
  apply deferred.bind
  intro cells _
  exact enter_unwatches unwatches cells formals body

end

/-- An evaluation that is watched does what the evaluation does otherwise, and adds only the events
of watching to the trace. -/
theorem evaluateWithin_unwatches (bound : Nat) (expr : Expr) :
    Unwatches (fun _ => True) (watchedWithin watched bound expr) (evaluateWithin bound expr) := by
  induction bound generalizing expr with
  | zero => exact fun _ => ⟨rfl, nofun⟩
  | succ bound ih =>
      have rulesHold : unwatching.Rules (fun _ => True) (byNeed (watchedWithin watched bound))
          fun _ => byNeed (evaluateWithin bound) := {
        lookUp := fun _ => lookUp_unwatches ih _
        define := fun _ _ => .modify fun environment => environment.unwatched_define _ _
        call := fun _ _ => call_unwatches ih _ _ _ }
      have formUnwatches := @Comparison.form _ _ _ _ _ unwatching hereditary_true
        (watchedWithin watched bound) (fun _ => evaluateWithin bound) (fun expr _ => ih expr) _ _
        rulesHold expr trivial
      have watchUnwatches : Unwatches (fun _ => True) (watch watched expr) (pure ()) := by
        intro environment
        refine ⟨?_, fun _ _ _ => trivial⟩
        unfold watch
        split
        · exact congrArg (EStateM.Result.ok ())
            (environment.unwatched_record_evaluating expr).symm
        · rfl
      exact watchUnwatches.bind fun _ _ => formUnwatches

end Evaluation

end LazyLisp
