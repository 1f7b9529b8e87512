import LazyLisp.Evaluation.ByNeed
import LazyLisp.Proofs.Evaluation.Comparison

/-!
# The discipline of scopes

Calls open scopes and forcing exchanges all of them, at any depth and with failures anywhere in
between. In the end the scopes are those of the beginning. What may have changed in them is that
deferred arguments have got their values.
-/

set_option autoImplicit false

namespace LazyLisp

/-- A deferred argument and the same one later: either nothing has changed, or it had no value and
has got one. -/
inductive Cell.Settles (cell : Cell) : Cell → Prop where
  | same : Settles cell cell
  | forced (value : Expr) : cell.value? = none → Settles cell { cell with value? := some value }

/-- What evaluation may do to an environment. The scopes stay, and so do the stacks of all groups;
deferred arguments may get values and others may be added; each name of the session table keeps its
place, and new names come last. -/
structure Environment.Settles (before after : Environment) : Prop where
  scopes : after.scopes = before.scopes
  group : after.group = before.group
  waiting : after.waiting = before.waiting
  cells {index : Nat} {cell : Cell} :
    before.cells[index]? = some cell →
    ∃ cell', after.cells[index]? = some cell' ∧ cell.Settles cell'
  names : before.table.map Prod.fst <+: after.table.map Prod.fst

theorem Cell.Settles.trans {first second third : Cell} (settles : first.Settles second)
    (settles' : second.Settles third) : first.Settles third := by
  cases settles with
  | same => exact settles'
  | forced value unforced =>
      cases settles' with
      | same => exact .forced value unforced
      | forced value' unforced' => cases unforced'

namespace Environment.Settles

variable {before middle after : Environment}

theorem refl (environment : Environment) : environment.Settles environment where
  scopes := rfl
  group := rfl
  waiting := rfl
  cells found := ⟨_, found, .same⟩
  names := List.prefix_refl _

theorem trans (settles : before.Settles middle) (settles' : middle.Settles after) :
    before.Settles after where
  scopes := settles'.scopes.trans settles.scopes
  group := settles'.group.trans settles.group
  waiting := settles'.waiting.trans settles.waiting
  cells found := by
    obtain ⟨cell, found', cellSettles⟩ := settles.cells found
    obtain ⟨cell', found'', cellSettles'⟩ := settles'.cells found'
    exact ⟨cell', found'', cellSettles.trans cellSettles'⟩
  names := settles.names.trans settles'.names

theorem record (environment : Environment) (event : Event) :
    environment.Settles (environment.record event) where
  scopes := rfl
  group := rfl
  waiting := rfl
  cells found := ⟨_, found, .same⟩
  names := List.prefix_refl _

theorem define (environment : Environment) (name : String) (slot : Slot) :
    environment.Settles (environment.define name slot) := by
  have insertion (environment : Environment) :
      environment.Settles { environment with table := environment.table.insert name slot } := by
    refine ⟨rfl, rfl, rfl, fun found => ⟨_, found, .same⟩, ?_⟩
    rw [Bindings.names_insert]
    split
    · exact List.prefix_refl _
    · exact List.prefix_append _ _
  rw [Environment.define]
  split
  · exact (record environment _).trans (insertion (environment.record (.rebound name)))
  · exact insertion environment

theorem push (environment : Environment) (added : Cell) :
    environment.Settles { environment with cells := environment.cells.push added } := by
  refine ⟨rfl, rfl, rfl, fun {index cell} found => ⟨cell, ?_, .same⟩, List.prefix_refl _⟩
  obtain ⟨inside, -⟩ := Array.getElem?_eq_some_iff.mp found
  rw [Array.getElem?_push_lt inside, ← found, Array.getElem?_eq_getElem inside]

theorem deferIn (environment : Environment) (group : Nat) (exprs : List Expr) :
    environment.Settles (environment.deferIn group exprs).2 := by
  induction exprs generalizing environment with
  | nil => exact refl environment
  | cons expr exprs ih =>
      refine trans (push environment ⟨expr, group, environment.scopes, none⟩) (ih _)

theorem pop {scope : Bindings} (settles : (before.push scope).Settles after) :
    ∃ after', after.pop? = some (scope, after') ∧ before.Settles after' := by
  refine ⟨{ after with scopes := before.scopes }, ?_, rfl, settles.group, settles.waiting,
    settles.cells, settles.names⟩
  rw [Environment.pop?, settles.scopes]
  rfl

theorem restore {group : Option Nat} {scopes : List Bindings}
    (settles : (before.switch group scopes).Settles after) :
    before.Settles (after.restore before) :=
  ⟨rfl, rfl, rfl, settles.cells, settles.names⟩

/-- An argument that had no value at the beginning may get one, also if it has got another one in
the meantime. -/
theorem fill {index : Nat} {cell : Cell} (found : before.cells[index]? = some cell)
    (unforced : cell.value? = none) (value : Expr) (settles : before.Settles after) :
    before.Settles (after.fill index value) := by
  refine ⟨settles.scopes, settles.group, settles.waiting, fun {other old} found' => ?_,
    settles.names⟩
  obtain ⟨present, foundPresent, cellSettles⟩ := settles.cells found'
  rw [Environment.fill, Array.getElem?_modify, foundPresent, Option.map_some]
  split
  next same =>
    subst same
    cases Option.some.inj (found.symm.trans found')
    refine ⟨_, rfl, ?_⟩
    cases cellSettles <;> exact .forced value unforced
  next => exact ⟨present, rfl, cellSettles⟩

end Environment.Settles

namespace Evaluation

/-- An action that settles the environment it is started in, whether it gives a result or fails,
and that never closes a scope that is not open. -/
def SettlesFrom {α : Type} (environment : Environment) (action : Action Environment α) : Prop :=
  match action environment with
  | .ok _ after => environment.Settles after
  | .error failure after => environment.Settles after ∧ failure ≠ .noScope

theorem upholds_of_settlesFrom {α : Type} {action : Action Environment α}
    (settles : ∀ environment, SettlesFrom environment action) (start : Environment) :
    Upholds start.Settles (· ≠ .noScope) (fun _ => True) action := by
  intro environment settled
  have outcome := settles environment
  unfold SettlesFrom at outcome
  split
  next same =>
    rw [same] at outcome
    exact ⟨settled.trans outcome, trivial⟩
  next same =>
    rw [same] at outcome
    exact ⟨settled.trans outcome.1, outcome.2⟩

theorem settlesFrom_of_upholds {α : Type} {action : Action Environment α}
    {environment : Environment}
    (upholds : Upholds environment.Settles (· ≠ .noScope) (fun _ => True) action) :
    SettlesFrom environment action := by
  have outcome := upholds environment (.refl environment)
  unfold SettlesFrom
  split
  next same =>
    rw [same] at outcome
    exact outcome.1
  next same =>
    rw [same] at outcome
    exact outcome

/-- Settling the environment of the start, as an invariant of what is evaluated from there on. -/
def settling (start : Environment) : Comparison (fun _ => True) Environment Environment Unit :=
  upholding start.Settles (· ≠ .noScope) fun _ check => check.ne_noScope

/-! ## Scopes -/

theorem inScopes_settles {α : Type} {action : Action Environment α}
    (settles : ∀ environment, SettlesFrom environment action) (group : Option Nat)
    (scopes : List Bindings) (environment : Environment) :
    SettlesFrom environment (inScopes group scopes action) := by
  have outcome := settles (environment.switch group scopes)
  unfold SettlesFrom at outcome ⊢
  simp only [inScopes]
  cases same : action (environment.switch group scopes) with
  | ok result after =>
      rw [same] at outcome
      exact outcome.restore
  | error failure after =>
      rw [same] at outcome
      exact ⟨outcome.1.restore, outcome.2⟩

theorem inScope_settles {α : Type} {action : Action Environment α}
    (settles : ∀ environment, SettlesFrom environment action) (scope : Bindings)
    (environment : Environment) : SettlesFrom environment (inScope scope action) := by
  have outcome := settles (environment.push scope)
  unfold SettlesFrom at outcome ⊢
  simp only [inScope]
  cases same : action (environment.push scope) with
  | ok result after =>
      rw [same] at outcome
      obtain ⟨after', popped, settles'⟩ := outcome.pop
      simp only [popped]
      exact settles'
  | error failure after =>
      rw [same] at outcome
      obtain ⟨after', popped, settles'⟩ := outcome.1.pop
      simp only [popped]
      exact ⟨settles', outcome.2⟩

theorem record_upholds (start : Environment) (event : Event) :
    Upholds start.Settles (· ≠ .noScope) (fun _ => True) (record event) :=
  .modify fun environment settled => settled.trans (.record environment event)

theorem define_upholds (start : Environment) (name : String) (value : Expr) :
    Upholds start.Settles (· ≠ .noScope) (fun _ => True) (define name value) :=
  .modify fun environment settled => settled.trans (.define environment name (.expr value))

/-! ## Names and calls -/

section

variable {evaluate : Expr → Action Environment Expr}
  (settles : ∀ expr environment, SettlesFrom environment (evaluate expr))

include settles

theorem force_upholds {start : Environment} {index : Nat} {deferred : Cell}
    (found : start.cells[index]? = some deferred) :
    Upholds start.Settles (· ≠ .noScope) (fun _ => True) (force evaluate index deferred) := by
  unfold force
  cases unforced : deferred.value? with
  | some value => exact .pure trivial
  | none =>
      refine (record_upholds start _).bind fun _ _ => ?_
      have get_upholds : Upholds start.Settles (· ≠ .noScope) (fun _ => True)
          (get : Action Environment Environment) := fun _ settled => ⟨settled, trivial⟩
      refine get_upholds.bind fun environment _ => ?_
      refine (upholds_of_settlesFrom (inScopes_settles (settles deferred.expr) _ _) start).bind
        fun value _ => ?_
      refine Upholds.bind (.modify fun environment settled => settled.fill found unforced value)
        fun _ _ => ?_
      exact (record_upholds start _).bind fun _ _ => .pure trivial

theorem lookUp_settles (name : String) (environment : Environment) :
    SettlesFrom environment (lookUp evaluate name) := by
  unfold SettlesFrom
  cases bound : environment.find? name with
  | none =>
      rw [lookUp_of_unbound evaluate bound]
      exact ⟨.refl environment, nofun⟩
  | some slot =>
      cases slot with
      | expr expr =>
          rw [lookUp_of_expr evaluate bound]
          exact .refl environment
      | deferred index =>
          cases found : environment.cells[index]? with
          | none =>
              rw [lookUp_of_missing evaluate bound found]
              exact ⟨.refl environment, nofun⟩
          | some cell =>
              rw [lookUp_of_deferred evaluate bound found]
              exact settlesFrom_of_upholds ((record_upholds environment (.lookedUp index)).bind
                fun _ _ => force_upholds settles found)

theorem enter_settles (cells : List Nat) (formals : List String) (body : Expr)
    (environment : Environment) : SettlesFrom environment (enter evaluate cells formals body) := by
  induction body using Expr.body_induction generalizing formals environment with
  | lambda formals' body ih =>
      have settlesInner (environment : Environment) : SettlesFrom environment (do
          requireExactArity formals'.length cells.length
          enter evaluate cells formals' body) :=
        settlesFrom_of_upholds (((settling environment).requireExactArity _ _).bind fun _ _ =>
          upholds_of_settlesFrom (ih formals') environment)
      exact settlesFrom_of_upholds ((record_upholds environment _).bind fun _ _ =>
        upholds_of_settlesFrom (inScope_settles settlesInner _) environment)
  | other body notLambda =>
      rw [enter_of_not_lambda evaluate notLambda]
      exact settlesFrom_of_upholds ((record_upholds environment _).bind fun _ _ =>
        upholds_of_settlesFrom (inScope_settles (settles body) _) environment)

theorem call_settles (formals : List String) (body : Expr) (arguments : List Expr)
    (environment : Environment) :
    SettlesFrom environment (call evaluate formals body arguments) := by
  refine settlesFrom_of_upholds (((settling environment).requireExactArity _ _).bind fun _ _ => ?_)
  have defer_upholds : Upholds environment.Settles (· ≠ .noScope) (fun _ => True)
      (modifyGet (·.deferAll arguments) : Action Environment (List Nat)) :=
    fun present settled => ⟨settled.trans (.deferIn present _ arguments), trivial⟩
  exact defer_upholds.bind fun cells _ =>
    upholds_of_settlesFrom (enter_settles settles cells formals body) environment

end

/-- Every evaluation, to any depth, settles the environment it is started in: it leaves the scopes
as they were but for values that deferred arguments have got, and it appends names to the session
table at most. It never closes a scope that is not open. -/
theorem evaluateWithin_settles (bound : Nat) (expr : Expr) (environment : Environment) :
    SettlesFrom environment (evaluateWithin bound expr) := by
  induction bound generalizing expr environment with
  | zero => exact settlesFrom_of_upholds (.throw nofun)
  | succ bound ih =>
      refine settlesFrom_of_upholds ?_
      have rulesHold : (settling environment).Rules (fun _ => True)
          (byNeed (evaluateWithin bound)) fun _ => byNeed (evaluateWithin bound) := {
        lookUp := fun _ => upholds_of_settlesFrom (lookUp_settles ih _) environment
        define := fun _ _ => define_upholds environment _ _
        call := fun _ _ => upholds_of_settlesFrom (call_settles ih _ _ _) environment }
      exact form_upholds _ hereditary_true
        (fun expr _ => upholds_of_settlesFrom (ih expr) environment) rulesHold trivial

end Evaluation

end LazyLisp
