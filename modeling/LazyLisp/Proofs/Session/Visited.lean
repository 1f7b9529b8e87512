import LazyLisp.Proofs.Evaluation.Nested
import LazyLisp.Proofs.Session.Forcing

/-!
# Environments within the runs of sessions

A run of a session goes through many environments before it comes back to the top level: within
calls, within the arguments that are evaluated there, and between the parts of a form. In all of
them what is bound in open scopes may be looked up. No call of a run begins in any other
environment.
-/

set_option autoImplicit false

namespace LazyLisp

open Evaluation

/-- The environments that runs of sessions go through, wherever they are in a form. -/
inductive Environment.Visited : Environment → Prop where
  | empty : Visited .empty
  | logged {environment : Environment} {event : Event} :
      event.line?.isSome = true → Visited environment → Visited (environment.record event)
  | adopted {environment start : Environment} {expr marked : Expr} :
      Visited environment → environment.Adopts expr (marked, start) → Visited start
  | evaluated {environment after : Environment} {bound : Nat} {expr value : Expr} :
      Visited environment → evaluateWithin bound expr environment = .ok value after → Visited after
  /-- A failure ends the evaluation of the whole form. -/
  | failed {environment after : Environment} {bound : Nat} {expr : Expr} {failure : Failure} :
      environment.callStacks = Environment.empty.callStacks → Visited environment →
      evaluateWithin bound expr environment = .error failure after → Visited after
  | defined {environment : Environment} (name : String) (value : Expr) :
      Visited environment → Visited (environment.define name (.expr value))
  /-- The body of a lambda is evaluated, or that of the innermost one in a chain of lambdas. -/
  | entered {environment : Environment} (arguments : List Expr) (layers : List (List String))
      (body : Expr) : Visited environment → Visited (environment.inside arguments layers body)
  /-- An argument is evaluated when it is looked up for the first time. -/
  | forced {environment : Environment} {name : String} {index : Nat} {cell : Cell} :
      Visited environment → environment.find? name = some (.deferred index) →
      environment.cells[index]? = some cell → cell.value? = none →
      Visited (((environment.record (.lookedUp index)).record (.forcing index)).switch
        (some cell.group) (environment.scopesOf cell))

namespace Environment

/-! ## Visited environments are in order -/

variable {environment : Environment}

/-- In order, and what the open scopes bind may be looked up. -/
structure InOrder (environment : Environment) : Prop where
  orderly : environment.Orderly
  ready : environment.Ready

theorem InOrder.later (inOrder : environment.InOrder) {after : Environment}
    (orderly : after.Orderly) (finishes : environment.Finishes after) : after.InOrder :=
  ⟨orderly, inOrder.ready.later inOrder.orderly finishes⟩

theorem InOrder.record (inOrder : environment.InOrder) {event : Event}
    (notLookedUp : ∀ index, event ≠ .lookedUp index)
    (notForcing : ∀ index, event ≠ .forcing index) : (environment.record event).InOrder :=
  inOrder.later (inOrder.orderly.record_other notLookedUp notForcing)
    (.record environment notForcing)

/-- Marking the `nan`s of a form changes neither scopes nor arguments. -/
theorem InOrder.adopt (inOrder : environment.InOrder) {start : Environment} {expr marked : Expr}
    (adopts : environment.Adopts expr (marked, start)) : start.InOrder := by
  have ⟨orderly, ready⟩ := inOrder
  cases adopts <;>
    exact ⟨⟨orderly.table, orderly.group, orderly.scopes, orderly.begun, orderly.trace⟩,
      ready.groups, fun scope inScopes entry inScope =>
        have ⟨index, same, available⟩ := ready.scopes scope inScopes entry inScope
        ⟨index, same, available.congr rfl rfl rfl⟩⟩

theorem InOrder.evaluate (inOrder : environment.InOrder) {bound : Nat} {expr value : Expr}
    {after : Environment} (evaluated : evaluateWithin bound expr environment = .ok value after) :
    after.InOrder := by
  have ends := evaluateWithin_keepsOrder bound expr inOrder.orderly inOrder.ready
  rw [evaluated] at ends
  exact inOrder.later ends.1 ends.2.1

/-- Behind a failure no scope is open. -/
theorem InOrder.fail (inOrder : environment.InOrder) {bound : Nat} {expr : Expr}
    {failure : Failure} {after : Environment}
    (atTopLevel : environment.callStacks = Environment.empty.callStacks)
    (failed : evaluateWithin bound expr environment = .error failure after) : after.InOrder := by
  have ends := evaluateWithin_keepsOrder bound expr inOrder.orderly inOrder.ready
  have sameStacks := (evaluateWithin_keepsStacks bound expr).afterwards environment
  rw [failed] at ends sameStacks
  exact ⟨ends, ready_of_callStacks (sameStacks.trans atTopLevel)⟩

theorem InOrder.within (inOrder : environment.InOrder) {cells : List Nat}
    (available : ∀ index ∈ cells, environment.Available index) (layers : List (List String))
    (body : Expr) : (environment.within cells layers body).InOrder := by
  induction layers generalizing environment with
  | nil =>
      rw [within_nil]
      exact inOrder
  | cons formals layers ih =>
      rw [within_cons]
      let event := Event.called formals (Expr.nested layers body) cells.length
      have recorded : (environment.record event).InOrder := inOrder.record nofun nofun
      have finishes : environment.Finishes (environment.record event) := .record environment nofun
      have available' (index : Nat) (member : index ∈ cells) :
          (environment.record event).Available index :=
        (available index member).later inOrder.orderly finishes
      refine ih ⟨recorded.orderly.push _, recorded.ready.push formals available'⟩ ?_
      intro index member
      exact (available' index member).push _

theorem InOrder.inside (inOrder : environment.InOrder) (arguments : List Expr)
    (layers : List (List String)) (body : Expr) :
    (environment.inside arguments layers body).InOrder := by
  have ⟨orderly, ready⟩ := inOrder
  refine InOrder.within ?_ (ready.deferAll orderly arguments) layers body
  exact inOrder.later (orderly.deferAll ready arguments) (.deferAll environment arguments)

theorem InOrder.force (inOrder : environment.InOrder) {name : String} {index : Nat} {cell : Cell}
    (bound : environment.find? name = some (.deferred index))
    (found : environment.cells[index]? = some cell) (unforced : cell.value? = none) :
    (((environment.record (.lookedUp index)).record (.forcing index)).switch
      (some cell.group) (environment.scopesOf cell)).InOrder := by
  have ⟨orderly, ready⟩ := inOrder
  have available := ready.find? orderly bound
  have finishes : environment.Finishes (environment.record (.lookedUp index)) :=
    .record environment nofun
  have orderly' := orderly.record_lookedUp (available.idle .refl).finished
  have available' := available.later orderly finishes
  rw [available.scopesOf_eq found]
  constructor
  · exact orderly'.switch_forcing available' found unforced cell.scopes
  · exact (ready.later orderly finishes).switch orderly' available' found

theorem Visited.inOrder (visited : environment.Visited) : environment.InOrder := by
  induction visited with
  | empty => exact ⟨.empty, ready_of_callStacks rfl⟩
  | logged isLine _ ih =>
      exact ih.record (fun _ same => by cases same; cases isLine)
        fun _ same => by cases same; cases isLine
  | adopted _ adopts ih => exact ih.adopt adopts
  | evaluated _ done ih => exact ih.evaluate done
  | failed atTopLevel _ failed ih => exact ih.fail atTopLevel failed
  | defined name value _ ih =>
      exact ih.later (ih.orderly.define name value) (.define _ name _)
  | entered arguments layers body _ ih => exact ih.inside arguments layers body
  | forced _ bound found unforced ih => exact ih.force bound found unforced

end Environment

/-- In all sessions, no call is going on between two forms, and the environment is visited. -/
theorem Session.invariant_visited : Session.Invariant fun environment =>
    environment.callStacks = Environment.empty.callStacks ∧ environment.Visited where
  empty := ⟨rfl, .empty⟩
  record isLine kept := ⟨kept.1, .logged isLine kept.2⟩
  evaluate {environment start _ marked} kept _ adopts := by
    have atTopLevel : start.callStacks = Environment.empty.callStacks := by
      cases adopts <;> exact kept.1
    have visited : start.Visited := .adopted kept.2 adopts
    rw [Environment.evaluate_snd]
    constructor
    · exact ((evaluateWithin_keepsStacks _ _).afterwards _).trans atTopLevel
    · cases ended : evaluateWithin Environment.depthBound marked start with
      | ok value after => exact visited.evaluated ended
      | error failure after => exact visited.failed atTopLevel ended

namespace Evaluation

/-! ## Calls in visited environments -/

section

variable (allowed : Environment → Prop)
  (otherwise : List String → Expr → List Expr → Action Environment Expr)

open Classical in
/-- Evaluation by need that does something else for a call that begins in none of the given
environments. -/
noncomputable def guarded (evaluate : Expr → Action Environment Expr) : NameRules Environment :=
  { byNeed evaluate with
    call := fun formals body arguments environment =>
      if allowed environment then call evaluate formals body arguments environment
      else otherwise formals body arguments environment }

noncomputable def guardedWithin : Nat → Expr → Action Environment Expr
  | 0, _ => throw .tooDeep
  | bound + 1, expr =>
    form (guarded allowed otherwise (guardedWithin bound)) (guardedWithin bound) expr

end

/-- In visited environments the actions do the same, and one that gives a result leaves a visited
environment. -/
def VisitsAlike {α : Type} (good : α → Prop) (action action' : Action Environment α) : Prop :=
  ∀ ⦃environment : Environment⦄, environment.Visited →
    action' environment = action environment ∧
      ∀ {result : α} {after : Environment}, action environment = .ok result after →
        after.Visited ∧ good result

theorem VisitsAlike.bind {α β : Type} {good : α → Prop} {good' : β → Prop}
    {first first' : Action Environment α} {next next' : α → Action Environment β}
    (alike : VisitsAlike good first first')
    (alike' : ∀ result, good result → VisitsAlike good' (next result) (next' result)) :
    VisitsAlike good' (first >>= next) (first' >>= next') := by
  intro environment visited
  obtain ⟨same, visits⟩ := alike visited
  cases ended : first environment with
  | ok result middle =>
      obtain ⟨visited', isGood⟩ := visits ended
      rw [Action.bind_of_ok ended, Action.bind_of_ok (same.trans ended)]
      exact alike' result isGood visited'
  | error failure middle =>
      rw [Action.bind_of_error ended, Action.bind_of_error (same.trans ended)]
      exact ⟨rfl, nofun⟩

/-- Visiting alike, as a comparison with one other evaluation. -/
def visiting : Comparison (fun _ => True) Environment Environment Unit where
  holds good action action' := VisitsAlike good action (action' ())
  pure isGood := fun environment visited =>
    ⟨rfl, fun ended => by cases ended; exact ⟨visited, isGood⟩⟩
  throw _ := fun _ _ => ⟨rfl, nofun⟩
  bind alike alike' := alike.bind alike'

/-- A call that gives a value is the evaluation of a form. -/
theorem exists_evaluated_of_call {environment after : Environment} {bound : Nat}
    {formals : List String} {body value : Expr} {arguments : List Expr}
    (ended : call (evaluateWithin bound) formals body arguments environment = .ok value after) :
    ∃ bound', evaluateWithin bound' (.application (.lambda formals body) arguments) environment =
      .ok value after := by
  cases bound with
  | zero =>
      obtain ⟨layers, body, rfl, innermost⟩ := body.exists_nested
      cases fits : misfit? arguments.length (formals :: layers) with
      | none =>
          rw [call_leaves innermost 0 fits] at ended
          cases ended
      | some mismatching =>
          obtain ⟨_, -, stopped⟩ := call_of_misfit fits body environment
          rw [stopped] at ended
          cases ended
  | succ bound => exact ⟨bound + 2, ended⟩

theorem visited_of_call {environment after : Environment} (visited : environment.Visited)
    {bound : Nat} {formals : List String} {body value : Expr} {arguments : List Expr}
    (ended : call (evaluateWithin bound) formals body arguments environment = .ok value after) :
    after.Visited := by
  obtain ⟨_, evaluated⟩ := exists_evaluated_of_call ended
  exact visited.evaluated evaluated

section

variable {bound : Nat} {evaluate : Expr → Action Environment Expr}
  (alike : ∀ {environment : Environment}, environment.Visited → ∀ expr,
    evaluate expr environment = evaluateWithin bound expr environment)

include alike

theorem lookUp_alike (name : String) :
    VisitsAlike (fun _ => True) (lookUp (evaluateWithin bound) name) (lookUp evaluate name) := by
  intro environment visited
  constructor
  · apply lookUp_congr
    intro index cell isBound found unforced
    exact alike (visited.forced isBound found unforced) cell.expr
  · intro value after ended
    have evaluated : evaluateWithin (bound + 1) (.identifier name) environment = .ok value after :=
      ended
    exact ⟨visited.evaluated evaluated, trivial⟩

theorem call_alike (formals : List String) (body : Expr) (arguments : List Expr) :
    VisitsAlike (fun _ => True) (call (evaluateWithin bound) formals body arguments)
      (call evaluate formals body arguments) := by
  intro environment visited
  constructor
  · apply call_congr
    intro layers innermost _
    exact alike (visited.entered arguments _ innermost) innermost
  · intro value after ended
    exact ⟨visited_of_call visited ended, trivial⟩

end

/-- Whatever calls in other environments would do, evaluation in a visited environment is the same:
each call that it makes begins in a visited environment. -/
theorem guardedWithin_visited
    (otherwise : List String → Expr → List Expr → Action Environment Expr) (bound : Nat)
    (expr : Expr) :
    VisitsAlike (fun _ => True) (evaluateWithin bound expr)
      (guardedWithin Environment.Visited otherwise bound expr) := by
  induction bound generalizing expr with
  | zero => exact fun _ _ => ⟨rfl, nofun⟩
  | succ bound ih =>
      let evaluate := guardedWithin Environment.Visited otherwise bound
      have alike {environment : Environment} (visited : environment.Visited) (expr : Expr) :
          evaluate expr environment = evaluateWithin bound expr environment := (ih expr visited).1
      have rulesHold : visiting.Rules (fun _ => True) (byNeed (evaluateWithin bound))
          fun _ => guarded Environment.Visited otherwise evaluate := by
        constructor
        · intro name _
          exact lookUp_alike alike name
        · intro name _ value _ _ environment visited
          refine ⟨rfl, ?_⟩
          intro _ after ended
          cases ended
          exact ⟨visited.defined name value, trivial⟩
        · intro formals body arguments _ _ environment visited
          have called := call_alike alike formals body arguments visited
          exact ⟨(if_pos visited).trans called.1, called.2⟩
      exact @Comparison.form _ _ _ _ _ visiting hereditary_true (evaluateWithin bound)
        (fun _ => evaluate) (fun expr _ => ih expr) _ _ rulesHold expr trivial

end Evaluation

/-- In a session, whatever sources it has run and however they ended, each call that the evaluation
of the next form makes begins in a visited environment. -/
theorem Session.calls_visited {strict : Bool} {prelude : Option Text} {session : Session}
    (started : start strict prelude = .ok session) (sources : List Text)
    {environment : Environment} {expr marked : Expr}
    (adopts : (session.runAll sources).environment.Adopts expr (marked, environment))
    (otherwise : List String → Expr → List Expr → Action Environment Expr) (bound : Nat) :
    guardedWithin Environment.Visited otherwise bound marked environment =
      evaluateWithin bound marked environment := by
  have kept := invariant_visited.runAll (invariant_visited.start started) sources
  exact (guardedWithin_visited otherwise bound marked (.adopted kept.2 adopts)).1

end LazyLisp
