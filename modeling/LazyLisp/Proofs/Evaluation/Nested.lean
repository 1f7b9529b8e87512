import Mathlib.Logic.Function.Iterate
import LazyLisp.Proofs.Evaluation.Invariant
import LazyLisp.Proofs.Evaluation.Unforced

/-!
# Lambdas in lambdas

A lambda whose body is a lambda again passes its arguments on to it. A chain of such lambdas opens
a scope for each of them, all over the same deferred arguments, and then the innermost body is
evaluated. The first lambda of another arity stops the call before anything is evaluated.
-/

set_option autoImplicit false

namespace LazyLisp

/-! ## Chains -/

/-- The body inside of lambdas, one for each row of formals, the outermost first. -/
def Expr.nested (layers : List (List String)) (body : Expr) : Expr := layers.foldr .lambda body

/-- No lambda is left around the innermost body of a chain. -/
def Expr.IsInnermost (body : Expr) : Prop := ∀ formals' body', body ≠ .lambda formals' body'

/-- Every expression is a chain of lambdas around its innermost body. -/
theorem Expr.exists_nested (expr : Expr) :
    ∃ layers body, expr = Expr.nested layers body ∧ body.IsInnermost := by
  induction expr using Expr.body_induction with
  | lambda formals body ih =>
      obtain ⟨layers, innermost, rfl, isInnermost⟩ := ih
      exact ⟨formals :: layers, innermost, rfl, isInnermost⟩
  | other body notLambda => exact ⟨[], body, rfl, notLambda⟩

theorem Expr.nested_append (outer inner : List (List String)) (body : Expr) :
    Expr.nested (outer ++ inner) body = Expr.nested outer (Expr.nested inner body) :=
  List.foldr_append

/-- The scope that a call of a lambda opens. -/
def frame (cells : List Nat) (formals : List String) : Bindings :=
  Bindings.ofPairs (formals.zip (cells.map .deferred))

/-- The calls of the lambdas of a chain, as they are traced. -/
def Event.calls (arguments : Nat) (body : Expr) : List (List String) → List Event
  | [] => []
  | formals :: layers =>
    .called formals (Expr.nested layers body) arguments :: calls arguments body layers

theorem Event.exists_of_mem_calls {arguments : Nat} {body : Expr} {layers : List (List String)}
    {event : Event} (member : event ∈ calls arguments body layers) :
    ∃ formals body' arguments', event = .called formals body' arguments' := by
  induction layers with
  | nil => cases member
  | cons formals layers ih =>
      rcases List.mem_cons.mp member with first | later
      · exact ⟨_, _, _, first⟩
      · exact ih later

namespace Environment

/-- The environment when the lambdas of a chain have been called with the deferred arguments, but
for their scopes. -/
def calledEach (environment : Environment) (arguments : Nat) (layers : List (List String))
    (body : Expr) : Environment :=
  { environment with events := environment.events ++ (Event.calls arguments body layers).toArray }

/-- The environment within the lambdas of a chain: each has opened its scope, the outermost
first. -/
def within (environment : Environment) (cells : List Nat) (layers : List (List String))
    (body : Expr) : Environment :=
  { environment.calledEach cells.length layers body with
    scopes := (layers.map (frame cells)).reverse ++ environment.scopes }

/-- The environment in which the innermost body of a chain is evaluated: the arguments are deferred
once, over the scopes of the caller, for all lambdas of the chain. -/
def inside (environment : Environment) (arguments : List Expr) (layers : List (List String))
    (body : Expr) : Environment :=
  (environment.deferAll arguments).2.within (environment.deferAll arguments).1 layers body

/-- Afterwards nothing has been evaluated or bound: there are only traces of calls, and deferred
arguments without values. -/
structure AsItWas (environment after : Environment) : Prop where
  same : after = { environment with cells := after.cells, events := after.events }
  cells : ∃ deferred : Array Cell,
    after.cells = environment.cells ++ deferred ∧ ∀ cell ∈ deferred, cell.value? = none
  events : ∃ events, environment.Grows events after ∧
    ∀ event ∈ events, ∃ formals body arguments, event = .called formals body arguments

variable (environment : Environment)

theorem calledEach_nil (arguments : Nat) (body : Expr) :
    environment.calledEach arguments [] body = environment := by
  simp [calledEach, Event.calls]

theorem calledEach_cons (arguments : Nat) (formals : List String) (layers : List (List String))
    (body : Expr) :
    environment.calledEach arguments (formals :: layers) body =
      (environment.record (.called formals (Expr.nested layers body) arguments)).calledEach
        arguments layers body := by
  simp [calledEach, record, Event.calls]

theorem within_nil (cells : List Nat) (body : Expr) :
    environment.within cells [] body = environment := by
  simp [within, calledEach_nil]

/-- The outermost lambda of a chain is entered first. -/
theorem within_cons (cells : List Nat) (formals : List String) (layers : List (List String))
    (body : Expr) :
    environment.within cells (formals :: layers) body =
      ((environment.record (.called formals (Expr.nested layers body) cells.length)).push
        (frame cells formals)).within cells layers body := by
  simp [within, calledEach, record, push, Event.calls]

theorem length_deferAll (arguments : List Expr) :
    (environment.deferAll arguments).1.length = arguments.length := by
  rw [deferAll, deferIn_eq]
  exact List.length_range'

/-- The innermost body is evaluated behind the scopes of the caller and one scope for each lambda,
the outermost first. All of them bind the same cells, which hold the scopes of the caller. -/
theorem inside_eq (arguments : List Expr) (layers : List (List String)) (body : Expr) :
    environment.inside arguments layers body =
      { environment with
        scopes := (layers.map
          (frame (List.range' environment.cells.size arguments.length))).reverse ++
            environment.scopes
        cells := environment.cells ++ (arguments.map fun argument =>
          ⟨argument, environment.cells.size, environment.scopes, none⟩).toArray
        events := environment.events ++ (Event.calls arguments.length body layers).toArray } := by
  simp only [inside, within, length_deferAll]
  rw [deferAll, deferIn_eq]
  rfl

/-- An invariant that the arguments keep holds within the lambdas of a chain as well. -/
theorem Invariant.inside {property valued : Expr → Prop} {holds : Environment → Prop}
    (invariant : Invariant property valued holds) {environment : Environment}
    {arguments : List Expr} (good : ∀ argument ∈ arguments, property argument)
    (kept : holds environment) (layers : List (List String)) (body : Expr) :
    holds (environment.inside arguments layers body) := by
  have deferred := invariant.deferAll good kept
  unfold Environment.inside
  generalize (environment.deferAll arguments).2 = middle at deferred ⊢
  induction layers generalizing middle with
  | nil => rwa [within_nil]
  | cons formals layers ih =>
      rw [within_cons]
      exact ih _ (invariant.push formals _ (invariant.record _ deferred))

namespace AsItWas

theorem refl : environment.AsItWas environment where
  same := rfl
  cells := ⟨#[], Array.append_empty.symm, nofun⟩
  events := ⟨[], .refl environment, nofun⟩

theorem calledEach (arguments : List Expr) (layers : List (List String)) (body : Expr) :
    environment.AsItWas
      ((environment.deferAll arguments).2.calledEach arguments.length layers body) := by
  rw [deferAll, deferIn_eq]
  constructor
  · rfl
  · refine ⟨_, rfl, ?_⟩
    intro cell member
    obtain ⟨argument, -, rfl⟩ := List.mem_map.mp (List.mem_toArray.mp member)
    rfl
  · refine ⟨Event.calls arguments.length body layers, ⟨?_, ?_⟩, ?_⟩
    · simp [Environment.calledEach]
    · simp [Environment.calledEach]
    · exact fun event member => Event.exists_of_mem_calls member

end AsItWas

end Environment

namespace Evaluation

/-! ## Leaving scopes -/

/-- The result of an action that leaves these scopes. -/
def leaving {α : Type} (scopes : List Bindings) :
    EStateM.Result Failure Environment α → EStateM.Result Failure Environment α
  | .ok value after => .ok value { after with scopes }
  | .error failure after => .error failure { after with scopes }

section

variable {α : Type} {result : EStateM.Result Failure Environment α} {opened scopes : List Bindings}

theorem leaving_present (same : (afterwards result).scopes = scopes) :
    leaving scopes result = result := by
  subst same
  cases result <;> rfl

theorem leaving_leaving (others : List Bindings) :
    leaving scopes (leaving others result) = leaving scopes result := by
  cases result <;> rfl

theorem scopes_leaving : (afterwards (leaving scopes result)).scopes = scopes := by
  cases result <;> rfl

/-- Closing the innermost scope leaves the others. -/
theorem closed_of_scopes {scope : Bindings}
    (stacked : (afterwards result).scopes = scope :: scopes) :
    closed result = leaving scopes result := by
  cases result with
  | ok value after =>
      rw [afterwards] at stacked
      simp only [closed, Environment.pop?, stacked, Option.elim, leaving]
  | error failure after =>
      rw [afterwards] at stacked
      simp only [closed, Environment.pop?, stacked, Option.elim, leaving]

/-- Closing the scopes that have been opened leaves the others. -/
theorem iterate_closed (stacked : (afterwards result).scopes = opened ++ scopes) :
    closed^[opened.length] result = leaving scopes result := by
  induction opened generalizing result with
  | nil => exact (leaving_present stacked).symm
  | cons scope opened ih =>
      rw [List.cons_append] at stacked
      rw [List.length_cons, Function.iterate_succ_apply, closed_of_scopes stacked,
        ih scopes_leaving, leaving_leaving]

end

/-! ## Entering -/

section

variable (evaluate : Expr → Action Environment Expr) {cells : List Nat} {formals : List String}
  {body : Expr} {environment : Environment}

theorem enter_innermost (innermost : body.IsInnermost) :
    enter evaluate cells formals body environment =
      closed (evaluate body (environment.within cells [formals] body)) := by
  rw [enter_of_not_lambda evaluate innermost, Environment.within_cons, Environment.within_nil]
  exact inScope_eq _ _ _

/-- A lambda in the body of a lambda is entered in the scope of the outer one, if it has as many
formals as there are arguments. -/
theorem enter_lambda (cells : List Nat) (formals formals' : List String) (body' : Expr)
    (environment : Environment) :
    enter evaluate cells formals (.lambda formals' body') environment =
      closed (if formals'.length = cells.length then
          enter evaluate cells formals' body'
            ((environment.record (.called formals (.lambda formals' body') cells.length)).push
              (frame cells formals))
        else .error (.exactArity formals'.length cells.length)
          ((environment.record (.called formals (.lambda formals' body') cells.length)).push
            (frame cells formals))) := by
  have entered := inScope_eq (frame cells formals)
    (requireExactArity formals'.length cells.length >>= fun _ =>
      enter evaluate cells formals' body')
    (environment.record (.called formals (.lambda formals' body') cells.length))
  refine Eq.trans entered (congrArg closed ?_)
  split
  next same =>
    simp only [requireExactArity, same, if_true]
    rfl
  next different =>
    have different' : (formals'.length : Int) ≠ cells.length := by omega
    simp only [requireExactArity, if_neg different']
    rfl

/-- Where all lambdas of a chain have as many formals as there are arguments, the innermost body is
evaluated within all of them. -/
theorem enter_nested (innermost : body.IsInnermost) {layers : List (List String)}
    (fits : ∀ layer ∈ layers, layer.length = cells.length) :
    enter evaluate cells formals (Expr.nested layers body) environment =
      closed^[layers.length + 1]
        (evaluate body (environment.within cells (formals :: layers) body)) := by
  induction layers generalizing formals environment with
  | nil => exact enter_innermost evaluate innermost
  | cons formals' layers ih =>
      rw [List.forall_mem_cons] at fits
      have step := enter_lambda evaluate cells formals formals' (Expr.nested layers body)
        environment
      rw [if_pos fits.1, ih fits.2] at step
      rw [environment.within_cons, List.length_cons, Function.iterate_succ_apply' closed]
      exact step

/-- The first lambda of a chain that has another number of formals stops the call within the lambdas
around it. -/
theorem enter_mismatching {outer : List (List String)} {mismatching : List String}
    (fits : ∀ layer ∈ outer, layer.length = cells.length)
    (mismatch : mismatching.length ≠ cells.length) (formals : List String) (body : Expr)
    (environment : Environment) :
    enter evaluate cells formals (Expr.nested outer (.lambda mismatching body)) environment =
      .error (.exactArity mismatching.length cells.length)
        (environment.calledEach cells.length (formals :: outer) (.lambda mismatching body)) := by
  induction outer generalizing formals environment with
  | nil =>
      have step := enter_lambda evaluate cells formals mismatching body environment
      rw [if_neg mismatch] at step
      rw [Environment.calledEach_cons, Environment.calledEach_nil]
      exact step
  | cons formals' outer ih =>
      rw [List.forall_mem_cons] at fits
      have step := enter_lambda evaluate cells formals formals'
        (Expr.nested outer (.lambda mismatching body)) environment
      rw [if_pos fits.1, ih fits.2] at step
      rw [environment.calledEach_cons]
      exact step

end

/-! ## Calls -/

/-- The first lambda of a chain that has another number of formals than there are arguments. -/
def misfit? (arguments : Nat) (layers : List (List String)) : Option (List String) :=
  layers.find? (·.length != arguments)

theorem misfit?_eq_none {arguments : Nat} {layers : List (List String)} :
    misfit? arguments layers = none ↔ ∀ layer ∈ layers, layer.length = arguments := by
  simp [misfit?]

theorem exists_of_misfit? {arguments : Nat} {layers : List (List String)}
    {mismatching : List String} (found : misfit? arguments layers = some mismatching) :
    mismatching.length ≠ arguments ∧ ∃ outer inner, layers = outer ++ mismatching :: inner ∧
      ∀ layer ∈ outer, layer.length = arguments := by
  obtain ⟨mismatch, outer, inner, split, fits⟩ := List.find?_eq_some_iff_append.mp found
  exact ⟨by simpa using mismatch, outer, inner, split, by simpa using fits⟩

section

variable {formals : List String} {layers : List (List String)} {body : Expr}
  {arguments : List Expr} {environment : Environment}

theorem call_of_fitting (evaluate : Expr → Action Environment Expr) (innermost : body.IsInnermost)
    (fits : misfit? arguments.length (formals :: layers) = none) :
    call evaluate formals (Expr.nested layers body) arguments environment =
      closed^[(formals :: layers).length]
        (evaluate body (environment.inside arguments (formals :: layers) body)) := by
  rw [misfit?_eq_none, List.forall_mem_cons] at fits
  rw [call_of_arity evaluate fits.1]
  refine enter_nested evaluate innermost ?_
  intro layer member
  rw [environment.length_deferAll arguments, fits.2 layer member]

/-- The scopes of the caller are back after a call. -/
theorem call_of_keepsStacks {evaluate : Expr → Action Environment Expr}
    (keeps : KeepsStacks (evaluate body)) (innermost : body.IsInnermost)
    (fits : misfit? arguments.length (formals :: layers) = none) :
    call evaluate formals (Expr.nested layers body) arguments environment =
      leaving environment.scopes
        (evaluate body (environment.inside arguments (formals :: layers) body)) := by
  let cells := List.range' environment.cells.size arguments.length
  have sameLength : (formals :: layers).length =
      ((formals :: layers).map (frame cells)).reverse.length := by
    rw [List.length_reverse, List.length_map]
  rw [call_of_fitting _ innermost fits, sameLength]
  refine @iterate_closed _ _ ((formals :: layers).map (frame cells)).reverse _ ?_
  have sameStacks := keeps.afterwards (environment.inside arguments (formals :: layers) body)
  refine (congrArg Prod.fst sameStacks).trans ?_
  rw [environment.inside_eq]
  rfl

theorem call_leaves (innermost : body.IsInnermost) (bound : Nat)
    (fits : misfit? arguments.length (formals :: layers) = none) :
    call (evaluateWithin bound) formals (Expr.nested layers body) arguments environment =
      leaving environment.scopes
        (evaluateWithin bound body (environment.inside arguments (formals :: layers) body)) :=
  call_of_keepsStacks (evaluateWithin_keepsStacks bound body) innermost fits

/-- A chain with a lambda of another arity evaluates nothing. -/
theorem call_of_misfit {mismatching : List String}
    (found : misfit? arguments.length (formals :: layers) = some mismatching) (body : Expr)
    (environment : Environment) :
    ∃ after, environment.AsItWas after ∧ ∀ evaluate,
      call evaluate formals (Expr.nested layers body) arguments environment =
        .error (.exactArity mismatching.length arguments.length) after := by
  obtain ⟨mismatch, outer, inner, split, fits⟩ := exists_of_misfit? found
  cases outer with
  | nil =>
      cases split
      exact ⟨environment, .refl environment, fun evaluate =>
        call_of_mismatch evaluate mismatch _ environment⟩
  | cons _ outer =>
      rw [List.cons_append] at split
      cases split
      rw [List.forall_mem_cons] at fits
      have sameLength := environment.length_deferAll arguments
      have fits' (layer : List String) (member : layer ∈ outer) :
          layer.length = (environment.deferAll arguments).1.length := by
        rw [sameLength, fits.2 layer member]
      refine ⟨_, .calledEach environment arguments (formals :: outer)
        (.lambda mismatching (Expr.nested inner body)), ?_⟩
      intro evaluate
      have stopped := enter_mismatching evaluate fits' (sameLength ▸ mismatch) formals
        (Expr.nested inner body) (environment.deferAll arguments).2
      rw [sameLength] at stopped
      rw [call_of_arity evaluate fits.1, Expr.nested_append]
      exact stopped

end

/-! ## Two ways of evaluating -/

section

variable {evaluate evaluate' : Expr → Action Environment Expr} {environment : Environment}

/-- A lookup evaluates at most the argument that the name is bound to. -/
theorem lookUp_congr {name : String}
    (same : ∀ {index cell}, environment.find? name = some (.deferred index) →
      environment.cells[index]? = some cell → cell.value? = none →
      let start := ((environment.record (.lookedUp index)).record (.forcing index)).switch
        (some cell.group) (environment.scopesOf cell)
      evaluate' cell.expr start = evaluate cell.expr start) :
    lookUp evaluate' name environment = lookUp evaluate name environment := by
  cases isBound : environment.find? name with
  | none => rw [lookUp_of_unbound _ isBound, lookUp_of_unbound _ isBound]
  | some slot =>
      cases slot with
      | expr expr => rw [lookUp_of_expr _ isBound, lookUp_of_expr _ isBound]
      | deferred index =>
          cases found : environment.cells[index]? with
          | none => rw [lookUp_of_missing _ isBound found, lookUp_of_missing _ isBound found]
          | some cell =>
              rw [lookUp_of_deferred _ isBound found, lookUp_of_deferred _ isBound found]
              cases unforced : cell.value? with
              | some value => simp only [force, unforced]
              | none =>
                  have same := same isBound found unforced
                  cases ended : evaluate cell.expr _ with
                  | ok value after =>
                      rw [force_of_ok _ unforced ended, force_of_ok _ unforced (same.trans ended)]
                  | error failure after =>
                      rw [force_of_error _ unforced ended,
                        force_of_error _ unforced (same.trans ended)]

/-- A call evaluates at most the innermost body. -/
theorem call_congr {formals : List String} {body : Expr} {arguments : List Expr}
    (same : ∀ {layers innermost}, body = Expr.nested layers innermost →
      evaluate' innermost (environment.inside arguments (formals :: layers) innermost) =
        evaluate innermost (environment.inside arguments (formals :: layers) innermost)) :
    call evaluate' formals body arguments environment =
      call evaluate formals body arguments environment := by
  obtain ⟨layers, innermost, rfl, isInnermost⟩ := body.exists_nested
  cases fits : misfit? arguments.length (formals :: layers) with
  | none =>
      rw [call_of_fitting _ isInnermost fits, call_of_fitting _ isInnermost fits, same rfl]
  | some mismatching =>
      obtain ⟨_, -, stopped⟩ := call_of_misfit fits innermost environment
      rw [stopped, stopped]

end

end Evaluation

end LazyLisp
