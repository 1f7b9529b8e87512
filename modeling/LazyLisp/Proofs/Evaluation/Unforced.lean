import LazyLisp.Proofs.Evaluation.Comparison
import LazyLisp.Proofs.Evaluation.Growth

/-!
# Arguments that are never forced

Evaluation reads the expression of a deferred argument where it forces the argument, and nowhere
else: the cell is bound in scopes, kept by other cells and looked up by its number. So an evaluation
that does not force an argument does the same whatever the argument is, with the same result and the
same effect on everything but the expression in the cell.
-/

set_option autoImplicit false

namespace LazyLisp

/-! ## Another expression in a cell -/

namespace Environment

/-- The environment in which a cell defers another expression. -/
def redefer (environment : Environment) (index : Nat) (expr : Expr) : Environment :=
  { environment with cells := environment.cells.modify index fun cell => { cell with expr } }

section

variable (environment : Environment) (index : Nat) (expr : Expr)

theorem redefer_cells (other : Nat) :
    (environment.redefer index expr).cells[other]? =
      (environment.cells[other]?).map fun cell =>
        if index = other then { cell with expr } else cell := by
  simp only [redefer, Array.getElem?_modify]
  split
  · rfl
  · exact Option.map_id'.symm

theorem redefer_of_missing (missing : environment.cells.size ≤ index) :
    environment.redefer index expr = environment := by
  have cells : (environment.redefer index expr).cells = environment.cells := by
    refine Array.ext_getElem? fun place => ?_
    rw [redefer_cells]
    split
    next same => simp [← same, missing]
    next => exact Option.map_id'
  exact congrArg (fun cells => { environment with cells }) cells

theorem pop?_redefer :
    (environment.redefer index expr).pop? =
      environment.pop?.map fun (scope, outer) => (scope, outer.redefer index expr) := by
  simp only [pop?, redefer]
  cases environment.scopes <;> rfl

theorem define_redefer (name : String) (slot : Slot) :
    (environment.redefer index expr).define name slot =
      (environment.define name slot).redefer index expr := by
  have sameTable : (environment.redefer index expr).table = environment.table := rfl
  simp only [define, sameTable]
  split <;> rfl

theorem fill_redefer (other : Nat) (value : Expr) :
    (environment.redefer index expr).fill other value =
      (environment.fill other value).redefer index expr := by
  have cells : (environment.redefer index expr).cells.modify other
        (fun cell => { cell with value? := some value }) =
      (environment.fill other value).cells.modify index fun cell => { cell with expr } := by
    refine Array.ext_getElem? fun place => ?_
    simp only [redefer, fill, Array.getElem?_modify]
    cases environment.cells[place]? with
    | none => simp
    | some cell => split <;> split <;> rfl
  simp only [fill, redefer] at cells ⊢
  rw [cells]

theorem deferAll_redefer (inside : index < environment.cells.size) (exprs : List Expr) :
    (environment.redefer index expr).deferAll exprs =
      ((environment.deferAll exprs).1, (environment.deferAll exprs).2.redefer index expr) := by
  have cells (added : Array Cell) :
      (environment.cells.modify index fun cell => { cell with expr }) ++ added =
        (environment.cells ++ added).modify index fun cell => { cell with expr } := by
    refine Array.ext_getElem? fun place => ?_
    simp only [Array.getElem?_modify, Array.getElem?_append, Array.size_modify]
    grind
  simp only [deferAll, deferIn_eq, redefer, Array.size_modify, cells]

/-- Arguments of which one is another one. -/
theorem deferAll_exchanged (before behind : List Expr) (argument : Expr) :
    environment.deferAll (before ++ expr :: behind) =
      ((environment.deferAll (before ++ argument :: behind)).1,
        (environment.deferAll (before ++ argument :: behind)).2.redefer
          (environment.cells.size + before.length) expr) := by
  have cells (defer : Expr → Cell)
      (defers : ∀ argument, { defer argument with expr } = defer expr) :
      environment.cells ++ ((before ++ expr :: behind).map defer).toArray =
        (environment.cells ++ ((before ++ argument :: behind).map defer).toArray).modify
          (environment.cells.size + before.length) fun cell => { cell with expr } := by
    refine Array.ext_getElem? fun place => ?_
    simp only [Array.getElem?_modify, Array.getElem?_append, List.getElem?_toArray]
    grind
  simp only [deferAll, deferIn_eq, redefer, List.length_append, List.length_cons]
  rw [cells _ fun _ => rfl]

end

end Environment

namespace Evaluation

/-! ## Entering and leaving scopes -/

/-- The result of an action in other scopes, seen from those that are present. -/
def restored {α : Type} (earlier : Environment) :
    EStateM.Result Failure Environment α → EStateM.Result Failure Environment α
  | .ok value after => .ok value (after.restore earlier)
  | .error failure after => .error failure (after.restore earlier)

theorem inScopes_eq {α : Type} (group : Option Nat) (scopes : List Bindings)
    (action : Action Environment α) (environment : Environment) :
    inScopes group scopes action environment =
      restored environment (action (environment.switch group scopes)) := rfl

/-- The result of an action in one more scope, which is closed. -/
def closed {α : Type} :
    EStateM.Result Failure Environment α → EStateM.Result Failure Environment α
  | .ok value after =>
    after.pop?.elim (.error .noScope after) fun (_, outer) => .ok value outer
  | .error failure after =>
    after.pop?.elim (.error .noScope after) fun (_, outer) => .error failure outer

theorem inScope_eq {α : Type} (scope : Bindings) (action : Action Environment α)
    (environment : Environment) :
    inScope scope action environment = closed (action (environment.push scope)) := by
  simp only [inScope]
  cases action (environment.push scope) with
  | ok value after =>
      simp only [closed]
      cases after.pop? <;> rfl
  | error failure after =>
      simp only [closed]
      cases after.pop? <;> rfl

theorem grows_closed {α : Type} (result : EStateM.Result Failure Environment α) :
    (afterwards result).Grows [] (afterwards (closed result)) := by
  cases result with
  | ok value after =>
      cases popped : after.pop? with
      | none => simpa only [closed, popped] using .refl after
      | some outer => simpa only [closed, popped] using .pop popped
  | error failure after =>
      cases popped : after.pop? with
      | none => simpa only [closed, popped] using .refl after
      | some outer => simpa only [closed, popped] using .pop popped

theorem exists_of_closed_eq_ok {α : Type} {result : EStateM.Result Failure Environment α}
    {value : α} {outer : Environment} (ended : closed result = .ok value outer) :
    ∃ after, result = .ok value after := by
  cases result with
  | ok value after =>
      cases popped : after.pop? with
      | none => simp [closed, popped] at ended
      | some entry =>
          simp only [closed, popped] at ended
          cases ended
          exact ⟨after, rfl⟩
  | error failure after => cases popped : after.pop? <;> simp [closed, popped] at ended

/-! ## Ending alike -/

section

variable (index : Nat) (expr : Expr)

/-- The result with another expression in a cell afterwards. -/
def redeferred {α : Type} :
    EStateM.Result Failure Environment α → EStateM.Result Failure Environment α
  | .ok value after => .ok value (after.redefer index expr)
  | .error failure after => .error failure (after.redefer index expr)

theorem closed_redeferred {α : Type} (result : EStateM.Result Failure Environment α) :
    closed (redeferred index expr result) = redeferred index expr (closed result) := by
  cases result with
  | ok value after =>
      simp only [redeferred, closed, after.pop?_redefer]
      cases after.pop? <;> rfl
  | error failure after =>
      simp only [redeferred, closed, after.pop?_redefer]
      cases after.pop? <;> rfl

/-- The action that is started in the environment only adds events and cells. Unless one of the
events is that the cell is forced, it does the same if the cell defers another expression. -/
structure EndsAlike {α : Type} (good : α → Prop) (environment : Environment)
    (action : Action Environment α) : Prop where
  good {value : α} {after : Environment} : action environment = .ok value after → good value
  alike : ∃ events, environment.Grows events (afterwards (action environment)) ∧
    (.forcing index ∉ events →
      action (environment.redefer index expr) = redeferred index expr (action environment))

/-- Wherever there is the cell, the action only reads its expression to force it. -/
def Ignores {α : Type} (good : α → Prop) (action : Action Environment α) : Prop :=
  ∀ ⦃environment : Environment⦄, index < environment.cells.size →
    EndsAlike index expr good environment action

end

section

variable {index : Nat} {expr : Expr} {α β : Type} {good : α → Prop} {good' : β → Prop}
  {environment : Environment}

theorem EndsAlike.of_ok {action : Action Environment α} {value : α} {after : Environment}
    {events : List Event} (isGood : good value) (grows : environment.Grows events after)
    (done : action environment = .ok value after)
    (done' : action (environment.redefer index expr) = .ok value (after.redefer index expr)) :
    EndsAlike index expr good environment action where
  good found := by
    cases done.symm.trans found
    exact isGood
  alike := by
    rw [done]
    exact ⟨events, grows, fun _ => done'⟩

theorem EndsAlike.congr {action action' : Action Environment α}
    (same : action' environment = action environment)
    (same' : action' (environment.redefer index expr) = action (environment.redefer index expr))
    (ends : EndsAlike index expr good environment action) :
    EndsAlike index expr good environment action' := by
  obtain ⟨isGood, events, grows, alike⟩ := ends
  rw [← same] at grows alike
  exact ⟨fun found => isGood (same.symm.trans found), events, grows,
    fun unforced => same'.trans (alike unforced)⟩

theorem EndsAlike.bind {first : Action Environment α} {next : α → Action Environment β}
    (ends : EndsAlike index expr good environment first)
    (ends' : ∀ value after, environment.cells.size ≤ after.cells.size → good value →
      EndsAlike index expr good' after (next value)) :
    EndsAlike index expr good' environment (first >>= next) := by
  obtain ⟨isGood, events, grows, alike⟩ := ends
  cases ended : first environment with
  | error failure middle =>
      rw [ended] at grows alike
      refine ⟨fun found => ?_, ?_⟩
      · rw [Action.bind_of_error ended] at found
        cases found
      · rw [Action.bind_of_error ended]
        exact ⟨events, grows, fun unforced => Action.bind_of_error (alike unforced) _⟩
  | ok value middle =>
      rw [ended] at grows alike
      obtain ⟨isGood', events', grows', alike'⟩ := ends' value middle grows.cells (isGood ended)
      refine ⟨fun found => isGood' ((Action.bind_of_ok ended _).symm.trans found), ?_⟩
      rw [Action.bind_of_ok ended]
      refine ⟨events ++ events', grows.trans grows', fun unforced => ?_⟩
      rw [List.mem_append, not_or] at unforced
      rw [Action.bind_of_ok (alike unforced.1)]
      exact alike' unforced.2

/-- An action that is run from another environment with as many cells and events, and after which
neither become more. -/
theorem EndsAlike.around {action action' : Action Environment α} {start : Environment}
    {leave : EStateM.Result Failure Environment α → EStateM.Result Failure Environment α}
    (ends : EndsAlike index expr good start action)
    (starts : environment.Grows [] start)
    (same : action' environment = leave (action start))
    (same' : action' (environment.redefer index expr) =
      leave (action (start.redefer index expr)))
    (leaves : ∀ result, leave (redeferred index expr result) = redeferred index expr (leave result))
    (keeps : ∀ result, Environment.Grows (afterwards result) [] (afterwards (leave result)))
    (gives : ∀ result {value after}, leave result = .ok value after →
      ∃ inner, result = .ok value inner) :
    EndsAlike index expr good environment action' := by
  obtain ⟨isGood, events, grows, alike⟩ := ends
  refine ⟨fun found => ?_, events, ?_, fun unforced => ?_⟩
  · obtain ⟨inner, done⟩ := gives _ (same.symm.trans found)
    exact isGood done
  · rw [same]
    simpa using (starts.trans grows).trans (keeps _)
  · rw [same', alike unforced, leaves, same]

theorem Ignores.pure {value : α} (isGood : good value) :
    Ignores index expr good (Pure.pure value) :=
  fun environment _ => .of_ok isGood (.refl environment) rfl rfl

theorem Ignores.throw {failure : Failure} :
    Ignores index expr good (MonadExcept.throw failure) :=
  fun environment _ => ⟨nofun, [], .refl environment, fun _ => rfl⟩

theorem Ignores.bind {first : Action Environment α} {next : α → Action Environment β}
    (ignores : Ignores index expr good first)
    (ignores' : ∀ value, good value → Ignores index expr good' (next value)) :
    Ignores index expr good' (first >>= next) :=
  fun _ inside => (ignores inside).bind fun value _ more isGood =>
    ignores' value isGood (Nat.lt_of_lt_of_le inside more)

end

/-- Ignoring the expression in a cell, as a comparison with nothing. -/
def ignoring (index : Nat) (expr : Expr) :
    Comparison (fun _ => True) Environment Environment Unit where
  holds good action _ := Ignores index expr good action
  pure isGood := .pure isGood
  throw _ := .throw
  bind ignores ignores' := ignores.bind ignores'

/-! ## Names and calls -/

section

variable {index : Nat} {expr : Expr}

theorem record_ignores (event : Event) :
    Ignores index expr (fun _ => True) (record event) :=
  fun environment _ => .of_ok trivial (.record environment event) rfl rfl

theorem fill_ignores (other : Nat) (value : Expr) :
    Ignores index expr (fun _ => True) (modify (·.fill other value)) := by
  intro environment _
  refine .of_ok trivial (.fill environment other value) rfl ?_
  rw [← environment.fill_redefer]
  rfl

theorem define_ignores (name : String) (value : Expr) :
    Ignores index expr (fun _ => True) (define name value) := by
  intro environment _
  obtain ⟨events, grows, -⟩ := Environment.Grows.exists_define environment name (.expr value)
  refine .of_ok trivial grows rfl ?_
  rw [← environment.define_redefer]
  rfl

theorem deferAll_ignores (arguments : List Expr) :
    Ignores index expr (fun _ => True) (modifyGet (·.deferAll arguments)) := by
  intro environment inside
  refine .of_ok trivial (.deferAll environment arguments) rfl ?_
  exact congrArg (fun deferred => EStateM.Result.ok deferred.1 deferred.2)
    (environment.deferAll_redefer index expr inside arguments)

variable {α : Type} {good : α → Prop} {action : Action Environment α}

theorem inScopes_ignores (group : Option Nat) (scopes : List Bindings)
    (ignores : Ignores index expr good action) :
    Ignores index expr good (inScopes group scopes action) := by
  intro environment inside
  have starts : environment.Grows [] (environment.switch group scopes) :=
    .silent (Nat.le_refl _) rfl
  refine (@ignores (environment.switch group scopes) inside).around starts
    (inScopes_eq group scopes action environment) (inScopes_eq group scopes action _) ?_ ?_ ?_
  · rintro (_ | _) <;> rfl
  · rintro (_ | _) <;> exact .silent (Nat.le_refl _) rfl
  · rintro (_ | _) value after ⟨⟩
    exact ⟨_, rfl⟩

theorem inScope_ignores (scope : Bindings) (ignores : Ignores index expr good action) :
    Ignores index expr good (inScope scope action) := by
  intro environment inside
  have starts : environment.Grows [] (environment.push scope) :=
    .silent (Nat.le_refl _) rfl
  exact (@ignores (environment.push scope) inside).around starts
    (inScope_eq scope action environment) (inScope_eq scope action _)
    (closed_redeferred index expr) grows_closed fun _ => exists_of_closed_eq_ok

variable {evaluate : Expr → Action Environment Expr}
  (ignores : ∀ part, Ignores index expr (fun _ => True) (evaluate part))

include ignores

theorem force_ignores (other : Nat) (cell : Cell) :
    Ignores index expr (fun _ => True) (force evaluate other cell) := by
  unfold force
  split
  · exact .pure trivial
  · refine (record_ignores _).bind fun _ _ environment inside => ?_
    refine EndsAlike.congr (Action.get_bind _) (Action.get_bind _) ?_
    have evaluated := inScopes_ignores (some cell.group) (environment.scopesOf cell)
      (ignores cell.expr)
    refine evaluated.bind (fun value _ => ?_) inside
    refine (fill_ignores other value).bind fun _ _ => ?_
    exact (record_ignores (.forced other)).bind fun _ _ => .pure trivial

/-- That an argument is forced is one of the events. -/
theorem force_grows {environment : Environment} (inside : index < environment.cells.size)
    (other : Nat) {cell : Cell} (unforced : cell.value? = none) :
    ∃ events, environment.Grows (.forcing other :: events)
      (afterwards (force evaluate other cell environment)) := by
  have starts : environment.Grows [.forcing other]
      ((environment.record (.forcing other)).switch (some cell.group)
        (environment.scopesOf cell)) := ⟨Nat.le_refl _, Array.toList_push⟩
  obtain ⟨-, events, grows, -⟩ := ignores cell.expr (Nat.lt_of_lt_of_le inside starts.cells)
  cases ended : evaluate cell.expr ((environment.record (.forcing other)).switch (some cell.group)
      (environment.scopesOf cell)) with
  | ok value after =>
      rw [ended] at grows
      rw [force_of_ok evaluate unforced ended]
      have ends : after.Grows [.forced other]
          (((after.restore environment).fill other value).record (.forced other)) :=
        ⟨Nat.le_of_eq Array.size_modify.symm, Array.toList_push⟩
      exact ⟨_, (starts.trans grows).trans ends⟩
  | error failure after =>
      rw [ended] at grows
      rw [force_of_error evaluate unforced ended]
      have ends : after.Grows [] (after.restore environment) :=
        .silent (Nat.le_refl _) rfl
      exact ⟨_, (starts.trans grows).trans ends⟩

/-- A lookup of the cell itself either finds a value or forces the cell, and a lookup of another
cell does not read its expression. -/
theorem lookUp_endsAlike {environment : Environment} (inside : index < environment.cells.size)
    {name : String} {other : Nat} (bound : environment.find? name = some (.deferred other))
    {cell : Cell} (found : environment.cells[other]? = some cell)
    (found' : (environment.redefer index expr).cells[other]? =
      some (if index = other then { cell with expr } else cell)) :
    EndsAlike index expr (fun _ => True) environment (lookUp evaluate name) := by
  -- Forcing the cell itself is the one lookup that the trace rules out.
  by_cases forces : index = other ∧ cell.value? = none
  · obtain ⟨rfl, unforced⟩ := forces
    have stillInside : index < (environment.record (.lookedUp index)).cells.size := inside
    obtain ⟨events, grows⟩ := force_grows ignores stillInside index unforced
    rw [← lookUp_of_deferred evaluate bound found] at grows
    refine ⟨fun _ => trivial, _, (Environment.Grows.record environment _).trans grows, ?_⟩
    intro absent
    simp at absent
  · have sameForce : force evaluate other (if index = other then { cell with expr } else cell) =
        force evaluate other cell := by
      split
      next same =>
        obtain ⟨value, forced⟩ := Option.ne_none_iff_exists'.mp fun unforced =>
          forces ⟨same, unforced⟩
        simp only [force, forced]
      next => rfl
    refine EndsAlike.congr (lookUp_of_deferred evaluate bound found) ?_
      ((record_ignores (.lookedUp other)).bind (fun _ _ => force_ignores ignores other cell) inside)
    have bound' : (environment.redefer index expr).find? name = some (.deferred other) := bound
    rw [lookUp_of_deferred evaluate bound' found', sameForce]
    rfl

theorem lookUp_ignores (name : String) :
    Ignores index expr (fun _ => True) (lookUp evaluate name) := by
  intro environment inside
  cases bound : environment.find? name with
  | none =>
      refine EndsAlike.congr (lookUp_of_unbound evaluate bound) ?_ (Ignores.throw inside)
      exact lookUp_of_unbound evaluate bound
  | some slot =>
      cases slot with
      | expr value =>
          refine EndsAlike.congr (lookUp_of_expr evaluate bound) ?_ (Ignores.pure trivial inside)
          exact lookUp_of_expr evaluate bound
      | deferred other =>
          have found' := environment.redefer_cells index expr other
          cases found : environment.cells[other]? with
          | none =>
              rw [found, Option.map_none] at found'
              refine EndsAlike.congr (lookUp_of_missing evaluate bound found) ?_
                (Ignores.throw inside)
              exact lookUp_of_missing evaluate bound found'
          | some cell =>
              rw [found, Option.map_some] at found'
              exact lookUp_endsAlike ignores inside bound found found'

theorem enter_ignores (cells : List Nat) (formals : List String) (body : Expr) :
    Ignores index expr (fun _ => True) (enter evaluate cells formals body) := by
  induction body using Expr.body_induction generalizing formals with
  | lambda formals' body ih =>
      refine (record_ignores _).bind fun _ _ => inScope_ignores _ ?_
      exact .bind ((ignoring index expr).requireExactArity _ _) fun _ _ => ih formals'
  | other body notLambda =>
      rw [enter_of_not_lambda evaluate notLambda]
      exact (record_ignores _).bind fun _ _ => inScope_ignores _ (ignores body)

theorem call_ignores (formals : List String) (body : Expr) (arguments : List Expr) :
    Ignores index expr (fun _ => True) (call evaluate formals body arguments) := by
  refine .bind ((ignoring index expr).requireExactArity _ _) fun _ _ => ?_
  exact (deferAll_ignores arguments).bind fun cells _ => enter_ignores ignores cells formals body

end

/-- An evaluation, to any depth, only reads the expression in a cell to force it. -/
theorem evaluateWithin_ignores (index : Nat) (expr : Expr) (bound : Nat) (part : Expr) :
    Ignores index expr (fun _ => True) (evaluateWithin bound part) := by
  induction bound generalizing part with
  | zero => exact .throw
  | succ bound ih =>
      have rulesHold : (ignoring index expr).Rules (fun _ => True) (byNeed (evaluateWithin bound))
          fun _ => byNeed (evaluateWithin bound) := {
        lookUp := fun _ => lookUp_ignores ih _
        define := fun _ _ => define_ignores _ _
        call := fun _ _ => call_ignores ih _ _ _ }
      exact @Comparison.form _ _ _ _ _ (ignoring index expr) hereditary_true (evaluateWithin bound)
        (fun _ => evaluateWithin bound) (fun part _ => ih part) _ _ rulesHold part trivial

/-! ## Calls that do not force an argument -/

theorem call_of_arity (evaluate : Expr → Action Environment Expr) {formals : List String}
    {arguments : List Expr} (arity : formals.length = arguments.length) (body : Expr)
    (environment : Environment) :
    call evaluate formals body arguments environment =
      enter evaluate (environment.deferAll arguments).1 formals body
        (environment.deferAll arguments).2 := by
  simp only [call, requireExactArity, arity, if_true]
  rfl

theorem call_of_mismatch (evaluate : Expr → Action Environment Expr) {formals : List String}
    {arguments : List Expr} (mismatch : formals.length ≠ arguments.length) (body : Expr)
    (environment : Environment) :
    call evaluate formals body arguments environment =
      .error (.exactArity formals.length arguments.length) environment := by
  have different : (formals.length : Int) ≠ arguments.length := by omega
  simp only [call, requireExactArity, if_neg different]
  rfl

section

variable {bound : Nat} {formals : List String} {body : Expr} {before behind : List Expr}
  {argument : Expr} {environment : Environment}
  (unforced : .forcing (environment.cells.size + before.length) ∉
    (afterwards (call (evaluateWithin bound) formals body (before ++ argument :: behind)
      environment)).eventsSince environment)
  (argument' : Expr)

include unforced

/-- The call ends alike up to the expression in the cell of the argument. -/
theorem call_redeferred :
    call (evaluateWithin bound) formals body (before ++ argument' :: behind) environment =
      redeferred (environment.cells.size + before.length) argument'
        (call (evaluateWithin bound) formals body (before ++ argument :: behind) environment) := by
  have sameLength : (before ++ argument' :: behind).length =
      (before ++ argument :: behind).length := by simp only [List.length_append, List.length_cons]
  by_cases arity : formals.length = (before ++ argument :: behind).length
  · rw [call_of_arity _ arity] at unforced ⊢
    rw [call_of_arity _ (arity.trans sameLength.symm),
      environment.deferAll_exchanged argument' before behind argument]
    have deferred := Environment.Grows.deferAll environment (before ++ argument :: behind)
    have inside : environment.cells.size + before.length <
        (environment.deferAll (before ++ argument :: behind)).2.cells.size := by
      simp [Environment.deferAll, Environment.deferIn_eq]
    obtain ⟨-, events, grows, alike⟩ :=
      enter_ignores (evaluateWithin_ignores _ argument' bound)
        (environment.deferAll (before ++ argument :: behind)).1 formals body inside
    rw [(deferred.trans grows).eventsSince_eq] at unforced
    exact alike unforced
  · rw [call_of_mismatch _ arity, call_of_mismatch _ (sameLength ▸ arity), sameLength]
    rw [redeferred, environment.redefer_of_missing _ _ (Nat.le_add_right _ _)]

/-- If a call does not force one of its arguments, the call with any other argument in its place
does the same: it gives the same value or fails in the same way, with the same trace, and leaves the
same session table and the same scopes. -/
theorem call_of_unforced :
    let result :=
      call (evaluateWithin bound) formals body (before ++ argument :: behind) environment
    let result' :=
      call (evaluateWithin bound) formals body (before ++ argument' :: behind) environment
    outcome result' = outcome result ∧
      (afterwards result').table = (afterwards result).table ∧
      (afterwards result').scopes = (afterwards result).scopes ∧
      (afterwards result').events = (afterwards result).events := by
  intro result result'
  have same : result' = redeferred _ argument' result := call_redeferred unforced argument'
  rw [same]
  cases result <;> exact ⟨rfl, rfl, rfl, rfl⟩

end

/-- The second argument is in scope where the first one is read, and it is not forced there. It
could have been an endless recursion. -/
theorem call_of_unforced_endless :
    let environment : Environment := {
      table := [("endless", .expr (.lambda [] (.application (.identifier "endless") [])))] }
    let body := Expr.application
      (.lambda ["z"] (.application (.operator .and) [.identifier "x", .identifier "z"]))
      [.boolean false]
    let result := call (evaluateWithin 5) ["x", "y"] body
      [.application (.operator .not) [.boolean false], .nil] environment
    .forcing 1 ∉ (afterwards result).eventsSince environment ∧
      outcome (call (evaluateWithin 5) ["x", "y"] body [.application (.operator .not)
        [.boolean false], .application (.identifier "endless") []] environment) =
          .ok (.boolean false) := by
  intro environment body result
  have trace : (afterwards result).eventsSince environment =
      [.called ["x", "y"] body 2,
        .called ["z"] (.application (.operator .and) [.identifier "x", .identifier "z"]) 1,
        .lookedUp 0, .forcing 0, .forced 0, .lookedUp 2, .forcing 2, .forced 2] := rfl
  have unforced : .forcing 1 ∉ (afterwards result).eventsSince environment := by simp [trace]
  exact ⟨unforced, (@call_of_unforced 5 _ _ [.application (.operator .not) [.boolean false]] []
    .nil environment unforced (.application (.identifier "endless") [])).1⟩

end Evaluation

end LazyLisp
