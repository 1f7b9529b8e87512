import LazyLisp.Proofs.Evaluation.Watching

/-!
# Evaluation to greater depths

An evaluation that is not too deep ends the same to every greater depth. So how an expression ends
can be told without a depth: it is how its evaluation ends to some depth, if it does not end there
for being too deep. An endless evaluation ends in no way.
-/

set_option autoImplicit false

namespace LazyLisp.Evaluation

/-- The action did not end because it was too deep. -/
def NotTooDeep {α : Type} : EStateM.Result Failure Environment α → Prop
  | .ok _ _ => True
  | .error failure _ => failure ≠ .tooDeep

/-- Unless the first action is too deep the second one ends the same. -/
def Deepens {α : Type} (good : α → Prop) (action action' : Action Environment α) : Prop :=
  ∀ environment : Environment,
    (NotTooDeep (action environment) → action' environment = action environment) ∧
      ∀ ⦃result : α⦄ ⦃after : Environment⦄, action environment = .ok result after → good result

namespace Deepens

variable {α β : Type} {good : α → Prop} {good' : β → Prop}

theorem refl (action : Action Environment α) : Deepens (fun _ => True) action action :=
  fun _ => ⟨fun _ => rfl, fun _ _ _ => trivial⟩

theorem of_ok {action action' : Action Environment α} (deepens : Deepens good action action')
    {environment after : Environment} {result : α} (ended : action environment = .ok result after) :
    action' environment = .ok result after ∧ good result := by
  obtain ⟨same, isGood⟩ := deepens environment
  rw [ended] at same
  exact ⟨same trivial, isGood ended⟩

theorem of_error {action action' : Action Environment α} (deepens : Deepens good action action')
    {environment after : Environment} {failure : Failure}
    (ended : action environment = .error failure after) (notDeep : failure ≠ .tooDeep) :
    action' environment = .error failure after := by
  have same := (deepens environment).1
  rw [ended] at same
  exact same notDeep

theorem bind {first first' : Action Environment α} {next next' : α → Action Environment β}
    (deepens : Deepens good first first')
    (deepens' : ∀ result, good result → Deepens good' (next result) (next' result)) :
    Deepens good' (first >>= next) (first' >>= next') := by
  intro environment
  cases ended : first environment with
  | ok result middle =>
      obtain ⟨same, isGood⟩ := deepens.of_ok ended
      rw [Action.bind_of_ok ended, Action.bind_of_ok same]
      exact deepens' result isGood middle
  | error failure middle =>
      rw [Action.bind_of_error ended]
      constructor
      · intro notDeep
        exact Action.bind_of_error (deepens.of_error ended notDeep) next'
      · exact nofun

/-- The stacks must be kept, so that the scope is there to be closed. -/
theorem inScope {action action' : Action Environment α} (keeps : KeepsStacks action)
    (deepens : Deepens good action action') (scope : Bindings) :
    Deepens good (Evaluation.inScope scope action) (Evaluation.inScope scope action') := by
  intro environment
  have same := keeps.afterwards (environment.push scope)
  cases ended : action (environment.push scope) with
  | ok result after =>
      rw [ended] at same
      obtain ⟨closed, popped, -⟩ := Environment.pop?_of_callStacks same
      obtain ⟨ended', isGood⟩ := deepens.of_ok ended
      rw [inScope_of_ok ended popped, inScope_of_ok ended' popped]
      refine ⟨fun _ => rfl, fun _ _ found => ?_⟩
      cases found
      exact isGood
  | error failure after =>
      rw [ended] at same
      obtain ⟨closed, popped, -⟩ := Environment.pop?_of_callStacks same
      rw [inScope_of_error ended popped]
      constructor
      · intro notDeep
        exact inScope_of_error (deepens.of_error ended notDeep) popped
      · exact nofun

end Deepens

theorem requireExactArity_keepsStacks (expected received : Int) :
    KeepsStacks (requireExactArity expected received) := by
  intro environment _
  unfold requireExactArity
  split <;> exact ⟨rfl, trivial, trivial⟩

/-- Ending the same to a greater depth, as a comparison with one other evaluation. -/
def deepening : Comparison (fun _ => True) Environment Environment Unit where
  holds good action action' := Deepens good action (action' ())
  pure isGood := fun _ => ⟨fun _ => rfl, fun _ _ ended => by cases ended; exact isGood⟩
  throw _ := fun _ => ⟨fun _ => rfl, nofun⟩
  bind deepens deepens' := deepens.bind deepens'

section

variable {evaluate evaluate' : Expr → Action Environment Expr}
  (deepens : ∀ expr, Deepens (fun _ => True) (evaluate expr) (evaluate' expr))

include deepens

theorem force_deepens (index : Nat) (cell : Cell) :
    Deepens (fun _ => True) (force evaluate index cell) (force evaluate' index cell) := by
  intro environment
  refine ⟨fun notDeep => ?_, fun _ _ _ => trivial⟩
  cases unforced : cell.value? with
  | some value => simp only [force, unforced]
  | none =>
      cases ended : evaluate cell.expr ((environment.record (.forcing index)).switch
          (some cell.group) (environment.scopesOf cell)) with
      | ok value after =>
          rw [force_of_ok _ unforced ended, force_of_ok _ unforced ((deepens _).of_ok ended).1]
      | error failure after =>
          rw [force_of_error _ unforced ended] at notDeep ⊢
          exact force_of_error _ unforced ((deepens _).of_error ended notDeep)

theorem lookUp_deepens (name : String) :
    Deepens (fun _ => True) (lookUp evaluate name) (lookUp evaluate' name) := by
  intro environment
  refine ⟨fun notDeep => ?_, fun _ _ _ => trivial⟩
  cases bound : environment.find? name with
  | none => rw [lookUp_of_unbound _ bound, lookUp_of_unbound _ bound]
  | some slot =>
      cases slot with
      | expr expr => rw [lookUp_of_expr _ bound, lookUp_of_expr _ bound]
      | deferred index =>
          cases found : environment.cells[index]? with
          | none => rw [lookUp_of_missing _ bound found, lookUp_of_missing _ bound found]
          | some cell =>
              rw [lookUp_of_deferred _ bound found] at notDeep ⊢
              rw [lookUp_of_deferred _ bound found]
              exact (force_deepens deepens index cell _).1 notDeep

variable (keeps : ∀ expr, KeepsStacks (evaluate expr))

include keeps

theorem enter_deepens (cells : List Nat) (formals : List String) (body : Expr) :
    Deepens (fun _ => True) (enter evaluate cells formals body)
      (enter evaluate' cells formals body) := by
  induction body using Expr.body_induction generalizing formals with
  | lambda formals' body ih =>
      apply (Deepens.refl _).bind
      intro _ _
      apply Deepens.inScope
      · exact (requireExactArity_keepsStacks _ _).bind fun _ _ =>
          enter_keepsStacks keeps cells formals' body
      · exact (Deepens.refl _).bind fun _ _ => ih formals'
  | other body notLambda =>
      rw [enter_of_not_lambda _ notLambda, enter_of_not_lambda _ notLambda]
      apply (Deepens.refl _).bind
      intro _ _
      exact (deepens body).inScope (keeps body) _

theorem call_deepens (formals : List String) (body : Expr) (arguments : List Expr) :
    Deepens (fun _ => True) (call evaluate formals body arguments)
      (call evaluate' formals body arguments) := by
  apply (Deepens.refl _).bind
  intro _ _
  apply (Deepens.refl _).bind
  intro cells _
  exact enter_deepens deepens keeps cells formals body

theorem byNeed_deepens :
    deepening.Rules (fun _ => True) (byNeed evaluate) fun _ => byNeed evaluate' where
  lookUp _ := lookUp_deepens deepens _
  define _ _ := .refl _
  call _ _ := call_deepens deepens keeps _ _ _

theorem form_deepens (expr : Expr) :
    Deepens (fun _ => True) (form (byNeed evaluate) evaluate expr)
      (form (byNeed evaluate') evaluate' expr) :=
  @Comparison.form _ _ _ _ _ deepening hereditary_true evaluate (fun _ => evaluate')
    (fun expr _ => deepens expr) _ _ (byNeed_deepens deepens keeps) expr trivial

end

variable {watched : Expr → Bool}

theorem watchedWithin_deepens {bound bound' : Nat} (le : bound ≤ bound') (expr : Expr) :
    Deepens (fun _ => True) (watchedWithin watched bound expr)
      (watchedWithin watched bound' expr) := by
  induction bound generalizing bound' expr with
  | zero => exact fun _ => ⟨fun notDeep => absurd rfl notDeep, nofun⟩
  | succ bound ih =>
      obtain ⟨bound', rfl⟩ : ∃ greater, bound' = greater + 1 := ⟨bound' - 1, by omega⟩
      apply (Deepens.refl _).bind
      intro _ _
      exact form_deepens (ih (by omega)) (watchedWithin_keepsStacks bound) expr

/-! ## Endings -/

/-- The actions of the family end so to some depth, and not for being too deep. -/
def EndsWith {α : Type} (family : Nat → Action Environment α) (environment : Environment)
    (result : EStateM.Result Failure Environment α) : Prop :=
  NotTooDeep result ∧ ∃ bound, family bound environment = result

/-- What the actions of the family end with is the same to greater depths. -/
def Steady {α : Type} (family : Nat → Action Environment α) : Prop :=
  ∀ ⦃bound bound' : Nat⦄, bound ≤ bound' →
    Deepens (fun _ => True) (family bound) (family bound')

section

variable {α β : Type} {environment : Environment}

theorem steady_watchedWithin (expr : Expr) : Steady (watchedWithin watched · expr) :=
  fun _ _ le => watchedWithin_deepens le expr

theorem steady_const (action : Action Environment α) : Steady fun _ => action :=
  fun _ _ _ => .refl action

theorem Steady.bind {first : Nat → Action Environment α}
    {next : Nat → α → Action Environment β} (steady : Steady first)
    (steady' : ∀ result, Steady (next · result)) :
    Steady fun bound => first bound >>= next bound :=
  fun _ _ le => (steady le).bind fun result _ => steady' result le

theorem Steady.eq_of_le {family : Nat → Action Environment α} (steady : Steady family)
    {bound bound' : Nat} (le : bound ≤ bound')
    (notDeep : NotTooDeep (family bound environment)) :
    family bound' environment = family bound environment :=
  (steady le environment).1 notDeep

theorem endsWith_const {action : Action Environment α}
    {result : EStateM.Result Failure Environment α}
    (notDeep : NotTooDeep (action environment)) :
    EndsWith (fun _ => action) environment result ↔ result = action environment := by
  constructor
  · intro ends
    obtain ⟨_, _, same⟩ := ends
    exact same.symm
  · intro same
    subst same
    exact ⟨notDeep, 0, rfl⟩

/-- There is only one way to end. -/
theorem EndsWith.unique {family : Nat → Action Environment α} (steady : Steady family)
    {result result' : EStateM.Result Failure Environment α}
    (ends : EndsWith family environment result) (ends' : EndsWith family environment result') :
    result = result' := by
  obtain ⟨notDeep, bound, rfl⟩ := ends
  obtain ⟨notDeep', bound', rfl⟩ := ends'
  rcases Nat.le_total bound bound' with le | le
  · exact (steady.eq_of_le le notDeep).symm
  · exact steady.eq_of_le le notDeep'

/-- Actions one after another end as the first ones do if these fail, and otherwise as those that
come next. -/
theorem endsWith_bind {first : Nat → Action Environment α}
    {next : Nat → α → Action Environment β} (steady : Steady first)
    (steady' : ∀ result, Steady (next · result))
    {result : EStateM.Result Failure Environment β} :
    EndsWith (fun bound => first bound >>= next bound) environment result ↔
      (∃ value middle, EndsWith first environment (.ok value middle) ∧
        EndsWith (next · value) middle result) ∨
      ∃ failure after, EndsWith first environment (.error failure after) ∧
        result = .error failure after := by
  constructor
  · intro ends
    obtain ⟨notDeep, bound, ended⟩ := ends
    change (first bound >>= next bound) environment = result at ended
    cases firstEnded : first bound environment with
    | ok value middle =>
        rw [Action.bind_of_ok firstEnded] at ended
        exact .inl ⟨value, middle, ⟨trivial, bound, firstEnded⟩, notDeep, bound, ended⟩
    | error failure after =>
        rw [Action.bind_of_error firstEnded] at ended
        subst ended
        exact .inr ⟨failure, after, ⟨notDeep, bound, firstEnded⟩, rfl⟩
  · intro ends
    cases ends with
    | inl ends =>
        obtain ⟨value, middle, ⟨-, bound, ended⟩, notDeep, bound', rfl⟩ := ends
        have deeper := ((steady (Nat.le_max_left bound bound')).of_ok ended).1
        have deeper' := (steady' value).eq_of_le (Nat.le_max_right bound bound') notDeep
        exact ⟨notDeep, max bound bound', (Action.bind_of_ok deeper _).trans deeper'⟩
    | inr ends =>
        obtain ⟨failure, after, ⟨notDeep, bound, ended⟩, rfl⟩ := ends
        exact ⟨notDeep, bound, Action.bind_of_error ended _⟩

theorem endsWith_bind_of_ok {first : Nat → Action Environment α}
    {next : Nat → α → Action Environment β} (steady : Steady first)
    (steady' : ∀ result, Steady (next · result)) {value : α} {middle : Environment}
    (ends : EndsWith first environment (.ok value middle))
    {result : EStateM.Result Failure Environment β} :
    EndsWith (fun bound => first bound >>= next bound) environment result ↔
      EndsWith (next · value) middle result := by
  rw [endsWith_bind steady steady']
  constructor
  · intro cases
    rcases cases with ⟨value', middle', ends', next_ends⟩ | ⟨failure, after, ends', -⟩
    · cases ends.unique steady ends'
      exact next_ends
    · cases ends.unique steady ends'
  · intro next_ends
    exact .inl ⟨value, middle, ends, next_ends⟩

/-- What comes next may be exchanged for what ends the same. -/
theorem endsWith_bind_congr {first : Nat → Action Environment α}
    {next next' : Nat → α → Action Environment β} (steady : Steady first)
    (steadyNext : ∀ result, Steady (next · result))
    (steadyNext' : ∀ result, Steady (next' · result))
    (alike : ∀ value middle result,
      EndsWith (next · value) middle result ↔ EndsWith (next' · value) middle result)
    {result : EStateM.Result Failure Environment β} :
    EndsWith (fun bound => first bound >>= next bound) environment result ↔
      EndsWith (fun bound => first bound >>= next' bound) environment result := by
  rw [endsWith_bind steady steadyNext, endsWith_bind steady steadyNext']
  simp only [alike]

end

/-- The family of the evaluation of a form: its parts are evaluated to the depth. -/
def formWithin (watched : Expr → Bool) (expr : Expr) (bound : Nat) : Action Environment Expr :=
  form (byNeed (watchedWithin watched bound)) (watchedWithin watched bound) expr

theorem steady_formWithin (expr : Expr) : Steady (formWithin watched expr) := by
  intro bound bound' le
  exact form_deepens (watchedWithin_deepens le) (watchedWithin_keepsStacks bound) expr

/-- The watched evaluation of the expression ends so, to some depth. -/
def Evaluates (watched : Expr → Bool) (environment : Environment) (expr : Expr)
    (result : EStateM.Result Failure Environment Expr) : Prop :=
  EndsWith (watchedWithin watched · expr) environment result

theorem evaluates_nothing_iff {environment : Environment} {expr : Expr}
    {result : EStateM.Result Failure Environment Expr} :
    Evaluates (fun _ => false) environment expr result ↔
      EndsWith (evaluateWithin · expr) environment result := by
  rw [Evaluates, watchedWithin_nothing]

/-- An expression ends as its form does, once it is noted. -/
theorem evaluates_iff {expr : Expr} {environment : Environment}
    {result : EStateM.Result Failure Environment Expr} :
    Evaluates watched environment expr result ↔
      EndsWith (formWithin watched expr) (noting watched expr environment) result := by
  constructor
  · intro ends
    obtain ⟨notDeep, bound, ended⟩ := ends
    cases bound with
    | zero =>
        subst ended
        exact absurd rfl notDeep
    | succ bound =>
        exact ⟨notDeep, bound, (watchedWithin_succ bound expr environment).symm.trans ended⟩
  · intro ends
    obtain ⟨notDeep, bound, ended⟩ := ends
    exact ⟨notDeep, bound + 1, (watchedWithin_succ bound expr environment).trans ended⟩

theorem noting_of_unwatched {expr : Expr} (isUnwatched : watched expr = false)
    (environment : Environment) : noting watched expr environment = environment := by
  simp only [noting, isUnwatched, Bool.false_eq_true, if_false]

/-- An expression that is not watched ends as its form does. -/
theorem evaluates_iff_of_unwatched {expr : Expr} (isUnwatched : watched expr = false)
    {environment : Environment} {result : EStateM.Result Failure Environment Expr} :
    Evaluates watched environment expr result ↔
      EndsWith (formWithin watched expr) environment result := by
  rw [evaluates_iff, noting_of_unwatched isUnwatched]

/-- Evaluating an expression first ends as beginning with its form does, once it is noted. -/
theorem endsWith_bind_form {α : Type} {expr : Expr} {next : Nat → Expr → Action Environment α}
    (steady : ∀ value, Steady (next · value)) {environment : Environment}
    {result : EStateM.Result Failure Environment α} :
    EndsWith (fun bound => watchedWithin watched bound expr >>= next bound) environment result ↔
      EndsWith (fun bound => formWithin watched expr bound >>= next bound)
        (noting watched expr environment) result := by
  rw [endsWith_bind (steady_watchedWithin expr) steady,
    endsWith_bind (steady_formWithin expr) steady]
  have begins := @evaluates_iff watched expr environment
  unfold Evaluates at begins
  simp only [begins]

end LazyLisp.Evaluation
