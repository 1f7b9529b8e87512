import LazyLisp.Proofs.Evaluation.ByValue
import LazyLisp.Proofs.Evaluation.Simulation
import LazyLisp.Proofs.Evaluation.Values

/-!
# Evaluation by need and by value

Evaluating the arguments of a call only where they are looked up adds results and takes none away:
an evaluation by value that ends with a value is followed by evaluation by name, which looks up
arguments where evaluation by value has their values, and evaluation by name is followed by
evaluation by need. Evaluation by need may need a greater depth, since an argument is evaluated
inside the calls that look it up.
-/

set_option autoImplicit false

namespace LazyLisp.Laziness

open Evaluation Sharing

/-- A value and an argument that evaluation by name gives this value for. -/
def Yields (table : Bindings Expr) (value : Expr) (thunk : ByName.Thunk) : Prop :=
  value.DefFree ∧ ValueOf table thunk value

/-- Scopes bind names to values, and others bind them to arguments with these values. -/
def YieldsAll (table : Bindings Expr) :
    List (Bindings Expr) → List (Bindings ByName.Thunk) → Prop :=
  List.Forall₂ (Bindings.Related (Yields table))

/-- Wherever the values of the scopes are those of the arguments, an action that ends with a result
keeps the state, and the family converges to the same result. -/
def Follows {α : Type} (table : Bindings Expr) (good : α → Prop) (action : Action ByValue.State α)
    (family : Nat → Action ByName.State α) : Prop :=
  ∀ ⦃scopes : List (Bindings Expr)⦄ ⦃scopes' : List (Bindings ByName.Thunk)⦄,
    YieldsAll table scopes scopes' → ∀ ⦃result : α⦄ ⦃after : ByValue.State⦄,
    action ⟨table, scopes⟩ = .ok result after →
    after = ⟨table, scopes⟩ ∧ good result ∧
      Converges family ⟨table, scopes'⟩ (.ok result ⟨table, scopes'⟩)

namespace Follows

variable {table : Bindings Expr} {α β : Type} {good : α → Prop}

theorem pure {result : α} (isGood : good result) :
    Follows table good (Pure.pure result) fun _ => Pure.pure result := by
  rintro scopes scopes' - _ _ ⟨⟩
  exact ⟨rfl, isGood, .const rfl⟩

/-- What fails is followed by everything. -/
theorem throw {failure : Failure} {family : Nat → Action ByName.State α} :
    Follows table good (MonadExcept.throw failure) family := by
  rintro scopes scopes' - _ _ ⟨⟩

theorem bind {good' : β → Prop} {first : Action ByValue.State α}
    {next : α → Action ByValue.State β} {first' : Nat → Action ByName.State α}
    {next' : Nat → α → Action ByName.State β} (follows : Follows table good first first')
    (follows' : ∀ result, good result →
      Follows table good' (next result) fun index => next' index result) :
    Follows table good' (first >>= next) fun index => first' index >>= next' index := by
  intro scopes scopes' yields result after done
  cases same : first ⟨table, scopes⟩ with
  | error failure middle =>
      rw [Action.bind_of_error same] at done
      cases done
  | ok result' middle =>
      rw [Action.bind_of_ok same] at done
      obtain ⟨rfl, isGood, converges⟩ := follows yields same
      obtain ⟨same', isGood', converges'⟩ := follows' result' isGood yields done
      exact ⟨same', isGood', converges.bind converges'⟩

end Follows

/-- Following, as a comparison of evaluation by value with evaluation by name to all depths. -/
def following (table : Bindings Expr) : Comparison Expr.DefFree ByValue.State ByName.State Nat where
  holds good action family := Follows table good action family
  pure isGood := Follows.pure isGood
  throw _ := Follows.throw
  bind follows follows' := Follows.bind follows follows'

section

variable {table : Bindings Expr}

/-- What a family converges to in other scopes, it converges to there from the present ones. -/
theorem converges_inScopes {α : Type} {family : Nat → Action ByName.State α}
    {scopes : List (Bindings ByName.Thunk)} {result : α}
    (scopes' : List (Bindings ByName.Thunk))
    (converges : Converges family ⟨table, scopes⟩ (.ok result ⟨table, scopes⟩)) :
    Converges (fun bound => ByName.inScopes scopes (family bound)) ⟨table, scopes'⟩
      (.ok result ⟨table, scopes'⟩) :=
  @Converges.inScopes _ family ⟨table, scopes'⟩ scopes _ converges

theorem Follows.inScope {values : List Expr} {thunks : List ByName.Thunk}
    (yields : List.Forall₂ (Yields table) values thunks) (formals : List String) {α : Type}
    {good : α → Prop} {action : Action ByValue.State α} {family : Nat → Action ByName.State α}
    (follows : Follows table good action family) :
    Follows table good (ByValue.inScope (Bindings.ofPairs (formals.zip values)) action)
      fun index => ByName.inScope (Bindings.ofPairs (formals.zip thunks)) (family index) := by
  intro scopes scopes' yieldsAll result after done
  obtain ⟨inner, found, rfl⟩ := ByValue.exists_of_inScope_eq_ok done
  have pushed : YieldsAll table (Bindings.ofPairs (formals.zip values) :: scopes)
      (Bindings.ofPairs (formals.zip thunks) :: scopes') :=
    .cons (Bindings.Related.zip formals yields).ofPairs yieldsAll
  obtain ⟨rfl, isGood, converges⟩ := follows pushed found
  refine ⟨rfl, isGood, Converges.congr (fun _ => ?_) (converges_inScopes scopes' converges)⟩
  rfl

theorem lookUp_follows (tableDefFree : ∀ entry ∈ table, entry.2.DefFree) (name : String) :
    Follows table Expr.DefFree (ByValue.lookUp name)
      fun index => ByName.lookUp (ByName.evaluateWithin index) name := by
  intro scopes scopes' yields result after done
  rw [ByValue.lookUp_eq] at done
  have inScopes := Bindings.Related.findSome? yields name
  generalize scopes.findSome? (·.find? name) = value? at inScopes done
  generalize thunkFound : scopes'.findSome? (·.find? name) = thunk? at inScopes
  cases inScopes with
  | some yields =>
      cases done
      obtain ⟨defFree, isValue⟩ := yields
      refine ⟨rfl, defFree, Converges.congr (fun _ => ?_) (converges_inScopes scopes' isValue)⟩
      exact ByName.lookUp_inScopes _ thunkFound
  | none =>
      rw [Option.none_or] at done
      have inTable : ∀ bound, ByName.lookUp (ByName.evaluateWithin bound) name ⟨table, scopes'⟩ =
          ((table.find? name).elim (throw (.unknownSymbol name)) pure : Action ByName.State Expr)
            ⟨table, scopes'⟩ := fun _ => ByName.lookUp_inTable _ thunkFound
      cases found : table.find? name with
      | none =>
          rw [found] at done
          cases done
      | some value =>
          rw [found] at done inTable
          cases done
          exact ⟨rfl, tableDefFree _ (Bindings.mem_of_find? found),
            Converges.congr inTable (.const rfl)⟩

/-! ## Calls -/

section

variable {bound : Nat} (follows : ∀ {expr : Expr}, expr.DefFree →
  Follows table Expr.DefFree (ByValue.evaluateWithin bound expr)
    fun index => ByName.evaluateWithin index expr)

include follows

/-- The values of arguments are those that evaluation by name gives for the arguments in the scopes
of the caller. -/
theorem evaluateAll_yields {scopes : List (Bindings Expr)}
    {scopes' : List (Bindings ByName.Thunk)} (yields : YieldsAll table scopes scopes')
    {arguments : List Expr} (defFree : ∀ argument ∈ arguments, argument.DefFree)
    {values : List Expr} {after : ByValue.State}
    (done : evaluateAll (ByValue.evaluateWithin bound) arguments ⟨table, scopes⟩ =
      .ok values after) :
    after = ⟨table, scopes⟩ ∧
      List.Forall₂ (Yields table) values (arguments.map (.mk · scopes')) := by
  induction arguments generalizing values after with
  | nil =>
      cases done
      exact ⟨rfl, .nil⟩
  | cons argument arguments ih =>
      rw [List.forall_mem_cons] at defFree
      obtain ⟨value, middle, first, done⟩ := Action.exists_of_bind_eq_ok done
      obtain ⟨rfl, valueDefFree, isValue⟩ := follows defFree.1 yields first
      obtain ⟨values', last, others, done⟩ := Action.exists_of_bind_eq_ok done
      obtain ⟨rfl, yieldsOthers⟩ := ih defFree.2 others
      cases done
      exact ⟨rfl, .cons ⟨valueDefFree, isValue⟩ yieldsOthers⟩

theorem enter_follows {values : List Expr} {thunks : List ByName.Thunk}
    (yields : List.Forall₂ (Yields table) values thunks) (formals : List String) {body : Expr}
    (defFree : body.DefFree) :
    Follows table Expr.DefFree (ByValue.enter (ByValue.evaluateWithin bound) values formals body)
      fun index => ByName.enter (ByName.evaluateWithin index) thunks formals body := by
  induction body using Expr.body_induction generalizing formals with
  | lambda formals' body ih =>
      refine Follows.inScope yields formals ?_
      rw [yields.length_eq]
      exact Follows.bind ((following table).requireExactArity _ _) fun _ _ => ih formals' defFree
  | other body notLambda =>
      rw [ByValue.enter_of_not_lambda _ notLambda]
      simp only [ByName.enter_of_not_lambda _ notLambda]
      exact Follows.inScope yields formals (follows defFree)

theorem call_follows (formals : List String) {body : Expr} (defFree : body.DefFree)
    {arguments : List Expr} (argumentsDefFree : ∀ argument ∈ arguments, argument.DefFree) :
    Follows table Expr.DefFree
      (ByValue.call (ByValue.evaluateWithin bound) formals body arguments)
      fun index => ByName.call (ByName.evaluateWithin index) formals body arguments := by
  refine Follows.bind ((following table).requireExactArity _ _) fun _ _ => ?_
  intro scopes scopes' yieldsAll result after done
  obtain ⟨values, middle, evaluated, done⟩ := Action.exists_of_bind_eq_ok done
  obtain ⟨rfl, yields⟩ := evaluateAll_yields follows yieldsAll argumentsDefFree evaluated
  obtain ⟨same, isGood, converges⟩ := enter_follows follows yields formals defFree yieldsAll done
  refine ⟨same, isGood, Converges.congr (fun _ => ?_) converges⟩
  rfl

end

/-- Evaluation by name follows evaluation by value, in all scopes and to all depths. -/
theorem evaluateWithin_follows (tableDefFree : ∀ entry ∈ table, entry.2.DefFree) (bound : Nat)
    {expr : Expr} (defFree : expr.DefFree) :
    Follows table Expr.DefFree (ByValue.evaluateWithin bound expr)
      fun index => ByName.evaluateWithin index expr := by
  induction bound generalizing expr with
  | zero => exact Follows.throw
  | succ bound ih =>
      intro scopes scopes' yields result after done
      have rulesFollow : (following table).Rules Expr.DefFree
          (ByValue.rules (ByValue.evaluateWithin bound))
          fun index => ByName.rules (ByName.evaluateWithin index) := {
        lookUp := fun _ => lookUp_follows tableDefFree _
        define := fun isDefinition => isDefinition.elim
        call := fun lambda arguments =>
          call_follows ih _ (Expr.hereditary_defFree.body lambda) arguments }
      obtain ⟨same, isGood, converges⟩ :=
        Comparison.form Expr.hereditary_defFree (fun _ => ih) rulesFollow defFree yields done
      -- A form to one depth evaluates its parts to the depth before.
      exact ⟨same, isGood, converges.shift rfl⟩

end

end LazyLisp.Laziness

namespace LazyLisp.Evaluation

open Laziness

/-- If no definition occurs in the expression and in the session table, and evaluation by value
ends with a value at the top level, evaluation by need ends with the same value, the same down to
the marks of its `nan`s, at every depth from some depth on. -/
theorem byNeed_of_byValue {environment : Environment} {table : Bindings Expr} {expr value : Expr}
    {bound : Nat} {after : ByValue.State} (atTopLevel : environment.AtTopLevel)
    (same : environment.table = table.map fun entry => (entry.1, .expr entry.2))
    (tableDefFree : ∀ entry ∈ table, entry.2.DefFree) (defFree : expr.DefFree)
    (done : ByValue.evaluateWithin bound expr ⟨table, []⟩ = .ok value after) :
    ∃ least, ∀ bound', least ≤ bound' →
      outcome (evaluateWithin bound' expr environment) = .ok value := by
  have noScopes : YieldsAll table [] [] := .nil
  obtain ⟨-, -, converges⟩ := evaluateWithin_follows tableDefFree bound defFree noScopes done
  obtain ⟨least, eventually⟩ := converges.eventually
  refine ⟨least, fun bound' enough => ?_⟩
  have byName : outcome (ByName.evaluateWithin bound' expr ⟨table, []⟩) = .ok value :=
    congrArg outcome (eventually bound' enough)
  have notDeep : outcome (ByName.evaluateWithin bound' expr ⟨table, []⟩) ≠ .error .tooDeep := by
    rw [byName]
    exact nofun
  exact (byNeed_of_byName atTopLevel same tableDefFree defFree notDeep).trans byName

/-- An argument that is looked up in an inner call, where another formal has the name that it
reads. -/
theorem byNeed_of_byValue_shadowed :
    let inner :=
      Expr.lambda ["y"] (.application (.operator .and) [.identifier "x", .identifier "y"])
    let outer := Expr.lambda ["x", "y"] (.application (.identifier "inner")
      [.application (.operator .not) [.identifier "y"]])
    let call := Expr.application (.lambda ["y"] (.application (.identifier "outer")
      [.identifier "y", .boolean false])) [.boolean true]
    ∃ least, ∀ bound', least ≤ bound' → outcome (evaluateWithin bound' call
      { table := [("inner", .expr inner), ("outer", .expr outer)] }) = .ok (.boolean true) := by
  intro inner outer call
  have tableDefFree : ∀ entry ∈ [("inner", inner), ("outer", outer)], entry.2.DefFree := by
    simp [inner, outer, Expr.DefFree, Expr.AllDefFree]
  have defFree : call.DefFree := by simp [call, Expr.DefFree, Expr.AllDefFree]
  have done : ByValue.evaluateWithin 10 call ⟨[("inner", inner), ("outer", outer)], []⟩ =
      .ok (.boolean true) ⟨[("inner", inner), ("outer", outer)], []⟩ := rfl
  exact byNeed_of_byValue ⟨rfl, rfl, rfl⟩ rfl tableDefFree defFree done

end LazyLisp.Evaluation
