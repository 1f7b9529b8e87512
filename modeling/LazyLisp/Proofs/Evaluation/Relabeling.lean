import LazyLisp.Proofs.Evaluation.Sharing
import LazyLisp.Proofs.Expr.Relabeling

/-!
# Evaluation under other marks

Evaluation never looks at the marks of the written `nan`s but to tell the same one from another. So
an expression with other marks, evaluated in an environment with these marks, has the same outcome
with these marks.
-/

set_option autoImplicit false

namespace LazyLisp

variable {relabeling : Relabeling}

/-! ## Environments with other marks -/

/-- The name is bound to the same expression with other marks, or to the same cell. -/
inductive Slot.Relabels (relabeling : Relabeling) : Slot → Slot → Prop where
  | expr (expr : Expr) : Relabels relabeling (.expr expr) (.expr (expr.relabeled relabeling))
  | deferred (index : Nat) : Relabels relabeling (.deferred index) (.deferred index)

abbrev Bindings.Relabels (relabeling : Relabeling) : Bindings → Bindings → Prop :=
  Related (Slot.Relabels relabeling)

abbrev Bindings.AllRelabel (relabeling : Relabeling) : List Bindings → List Bindings → Prop :=
  List.Forall₂ (Relabels relabeling)

/-- The same deferred argument with other marks. -/
structure Cell.Relabels (relabeling : Relabeling) (cell cell' : Cell) : Prop where
  expr : cell'.expr = cell.expr.relabeled relabeling
  group : cell'.group = cell.group
  scopes : Bindings.AllRelabel relabeling cell.scopes cell'.scopes
  value : cell'.value? = cell.value?.map (Expr.relabeled relabeling)

abbrev StackRelabels (relabeling : Relabeling) (stack stack' : Nat × List Bindings) : Prop :=
  stack'.1 = stack.1 ∧ Bindings.AllRelabel relabeling stack.2 stack'.2

/-- The same environment with other marks, whatever has been traced and however many `nan`s have
been counted. -/
structure Environment.Relabels (relabeling : Relabeling) (environment other : Environment) : Prop
    where
  table : environment.table.Relabels relabeling other.table
  scopes : Bindings.AllRelabel relabeling environment.scopes other.scopes
  group : other.group = environment.group
  waiting : List.Forall₂ (StackRelabels relabeling) environment.waiting other.waiting
  size : other.cells.size = environment.cells.size
  cells (index : Nat) :
    Option.Rel (Cell.Relabels relabeling) environment.cells[index]? other.cells[index]?

/-- A scope of formals holds no marks. -/
theorem Bindings.Relabels.formals (formals : List String) (cells : List Nat) :
    (ofPairs (formals.zip (cells.map .deferred))).Relabels relabeling
      (ofPairs (formals.zip (cells.map .deferred))) := by
  refine .ofPairs (.zip formals (List.forall₂_same.mpr fun slot member => ?_))
  obtain ⟨cell, -, rfl⟩ := List.mem_map.mp member
  exact .deferred cell

namespace Environment.Relabels

theorem empty : Environment.empty.Relabels relabeling .empty :=
  ⟨.nil, .nil, rfl, .nil, rfl, fun index => by simp [Environment.empty]⟩

variable {environment other : Environment} (relabels : environment.Relabels relabeling other)

include relabels

theorem recounted (events events' : Array Event) (preludes preludes' programs programs' : Nat) :
    { environment with events, preludeNans := preludes, programNans := programs }.Relabels
      relabeling
      { other with events := events', preludeNans := preludes', programNans := programs' } :=
  ⟨relabels.table, relabels.scopes, relabels.group, relabels.waiting, relabels.size, relabels.cells⟩

theorem record (event event' : Event) :
    (environment.record event).Relabels relabeling (other.record event') :=
  relabels.recounted _ _ _ _ _ _

theorem setTable {table table' : Bindings} (tables : table.Relabels relabeling table') :
    { environment with table }.Relabels relabeling { other with table := table' } :=
  ⟨tables, relabels.scopes, relabels.group, relabels.waiting, relabels.size, relabels.cells⟩

theorem setScopes {scopes scopes' : List Bindings}
    (same : Bindings.AllRelabel relabeling scopes scopes') :
    { environment with scopes }.Relabels relabeling { other with scopes := scopes' } :=
  ⟨relabels.table, same, relabels.group, relabels.waiting, relabels.size, relabels.cells⟩

theorem find? (name : String) :
    Option.Rel (Slot.Relabels relabeling) (environment.find? name) (other.find? name) := by
  have inScopes := Bindings.Related.findSome? relabels.scopes name
  have inTable := Bindings.Related.find? relabels.table name
  unfold Environment.find?
  generalize environment.scopes.findSome? (·.find? name) = found at inScopes ⊢
  generalize other.scopes.findSome? (·.find? name) = found' at inScopes ⊢
  cases inScopes with
  | some same => exact .some same
  | none => exact inTable

theorem define (name : String) (value : Expr) :
    (environment.define name (.expr value)).Relabels relabeling
      (other.define name (.expr (value.relabeled relabeling))) := by
  have tables := relabels.table.insert name (.expr value)
  unfold Environment.define
  split <;> split <;> exact (relabels.recounted _ _ _ _ _ _).setTable tables

theorem push {scope scope' : Bindings} (same : scope.Relabels relabeling scope') :
    (environment.push scope).Relabels relabeling (other.push scope') :=
  relabels.setScopes (.cons same relabels.scopes)

theorem pop? :
    Option.Rel (fun popped popped' => popped.2.Relabels relabeling popped'.2) environment.pop?
      other.pop? := by
  have scopes := relabels.scopes
  unfold Environment.pop?
  generalize environment.scopes = present at scopes ⊢
  generalize other.scopes = present' at scopes ⊢
  cases scopes with
  | nil => exact .none
  | cons _ rest => exact .some (relabels.setScopes rest)

theorem groupStacks :
    List.Forall₂ (StackRelabels relabeling) environment.groupStacks other.groupStacks := by
  unfold Environment.groupStacks
  rw [relabels.group]
  cases environment.group with
  | none => exact relabels.waiting
  | some group => exact .cons ⟨rfl, relabels.scopes⟩ relabels.waiting

theorem scopesOf {cell cell' : Cell} (same : cell.Relabels relabeling cell') :
    Bindings.AllRelabel relabeling (environment.scopesOf cell) (other.scopesOf cell') := by
  have inUse := relabels.groupStacks
  unfold Environment.scopesOf
  rw [same.group]
  generalize environment.groupStacks = present at inUse ⊢
  generalize other.groupStacks = present' at inUse ⊢
  induction inUse with
  | nil => exact same.scopes
  | @cons stack stack' _ _ head _ ih =>
      rw [List.lookup_cons, List.lookup_cons, head.1]
      cases cell.group == stack.1 with
      | true => exact head.2
      | false => exact ih

theorem switch {cell cell' : Cell} (same : cell.Relabels relabeling cell') :
    (environment.switch (some cell.group) (environment.scopesOf cell)).Relabels relabeling
      (other.switch (some cell'.group) (other.scopesOf cell')) :=
  ⟨relabels.table, relabels.scopesOf same, congrArg some same.group, relabels.groupStacks,
    relabels.size, relabels.cells⟩

theorem restore {after after' : Environment} (relabels' : after.Relabels relabeling after') :
    (after.restore environment).Relabels relabeling (after'.restore other) :=
  ⟨relabels'.table, relabels.scopes, relabels.group, relabels.waiting, relabels'.size,
    relabels'.cells⟩

theorem fill (index : Nat) (value : Expr) :
    (environment.fill index value).Relabels relabeling
      (other.fill index (value.relabeled relabeling)) := by
  refine ⟨relabels.table, relabels.scopes, relabels.group, relabels.waiting, ?_, fun next => ?_⟩
  · simpa only [Environment.fill, Array.size_modify] using relabels.size
  · have found := relabels.cells next
    simp only [Environment.fill, Array.getElem?_modify]
    generalize environment.cells[next]? = cell at found ⊢
    generalize other.cells[next]? = cell' at found ⊢
    split
    · cases found with
      | none => exact .none
      | some same => exact .some ⟨same.expr, same.group, same.scopes, rfl⟩
    · exact found

theorem deferAll (exprs : List Expr) :
    (other.deferAll (Expr.relabeledAll relabeling exprs)).1 = (environment.deferAll exprs).1 ∧
      (environment.deferAll exprs).2.Relabels relabeling
        (other.deferAll (Expr.relabeledAll relabeling exprs)).2 := by
  rw [Environment.deferAll, Environment.deferAll, deferIn_eq, deferIn_eq, relabels.size,
    Expr.length_relabeledAll]
  refine ⟨rfl, relabels.table, relabels.scopes, relabels.group, relabels.waiting, ?_,
    fun index => ?_⟩
  · simp [relabels.size, Expr.length_relabeledAll]
  · simp only [Array.getElem?_append, relabels.size, Expr.relabeledAll_eq_map]
    split
    · exact relabels.cells index
    · simp only [List.getElem?_toArray, List.getElem?_map, Option.map_map]
      cases exprs[index - environment.cells.size]? with
      | none => exact .none
      | some expr => exact .some ⟨rfl, rfl, relabels.scopes, rfl⟩

end Environment.Relabels

/-! ## Environments with the same marks -/

theorem Slot.relabels_refl_iff {slot slot' : Slot} : slot.Relabels .refl slot' ↔ slot = slot' := by
  constructor
  · intro same
    cases same with
    | expr expr => rw [Expr.relabeled_refl]
    | deferred index => rfl
  · rintro rfl
    cases slot with
    | expr expr =>
        have same : Slot.Relabels .refl (.expr expr) _ := .expr expr
        rwa [Expr.relabeled_refl] at same
    | deferred index => exact .deferred index

theorem Bindings.relabels_refl : Bindings.Relabels .refl = Eq := by
  have entries : (fun entry entry' : String × Slot =>
      entry.1 = entry'.1 ∧ entry.2.Relabels .refl entry'.2) = Eq := by
    funext entry entry'
    rw [Slot.relabels_refl_iff, Prod.ext_iff]
  rw [Bindings.Relabels, Bindings.Related, entries, List.forall₂_eq_eq_eq]

theorem Bindings.allRelabel_refl : Bindings.AllRelabel .refl = Eq := by
  rw [Bindings.AllRelabel, Bindings.relabels_refl, List.forall₂_eq_eq_eq]

theorem Cell.relabels_refl_iff {cell cell' : Cell} : cell.Relabels .refl cell' ↔ cell = cell' := by
  constructor
  · rintro ⟨expr, group, scopes, value⟩
    rw [Expr.relabeled_refl] at expr
    rw [Bindings.allRelabel_refl] at scopes
    rw [funext Expr.relabeled_refl, Option.map_id'] at value
    obtain ⟨_, _, _, _⟩ := cell'
    rw [Cell.mk.injEq]
    exact ⟨expr.symm, group.symm, scopes, value.symm⟩
  · rintro rfl
    refine ⟨(Expr.relabeled_refl _).symm, rfl, ?_, ?_⟩
    · rw [Bindings.allRelabel_refl]
    · rw [funext Expr.relabeled_refl, Option.map_id']

/-- Under the same marks environments are alike if they only differ in what has been traced and
counted. -/
theorem Environment.relabels_refl_iff {environment other : Environment} :
    environment.Relabels .refl other ↔ environment.table = other.table ∧
      environment.scopes = other.scopes ∧ environment.group = other.group ∧
      environment.waiting = other.waiting ∧ environment.cells = other.cells := by
  have ofStacks : StackRelabels .refl = Eq := by
    funext stack stack'
    rw [StackRelabels, Bindings.allRelabel_refl, Prod.ext_iff, @eq_comm _ stack'.1]
  have ofCells : Cell.Relabels .refl = Eq := by
    funext cell cell'
    rw [Cell.relabels_refl_iff]
  constructor
  · rintro ⟨table, scopes, group, waiting, -, sameCells⟩
    rw [Bindings.relabels_refl] at table
    rw [Bindings.allRelabel_refl] at scopes
    rw [ofStacks, List.forall₂_eq_eq_eq] at waiting
    rw [ofCells] at sameCells
    refine ⟨table, scopes, group.symm, waiting, Array.ext_getElem? fun index => ?_⟩
    have same := sameCells index
    generalize environment.cells[index]? = cell at same ⊢
    generalize other.cells[index]? = cell' at same ⊢
    cases same with
    | none => rfl
    | some same => rw [same]
  · rintro ⟨table, scopes, group, waiting, sameCells⟩
    refine ⟨?_, ?_, group.symm, ?_, by rw [sameCells], fun index => ?_⟩
    · rwa [Bindings.relabels_refl]
    · rwa [Bindings.allRelabel_refl]
    · rwa [ofStacks, List.forall₂_eq_eq_eq]
    · rw [ofCells, sameCells]
      cases other.cells[index]? with
      | none => exact .none
      | some cell => exact .some rfl

/-! ## Actions with other marks -/

namespace Evaluation

/-- Both actions give results, of which the second is the translated first, or they fail with the
same failure. The environments behind them are the same but for the marks. -/
inductive Matches {α β : Type} (relabeling : Relabeling) (translate : α → β) :
    EStateM.Result Failure Environment α → EStateM.Result Failure Environment β → Prop where
  | ok {after after' : Environment} {result : α} : after.Relabels relabeling after' →
      Matches relabeling translate (.ok result after) (.ok (translate result) after')
  | error {after after' : Environment} {failure : Failure} : after.Relabels relabeling after' →
      Matches relabeling translate (.error failure after) (.error failure after')

/-- In environments that are the same but for the marks, the actions do the same but for the
marks. -/
def Carries {α β : Type} (relabeling : Relabeling) (translate : α → β)
    (action : Action Environment α) (action' : Action Environment β) : Prop :=
  ∀ ⦃environment other : Environment⦄, environment.Relabels relabeling other →
    Matches relabeling translate (action environment) (action' other)

namespace Carries

variable {α β γ δ : Type} {translate : α → β} {translate' : γ → δ}

theorem pure (result : α) :
    Carries relabeling translate (Pure.pure result) (Pure.pure (translate result)) :=
  fun _ _ relabels => .ok relabels

theorem throw (failure : Failure) :
    Carries relabeling translate (MonadExcept.throw failure) (MonadExcept.throw failure) :=
  fun _ _ relabels => .error relabels

theorem bind {first : Action Environment α} {first' : Action Environment β}
    {next : α → Action Environment γ} {next' : β → Action Environment δ}
    (carries : Carries relabeling translate first first')
    (carries' : ∀ result, Carries relabeling translate' (next result) (next' (translate result))) :
    Carries relabeling translate' (first >>= next) (first' >>= next') := by
  intro environment other relabels
  have outcome := carries relabels
  generalize ended : first environment = result at outcome
  generalize ended' : first' other = result' at outcome
  cases outcome with
  | ok relabels' =>
      rw [Action.bind_of_ok ended, Action.bind_of_ok ended']
      exact carries' _ relabels'
  | error relabels' =>
      rw [Action.bind_of_error ended, Action.bind_of_error ended']
      exact .error relabels'

theorem modify {change change' : Environment → Environment}
    (keeps : ∀ {environment other : Environment}, environment.Relabels relabeling other →
      (change environment).Relabels relabeling (change' other)) :
    Carries relabeling (id : Unit → Unit) (modifyGet fun environment => ((), change environment))
      (modifyGet fun environment => ((), change' environment)) :=
  fun _ _ relabels => .ok (keeps relabels)

theorem record (event event' : Event) :
    Carries relabeling (id : Unit → Unit) (Evaluation.record event) (Evaluation.record event') :=
  modify fun relabels => relabels.record event event'

theorem define (name : String) (value : Expr) :
    Carries relabeling (id : Unit → Unit) (Evaluation.define name value)
      (Evaluation.define name (value.relabeled relabeling)) :=
  modify fun relabels => relabels.define name value

theorem deferAll (arguments : List Expr) :
    Carries relabeling (id : List Nat → List Nat) (modifyGet fun environment : Environment =>
        environment.deferAll arguments)
      (modifyGet fun environment : Environment =>
        environment.deferAll (Expr.relabeledAll relabeling arguments)) := by
  intro environment other relabels
  obtain ⟨sameCells, relabels'⟩ := relabels.deferAll arguments
  change Matches relabeling id (.ok (environment.deferAll arguments).1 _)
    (.ok (other.deferAll _).1 _)
  rw [sameCells]
  exact .ok relabels'

theorem inScope {action : Action Environment α} {action' : Action Environment β}
    (carries : Carries relabeling translate action action') {scope scope' : Bindings}
    (same : scope.Relabels relabeling scope') :
    Carries relabeling translate (Evaluation.inScope scope action)
      (Evaluation.inScope scope' action') := by
  intro environment other relabels
  have outcome := carries (relabels.push same)
  simp only [Evaluation.inScope]
  generalize action (environment.push _) = result at outcome ⊢
  generalize action' (other.push _) = result' at outcome ⊢
  cases outcome with
  | @ok after after' _ relabels' =>
      have popped := relabels'.pop?
      dsimp only
      generalize after.pop? = closed at popped ⊢
      generalize after'.pop? = closed' at popped ⊢
      cases popped with
      | none => exact .error relabels'
      | some same => exact .ok same
  | @error after after' _ relabels' =>
      have popped := relabels'.pop?
      dsimp only
      generalize after.pop? = closed at popped ⊢
      generalize after'.pop? = closed' at popped ⊢
      cases popped with
      | none => exact .error relabels'
      | some same => exact .error same

/-! ### Checks -/

theorem requireExactArity (expected received : Int) :
    Carries relabeling (id : Unit → Unit) (Evaluation.requireExactArity expected received)
      (Evaluation.requireExactArity expected received) := by
  unfold Evaluation.requireExactArity
  split
  · exact .pure ()
  · exact .throw _

theorem requireMinimumArity (least received : Int) :
    Carries relabeling (id : Unit → Unit) (Evaluation.requireMinimumArity least received)
      (Evaluation.requireMinimumArity least received) := by
  unfold Evaluation.requireMinimumArity
  split
  · exact .throw _
  · exact .pure ()

theorem expectNumber (value : Expr) :
    Carries relabeling (Number.relabeled relabeling) (Evaluation.expectNumber value)
      (Evaluation.expectNumber (value.relabeled relabeling)) := by
  cases value with
  | number value => exact .pure value
  | _ => exact .throw _

theorem expectBoolean (value : Expr) :
    Carries relabeling (id : Bool → Bool) (Evaluation.expectBoolean value)
      (Evaluation.expectBoolean (value.relabeled relabeling)) := by
  cases value with
  | boolean value => exact .pure value
  | _ => exact .throw _

theorem expectLambda (value : Expr) :
    Carries relabeling (Prod.map id (Expr.relabeled relabeling)) (Evaluation.expectLambda value)
      (Evaluation.expectLambda (value.relabeled relabeling)) := by
  cases value with
  | lambda formals body => exact .pure (formals, body)
  | _ => exact .throw _

theorem expectList (value : Expr) :
    Carries relabeling (Expr.relabeledAll relabeling) (Evaluation.expectList value)
      (Evaluation.expectList (value.relabeled relabeling)) := by
  cases value with
  | list elements => exact .pure elements
  | _ => exact .throw _

/-! ### Operators -/

section

variable {evaluate : Expr → Action Environment Expr}
  (carries : ∀ expr, Carries relabeling (Expr.relabeled relabeling) (evaluate expr)
    (evaluate (expr.relabeled relabeling)))

include carries

theorem evaluateNumber (argument : Expr) :
    Carries relabeling (Number.relabeled relabeling) (Evaluation.evaluateNumber evaluate argument)
      (Evaluation.evaluateNumber evaluate (argument.relabeled relabeling)) :=
  (carries argument).bind expectNumber

theorem evaluateBoolean (argument : Expr) :
    Carries relabeling (id : Bool → Bool) (Evaluation.evaluateBoolean evaluate argument)
      (Evaluation.evaluateBoolean evaluate (argument.relabeled relabeling)) :=
  (carries argument).bind expectBoolean

theorem evaluateAll (arguments : List Expr) :
    Carries relabeling (Expr.relabeledAll relabeling) (Evaluation.evaluateAll evaluate arguments)
      (Evaluation.evaluateAll evaluate (Expr.relabeledAll relabeling arguments)) := by
  induction arguments with
  | nil => exact .pure []
  | cons argument arguments ih =>
      exact (carries argument).bind fun value => ih.bind fun values => .pure (value :: values)

theorem combineAll {combine : Number → Number → Number} (ignores : Number.IgnoresMarks combine)
    (result : Number) (arguments : List Expr) :
    Carries relabeling (Number.relabeled relabeling)
      (Evaluation.combineAll evaluate combine result arguments)
      (Evaluation.combineAll evaluate combine (result.relabeled relabeling)
        (Expr.relabeledAll relabeling arguments)) := by
  induction arguments generalizing result with
  | nil => exact .pure result
  | cons argument arguments ih =>
      refine (evaluateNumber carries argument).bind fun number => ?_
      rw [ignores]
      exact ih (combine result number)

theorem arithmetic {combine : Number → Number → Number} (ignores : Number.IgnoresMarks combine)
    {neutral : Number} (unmarked : neutral.relabeled relabeling = neutral)
    (arguments : List Expr) :
    Carries relabeling (Expr.relabeled relabeling)
      (Evaluation.arithmetic evaluate combine neutral arguments)
      (Evaluation.arithmetic evaluate combine neutral
        (Expr.relabeledAll relabeling arguments)) := by
  match arguments with
  | [] =>
      have zero := @Carries.pure relabeling _ _ (Expr.relabeled relabeling)
        (.number (Number.zero false))
      rwa [Expr.relabeled, Number.relabeled_zero] at zero
  | [argument] =>
      refine (evaluateNumber carries argument).bind fun number => ?_
      have combined := ignores relabeling neutral number
      rw [unmarked] at combined
      rw [combined]
      exact Carries.pure (Expr.number _)
  | argument :: second :: arguments =>
      exact (evaluateNumber carries argument).bind fun first =>
        (combineAll carries ignores first (second :: arguments)).bind fun result =>
          Carries.pure (Expr.number result)

theorem remainder (arguments : List Expr) :
    Carries relabeling (Expr.relabeled relabeling) (Evaluation.remainder evaluate arguments)
      (Evaluation.remainder evaluate (Expr.relabeledAll relabeling arguments)) := by
  match arguments with
  | [dividend, divisor] =>
      refine (evaluateNumber carries divisor).bind fun divisor => ?_
      refine (evaluateNumber carries dividend).bind fun dividend => ?_
      rw [Number.remainder_ignoresMarks]
      exact Carries.pure (Expr.number _)
  | [] | [_] => exact .throw _
  | _ :: _ :: _ :: arguments =>
      simp only [Evaluation.remainder, Expr.relabeledAll, List.length_cons,
        Expr.length_relabeledAll]
      exact .throw _

theorem equality (arguments : List Expr) :
    Carries relabeling (Expr.relabeled relabeling) (Evaluation.equality evaluate arguments)
      (Evaluation.equality evaluate (Expr.relabeledAll relabeling arguments)) := by
  have sameResult (values : List Expr) :
      allEqual (Expr.relabeledAll relabeling values) = allEqual values := by
    cases values with
    | nil => rfl
    | cons first others =>
        simp only [Expr.relabeledAll, allEqual, Expr.relabeledAll_eq_map, List.all_map,
          Function.comp_def, Expr.equals_relabeled]
  unfold Evaluation.equality
  rw [Expr.length_relabeledAll]
  refine (requireMinimumArity _ _).bind fun _ => ?_
  refine (evaluateAll carries arguments).bind fun values => ?_
  rw [sameResult]
  exact Carries.pure (Expr.boolean _)

theorem negation (arguments : List Expr) :
    Carries relabeling (Expr.relabeled relabeling) (Evaluation.negation evaluate arguments)
      (Evaluation.negation evaluate (Expr.relabeledAll relabeling arguments)) := by
  match arguments with
  | [argument] =>
      exact (evaluateBoolean carries argument).bind fun value => Carries.pure (Expr.boolean !value)
  | [] => exact .throw _
  | _ :: _ :: arguments =>
      simp only [Evaluation.negation, Expr.relabeledAll, List.length_cons,
        Expr.length_relabeledAll]
      exact .throw _

theorem searchBoolean (decisive : Bool) (arguments : List Expr) :
    Carries relabeling (Expr.relabeled relabeling)
      (Evaluation.searchBoolean evaluate decisive arguments)
      (Evaluation.searchBoolean evaluate decisive (Expr.relabeledAll relabeling arguments)) := by
  induction arguments with
  | nil => exact Carries.pure (Expr.boolean _)
  | cons argument arguments ih =>
      refine (evaluateBoolean carries argument).bind fun value => ?_
      rw [id]
      split
      · exact Carries.pure (Expr.boolean _)
      · exact ih

theorem junction (decisive : Bool) (arguments : List Expr) :
    Carries relabeling (Expr.relabeled relabeling)
      (Evaluation.junction evaluate decisive arguments)
      (Evaluation.junction evaluate decisive (Expr.relabeledAll relabeling arguments)) := by
  unfold Evaluation.junction
  rw [Expr.length_relabeledAll]
  exact (requireMinimumArity _ _).bind fun _ => searchBoolean carries decisive arguments

theorem countTrue (formals : List String) (body : Expr) (elements : List Expr) :
    Carries relabeling (id : Nat → Nat) (Evaluation.countTrue evaluate formals body elements)
      (Evaluation.countTrue evaluate formals (body.relabeled relabeling)
        (Expr.relabeledAll relabeling elements)) := by
  induction elements with
  | nil => exact .pure 0
  | cons element elements ih =>
      refine (carries (.application (.lambda formals body) [element])).bind fun result => ?_
      refine ih.bind fun others => ?_
      rw [Expr.isTrue_relabeled]
      exact .pure _

theorem count (arguments : List Expr) :
    Carries relabeling (Expr.relabeled relabeling) (Evaluation.count evaluate arguments)
      (Evaluation.count evaluate (Expr.relabeledAll relabeling arguments)) := by
  match arguments with
  | [predicate, list] =>
      refine (carries predicate).bind fun function => ?_
      refine (expectLambda function).bind fun (formals, body) => ?_
      refine (carries list).bind fun values => ?_
      refine (expectList values).bind fun elements => ?_
      refine (requireExactArity _ _).bind fun _ => ?_
      refine (countTrue carries formals body elements).bind fun total => ?_
      have number := @Carries.pure relabeling _ _ (Expr.relabeled relabeling)
        (.number (Number.ofNat total))
      rwa [Expr.relabeled, Number.ofNat, Number.relabeled_ofQuotient] at number
  | [] | [_] => exact .throw _
  | _ :: _ :: _ :: arguments =>
      simp only [Evaluation.count, Expr.relabeledAll, List.length_cons, Expr.length_relabeledAll]
      exact .throw _

theorem applyOperator (op : Operator) (arguments : List Expr) :
    Carries relabeling (Expr.relabeled relabeling)
      (Evaluation.applyOperator evaluate op arguments)
      (Evaluation.applyOperator evaluate op (Expr.relabeledAll relabeling arguments)) := by
  have ofNat (number : Nat) : (Number.ofNat number).relabeled relabeling = Number.ofNat number :=
    Number.relabeled_ofQuotient relabeling _ _ _
  have zero := Number.relabeled_zero relabeling false
  cases op with
  | plus => exact arithmetic carries Number.add_ignoresMarks zero arguments
  | minus => exact arithmetic carries Number.subtract_ignoresMarks zero arguments
  | times => exact arithmetic carries Number.multiply_ignoresMarks (ofNat 1) arguments
  | divide => exact arithmetic carries Number.divide_ignoresMarks (ofNat 1) arguments
  | remainder => exact remainder carries arguments
  | equal => exact equality carries arguments
  | not => exact negation carries arguments
  | and | or => exact junction carries _ arguments
  | count => exact count carries arguments

/-! ### Names and calls -/

theorem force {index : Nat} {cell cell' : Cell} (same : cell.Relabels relabeling cell') :
    Carries relabeling (Expr.relabeled relabeling) (Evaluation.force evaluate index cell)
      (Evaluation.force evaluate index cell') := by
  intro environment other relabels
  cases unforced : cell.value? with
  | some value =>
      have unforced' : cell'.value? = some (value.relabeled relabeling) := by
        rw [same.value, unforced, Option.map_some]
      simp only [Evaluation.force, unforced, unforced']
      exact .ok relabels
  | none =>
      have unforced' : cell'.value? = none := by rw [same.value, unforced, Option.map_none]
      have outcome := carries cell.expr
        ((relabels.record (.forcing index) (.forcing index)).switch same)
      rw [← same.expr] at outcome
      generalize ended : evaluate cell.expr _ = result at outcome
      generalize ended' : evaluate cell'.expr _ = result' at outcome
      cases outcome with
      | ok relabels' =>
          rw [force_of_ok _ unforced ended, force_of_ok _ unforced' ended']
          exact .ok (((relabels.restore relabels').fill index _).record _ _)
      | error relabels' =>
          rw [force_of_error _ unforced ended, force_of_error _ unforced' ended']
          exact .error (relabels.restore relabels')

theorem lookUp (name : String) :
    Carries relabeling (Expr.relabeled relabeling) (Evaluation.lookUp evaluate name)
      (Evaluation.lookUp evaluate name) := by
  intro environment other relabels
  have found := relabels.find? name
  generalize bound : environment.find? name = slot at found
  generalize bound' : other.find? name = slot' at found
  cases found with
  | none =>
      rw [lookUp_of_unbound evaluate bound, lookUp_of_unbound evaluate bound']
      exact .error relabels
  | some same =>
      cases same with
      | expr expr =>
          rw [lookUp_of_expr evaluate bound, lookUp_of_expr evaluate bound']
          exact .ok relabels
      | deferred index =>
          have inCell := relabels.cells index
          generalize foundCell : environment.cells[index]? = cell at inCell
          generalize foundCell' : other.cells[index]? = cell' at inCell
          cases inCell with
          | none =>
              rw [lookUp_of_missing evaluate bound foundCell,
                lookUp_of_missing evaluate bound' foundCell']
              exact .error relabels
          | some same =>
              rw [lookUp_of_deferred evaluate bound foundCell,
                lookUp_of_deferred evaluate bound' foundCell']
              exact force carries same (relabels.record _ _)

theorem enter (cells : List Nat) (formals : List String) (body : Expr) :
    Carries relabeling (Expr.relabeled relabeling) (Evaluation.enter evaluate cells formals body)
      (Evaluation.enter evaluate cells formals (body.relabeled relabeling)) := by
  induction body using Expr.body_induction generalizing formals with
  | lambda formals' body ih =>
      rw [Expr.relabeled, Evaluation.enter, Evaluation.enter]
      refine (record _ _).bind fun _ => inScope ?_ (.formals formals cells)
      exact (requireExactArity _ _).bind fun _ => ih formals'
  | other body notLambda =>
      have notLambda' : ∀ formals' body', body.relabeled relabeling ≠ .lambda formals' body' := by
        cases body with
        | lambda formals' body' => exact absurd rfl (notLambda formals' body')
        | _ => exact nofun
      rw [enter_of_not_lambda evaluate notLambda, enter_of_not_lambda evaluate notLambda']
      exact (record _ _).bind fun _ => inScope (carries body) (.formals formals cells)

theorem call (formals : List String) (body : Expr) (arguments : List Expr) :
    Carries relabeling (Expr.relabeled relabeling) (Evaluation.call evaluate formals body arguments)
      (Evaluation.call evaluate formals (body.relabeled relabeling)
        (Expr.relabeledAll relabeling arguments)) := by
  unfold Evaluation.call
  rw [Expr.length_relabeledAll]
  exact (requireExactArity _ _).bind fun _ => (deferAll arguments).bind fun cells =>
    enter carries cells formals body

/-! ### Forms -/

theorem clauses (parts : List Expr) :
    Carries relabeling (Expr.relabeled relabeling) (Evaluation.clauses evaluate parts)
      (Evaluation.clauses evaluate (Expr.relabeledAll relabeling parts)) := by
  match parts with
  | [] => exact Carries.pure Expr.nil
  | [default] => exact carries default
  | condition :: result :: rest =>
      refine (carries condition).bind fun value => ?_
      rw [Expr.isTrue_relabeled]
      split
      · exact carries result
      · exact clauses rest

theorem form (expr : Expr) :
    Carries relabeling (Expr.relabeled relabeling)
      (Evaluation.form (byNeed evaluate) evaluate expr)
      (Evaluation.form (byNeed evaluate) evaluate (expr.relabeled relabeling)) := by
  have call (head : Expr) (arguments : List Expr) :
      Carries relabeling (Expr.relabeled relabeling)
        (evaluate head >>= fun function => Evaluation.expectLambda function >>= fun parts =>
          Evaluation.call evaluate parts.1 parts.2 arguments)
        (evaluate (head.relabeled relabeling) >>= fun function =>
          Evaluation.expectLambda function >>= fun parts =>
            Evaluation.call evaluate parts.1 parts.2 (Expr.relabeledAll relabeling arguments)) :=
    (carries head).bind fun function => (expectLambda function).bind fun (formals, body) =>
      call carries formals body arguments
  cases expr with
  | identifier name => exact lookUp carries name
  | ifThen condition consequent =>
      refine (carries condition).bind fun value => ?_
      rw [Expr.isTrue_relabeled]
      split
      · exact carries consequent
      · exact Carries.pure Expr.nil
  | ifThenElse condition consequent alternative =>
      refine (carries condition).bind fun value => ?_
      rw [Expr.isTrue_relabeled]
      split
      · exact carries consequent
      · exact carries alternative
  | binding name value =>
      exact (carries value).bind fun result => (define name result).bind fun _ =>
        Carries.pure result
  | application head arguments =>
      cases head with
      | operator op => exact applyOperator carries op arguments
      | _ => exact call _ arguments
  | cond parts => exact clauses carries parts
  | number value => exact Carries.pure (Expr.number value)
  | boolean value => exact Carries.pure (Expr.boolean value)
  | string payload => exact Carries.pure (Expr.string payload)
  | symbol name => exact Carries.pure (Expr.symbol name)
  | operator op => exact Carries.pure (Expr.operator op)
  | nil => exact Carries.pure Expr.nil
  | lambda formals body => exact Carries.pure (Expr.lambda formals body)
  | list elements => exact Carries.pure (Expr.list elements)

end

end Carries

/-- Whatever the bound is, evaluation does the same under other marks. -/
theorem evaluateWithin_carries (bound : Nat) (expr : Expr) :
    Carries relabeling (Expr.relabeled relabeling) (evaluateWithin bound expr)
      (evaluateWithin bound (expr.relabeled relabeling)) := by
  induction bound generalizing expr with
  | zero => exact .throw .tooDeep
  | succ bound ih => exact Carries.form ih expr

theorem Matches.afterwards {α β : Type} {translate : α → β}
    {result : EStateM.Result Failure Environment α} {result' : EStateM.Result Failure Environment β}
    (outcome : Matches relabeling translate result result') :
    (Evaluation.afterwards result).Relabels relabeling (Evaluation.afterwards result') := by
  cases outcome <;> assumption

end Evaluation

/-- An expression with other marks has the same value with these marks, or the same failure. -/
theorem Environment.Relabels.evaluate {environment other : Environment}
    (relabels : environment.Relabels relabeling other) (expr : Expr) :
    (other.evaluate (expr.relabeled relabeling)).1 =
        (environment.evaluate expr).1.map (Expr.relabeled relabeling) ∧
      (environment.evaluate expr).2.Relabels relabeling
        (other.evaluate (expr.relabeled relabeling)).2 := by
  have outcome := Evaluation.evaluateWithin_carries depthBound expr relabels
  unfold Environment.evaluate
  generalize Evaluation.evaluateWithin depthBound expr environment = result at outcome ⊢
  generalize Evaluation.evaluateWithin depthBound _ other = result' at outcome ⊢
  cases outcome with
  | ok after => exact ⟨rfl, after⟩
  | error after => exact ⟨rfl, after⟩

end LazyLisp
