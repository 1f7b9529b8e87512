import LazyLisp.Evaluation.ByNeed
import LazyLisp.Proofs.Evaluation.Comparison
import LazyLisp.Proofs.Evaluation.Invariant

/-!
# Evaluation in larger environments

An environment may have more cells in front and bind more names. As long as no name is missing in
the smaller one, evaluation does the same in both, with the cells numbered differently.
-/

set_option autoImplicit false

namespace LazyLisp

/-! ## Cells behind others -/

def Slot.shift (offset : Nat) : Slot → Slot
  | expr value => expr value
  | deferred cell => deferred (cell + offset)

namespace Bindings

def shift (offset : Nat) (bindings : Bindings) : Bindings :=
  bindings.map fun entry => (entry.1, entry.2.shift offset)

theorem find?_shift (offset : Nat) (bindings : Bindings) (name : String) :
    (bindings.shift offset).find? name = (bindings.find? name).map (Slot.shift offset) := by
  induction bindings with
  | nil => rfl
  | cons entry rest ih =>
      simp only [shift, List.map_cons, find?]
      split
      · rfl
      · exact ih

theorem insert_shift (offset : Nat) (bindings : Bindings) (name : String) (slot : Slot) :
    (bindings.shift offset).insert name (slot.shift offset) =
      (bindings.insert name slot).shift offset := by
  induction bindings with
  | nil => rfl
  | cons entry rest ih =>
      simp only [shift, List.map_cons, insert]
      split
      · rfl
      · rw [List.map_cons, ← shift, ih]
        rfl

theorem ofPairs_shift (offset : Nat) (pairs : Bindings) :
    ofPairs (pairs.shift offset) = (ofPairs pairs).shift offset := by
  rw [ofPairs, shift, List.foldl_map]
  change List.foldl _ (shift offset []) pairs = _
  exact List.foldl_hom (shift offset) fun bindings pair => insert_shift offset bindings _ _

/-- The scope of a call whose cells are numbered differently. -/
theorem formals_shift (offset : Nat) (formals : List String) (cells : List Nat) :
    ofPairs (formals.zip ((cells.map (· + offset)).map .deferred)) =
      (ofPairs (formals.zip (cells.map .deferred))).shift offset := by
  have slots : (cells.map (· + offset)).map Slot.deferred =
      (cells.map Slot.deferred).map (Slot.shift offset) := by
    rw [List.map_map, List.map_map]
    rfl
  rw [← ofPairs_shift, slots, List.zip_map_right]
  rfl

end Bindings

def Cell.shift (offset : Nat) (cell : Cell) : Cell :=
  { cell with
    group := cell.group + offset, scopes := cell.scopes.map (Bindings.shift offset) }

/-- The other environment has so many more cells in front, and binds more names. Its events are its
own. -/
structure Environment.ExtendedBy (offset : Nat) (environment extended : Environment) : Prop where
  table {name : String} {slot : Slot} :
    environment.table.find? name = some slot →
    (∃ value, slot = .expr value) ∧ extended.table.find? name = some slot
  scopes : extended.scopes = environment.scopes.map (Bindings.shift offset)
  group : extended.group = environment.group.map (· + offset)
  waiting : extended.waiting =
    environment.waiting.map fun stack => (stack.1 + offset, stack.2.map (Bindings.shift offset))
  size : extended.cells.size = environment.cells.size + offset
  cells (index : Nat) :
    extended.cells[index + offset]? = environment.cells[index]?.map (Cell.shift offset)
  programNans : extended.programNans = environment.programNans

namespace Environment.ExtendedBy

variable {offset : Nat} {environment extended : Environment}
  (extension : environment.ExtendedBy offset extended)

include extension

theorem setEvents (events events' : Array Event) :
    { environment with events }.ExtendedBy offset { extended with events := events' } :=
  ⟨extension.table, extension.scopes, extension.group, extension.waiting, extension.size,
    extension.cells, extension.programNans⟩

theorem record (event event' : Event) :
    (environment.record event).ExtendedBy offset (extended.record event') :=
  extension.setEvents _ _

theorem find? {name : String} {slot : Slot} (bound : environment.find? name = some slot) :
    extended.find? name = some (slot.shift offset) := by
  have inScopes : extended.scopes.findSome? (·.find? name) =
      (environment.scopes.findSome? (·.find? name)).map (Slot.shift offset) := by
    rw [extension.scopes, List.findSome?_map, List.map_findSome?]
    simp only [Function.comp_def, Bindings.find?_shift]
  unfold Environment.find? at bound ⊢
  rw [inScopes]
  split at bound
  next inner =>
    cases bound
    simp only [inner, Option.map_some]
  next inner =>
    obtain ⟨⟨value, rfl⟩, found⟩ := extension.table bound
    simp only [inner, Option.map_none, found, Slot.shift]

theorem groupStacks : extended.groupStacks =
    environment.groupStacks.map fun stack =>
      (stack.1 + offset, stack.2.map (Bindings.shift offset)) := by
  unfold Environment.groupStacks
  rw [extension.group, extension.scopes, extension.waiting]
  cases environment.group <;> rfl

theorem scopesOf (cell : Cell) :
    extended.scopesOf (cell.shift offset) =
      (environment.scopesOf cell).map (Bindings.shift offset) := by
  have callStacks (callStacks : List (Nat × List Bindings)) :
      (callStacks.map fun stack => (stack.1 + offset, stack.2.map (Bindings.shift offset))).lookup
          (cell.group + offset) =
        (callStacks.lookup cell.group).map (List.map (Bindings.shift offset)) := by
    induction callStacks with
    | nil => rfl
    | cons stack callStacks ih =>
        have sameKey : (cell.group + offset == stack.1 + offset) = (cell.group == stack.1) := by
          rw [Bool.eq_iff_iff, beq_iff_eq, beq_iff_eq, Nat.add_right_cancel_iff]
        rw [List.map_cons, List.lookup_cons, List.lookup_cons, ih, sameKey]
        cases cell.group == stack.1 <;> rfl
  rw [Environment.scopesOf, Environment.scopesOf, extension.groupStacks, Cell.shift, callStacks]
  cases environment.groupStacks.lookup cell.group <;> rfl

theorem define (name : String) (value : Expr) :
    (environment.define name (.expr value)).ExtendedBy offset
      (extended.define name (.expr value)) := by
  have insertion (events events' : Array Event) :
      Environment.ExtendedBy offset
        { environment with events, table := environment.table.insert name (.expr value) }
        { extended with
          events := events', table := extended.table.insert name (.expr value) } := by
    refine ⟨fun {other slot} bound => ?_, extension.scopes, extension.group, extension.waiting,
      extension.size, extension.cells, extension.programNans⟩
    by_cases same : name = other
    · subst same
      rw [Bindings.find?_insert_self] at bound
      cases bound
      exact ⟨⟨value, rfl⟩, Bindings.find?_insert_self _ _ _⟩
    · rw [Bindings.find?_insert_of_ne _ same] at bound ⊢
      exact extension.table bound
  unfold Environment.define
  split <;> split <;> exact insertion _ _

theorem deferAll (exprs : List Expr) :
    (extended.deferAll exprs).1 = (environment.deferAll exprs).1.map (· + offset) ∧
      (environment.deferAll exprs).2.ExtendedBy offset (extended.deferAll exprs).2 := by
  rw [Environment.deferAll, Environment.deferAll, deferIn_eq, deferIn_eq, extension.size,
    extension.scopes]
  refine ⟨?_, extension.table, rfl, extension.group, extension.waiting, ?_, fun index => ?_,
    extension.programNans⟩
  · simp only [Nat.add_comm _ offset, List.map_add_range']
  · simp only [Array.size_append, extension.size, List.size_toArray, List.length_map]
    omega
  · simp only [Array.getElem?_append, extension.size, Nat.add_lt_add_iff_right,
      Nat.add_sub_add_right, List.getElem?_toArray, List.getElem?_map]
    split
    · exact extension.cells index
    · rw [Option.map_map]
      rfl

theorem push (scope : Bindings) :
    (environment.push scope).ExtendedBy offset (extended.push (scope.shift offset)) :=
  ⟨extension.table, congrArg (scope.shift offset :: ·) extension.scopes, extension.group,
    extension.waiting, extension.size, extension.cells, extension.programNans⟩

theorem pop {scope : Bindings} {after : Environment}
    (popped : environment.pop? = some (scope, after)) :
    ∃ after', extended.pop? = some (scope.shift offset, after') ∧
      after.ExtendedBy offset after' := by
  have scopes := extension.scopes
  unfold pop? at popped ⊢
  split at popped
  next => cases popped
  next inner =>
    cases popped
    rw [inner, List.map_cons] at scopes
    simp only [scopes]
    exact ⟨_, rfl, extension.table, rfl, extension.group, extension.waiting, extension.size,
      extension.cells, extension.programNans⟩

theorem switch (group : Nat) (scopes : List Bindings) :
    (environment.switch (some group) scopes).ExtendedBy offset
      (extended.switch (some (group + offset)) (scopes.map (Bindings.shift offset))) :=
  ⟨extension.table, rfl, rfl, extension.groupStacks, extension.size, extension.cells,
    extension.programNans⟩

theorem restore {after after' : Environment} (extension' : after.ExtendedBy offset after') :
    (after.restore environment).ExtendedBy offset (after'.restore extended) :=
  ⟨extension'.table, extension.scopes, extension.group, extension.waiting, extension'.size,
    extension'.cells, extension'.programNans⟩

theorem fill (index : Nat) (value : Expr) :
    (environment.fill index value).ExtendedBy offset (extended.fill (index + offset) value) := by
  refine ⟨extension.table, extension.scopes, extension.group, extension.waiting, ?_,
    fun other => ?_, extension.programNans⟩
  · simp only [Environment.fill, Array.size_modify, extension.size]
  · simp only [Environment.fill, Array.getElem?_modify, extension.cells,
      Nat.add_right_cancel_iff]
    split
    · rw [Option.map_map, Option.map_map]
      rfl
    · rfl

end Environment.ExtendedBy

/-! ## Evaluation -/

namespace Evaluation

/-- The result in the larger environment is the same as in the smaller one, unless a name was
missing there. -/
def Agrees {α : Type} (offset : Nat) (good : α → Prop)
    (result result' : EStateM.Result Failure Environment α) : Prop :=
  match result with
  | .ok value after =>
    ∃ after', result' = .ok value after' ∧ after.ExtendedBy offset after' ∧ good value
  | .error failure after =>
    (∃ name, failure = .unknownSymbol name) ∨
      ∃ after', result' = .error failure after' ∧ after.ExtendedBy offset after'

/-- Wherever the one environment is extended by the other, the actions agree. -/
def Extends {α : Type} (offset : Nat) (good : α → Prop) (action action' : Action Environment α) :
    Prop :=
  ∀ ⦃environment extended : Environment⦄, environment.ExtendedBy offset extended →
    Agrees offset good (action environment) (action' extended)

section

variable {offset : Nat} {α β : Type} {good : α → Prop} {good' : β → Prop}

theorem Agrees.bind {first first' : Action Environment α} {next next' : α → Action Environment β}
    {environment extended : Environment}
    (agrees : Agrees offset good (first environment) (first' extended))
    (agrees' : ∀ result after after', after.ExtendedBy offset after' → good result →
      Agrees offset good' (next result after) (next' result after')) :
    Agrees offset good' ((first >>= next) environment) ((first' >>= next') extended) := by
  cases ended : first environment with
  | ok result middle =>
      rw [ended] at agrees
      obtain ⟨middle', ended', extension, isGood⟩ := agrees
      rw [Action.bind_of_ok ended, Action.bind_of_ok ended']
      exact agrees' result middle middle' extension isGood
  | error failure middle =>
      rw [ended] at agrees
      rw [Action.bind_of_error ended]
      rcases agrees with missing | ⟨middle', ended', extension⟩
      · exact .inl missing
      · rw [Action.bind_of_error ended']
        exact .inr ⟨middle', rfl, extension⟩

theorem Extends.bind {first first' : Action Environment α} {next next' : α → Action Environment β}
    (extends_ : Extends offset good first first')
    (extends' : ∀ result, good result → Extends offset good' (next result) (next' result)) :
    Extends offset good' (first >>= next) (first' >>= next') :=
  fun _ _ extension => (extends_ extension).bind fun result _ _ extension' isGood =>
    extends' result isGood extension'

end

/-- Doing the same in larger environments, as a comparison of an action with one other. -/
def extending (offset : Nat) : Comparison (fun _ => True) Environment Environment Unit where
  holds good action family := Extends offset good action (family ())
  pure isGood := fun _ extended extension => ⟨extended, rfl, extension, isGood⟩
  throw _ := fun _ extended extension => .inr ⟨extended, rfl, extension⟩
  bind extends_ extends' := extends_.bind extends'

variable {offset : Nat}

theorem record_extends (event : Event) :
    Extends offset (fun _ => True) (record event) (record event) :=
  fun _ _ extension => ⟨_, rfl, extension.record event event, trivial⟩

theorem define_extends (name : String) (value : Expr) :
    Extends offset (fun _ => True) (define name value) (define name value) :=
  fun _ _ extension => ⟨_, rfl, extension.define name value, trivial⟩

/-- The scope can be closed also where a name was missing. -/
theorem inScope_extends {α : Type} {good : α → Prop} {action action' : Action Environment α}
    (keeps : KeepsStacks action) (extends_ : Extends offset good action action')
    (scope : Bindings) :
    Extends offset good (inScope scope action) (inScope (scope.shift offset) action') := by
  intro environment extended extension
  have agrees := extends_ (extension.push scope)
  have same := keeps.afterwards (environment.push scope)
  cases ended : action (environment.push scope) with
  | ok result after =>
      rw [ended] at agrees same
      obtain ⟨outer, popped, -⟩ := Environment.pop?_of_callStacks same
      obtain ⟨after', ended', extension', isGood⟩ := agrees
      obtain ⟨outer', popped', extension''⟩ := extension'.pop popped
      rw [inScope_of_ok ended popped, inScope_of_ok ended' popped']
      exact ⟨outer', rfl, extension'', isGood⟩
  | error failure after =>
      rw [ended] at agrees same
      obtain ⟨outer, popped, -⟩ := Environment.pop?_of_callStacks same
      rw [inScope_of_error ended popped]
      rcases agrees with missing | ⟨after', ended', extension'⟩
      · exact .inl missing
      · obtain ⟨outer', popped', extension''⟩ := extension'.pop popped
        rw [inScope_of_error ended' popped']
        exact .inr ⟨outer', rfl, extension''⟩

section

variable {evaluate evaluate' : Expr → Action Environment Expr}
  (keeps : ∀ expr, KeepsStacks (evaluate expr))
  (extends_ : ∀ expr, Extends offset (fun _ => True) (evaluate expr) (evaluate' expr))

include extends_

theorem force_agrees {environment extended : Environment}
    (extension : environment.ExtendedBy offset extended) (index : Nat) {cell : Cell} :
    Agrees offset (fun _ => True) (force evaluate index cell environment)
      (force evaluate' (index + offset) (cell.shift offset) extended) := by
  cases unforced : cell.value? with
  | some value =>
      have unforced' : (cell.shift offset).value? = some value := unforced
      simp only [force, unforced, unforced']
      exact ⟨extended, rfl, extension, trivial⟩
  | none =>
      have unforced' : (cell.shift offset).value? = none := unforced
      have agrees := extends_ cell.expr (((extension.record (.forcing index)
        (.forcing (index + offset))).switch cell.group (environment.scopesOf cell)))
      rw [← extension.scopesOf] at agrees
      cases ended : evaluate cell.expr _ with
      | ok value after =>
          rw [ended] at agrees
          obtain ⟨after', ended', extension', -⟩ := agrees
          rw [force_of_ok _ unforced ended, force_of_ok _ unforced' ended']
          exact ⟨_, rfl, ((extension.restore extension').fill index value).record _ _, trivial⟩
      | error failure after =>
          rw [ended] at agrees
          rw [force_of_error _ unforced ended]
          rcases agrees with missing | ⟨after', ended', extension'⟩
          · exact .inl missing
          · rw [force_of_error _ unforced' ended']
            exact .inr ⟨_, rfl, extension.restore extension'⟩

theorem lookUp_extends (name : String) :
    Extends offset (fun _ => True) (lookUp evaluate name) (lookUp evaluate' name) := by
  intro environment extended extension
  cases bound : environment.find? name with
  | none =>
      rw [lookUp_of_unbound evaluate bound]
      exact .inl ⟨name, rfl⟩
  | some slot =>
      have bound' := extension.find? bound
      cases slot with
      | expr expr =>
          rw [lookUp_of_expr evaluate bound, lookUp_of_expr evaluate' bound']
          exact ⟨extended, rfl, extension, trivial⟩
      | deferred index =>
          have cells := extension.cells index
          cases found : environment.cells[index]? with
          | none =>
              rw [lookUp_of_missing evaluate bound found]
              exact .inl ⟨name, rfl⟩
          | some cell =>
              rw [found] at cells
              rw [lookUp_of_deferred evaluate bound found,
                lookUp_of_deferred evaluate' bound' cells]
              exact force_agrees extends_ (extension.record _ _) index

include keeps

theorem enter_extends (cells : List Nat) (formals : List String) (body : Expr) :
    Extends offset (fun _ => True) (enter evaluate cells formals body)
      (enter evaluate' (cells.map (· + offset)) formals body) := by
  induction body using Expr.body_induction generalizing formals with
  | lambda formals' body ih =>
      rw [enter, enter, List.length_map, Bindings.formals_shift]
      refine (record_extends _).bind fun _ _ => inScope_extends ?_ ?_ _
      · exact Preserves.bind
          ((@preserving (fun _ => True) _ _ fun _ _ => trivial).requireExactArity _ _) fun _ _ =>
          enter_keepsStacks keeps cells formals' body
      · exact ((extending offset).requireExactArity _ _).bind fun _ _ => ih formals'
  | other body notLambda =>
      rw [enter_of_not_lambda evaluate notLambda, enter_of_not_lambda evaluate' notLambda,
        List.length_map, Bindings.formals_shift]
      exact (record_extends _).bind fun _ _ => inScope_extends (keeps body) (extends_ body) _

theorem call_extends (formals : List String) (body : Expr) (arguments : List Expr) :
    Extends offset (fun _ => True) (call evaluate formals body arguments)
      (call evaluate' formals body arguments) := by
  refine Extends.bind ((extending offset).requireExactArity _ _) fun _ _ => ?_
  intro environment extended extension
  obtain ⟨cells, extension'⟩ := extension.deferAll arguments
  have agrees :=
    enter_extends keeps extends_ (environment.deferAll arguments).1 formals body extension'
  rw [← cells] at agrees
  exact agrees

end

/-- Every evaluation does the same in a larger environment, unless a name was missing. -/
theorem evaluateWithin_extends (offset bound : Nat) (expr : Expr) :
    Extends offset (fun _ => True) (evaluateWithin bound expr) (evaluateWithin bound expr) := by
  induction bound generalizing expr with
  | zero => exact fun _ extended extension => .inr ⟨extended, rfl, extension⟩
  | succ bound ih =>
      have rulesHold : (extending offset).Rules (fun _ => True) (byNeed (evaluateWithin bound))
          fun _ => byNeed (evaluateWithin bound) := {
        lookUp := fun _ => lookUp_extends ih _
        define := fun _ _ => define_extends _ _
        call := fun _ _ => call_extends (evaluateWithin_keepsStacks bound) ih _ _ _ }
      exact @Comparison.form _ _ _ _ _ (extending offset) hereditary_true (evaluateWithin bound)
        (fun _ => evaluateWithin bound) (fun expr _ => ih expr) _ _ rulesHold expr trivial

end Evaluation

end LazyLisp
