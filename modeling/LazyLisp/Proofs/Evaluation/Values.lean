import LazyLisp.Proofs.Evaluation.Invariant

/-!
# What evaluation can give

What may stand in the session table, in scopes and in cells: if definitions and calls only add what
may stand there, evaluation leaves only such behind. In particular, if an environment holds only
expressions with a property that the parts of an expression have with it, evaluation gives only such
expressions.
-/

set_option autoImplicit false

namespace LazyLisp

/-! ## Tables -/

namespace Bindings

variable {α : Type} {bindings : Bindings α} {name : String}

theorem mem_of_find? {found : α} (bound : bindings.find? name = some found) :
    (name, found) ∈ bindings := by
  induction bindings with
  | nil => cases bound
  | cons entry rest ih =>
      simp only [find?] at bound
      split at bound
      next same =>
        cases bound
        rw [← same]
        exact List.mem_cons_self
      next => exact List.mem_cons_of_mem _ (ih bound)

theorem mem_insert {slot : α} {entry : String × α} (member : entry ∈ bindings.insert name slot) :
    entry.2 = slot ∨ entry ∈ bindings := by
  induction bindings with
  | nil =>
      rw [insert, List.mem_singleton] at member
      exact .inl (by rw [member])
  | cons first rest ih =>
      simp only [insert] at member
      split at member
      · rcases List.mem_cons.mp member with rfl | member
        · exact .inl rfl
        · exact .inr (List.mem_cons_of_mem _ member)
      · rcases List.mem_cons.mp member with rfl | member
        · exact .inr List.mem_cons_self
        · exact (ih member).imp_right (List.mem_cons_of_mem _)

theorem forall_mem_insert {may : α → Prop} (all : ∀ entry ∈ bindings, may entry.2) {slot : α}
    (good : may slot) : ∀ entry ∈ bindings.insert name slot, may entry.2 := by
  intro entry member
  rcases mem_insert member with same | member
  · rwa [same]
  · exact all entry member

theorem forall_mem_ofPairs {may : α → Prop} {pairs : List (String × α)}
    (all : ∀ pair ∈ pairs, may pair.2) : ∀ entry ∈ ofPairs pairs, may entry.2 := by
  refine List.foldlRecOn (motive := fun bindings : Bindings α => ∀ entry ∈ bindings, may entry.2)
    pairs _ (fun _ member => absurd member List.not_mem_nil) ?_
  exact fun bindings kept pair member => forall_mem_insert kept (all pair member)

/-- A scope of formals binds cells only. -/
theorem forall_mem_formals {may : Slot → Prop} (formals : List String) {cells : List Nat}
    (all : ∀ cell ∈ cells, may (.deferred cell)) :
    ∀ entry ∈ ofPairs (formals.zip (cells.map .deferred)), may entry.2 := by
  refine forall_mem_ofPairs fun pair member => ?_
  obtain ⟨cell, isCell, same⟩ := List.mem_map.mp (List.of_mem_zip member).2
  rw [← same]
  exact all cell isCell

end Bindings

/-! ## Contents of an environment -/

/-- What names may be bound to in the session table and in scopes, and what the arguments and the
values of cells may be. -/
structure Contents where
  inTable : Slot → Prop
  inScope : Slot → Prop
  argument : Expr → Prop
  value : Expr → Prop

/-- Definitions and calls add only what may be added, and only values are found under names. -/
structure Contents.Admissible (contents : Contents) : Prop where
  define {value : Expr} : contents.value value → contents.inTable (.expr value)
  call (cell : Nat) : contents.inScope (.deferred cell)
  inTable {expr : Expr} : contents.inTable (.expr expr) → contents.value expr
  inScope {expr : Expr} : contents.inScope (.expr expr) → contents.value expr

variable {contents : Contents}

structure Cell.Holds (contents : Contents) (cell : Cell) : Prop where
  expr : contents.argument cell.expr
  scopes : ∀ scope ∈ cell.scopes, ∀ entry ∈ scope, contents.inScope entry.2
  value : ∀ value, cell.value? = some value → contents.value value

structure Environment.Holds (contents : Contents) (environment : Environment) : Prop where
  table : ∀ entry ∈ environment.table, contents.inTable entry.2
  scopes : ∀ scope ∈ environment.scopes, ∀ entry ∈ scope, contents.inScope entry.2
  waiting : ∀ stack ∈ environment.waiting, ∀ scope ∈ stack.2, ∀ entry ∈ scope,
    contents.inScope entry.2
  cells {index : Nat} {cell : Cell} :
    environment.cells[index]? = some cell → cell.Holds contents

namespace Environment.Holds

variable {environment : Environment}

theorem empty : Environment.empty.Holds contents :=
  ⟨nofun, nofun, nofun, fun found => by simp [Environment.empty] at found⟩

theorem find? (admissible : contents.Admissible) (holds : environment.Holds contents)
    {name : String} {expr : Expr} (found : environment.find? name = some (.expr expr)) :
    contents.value expr := by
  simp only [Environment.find?] at found
  split at found
  next inner =>
    cases found
    obtain ⟨scope, member, bound⟩ := List.exists_of_findSome?_eq_some inner
    exact admissible.inScope (holds.scopes scope member _ (Bindings.mem_of_find? bound))
  next => exact admissible.inTable (holds.table _ (Bindings.mem_of_find? found))

theorem groupStacks (holds : environment.Holds contents) :
    ∀ stack ∈ environment.groupStacks, ∀ scope ∈ stack.2, ∀ entry ∈ scope,
      contents.inScope entry.2 := by
  unfold Environment.groupStacks
  split
  · exact holds.waiting
  · rw [List.forall_mem_cons]
    exact ⟨holds.scopes, holds.waiting⟩

theorem scopesOf (holds : environment.Holds contents) {cell : Cell}
    (cellHolds : cell.Holds contents) :
    ∀ scope ∈ environment.scopesOf cell, ∀ entry ∈ scope, contents.inScope entry.2 := by
  unfold Environment.scopesOf
  cases found : environment.groupStacks.lookup cell.group with
  | none => exact cellHolds.scopes
  | some scopes =>
      rw [List.lookup_eq_some_iff] at found
      obtain ⟨before, behind, split, -⟩ := found
      exact holds.groupStacks (cell.group, scopes) (by rw [split]; simp)

theorem pop? (holds : environment.Holds contents) {scope : Bindings} {after : Environment}
    (popped : environment.pop? = some (scope, after)) : after.Holds contents := by
  unfold Environment.pop? at popped
  split at popped
  next => cases popped
  next scope scopes open_ =>
    cases popped
    refine ⟨holds.table, fun inner member => holds.scopes inner ?_, holds.waiting, holds.cells⟩
    rw [open_]
    exact List.mem_cons_of_mem _ member

theorem define (holds : environment.Holds contents) (name : String) {slot : Slot}
    (good : contents.inTable slot) : (environment.define name slot).Holds contents := by
  have tableGood := @Bindings.forall_mem_insert _ _ name _ holds.table _ good
  unfold Environment.define
  split <;> exact ⟨tableGood, holds.scopes, holds.waiting, holds.cells⟩

theorem deferIn (holds : environment.Holds contents) (group : Nat) {exprs : List Expr}
    (good : ∀ expr ∈ exprs, contents.argument expr) :
    (environment.deferIn group exprs).2.Holds contents := by
  induction exprs generalizing environment with
  | nil => exact holds
  | cons expr exprs ih =>
      rw [List.forall_mem_cons] at good
      refine ih ⟨holds.table, holds.scopes, holds.waiting, fun {index cell} found => ?_⟩ good.2
      rw [Array.getElem?_push] at found
      split at found
      · cases found
        exact ⟨good.1, holds.scopes, nofun⟩
      · exact holds.cells found

theorem fill (holds : environment.Holds contents) (index : Nat) {value : Expr}
    (good : contents.value value) : (environment.fill index value).Holds contents := by
  refine ⟨holds.table, holds.scopes, holds.waiting, fun {other cell} found => ?_⟩
  simp only [Environment.fill, Array.getElem?_modify] at found
  split at found
  · obtain ⟨old, foundOld, same⟩ := Option.map_eq_some_iff.mp found
    have oldHolds := holds.cells foundOld
    rw [← same]
    refine ⟨oldHolds.expr, oldHolds.scopes, fun forced isForced => ?_⟩
    cases isForced
    exact good
  · exact holds.cells found

/-- Whatever an environment holds according to admissible contents, evaluation leaves it so. -/
theorem invariant (admissible : contents.Admissible) :
    Environment.Invariant contents.argument contents.value (Environment.Holds contents) where
  record _ holds := ⟨holds.table, holds.scopes, holds.waiting, holds.cells⟩
  define name _ good holds := holds.define name (admissible.define good)
  deferAll good holds := holds.deferIn _ good
  push formals _ holds :=
    ⟨holds.table, List.forall_mem_cons.mpr
      ⟨Bindings.forall_mem_formals formals fun cell _ => admissible.call cell, holds.scopes⟩,
      holds.waiting, holds.cells⟩
  pop popped holds := holds.pop? popped
  switch found holds :=
    ⟨holds.table, holds.scopesOf (holds.cells found), holds.groupStacks, holds.cells⟩
  restore holds holds' := ⟨holds'.table, holds.scopes, holds.waiting, holds'.cells⟩
  fill index _ good holds := holds.fill index good
  found bound holds := holds.find? admissible bound
  argument found holds := (holds.cells found).expr
  value found isValue holds := (holds.cells found).value _ isValue

end Environment.Holds

/-! ## Environments that hold only expressions with a property -/

variable {property : Expr → Prop}

/-- Every expression that a name is bound to has the property. -/
def Bindings.Only (property : Expr → Prop) (bindings : Bindings) : Prop :=
  ∀ entry ∈ bindings, ∀ expr, entry.2 = .expr expr → property expr

/-- The argument of a cell, what is bound in the caller's scopes and the value have the property. -/
structure Cell.Only (property : Expr → Prop) (cell : Cell) : Prop where
  expr : property cell.expr
  scopes : ∀ scope ∈ cell.scopes, scope.Only property
  value : ∀ value, cell.value? = some value → property value

/-- Every expression that an environment holds has the property. -/
structure Environment.Only (property : Expr → Prop) (environment : Environment) : Prop where
  table : environment.table.Only property
  scopes : ∀ scope ∈ environment.scopes, scope.Only property
  waiting : ∀ stack ∈ environment.waiting, ∀ scope ∈ stack.2, scope.Only property
  cells {index : Nat} {cell : Cell} : environment.cells[index]? = some cell → cell.Only property

namespace Environment

/-- Expressions with the property, wherever they stand. -/
def onlyContents (property : Expr → Prop) : Contents where
  inTable slot := ∀ expr, slot = .expr expr → property expr
  inScope slot := ∀ expr, slot = .expr expr → property expr
  argument := property
  value := property

theorem admissible_onlyContents : (onlyContents property).Admissible where
  define good expr same := by
    cases same
    exact good
  call _ _ same := by cases same
  inTable good := good _ rfl
  inScope good := good _ rfl

theorem only_iff_holds {environment : Environment} :
    environment.Only property ↔ environment.Holds (onlyContents property) := by
  refine ⟨fun only => ⟨only.table, only.scopes, only.waiting, fun found => ?_⟩,
    fun holds => ⟨holds.table, holds.scopes, holds.waiting, fun found => ?_⟩⟩
  · have cellOnly := only.cells found
    exact ⟨cellOnly.expr, cellOnly.scopes, cellOnly.value⟩
  · have cellHolds := holds.cells found
    exact ⟨cellHolds.expr, cellHolds.scopes, cellHolds.value⟩

/-- Evaluation of expressions with the property leaves only such behind. -/
theorem invariant_only : Environment.Invariant property property (Environment.Only property) := by
  have same : Environment.Only property = Environment.Holds (onlyContents property) :=
    funext fun _ => propext only_iff_holds
  rw [same]
  exact Holds.invariant admissible_onlyContents

theorem Only.empty : Environment.empty.Only property := only_iff_holds.mpr .empty

theorem Only.record {environment : Environment} (only : environment.Only property) (event : Event) :
    (environment.record event).Only property :=
  ⟨only.table, only.scopes, only.waiting, only.cells⟩

end Environment

namespace Evaluation

/-- Upholding that every expression of the environment has the property. -/
abbrev UpholdsOnly {α : Type} (property : Expr → Prop) (good : α → Prop)
    (action : Action Environment α) : Prop :=
  Upholds (Environment.Only property) (fun _ => True) good action

/-- Evaluation of an expression with the property, in an environment that holds only such, gives
only such. -/
theorem evaluateWithin_upholdsOnly (hereditary : Hereditary property) (bound : Nat) {expr : Expr}
    (good : property expr) : UpholdsOnly property property (evaluateWithin bound expr) := by
  intro environment only
  have leaves := @evaluateWithin_preserves _ _ _ Environment.invariant_only hereditary
    (fun _ => True) (fun _ _ => trivial) (fun _ _ => trivial) trivial bound expr good environment
    only
  cases ended : evaluateWithin bound expr environment with
  | ok value after =>
      rw [ended] at leaves
      exact leaves.2
  | error failure after =>
      rw [ended] at leaves
      exact leaves.2

end Evaluation

end LazyLisp
