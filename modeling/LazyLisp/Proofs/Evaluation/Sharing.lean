import LazyLisp.Evaluation.ByNeed
import LazyLisp.Proofs.Evaluation.ByName
import LazyLisp.Proofs.Evaluation.Comparison
import Mathlib.Data.List.Forall2
import Mathlib.Data.Option.Basic

/-!
# What the cells of deferred arguments stand for

A cell stands for an argument with the scopes of its caller, which is what evaluation by name
evaluates at each lookup. A world tells what each cell stands for. It only grows, since calls add
cells. In a world an environment represents a state of evaluation by name: the scopes agree up to
what cells stand for, and the value of a cell is what evaluation by name gives for its argument.
-/

set_option autoImplicit false

namespace LazyLisp

/-! ## Related tables -/

/-- The tables bind the same names in the same order to related things. -/
def Bindings.Related {α β : Type} (related : α → β → Prop) :
    Bindings α → Bindings β → Prop :=
  List.Forall₂ fun entry entry' => entry.1 = entry'.1 ∧ related entry.2 entry'.2

namespace Bindings.Related

variable {α β : Type} {related : α → β → Prop} {bindings : Bindings α} {bindings' : Bindings β}

theorem imp {related' : α → β → Prop} (implies : ∀ {slot slot'}, related slot slot' →
    related' slot slot') (tables : Related related bindings bindings') :
    Related related' bindings bindings' :=
  List.Forall₂.imp (fun _ _ entry => ⟨entry.1, implies entry.2⟩) tables

theorem find? (tables : Related related bindings bindings') (name : String) :
    Option.Rel related (bindings.find? name) (bindings'.find? name) := by
  induction tables with
  | nil => exact .none
  | @cons entry entry' _ _ same _ ih =>
      simp only [Bindings.find?, same.1]
      split
      · exact .some same.2
      · exact ih

theorem insert (tables : Related related bindings bindings') (name : String) {slot : α}
    {slot' : β} (same : related slot slot') :
    Related related (bindings.insert name slot) (bindings'.insert name slot') := by
  induction tables with
  | nil => exact .cons ⟨rfl, same⟩ .nil
  | @cons entry entry' _ _ head tail ih =>
      simp only [Bindings.insert, head.1]
      split
      · exact .cons ⟨rfl, same⟩ tail
      · exact .cons ⟨rfl, head.2⟩ ih

theorem ofPairs {pairs : Bindings α} {pairs' : Bindings β}
    (tables : Related related pairs pairs') :
    Related related (Bindings.ofPairs pairs) (Bindings.ofPairs pairs') := by
  refine List.rel_foldl ?_ .nil tables
  rintro bindings bindings' tables ⟨name, slot⟩ ⟨name', slot'⟩ ⟨rfl, same⟩
  exact tables.insert name same

theorem zip (names : List String) {slots : List α} {slots' : List β}
    (same : List.Forall₂ related slots slots') :
    Related related (names.zip slots) (names.zip slots') := by
  induction same generalizing names with
  | nil => simp [Related]
  | cons head _ ih =>
      cases names with
      | nil => exact .nil
      | cons name names => exact .cons ⟨rfl, head⟩ (ih names)

theorem findSome? {scopes : List (Bindings α)} {scopes' : List (Bindings β)}
    (tables : List.Forall₂ (Related related) scopes scopes') (name : String) :
    Option.Rel related (scopes.findSome? (·.find? name)) (scopes'.findSome? (·.find? name)) := by
  induction tables with
  | nil => exact .none
  | cons head _ ih =>
      rw [List.findSome?_cons, List.findSome?_cons]
      have found := head.find? name
      generalize Bindings.find? name _ = left at found ⊢
      generalize Bindings.find? name _ = right at found ⊢
      cases found with
      | none => exact ih
      | some same => exact .some same

end Bindings.Related

/-! ## Expressions without definitions -/

namespace Expr

mutual

/-- No definition occurs in the expression, nor in a lambda or a list in it. -/
def DefFree : Expr → Prop
  | .binding _ _ => False
  | .application head arguments => DefFree head ∧ AllDefFree arguments
  | .ifThen condition consequent => DefFree condition ∧ DefFree consequent
  | .ifThenElse condition consequent alternative =>
    DefFree condition ∧ DefFree consequent ∧ DefFree alternative
  | .lambda _ body => DefFree body
  | .cond clauses => AllDefFree clauses
  | .list elements => AllDefFree elements
  | .number _ | .boolean _ | .string _ | .symbol _ | .identifier _ | .operator _ | .nil => True

def AllDefFree : List Expr → Prop
  | [] => True
  | expr :: exprs => DefFree expr ∧ AllDefFree exprs

end

theorem allDefFree_iff {exprs : List Expr} : AllDefFree exprs ↔ ∀ expr ∈ exprs, expr.DefFree := by
  induction exprs with
  | nil => simp [AllDefFree]
  | cons expr exprs ih => simp only [AllDefFree, ih, List.forall_mem_cons]

theorem hereditary_defFree : Evaluation.Hereditary DefFree where
  number _ := trivial
  boolean _ := trivial
  nil := trivial
  head defFree := defFree.1
  argument defFree member := allDefFree_iff.mp defFree.2 _ member
  ifThen defFree := defFree
  ifThenElse defFree := defFree
  binding defFree := defFree.elim
  body defFree := defFree
  clause defFree member := allDefFree_iff.mp defFree _ member
  element lambda list member := ⟨lambda, allDefFree_iff.mp list _ member, trivial⟩

end Expr

namespace Sharing

open Evaluation ByName

/-! ## Outcomes that do not depend on the bound -/

/-- From some bound on, the actions of the family end in the outcome, and before that they end in
it or are too deep. -/
structure Converges {σ α : Type} (family : Nat → Action σ α) (state : σ)
    (outcome : EStateM.Result Failure σ α) : Prop where
  eventually : ∃ bound, ∀ bound', bound ≤ bound' → family bound' state = outcome
  otherwise (bound : Nat) :
    family bound state = .error .tooDeep state ∨ family bound state = outcome

namespace Converges

variable {σ α β : Type} {state : σ}

theorem const {action : Action σ α} {outcome : EStateM.Result Failure σ α}
    (same : action state = outcome) : Converges (fun _ => action) state outcome :=
  ⟨⟨0, fun _ _ => same⟩, fun _ => .inr same⟩

theorem congr {family family' : Nat → Action σ α} {outcome : EStateM.Result Failure σ α}
    (same : ∀ bound, family' bound state = family bound state)
    (converges : Converges family state outcome) : Converges family' state outcome := by
  obtain ⟨⟨least, eventually⟩, otherwise⟩ := converges
  simp only [← same] at eventually otherwise
  exact ⟨⟨least, eventually⟩, otherwise⟩

/-- The members of a family one later converge to the same, since at first evaluation is too
deep. -/
theorem shift {family : Nat → Action σ α} {outcome : EStateM.Result Failure σ α}
    (first : family 0 state = .error .tooDeep state)
    (converges : Converges (fun bound => family (bound + 1)) state outcome) :
    Converges family state outcome := by
  obtain ⟨⟨least, eventually⟩, otherwise⟩ := converges
  refine ⟨⟨least + 1, fun bound enough => ?_⟩, fun bound => ?_⟩
  · cases bound with
    | zero => omega
    | succ bound => exact eventually bound (by omega)
  · cases bound with
    | zero => exact .inl first
    | succ bound => exact otherwise bound

theorem bind {first : Nat → Action σ α} {next : Nat → α → Action σ β} {result : α}
    {outcome : EStateM.Result Failure σ β}
    (converges : Converges first state (.ok result state))
    (converges' : Converges (fun bound => next bound result) state outcome) :
    Converges (fun bound => first bound >>= next bound) state outcome := by
  obtain ⟨⟨least, eventually⟩, otherwise⟩ := converges
  obtain ⟨⟨least', eventually'⟩, otherwise'⟩ := converges'
  refine ⟨⟨max least least', fun bound enough => ?_⟩, fun bound => ?_⟩
  · rw [Action.bind_of_ok (eventually bound (by omega))]
    exact eventually' bound (by omega)
  · rcases otherwise bound with tooDeep | same
    · exact .inl (Action.bind_of_error tooDeep _)
    · rw [Action.bind_of_ok same]
      exact otherwise' bound

theorem bind_error {first : Nat → Action σ α} {next : Nat → α → Action σ β}
    {failure : Failure} (converges : Converges first state (.error failure state)) :
    Converges (fun bound => first bound >>= next bound) state (.error failure state) := by
  obtain ⟨⟨least, eventually⟩, otherwise⟩ := converges
  exact ⟨⟨least, fun bound enough => Action.bind_of_error (eventually bound enough) _⟩,
    fun bound => (otherwise bound).imp (Action.bind_of_error · _) (Action.bind_of_error · _)⟩

end Converges

/-- The result of an action in other scopes, seen from the present state. -/
def resultIn {α : Type} (state : State) :
    EStateM.Result Failure State α → EStateM.Result Failure State α
  | .ok result after => .ok result { after with scopes := state.scopes }
  | .error failure after => .error failure { after with scopes := state.scopes }

theorem inScopes_eq {α : Type} (scopes : List (Bindings Thunk)) (action : Action State α)
    (state : State) :
    ByName.inScopes scopes action state = resultIn state (action { state with scopes }) := by
  simp only [ByName.inScopes]
  cases action { state with scopes } <;> rfl

theorem inScopes_tooDeep {α : Type} {scopes : List (Bindings Thunk)} {action : Action State α}
    {state : State}
    (tooDeep : action { state with scopes } = .error .tooDeep { state with scopes }) :
    ByName.inScopes scopes action state = .error .tooDeep state := by
  rw [inScopes_eq, tooDeep]
  rfl

theorem Converges.inScopes {α : Type} {family : Nat → Action State α} {state : State}
    {scopes : List (Bindings Thunk)} {outcome : EStateM.Result Failure State α}
    (converges : Converges family { state with scopes } outcome) :
    Converges (fun bound => ByName.inScopes scopes (family bound)) state
      (resultIn state outcome) := by
  obtain ⟨⟨least, eventually⟩, otherwise⟩ := converges
  refine ⟨⟨least, fun bound enough => ?_⟩, fun bound => ?_⟩
  · rw [inScopes_eq, eventually bound enough]
  · rcases otherwise bound with tooDeep | same
    · exact .inl (inScopes_tooDeep tooDeep)
    · exact .inr (by rw [inScopes_eq, same])

/-! ## Worlds -/

/-- What a cell stands for, with the parts of the cell that never change: the group and the caller's
scopes. Moreover the groups whose stacks were in use when the cell was added. -/
structure Entry where
  thunk : Thunk
  group : Nat
  scopes : List Bindings
  used : List Nat

/-- What each cell stands for, as far as it is known. -/
abbrev World := Nat → Option Entry

/-- A group whose stack is in use now was in use already when the cell was added, or it was formed
after the group of the cell. -/
def Entry.Apart (entry : Entry) (used : List Nat) : Prop :=
  ∀ group ∈ used, group ∈ entry.used ∨ entry.group < group

namespace World

/-- More is known in the other world. -/
def Extends (world world' : World) : Prop :=
  ∀ ⦃index : Nat⦄ ⦃entry : Entry⦄, world index = some entry → world' index = some entry

/-- The cell stands for the argument, and its group is not in use. -/
def Stands (world : World) (used : List Nat) (index : Nat) (thunk : Thunk) : Prop :=
  ∃ entry, world index = some entry ∧ entry.thunk = thunk ∧ entry.Apart used

/-- What a name is bound to is a cell before the limit that stands for the argument. -/
def Denotes (world : World) (used : List Nat) (limit : Nat) (slot : Slot) (thunk : Thunk) : Prop :=
  ∃ index, slot = .deferred index ∧ index < limit ∧ world.Stands used index thunk

/-- Scopes bind names to cells that stand for the arguments in other scopes. -/
def DenotesAll (world : World) (used : List Nat) (limit : Nat) :
    List Bindings → List (Bindings Thunk) → Prop :=
  List.Forall₂ (Bindings.Related (world.Denotes used limit))

variable {world world' : World} {used used' : List Nat} {limit limit' : Nat}

theorem Extends.trans {world'' : World} (extends_ : world.Extends world')
    (extends' : world'.Extends world'') : world.Extends world'' :=
  fun _ _ known => extends' (extends_ known)

theorem Stands.extend (extends_ : world.Extends world') {index : Nat} {thunk : Thunk}
    (stands : world.Stands used index thunk) : world'.Stands used index thunk := by
  obtain ⟨entry, known, same, apart⟩ := stands
  exact ⟨entry, extends_ known, same, apart⟩

theorem DenotesAll.imp
    (implies : ∀ {index : Nat} {thunk : Thunk}, index < limit → world.Stands used index thunk →
      index < limit' ∧ world'.Stands used' index thunk)
    {scopes : List Bindings} {scopes' : List (Bindings Thunk)}
    (denotes : world.DenotesAll used limit scopes scopes') :
    world'.DenotesAll used' limit' scopes scopes' := by
  refine List.Forall₂.imp (fun _ _ tables => tables.imp ?_) denotes
  rintro slot thunk ⟨index, same, below, stands⟩
  exact ⟨index, same, implies below stands⟩

end World

namespace World

variable {world : World} {index : Nat} {entry : Entry}

/-- The world that tells of one more cell. -/
def add (world : World) (index : Nat) (entry : Entry) : World := fun other =>
  if other = index then some entry else world other

theorem add_self : world.add index entry index = some entry := if_pos rfl

theorem extends_add (entry : Entry)
    (limit : ∀ {other entry'}, world other = some entry' → other < index) :
    world.Extends (world.add index entry) := by
  intro other entry' known
  rw [add, if_neg (Nat.ne_of_lt (limit known)), known]

theorem add_eq_some {other : Nat} {entry' : Entry}
    (known : world.add index entry other = some entry') :
    (other = index ∧ entry' = entry) ∨ world other = some entry' := by
  unfold add at known
  split at known
  next same => exact .inl ⟨same, (Option.some.inj known).symm⟩
  next => exact .inr known

end World

/-- What must hold of each cell that a world tells of: its group is numbered by a cell not behind
it, was not in use before, and keeps scopes of cells before the group. -/
structure Entry.Valid (entry : Entry) (world : World) (index : Nat) : Prop where
  defFree : entry.thunk.expr.DefFree
  group_le : entry.group ≤ index
  unused : entry.group ∉ entry.used
  scopes : world.DenotesAll entry.used entry.group entry.scopes entry.thunk.scopes

theorem Entry.Valid.extend {entry : Entry} {world world' : World} {index : Nat}
    (valid : entry.Valid world index) (grows : world.Extends world') :
    entry.Valid world' index where
  defFree := valid.defFree
  group_le := valid.group_le
  unused := valid.unused
  scopes := valid.scopes.imp fun below stands => ⟨below, stands.extend grows⟩

/-- Evaluation by name of the argument in the scopes of its caller gives the value. -/
def ValueOf (table : Bindings Expr) (thunk : Thunk) (value : Expr) : Prop :=
  Converges (fun bound => ByName.evaluateWithin bound thunk.expr) ⟨table, thunk.scopes⟩
    (.ok value ⟨table, thunk.scopes⟩)

/-- An environment of evaluation by need, in which the given groups are in use, and a state of
evaluation by name that agree. -/
structure Represents (world : World) (used : List Nat) (environment : Environment)
    (state : State) : Prop where
  table : environment.table = state.table.map fun entry => (entry.1, .expr entry.2)
  defFree : ∀ entry ∈ state.table, entry.2.DefFree
  valid {index : Nat} {entry : Entry} : world index = some entry → entry.Valid world index
  scopes : world.DenotesAll used environment.cells.size environment.scopes state.scopes
  cells {index : Nat} {entry : Entry} : world index = some entry →
    ∃ value?, environment.cells[index]? =
        some ⟨entry.thunk.expr, entry.group, entry.scopes, value?⟩ ∧
      ∀ value, value? = some value → value.DefFree ∧ ValueOf state.table entry.thunk value
  groups : environment.groupStacks.map Prod.fst = used
  formed : ∀ group ∈ used, ∃ index entry, world index = some entry ∧ entry.group = group

namespace Represents

variable {world world' : World} {used used' : List Nat} {environment after : Environment}
  {state : State} {index : Nat} {entry : Entry}

theorem lt_size (represents : Represents world used environment state)
    (known : world index = some entry) : index < environment.cells.size := by
  obtain ⟨value?, found, -⟩ := represents.cells known
  exact (Array.getElem?_eq_some_iff.mp found).1

theorem table_related (represents : Represents world used environment state) :
    Bindings.Related (fun slot expr => slot = .expr expr ∧ expr.DefFree) environment.table
      state.table := by
  rw [represents.table]
  exact List.forall₂_map_left_iff.mpr <| List.forall₂_same.mpr fun entry member =>
    ⟨rfl, rfl, represents.defFree entry member⟩

theorem record (represents : Represents world used environment state) (event : Event) :
    Represents world used (environment.record event) state := by
  obtain ⟨table, defFree, valid, scopes, cells, groups, formed⟩ := represents
  exact ⟨table, defFree, valid, scopes, cells, groups, formed⟩

theorem group_unused (represents : Represents world used environment state)
    (known : world index = some entry) (apart : entry.Apart used) : entry.group ∉ used := by
  intro member
  rcases apart entry.group member with earlier | later
  · exact (represents.valid known).unused earlier
  · exact Nat.lt_irrefl _ later

/-- An argument in the present scopes is evaluated in the scopes of its caller. -/
theorem switch (represents : Represents world used environment state)
    (known : world index = some entry) (apart : entry.Apart used) :
    Represents world (entry.group :: used)
      (environment.switch (some entry.group) entry.scopes) ⟨state.table, entry.thunk.scopes⟩ where
  table := represents.table
  defFree := represents.defFree
  valid := represents.valid
  cells := represents.cells
  groups := congrArg (entry.group :: ·) represents.groups
  formed group member := by
    rcases List.mem_cons.mp member with rfl | member
    · exact ⟨index, entry, known, rfl⟩
    · exact represents.formed group member
  scopes := by
    refine (represents.valid known).scopes.imp fun {other thunk} below stands => ?_
    obtain ⟨inner, knownInner, same, apartInner⟩ := stands
    have first := (represents.valid knownInner).group_le
    refine ⟨represents.lt_size knownInner, inner, knownInner, same, fun group member => ?_⟩
    rcases List.mem_cons.mp member with rfl | member
    · exact .inr (Nat.lt_of_le_of_lt first below)
    · rcases apart group member with earlier | later
      · exact apartInner group earlier
      · exact .inr (by omega)

/-- After that the present scopes agree again, in the world that has been reached. -/
theorem restore (represents : Represents world used environment state)
    (extends_ : world.Extends world') {scopes : List (Bindings Thunk)}
    (represents' : Represents world' used' after ⟨state.table, scopes⟩) :
    Represents world' used (after.restore environment) state where
  table := represents'.table
  defFree := represents'.defFree
  valid := represents'.valid
  cells := represents'.cells
  groups := represents.groups
  formed group member := by
    obtain ⟨index, entry, known, same⟩ := represents.formed group member
    exact ⟨index, entry, extends_ known, same⟩
  scopes := by
    refine represents.scopes.imp fun {index thunk} _ stands => ⟨?_, stands.extend extends_⟩
    obtain ⟨entry, known, -⟩ := stands
    exact represents'.lt_size (extends_ known)

theorem fill (represents : Represents world used environment state)
    (known : world index = some entry) {value : Expr} (defFree : value.DefFree)
    (isValue : ValueOf state.table entry.thunk value) :
    Represents world used (environment.fill index value) state where
  table := represents.table
  defFree := represents.defFree
  valid := represents.valid
  groups := represents.groups
  formed := represents.formed
  scopes := by
    refine represents.scopes.imp fun below stands => ⟨?_, stands⟩
    rwa [Environment.fill, Array.size_modify]
  cells {other entry'} known' := by
    obtain ⟨value?, found, values⟩ := represents.cells known'
    rw [Environment.fill, Array.getElem?_modify, found]
    split
    next same =>
      subst same
      cases Option.some.inj (known.symm.trans known')
      refine ⟨some value, rfl, fun forced isForced => ?_⟩
      cases isForced
      exact ⟨defFree, isValue⟩
    next => exact ⟨value?, rfl, values⟩

theorem push (represents : Represents world used environment state) {scope : Bindings}
    {scope' : Bindings Thunk}
    (denotes : Bindings.Related (world.Denotes used environment.cells.size) scope scope') :
    Represents world used (environment.push scope)
      { state with scopes := scope' :: state.scopes } where
  table := represents.table
  defFree := represents.defFree
  valid := represents.valid
  cells := represents.cells
  formed := represents.formed
  scopes := .cons denotes represents.scopes
  groups := by
    rw [← represents.groups]
    simp only [Environment.groupStacks, Environment.push]
    cases environment.group <;> rfl

theorem pop {scope' : Bindings Thunk}
    (represents : Represents world used environment
      { state with scopes := scope' :: state.scopes }) :
    ∃ scope after, environment.pop? = some (scope, after) ∧ Represents world used after state := by
  obtain ⟨scope, scopes, -, denotes, split⟩ := List.forall₂_cons_right_iff.mp represents.scopes
  refine ⟨scope, { environment with scopes }, by rw [Environment.pop?, split], ?_⟩
  exact {
    table := represents.table
    defFree := represents.defFree
    valid := represents.valid
    cells := represents.cells
    formed := represents.formed
    scopes := denotes
    groups := by
      rw [← represents.groups]
      simp only [Environment.groupStacks]
      cases environment.group <;> rfl }

theorem add (represents : Represents world used environment state)
    (isValid : entry.Valid world environment.cells.size) :
    Represents (world.add environment.cells.size entry) used
      { environment with
        cells := environment.cells.push ⟨entry.thunk.expr, entry.group, entry.scopes, none⟩ }
      state := by
  have grows : world.Extends (world.add environment.cells.size entry) :=
    World.extends_add entry represents.lt_size
  exact {
    table := represents.table
    defFree := represents.defFree
    groups := represents.groups
    formed := fun group member => by
      obtain ⟨index, entry, known, same⟩ := represents.formed group member
      exact ⟨index, entry, grows known, same⟩
    scopes := by
      refine represents.scopes.imp fun below stands => ⟨?_, stands.extend grows⟩
      rw [Array.size_push]
      exact Nat.lt_succ_of_lt below
    valid := fun known => by
      rcases World.add_eq_some known with ⟨rfl, rfl⟩ | before
      · exact isValid.extend grows
      · exact (represents.valid before).extend grows
    cells := fun known => by
      rcases World.add_eq_some known with ⟨rfl, rfl⟩ | before
      · exact ⟨none, Array.getElem?_push_size, fun _ isForced => by cases isForced⟩
      · obtain ⟨value?, found, values⟩ := represents.cells before
        have below := represents.lt_size before
        refine ⟨value?, ?_, values⟩
        rw [Array.getElem?_push_lt below, ← found, Array.getElem?_eq_getElem below] }

theorem deferIn (represents : Represents world used environment state) {group : Nat}
    (formed : group ≤ environment.cells.size) (unused : group ∉ used)
    (denotes : world.DenotesAll used group environment.scopes state.scopes) {exprs : List Expr}
    (exprsDefFree : ∀ expr ∈ exprs, expr.DefFree) :
    ∃ world', world.Extends world' ∧
      Represents world' used (environment.deferIn group exprs).2 state ∧
      List.Forall₂ (world'.Stands used) (environment.deferIn group exprs).1
        (exprs.map (.mk · state.scopes)) := by
  induction exprs generalizing world environment with
  | nil => exact ⟨world, fun _ _ known => known, represents, .nil⟩
  | cons expr exprs ih =>
      rw [List.forall_mem_cons] at exprsDefFree
      have valid : Entry.Valid ⟨.mk expr state.scopes, group, environment.scopes, used⟩ world
          environment.cells.size := ⟨exprsDefFree.1, formed, unused, denotes⟩
      have added := represents.add valid
      have grows : world.Extends (world.add environment.cells.size
          ⟨.mk expr state.scopes, group, environment.scopes, used⟩) :=
        World.extends_add _ represents.lt_size
      have formedBefore :
          group ≤ (environment.cells.push ⟨expr, group, environment.scopes, none⟩).size := by
        rw [Array.size_push]
        exact Nat.le_succ_of_le formed
      obtain ⟨world', grows', represents', standsAll⟩ := ih added formedBefore
        (denotes.imp fun below stands => ⟨below, stands.extend grows⟩) exprsDefFree.2
      refine ⟨world', grows.trans grows', represents', .cons ?_ standsAll⟩
      exact ⟨_, grows' World.add_self, rfl, fun _ member => .inl member⟩

theorem deferAll (represents : Represents world used environment state) {exprs : List Expr}
    (exprsDefFree : ∀ expr ∈ exprs, expr.DefFree) :
    ∃ world', world.Extends world' ∧
      Represents world' used (environment.deferAll exprs).2 state ∧
      List.Forall₂ (world'.Stands used) (environment.deferAll exprs).1
        (exprs.map (.mk · state.scopes)) := by
  refine represents.deferIn (Nat.le_refl _) (fun member => ?_) represents.scopes exprsDefFree
  obtain ⟨index, entry, known, same⟩ := represents.formed _ member
  have first := (represents.valid known).group_le
  have inside := represents.lt_size known
  omega

end Represents

end Sharing

end LazyLisp
