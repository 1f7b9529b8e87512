import LazyLisp.Proofs.Evaluation.Sharing
import LazyLisp.Proofs.Evaluation.Values
import LazyLisp.Proofs.Reader.WellFormed

/-!
# Names of operators

Definitions and formals may bind names that no identifier has, since an operator is read in their
place. Such bindings are never looked up: two environments that differ only in them, up to the
numbers of their cells, give the same outcome for every expression that a source can hold, and they
differ only in such bindings afterwards.
-/

set_option autoImplicit false

namespace LazyLisp

/-- A name that begins with a minus or is the word of an operator. -/
def IsOperatorName (name : String) : Prop :=
  name.toList.head? = some '-' ∨ ∃ op ∈ Operator.words, name = op.token

instance : DecidablePred IsOperatorName := fun _ => inferInstanceAs (Decidable (_ ∨ _))

theorem Reader.IsIdentifier.not_isOperatorName {name : String} (isIdentifier : IsIdentifier name) :
    ¬ IsOperatorName name := by
  rintro (startsMinus | ⟨op, isWord, same⟩)
  · exact isIdentifier.noMinus startsMinus
  · exact isIdentifier.notOperator op isWord same

/-! ## Tables -/

namespace Bindings

variable {α β : Type} {bindings : Bindings α} {name : String}

/-- The bindings of names that can be looked up. -/
def ordinary (bindings : Bindings α) : Bindings α :=
  bindings.filter fun entry => ¬ IsOperatorName entry.1

theorem ordinary_cons (entry : String × α) (rest : Bindings α) : ordinary (entry :: rest) =
    if IsOperatorName entry.1 then ordinary rest else entry :: ordinary rest := by
  by_cases isOperator : IsOperatorName entry.1 <;> simp [ordinary, isOperator]

theorem find?_ordinary (isOrdinary : ¬ IsOperatorName name) :
    bindings.ordinary.find? name = bindings.find? name := by
  induction bindings with
  | nil => rfl
  | cons entry rest ih =>
      rw [ordinary_cons, find?]
      split
      next isOperator =>
        have differs : entry.1 ≠ name := by
          rintro rfl
          exact isOrdinary isOperator
        rw [if_neg differs, ih]
      next => rw [find?, ih]

theorem ordinary_insert (slot : α) : (bindings.insert name slot).ordinary =
    if IsOperatorName name then bindings.ordinary else bindings.ordinary.insert name slot := by
  induction bindings with
  | nil => rw [insert, ordinary_cons]; rfl
  | cons entry rest ih =>
      by_cases same : entry.1 = name
      · subst same
        by_cases isOperator : IsOperatorName entry.1 <;> simp [insert, ordinary_cons, isOperator]
      · rw [insert, if_neg same, ordinary_cons, ordinary_cons, ih]
        by_cases isOperator : IsOperatorName entry.1
        · simp only [if_pos isOperator]
        · simp only [if_neg isOperator]
          split
          · rfl
          · rw [insert, if_neg same]

theorem Related.ordinary {related : α → β → Prop} {bindings' : Bindings β}
    (tables : Related related bindings bindings') :
    Related related bindings.ordinary bindings'.ordinary := by
  induction tables with
  | nil => exact .nil
  | cons head _ ih =>
      rw [ordinary_cons, ordinary_cons, ← head.1]
      split
      · exact ih
      · exact .cons head ih

end Bindings

/-! ## Environments that are alike -/

/-- Which cells and which groups of two environments are the same ones. -/
structure Pairing where
  cells : Nat → Nat → Prop
  groups : Nat → Nat → Prop

/-- More cells and groups are paired. -/
structure Pairing.Extends (pairing pairing' : Pairing) : Prop where
  cells {index index' : Nat} : pairing.cells index index' → pairing'.cells index index'
  groups {group group' : Nat} : pairing.groups group group' → pairing'.groups group group'

theorem Pairing.Extends.refl (pairing : Pairing) : pairing.Extends pairing := ⟨id, id⟩

theorem Pairing.Extends.trans {pairing pairing' pairing'' : Pairing}
    (grows : pairing.Extends pairing') (grows' : pairing'.Extends pairing'') :
    pairing.Extends pairing'' :=
  ⟨grows'.cells ∘ grows.cells, grows'.groups ∘ grows.groups⟩

variable {pairing pairing' : Pairing}

/-- Names are bound to the same expression, or to cells that are paired. -/
inductive Slot.Alike (pairing : Pairing) : Slot → Slot → Prop where
  | expr (expr : Expr) : Alike pairing (.expr expr) (.expr expr)
  | deferred {index index' : Nat} :
      pairing.cells index index' → Alike pairing (.deferred index) (.deferred index')

/-- The tables differ at most in bindings of operator names. -/
def Bindings.Alike (pairing : Pairing) (bindings bindings' : Bindings) : Prop :=
  Related (Slot.Alike pairing) bindings.ordinary bindings'.ordinary

/-- As many scopes are open, and they differ at most in bindings of operator names. -/
abbrev Bindings.AllAlike (pairing : Pairing) : List Bindings → List Bindings → Prop :=
  List.Forall₂ (Alike pairing)

/-- The same argument with the same value or with none, deferred in scopes that are alike. -/
structure Cell.Alike (pairing : Pairing) (cell cell' : Cell) : Prop where
  expr : cell'.expr = cell.expr
  group : pairing.groups cell.group cell'.group
  scopes : Bindings.AllAlike pairing cell.scopes cell'.scopes
  value : cell'.value? = cell.value?

/-- Paired groups whose stacks hold scopes that are alike. -/
abbrev StackAlike (pairing : Pairing) (stack stack' : Nat × List Bindings) : Prop :=
  pairing.groups stack.1 stack'.1 ∧ Bindings.AllAlike pairing stack.2 stack'.2

/-- The environments differ at most in bindings of operator names, in the session table, in the
scopes and in those that cells keep. Cells and groups are paired one to one; a cell that only such a
name is bound to need not be paired. -/
structure Environment.Alike (pairing : Pairing) (environment other : Environment) : Prop where
  table : environment.table.Alike pairing other.table
  scopes : Bindings.AllAlike pairing environment.scopes other.scopes
  group : Option.Rel pairing.groups environment.group other.group
  waiting : List.Forall₂ (StackAlike pairing) environment.waiting other.waiting
  cells {index index' : Nat} : pairing.cells index index' → ∃ cell cell',
    environment.cells[index]? = some cell ∧ other.cells[index']? = some cell' ∧
      cell.Alike pairing cell'
  sameCell {index index' next next' : Nat} :
    pairing.cells index index' → pairing.cells next next' → (index = next ↔ index' = next')
  groupsInRange {group group' : Nat} :
    pairing.groups group group' → group < environment.cells.size ∧ group' < other.cells.size
  sameGroup {group group' next next' : Nat} :
    pairing.groups group group' → pairing.groups next next' → (group = next ↔ group' = next')
  preludeNans : other.preludeNans = environment.preludeNans
  programNans : other.programNans = environment.programNans

/-! ## Tables that are alike -/

theorem Slot.Alike.mono (grows : pairing.Extends pairing') {slot slot' : Slot}
    (alike : slot.Alike pairing slot') : slot.Alike pairing' slot' := by
  cases alike with
  | expr expr => exact .expr expr
  | deferred paired => exact .deferred (grows.cells paired)

namespace Bindings.Alike

variable {bindings bindings' : Bindings} {name : String}

theorem mono (grows : pairing.Extends pairing') (alike : bindings.Alike pairing bindings') :
    bindings.Alike pairing' bindings' :=
  alike.imp (Slot.Alike.mono grows)

theorem insert (alike : bindings.Alike pairing bindings') (name : String) {slot slot' : Slot}
    (same : slot.Alike pairing slot') :
    (bindings.insert name slot).Alike pairing (bindings'.insert name slot') := by
  unfold Bindings.Alike
  rw [ordinary_insert, ordinary_insert]
  split
  · exact alike
  · exact Related.insert alike name same

theorem insert_left (alike : bindings.Alike pairing bindings') (isOperator : IsOperatorName name)
    (slot : Slot) : (bindings.insert name slot).Alike pairing bindings' := by
  unfold Bindings.Alike
  rwa [ordinary_insert, if_pos isOperator]

/-- The scopes of a call whose arguments are paired. -/
theorem formals {cells cells' : List Nat} (paired : List.Forall₂ pairing.cells cells cells')
    (formals : List String) :
    (ofPairs (formals.zip (cells.map .deferred))).Alike pairing
      (ofPairs (formals.zip (cells'.map .deferred))) := by
  refine Related.ordinary (.ofPairs (.zip formals ?_))
  rw [List.forall₂_map_left_iff, List.forall₂_map_right_iff]
  exact paired.imp fun _ _ => .deferred

end Bindings.Alike

theorem Bindings.AllAlike.mono (grows : pairing.Extends pairing') {scopes scopes' : List Bindings}
    (alike : AllAlike pairing scopes scopes') : AllAlike pairing' scopes scopes' :=
  List.Forall₂.imp (fun _ _ => Alike.mono grows) alike

theorem Cell.Alike.mono (grows : pairing.Extends pairing') {cell cell' : Cell}
    (alike : cell.Alike pairing cell') : cell.Alike pairing' cell' :=
  ⟨alike.expr, grows.groups alike.group, Bindings.AllAlike.mono grows alike.scopes, alike.value⟩

/-! ## Changes of environments that are alike -/

namespace Environment.Alike

variable {environment other : Environment} (alike : environment.Alike pairing other)

include alike

theorem setEvents (events events' : Array Event) :
    { environment with events }.Alike pairing { other with events := events' } :=
  ⟨alike.table, alike.scopes, alike.group, alike.waiting, alike.cells, alike.sameCell,
    alike.groupsInRange, alike.sameGroup, alike.preludeNans, alike.programNans⟩

theorem record (event event' : Event) :
    (environment.record event).Alike pairing (other.record event') :=
  alike.setEvents _ _

theorem setTable {table table' : Bindings} (tables : table.Alike pairing table') :
    { environment with table }.Alike pairing { other with table := table' } :=
  ⟨tables, alike.scopes, alike.group, alike.waiting, alike.cells, alike.sameCell,
    alike.groupsInRange, alike.sameGroup, alike.preludeNans, alike.programNans⟩

theorem setScopes {scopes scopes' : List Bindings}
    (same : Bindings.AllAlike pairing scopes scopes') :
    { environment with scopes }.Alike pairing { other with scopes := scopes' } :=
  ⟨alike.table, same, alike.group, alike.waiting, alike.cells, alike.sameCell,
    alike.groupsInRange, alike.sameGroup, alike.preludeNans, alike.programNans⟩

/-- Only names of operators are told apart. -/
theorem find? {name : String} (isOrdinary : ¬ IsOperatorName name) :
    Option.Rel (Slot.Alike pairing) (environment.find? name) (other.find? name) := by
  have inScopes : Option.Rel (Slot.Alike pairing)
      (environment.scopes.findSome? (·.find? name)) (other.scopes.findSome? (·.find? name)) := by
    have found := Bindings.Related.findSome? (List.forall₂_map_left_iff.mpr
      (List.forall₂_map_right_iff.mpr alike.scopes)) name
    simpa only [List.findSome?_map, Function.comp_def, Bindings.find?_ordinary isOrdinary]
      using found
  have inTable := Bindings.Related.find? alike.table name
  rw [Bindings.find?_ordinary isOrdinary, Bindings.find?_ordinary isOrdinary] at inTable
  unfold Environment.find?
  generalize environment.scopes.findSome? (·.find? name) = found at inScopes ⊢
  generalize other.scopes.findSome? (·.find? name) = found' at inScopes ⊢
  cases inScopes with
  | some same => exact .some same
  | none => exact inTable

theorem define (name : String) {slot slot' : Slot} (same : slot.Alike pairing slot') :
    (environment.define name slot).Alike pairing (other.define name slot') := by
  have insertion (events events' : Array Event) :=
    (alike.setEvents events events').setTable (alike.table.insert name same)
  unfold Environment.define
  split <;> split <;> exact insertion _ _

theorem define_left {name : String} (isOperator : IsOperatorName name) (slot : Slot) :
    (environment.define name slot).Alike pairing other := by
  have insertion (events : Array Event) :=
    (alike.setEvents events other.events).setTable (alike.table.insert_left isOperator slot)
  unfold Environment.define
  split <;> exact insertion _

theorem push {scope scope' : Bindings} (same : scope.Alike pairing scope') :
    (environment.push scope).Alike pairing (other.push scope') :=
  alike.setScopes (.cons same alike.scopes)

theorem groupStacks :
    List.Forall₂ (StackAlike pairing) environment.groupStacks other.groupStacks := by
  have group := alike.group
  unfold Environment.groupStacks
  generalize environment.group = present at group ⊢
  generalize other.group = present' at group ⊢
  cases group with
  | none => exact alike.waiting
  | some same => exact .cons ⟨same, alike.scopes⟩ alike.waiting

/-- Paired groups have their stacks in use at the same places. -/
theorem scopesOf {cell cell' : Cell} (same : cell.Alike pairing cell') :
    Bindings.AllAlike pairing (environment.scopesOf cell) (other.scopesOf cell') := by
  have inUse := alike.groupStacks
  unfold Environment.scopesOf
  generalize environment.groupStacks = present at inUse ⊢
  generalize other.groupStacks = present' at inUse ⊢
  induction inUse with
  | nil => exact same.scopes
  | @cons stack stack' _ _ head _ ih =>
      rw [List.lookup_cons, List.lookup_cons]
      by_cases isGroup : cell.group = stack.1
      · have isGroup' := (alike.sameGroup same.group head.1).mp isGroup
        rw [beq_iff_eq.mpr isGroup, beq_iff_eq.mpr isGroup']
        exact head.2
      · have isOther := mt (alike.sameGroup same.group head.1).mpr isGroup
        rw [beq_eq_false_iff_ne.mpr isGroup, beq_eq_false_iff_ne.mpr isOther]
        exact ih

theorem switch {cell cell' : Cell} (same : cell.Alike pairing cell') :
    (environment.switch (some cell.group) (environment.scopesOf cell)).Alike pairing
      (other.switch (some cell'.group) (other.scopesOf cell')) :=
  ⟨alike.table, alike.scopesOf same, .some same.group, alike.groupStacks, alike.cells,
    alike.sameCell, alike.groupsInRange, alike.sameGroup, alike.preludeNans, alike.programNans⟩

theorem group_mono (grows : pairing.Extends pairing') :
    Option.Rel pairing'.groups environment.group other.group := by
  have group := alike.group
  generalize environment.group = present at group ⊢
  generalize other.group = present' at group ⊢
  cases group with
  | none => exact .none
  | some same => exact .some (grows.groups same)

theorem waiting_mono (grows : pairing.Extends pairing') :
    List.Forall₂ (StackAlike pairing') environment.waiting other.waiting :=
  alike.waiting.imp fun _ _ stack => ⟨grows.groups stack.1, stack.2.mono grows⟩

theorem restore (grows : pairing.Extends pairing') {after after' : Environment}
    (alike' : after.Alike pairing' after') :
    (after.restore environment).Alike pairing' (after'.restore other) :=
  ⟨alike'.table, alike.scopes.mono grows, alike.group_mono grows, alike.waiting_mono grows,
    alike'.cells, alike'.sameCell, alike'.groupsInRange, alike'.sameGroup, alike'.preludeNans,
    alike'.programNans⟩

theorem fill {index index' : Nat} (paired : pairing.cells index index') (value : Expr) :
    (environment.fill index value).Alike pairing (other.fill index' value) := by
  refine ⟨alike.table, alike.scopes, alike.group, alike.waiting, fun {next next'} pairedNext => ?_,
    alike.sameCell, fun inRange => ?_, alike.sameGroup, alike.preludeNans, alike.programNans⟩
  · obtain ⟨cell, cell', found, found', same⟩ := alike.cells pairedNext
    simp only [Environment.fill, Array.getElem?_modify, found, found', Option.map_some]
    by_cases isFilled : index = next
    · rw [if_pos isFilled, if_pos ((alike.sameCell paired pairedNext).mp isFilled)]
      exact ⟨_, _, rfl, rfl, same.expr, same.group, same.scopes, rfl⟩
    · rw [if_neg isFilled, if_neg (mt (alike.sameCell paired pairedNext).mpr isFilled)]
      exact ⟨cell, cell', rfl, rfl, same⟩
  · simpa only [Environment.fill, Array.size_modify] using alike.groupsInRange inRange

theorem pop {scope : Bindings} {after : Environment}
    (popped : environment.pop? = some (scope, after)) :
    ∃ scope' after', other.pop? = some (scope', after') ∧ after.Alike pairing after' := by
  have scopes := alike.scopes
  unfold pop? at popped ⊢
  split at popped
  next => cases popped
  next inner =>
    cases popped
    rw [inner] at scopes
    obtain ⟨scope', rest', -, same, split⟩ := List.forall₂_cons_left_iff.mp scopes
    rw [split]
    exact ⟨scope', _, rfl, alike.setScopes same⟩

theorem pop?_eq_none (popped : environment.pop? = none) : other.pop? = none := by
  have scopes := alike.scopes
  unfold pop? at popped ⊢
  split at popped
  next inner =>
    rw [inner] at scopes
    rw [List.forall₂_nil_left_iff.mp scopes]
  next => cases popped

end Environment.Alike

/-! ## New cells -/

/-- The cells from these numbers on are paired in their order, and so is the group that they
form. -/
def Pairing.add (pairing : Pairing) (size size' count : Nat) : Pairing where
  cells index index' := pairing.cells index index' ∨
    ∃ offset < count, index = size + offset ∧ index' = size' + offset
  groups group group' := pairing.groups group group' ∨ 0 < count ∧ group = size ∧ group' = size'

theorem Pairing.extends_add (pairing : Pairing) (size size' count : Nat) :
    pairing.Extends (pairing.add size size' count) := ⟨.inl, .inl⟩

theorem Environment.Alike.cellsInRange {environment other : Environment}
    (alike : environment.Alike pairing other) {index index' : Nat}
    (paired : pairing.cells index index') :
    index < environment.cells.size ∧ index' < other.cells.size := by
  obtain ⟨cell, cell', found, found', -⟩ := alike.cells paired
  exact ⟨(Array.getElem?_eq_some_iff.mp found).1, (Array.getElem?_eq_some_iff.mp found').1⟩

/-- Cells that defer the same expressions in both environments are paired. -/
theorem Environment.Alike.deferAll {environment other : Environment}
    (alike : environment.Alike pairing other) (exprs : List Expr) :
    ∃ pairing', pairing.Extends pairing' ∧
      List.Forall₂ pairing'.cells (environment.deferAll exprs).1 (other.deferAll exprs).1 ∧
      (environment.deferAll exprs).2.Alike pairing' (other.deferAll exprs).2 := by
  have grows := pairing.extends_add environment.cells.size other.cells.size exprs.length
  refine ⟨_, grows, ?_, ?_⟩
  · rw [Environment.deferAll, Environment.deferAll, deferIn_eq, deferIn_eq]
    refine List.forall₂_iff_get.mpr ⟨by simp, fun offset inside inside' => .inr ⟨offset, ?_, ?_⟩⟩
    · simpa using inside
    · simp
  · rw [Environment.deferAll, Environment.deferAll, deferIn_eq, deferIn_eq]
    refine ⟨alike.table.mono grows, alike.scopes.mono grows, alike.group_mono grows,
      alike.waiting_mono grows, ?_, ?_, ?_, ?_, alike.preludeNans, alike.programNans⟩
    · rintro index index' (paired | ⟨offset, inside, rfl, rfl⟩)
      · obtain ⟨cell, cell', found, found', same⟩ := alike.cells paired
        obtain ⟨inside, inside'⟩ := alike.cellsInRange paired
        refine ⟨cell, cell', ?_, ?_, same.mono grows⟩
        · rwa [Array.getElem?_append_left inside]
        · rwa [Array.getElem?_append_left inside']
      · refine ⟨⟨exprs[offset], environment.cells.size, environment.scopes, none⟩,
          ⟨exprs[offset], other.cells.size, other.scopes, none⟩, ?_, ?_,
          ⟨rfl, .inr ⟨Nat.zero_lt_of_lt inside, rfl, rfl⟩, alike.scopes.mono grows, rfl⟩⟩
        · simp [Array.getElem?_append_right, List.getElem?_eq_getElem inside]
        · simp [Array.getElem?_append_right, List.getElem?_eq_getElem inside]
    · rintro index index' next next' (paired | ⟨offset, -, rfl, rfl⟩)
        (paired' | ⟨offset', -, rfl, rfl⟩)
      · exact alike.sameCell paired paired'
      · have inRange := alike.cellsInRange paired
        omega
      · have inRange := alike.cellsInRange paired'
        omega
      · omega
    · rintro group group' (paired | ⟨nonempty, rfl, rfl⟩)
      · have inRange := alike.groupsInRange paired
        simp only [Array.size_append]
        omega
      · simp only [Array.size_append, List.size_toArray, List.length_map]
        omega
    · rintro group group' next next' (paired | ⟨-, rfl, rfl⟩) (paired' | ⟨-, rfl, rfl⟩)
      · exact alike.sameGroup paired paired'
      · have inRange := alike.groupsInRange paired
        omega
      · have inRange := alike.groupsInRange paired'
        omega
      · exact iff_of_true rfl rfl

/-! ## Evaluation -/

namespace Evaluation

/-- Both evaluations give the same value or the same failure and leave environments that are alike,
the first of them one where the invariant holds. -/
inductive Agree {α : Type} (pairing : Pairing) (holds : Environment → Prop) (good : α → Prop) :
    EStateM.Result Failure Environment α → EStateM.Result Failure Environment α → Prop where
  | ok {pairing' : Pairing} {after after' : Environment} {result : α} :
      pairing.Extends pairing' → after.Alike pairing' after' → holds after → good result →
      Agree pairing holds good (.ok result after) (.ok result after')
  | error {pairing' : Pairing} {after after' : Environment} {failure : Failure} :
      pairing.Extends pairing' → after.Alike pairing' after' → holds after →
      Agree pairing holds good (.error failure after) (.error failure after')

/-- Wherever environments are alike, with these cells and groups paired or more, and the invariant
holds in the first, the actions agree. -/
def Concurs {α : Type} (pairing : Pairing) (holds : Environment → Prop) (good : α → Prop)
    (action action' : Action Environment α) : Prop :=
  ∀ ⦃pairing' : Pairing⦄ ⦃environment other : Environment⦄, pairing.Extends pairing' →
    environment.Alike pairing' other → holds environment →
    Agree pairing' holds good (action environment) (action' other)

section

variable {α β : Type} {holds : Environment → Prop} {good : α → Prop} {good' : β → Prop}

theorem Agree.from {result result' : EStateM.Result Failure Environment α}
    (grows : pairing.Extends pairing') (agree : Agree pairing' holds good result result') :
    Agree pairing holds good result result' := by
  cases agree with
  | ok grows' alike kept isGood => exact .ok (grows.trans grows') alike kept isGood
  | error grows' alike kept => exact .error (grows.trans grows') alike kept

theorem Concurs.mono {action action' : Action Environment α} (grows : pairing.Extends pairing')
    (agrees : Concurs pairing holds good action action') :
    Concurs pairing' holds good action action' :=
  fun _ _ _ grows' => agrees (grows.trans grows')

theorem Concurs.bind {first first' : Action Environment α} {next next' : α → Action Environment β}
    (agrees : Concurs pairing holds good first first')
    (agrees' : ∀ result, good result → Concurs pairing holds good' (next result) (next' result)) :
    Concurs pairing holds good' (first >>= next) (first' >>= next') := by
  intro present environment other grows alike kept
  have agree := agrees grows alike kept
  generalize ended : first environment = result at agree
  generalize ended' : first' other = result' at agree
  cases agree with
  | ok grows' alike' kept' isGood =>
      rw [Action.bind_of_ok ended, Action.bind_of_ok ended']
      exact (agrees' _ isGood (grows.trans grows') alike' kept').from grows'
  | error grows' alike' kept' =>
      rw [Action.bind_of_error ended, Action.bind_of_error ended']
      exact .error grows' alike' kept'

end

/-- Agreeing, as a comparison of an action with one other. -/
def agreeing (valued : Expr → Prop) (pairing : Pairing) (holds : Environment → Prop) :
    Comparison valued Environment Environment Unit where
  holds good action family := Concurs pairing holds good action (family ())
  pure isGood := fun _ _ _ _ alike kept => .ok (.refl _) alike kept isGood
  throw _ := fun _ _ _ _ alike kept => .error (.refl _) alike kept
  bind agrees agrees' := agrees.bind agrees'

section

variable {property valued : Expr → Prop} {holds : Environment → Prop}
  (invariant : Environment.Invariant property valued holds)

include invariant

theorem record_agrees (event : Event) :
    Concurs pairing holds (fun _ => True) (record event) (record event) :=
  fun _ _ _ _ alike kept =>
    .ok (.refl _) (alike.record event event) (invariant.record event kept) trivial

theorem define_agrees (name : String) {value : Expr} (good : valued value) :
    Concurs pairing holds (fun _ => True) (define name value) (define name value) :=
  fun _ _ _ _ alike kept =>
    .ok (.refl _) (alike.define name (.expr value)) (invariant.define name good kept) trivial

theorem inScope_agrees {α : Type} {good : α → Prop} {action action' : Action Environment α}
    (agrees : Concurs pairing holds good action action') (formals : List String)
    {cells cells' : List Nat} (paired : List.Forall₂ pairing.cells cells cells') :
    Concurs pairing holds good
      (inScope (Bindings.ofPairs (formals.zip (cells.map .deferred))) action)
      (inScope (Bindings.ofPairs (formals.zip (cells'.map .deferred))) action') := by
  intro present environment other grows alike kept
  have scopes := Bindings.Alike.formals (paired.imp fun _ _ => grows.cells) formals
  have agree := agrees grows (alike.push scopes) (invariant.push formals cells kept)
  simp only [inScope]
  generalize action (environment.push _) = result at agree ⊢
  generalize action' (other.push _) = result' at agree ⊢
  cases agree with
  | ok grows' alike' kept' isGood =>
      dsimp only
      cases popped : Environment.pop? _ with
      | none =>
          rw [alike'.pop?_eq_none popped]
          exact .error grows' alike' kept'
      | some closed =>
          obtain ⟨scope', outer', popped', alikeOuter⟩ := alike'.pop popped
          rw [popped']
          exact .ok grows' alikeOuter (invariant.pop popped kept') isGood
  | error grows' alike' kept' =>
      dsimp only
      cases popped : Environment.pop? _ with
      | none =>
          rw [alike'.pop?_eq_none popped]
          exact .error grows' alike' kept'
      | some closed =>
          obtain ⟨scope', outer', popped', alikeOuter⟩ := alike'.pop popped
          rw [popped']
          exact .error grows' alikeOuter (invariant.pop popped kept')

section

variable {evaluate : Expr → Action Environment Expr}
  (agrees : ∀ expr, property expr →
    Concurs pairing holds valued (evaluate expr) (evaluate expr))

include agrees

theorem force_agree (grows : pairing.Extends pairing') {environment other : Environment}
    (alike : environment.Alike pairing' other) (kept : holds environment) {index index' : Nat}
    (paired : pairing'.cells index index') {cell cell' : Cell}
    (found : environment.cells[index]? = some cell) (same : cell.Alike pairing' cell') :
    Agree pairing' holds valued (force evaluate index cell environment)
      (force evaluate index' cell' other) := by
  cases unforced : cell.value? with
  | some value =>
      have unforced' : cell'.value? = some value := same.value.trans unforced
      simp only [force, unforced, unforced']
      exact .ok (.refl _) alike kept (invariant.value found unforced kept)
  | none =>
      have unforced' : cell'.value? = none := same.value.trans unforced
      have alikeStart := alike.record (.forcing index) (.forcing index')
      have keptStart := invariant.record (.forcing index) kept
      have switched : holds ((environment.record (.forcing index)).switch (some cell.group)
          (environment.scopesOf cell)) :=
        @invariant.switch (environment.record (.forcing index)) index cell found keptStart
      have agree := agrees _ (invariant.argument found kept) grows (alikeStart.switch same) switched
      generalize ended : evaluate cell.expr _ = result at agree
      generalize ended' : evaluate cell.expr _ = result' at agree
      rw [← same.expr] at ended'
      cases agree with
      | ok grows' alike' kept' isGood =>
          rw [force_of_ok _ unforced ended, force_of_ok _ unforced' ended']
          exact .ok grows' (((alike.restore grows' alike').fill (grows'.cells paired) _).record _ _)
            (invariant.record _ (invariant.fill _ isGood (invariant.restore kept kept'))) isGood
      | error grows' alike' kept' =>
          rw [force_of_error _ unforced ended, force_of_error _ unforced' ended']
          exact .error grows' (alike.restore grows' alike') (invariant.restore kept kept')

theorem lookUp_agrees {name : String} (isOrdinary : ¬ IsOperatorName name) :
    Concurs pairing holds valued (lookUp evaluate name) (lookUp evaluate name) := by
  intro present environment other grows alike kept
  have found := alike.find? isOrdinary
  generalize bound : environment.find? name = slot at found
  generalize bound' : other.find? name = slot' at found
  cases found with
  | none =>
      rw [lookUp_of_unbound evaluate bound, lookUp_of_unbound evaluate bound']
      exact .error (.refl _) alike kept
  | some same =>
      cases same with
      | expr expr =>
          rw [lookUp_of_expr evaluate bound, lookUp_of_expr evaluate bound']
          exact .ok (.refl _) alike kept (invariant.found bound kept)
      | @deferred index index' paired =>
          obtain ⟨cell, cell', foundCell, foundCell', same⟩ := alike.cells paired
          rw [lookUp_of_deferred evaluate bound foundCell,
            lookUp_of_deferred evaluate bound' foundCell']
          exact force_agree invariant agrees grows (alike.record _ _)
            (invariant.record (.lookedUp index) kept) paired foundCell same

variable (hereditary : Hereditary property valued)

include hereditary

theorem enter_agrees {cells cells' : List Nat}
    (paired : List.Forall₂ pairing.cells cells cells') (formals : List String) {body : Expr}
    (good : property body) :
    Concurs pairing holds valued (enter evaluate cells formals body)
      (enter evaluate cells' formals body) := by
  have sameLength := paired.length_eq
  induction body using Expr.body_induction generalizing formals with
  | lambda formals' body ih =>
      rw [enter, enter, ← sameLength]
      refine (record_agrees invariant _).bind fun _ _ =>
        inScope_agrees invariant ?_ formals paired
      exact ((agreeing valued pairing holds).requireExactArity _ _).bind fun _ _ =>
        ih formals' (hereditary.body (hereditary.value good trivial))
  | other body notLambda =>
      rw [enter_of_not_lambda evaluate notLambda, enter_of_not_lambda evaluate notLambda,
        ← sameLength]
      exact (record_agrees invariant _).bind fun _ _ =>
        inScope_agrees invariant (agrees body good) formals paired

theorem call_agrees (formals : List String) {body : Expr} {arguments : List Expr}
    (good : property body) (argumentsGood : ∀ argument ∈ arguments, property argument) :
    Concurs pairing holds valued (call evaluate formals body arguments)
      (call evaluate formals body arguments) := by
  refine Concurs.bind ((agreeing valued pairing holds).requireExactArity _ _) fun _ _ => ?_
  intro present environment other grows alike kept
  obtain ⟨present', grows', paired, alike'⟩ := alike.deferAll arguments
  have agreesThen (expr : Expr) (exprGood : property expr) :=
    (agrees expr exprGood).mono (grows.trans grows')
  exact (enter_agrees invariant agreesThen hereditary paired formals good (.refl _) alike'
    (invariant.deferAll argumentsGood kept)).from grows'

end

end

/-- Every evaluation of an expression with a property that identifiers with operator names do not
have agrees in environments that are alike. -/
theorem evaluateWithin_agrees {property valued : Expr → Prop} {holds : Environment → Prop}
    (invariant : Environment.Invariant property valued holds)
    (hereditary : Hereditary property valued)
    (isOrdinary : ∀ name, property (.identifier name) → ¬ IsOperatorName name) (bound : Nat)
    {expr : Expr} (good : property expr) :
    Concurs pairing holds valued (evaluateWithin bound expr) (evaluateWithin bound expr) := by
  induction bound generalizing expr with
  | zero => exact fun _ _ _ _ alike kept => .error (.refl _) alike kept
  | succ bound ih =>
      have rulesHold : (agreeing valued pairing holds).Rules property
          (byNeed (evaluateWithin bound)) fun _ => byNeed (evaluateWithin bound) := {
        lookUp := fun good => lookUp_agrees invariant (fun _ => ih) (isOrdinary _ good)
        define := fun _ valueGood => define_agrees invariant _ valueGood
        call := fun lambdaGood argumentsGood =>
          call_agrees invariant (fun _ => ih) hereditary _ (hereditary.body lambdaGood)
            argumentsGood }
      exact @Comparison.form _ _ _ _ _ (agreeing valued pairing holds) hereditary
        (evaluateWithin bound) (fun _ => evaluateWithin bound) (fun _ => ih) _ _ rulesHold expr good

/-- A definition of an operator name is as good as the evaluation of what it would bind. -/
theorem binding_agrees {property valued : Expr → Prop} {holds : Environment → Prop}
    (invariant : Environment.Invariant property valued holds) {name : String}
    (isOperator : IsOperatorName name) {bound : Nat} {expr : Expr}
    (agrees : Concurs pairing holds valued (evaluateWithin bound expr)
      (evaluateWithin bound expr)) :
    Concurs pairing holds valued (evaluateWithin (bound + 1) (.binding name expr))
      (evaluateWithin bound expr) := by
  intro present environment other grows alike kept
  have agree := agrees grows alike kept
  simp only [evaluateWithin, form]
  generalize ended : evaluateWithin bound expr environment = result at agree
  generalize evaluateWithin bound expr other = result' at agree
  cases agree with
  | ok grows' alike' kept' isGood =>
      rw [Action.bind_of_ok ended]
      exact .ok grows' (alike'.define_left isOperator _) (invariant.define name isGood kept') isGood
  | error grows' alike' kept' =>
      rw [Action.bind_of_error ended]
      exact .error grows' alike' kept'

end Evaluation

end LazyLisp
