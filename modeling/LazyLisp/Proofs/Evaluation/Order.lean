import Mathlib.Logic.Relation
import LazyLisp.Proofs.Evaluation.Scopes
import LazyLisp.Proofs.Evaluation.Values
import LazyLisp.Proofs.Trace

/-!
# The order of arguments

Nothing but the order of the cells keeps an argument from being looked up while it is evaluated. The
scopes that a cell keeps bind cells of older groups only. So what an argument can look up is older
than its group or newer than the beginning of its evaluation, and neither is the argument itself.
-/

set_option autoImplicit false

namespace LazyLisp

open Relation

namespace Environment

/-- An argument keeps a scope that binds a name to the other one. -/
def Captures (environment : Environment) (index older : Nat) : Prop :=
  ∃ cell, environment.cells[index]? = some cell ∧
    ∃ scope ∈ cell.scopes, ∃ entry ∈ scope, entry.2 = .deferred older

/-- The groups with an argument that is being evaluated. -/
def groupsInUse (environment : Environment) : List Nat := environment.groupStacks.map Prod.fst

/-- A deferred argument that is not being evaluated, nor is another one of its group. If it has no
value, its evaluation has not begun. -/
structure Idle (environment : Environment) (index : Nat) : Prop where
  fresh {cell : Cell} :
    environment.cells[index]? = some cell → cell.value? = none →
    .forcing index ∉ environment.events.toList
  finished : ¬ Event.Pending environment.events.toList index
  unused {cell : Cell} :
    environment.cells[index]? = some cell → cell.group ∉ environment.groupsInUse

/-- A deferred argument that may be looked up: it is idle, and so is all that it reaches through the
scopes that arguments keep. -/
structure Available (environment : Environment) (index : Nat) : Prop where
  lt_size : index < environment.cells.size
  idle {reached : Nat} : ReflTransGen environment.Captures index reached → environment.Idle reached

/-- What holds between evaluations, whatever scopes are open: the session table binds no deferred
argument, the scopes that an argument keeps bind only arguments older than its group, and the trace
is as it should be. -/
structure Orderly (environment : Environment) : Prop where
  table : ∀ entry ∈ environment.table, ∃ expr, entry.2 = .expr expr
  group {index : Nat} {cell : Cell} : environment.cells[index]? = some cell → cell.group ≤ index
  scopes {index : Nat} {cell : Cell} :
    environment.cells[index]? = some cell →
    ∀ scope ∈ cell.scopes, ∀ entry ∈ scope, ∃ older < cell.group, entry.2 = .deferred older
  begun {index : Nat} :
    .forcing index ∈ environment.events.toList → index < environment.cells.size
  trace : Event.OnceOnly environment.events.toList

/-- What the open scopes bind may be looked up. -/
structure Ready (environment : Environment) : Prop where
  groups : ∀ group ∈ environment.groupsInUse, group < environment.cells.size
  scopes : ∀ scope ∈ environment.scopes, ∀ entry ∈ scope,
    ∃ index, entry.2 = .deferred index ∧ environment.Available index

/-- What has begun in between has given a value. -/
structure Finishes (before after : Environment) : Prop where
  settles : before.Settles after
  begun {index : Nat} :
    .forcing index ∈ after.events.toList →
    .forcing index ∈ before.events.toList ∨
      ∃ cell, after.cells[index]? = some cell ∧ cell.value? ≠ none
  pending {index : Nat} :
    Event.Pending after.events.toList index → Event.Pending before.events.toList index

/-! ## The order of arguments -/

theorem events_record (environment : Environment) (event : Event) :
    (environment.record event).events.toList = environment.events.toList ++ [event] :=
  Array.toList_push

theorem getElem?_deferAll {environment : Environment} {exprs : List Expr} {index : Nat}
    {cell : Cell} (found : (environment.deferAll exprs).2.cells[index]? = some cell) :
    environment.cells[index]? = some cell ∨
      environment.cells.size ≤ index ∧ cell.group = environment.cells.size ∧
        cell.scopes = environment.scopes := by
  rw [deferAll, deferIn_eq, Array.getElem?_append] at found
  split at found
  next => exact .inl found
  next outside =>
    rw [List.getElem?_toArray, List.getElem?_map] at found
    obtain ⟨expr, -, rfl⟩ := Option.map_eq_some_iff.mp found
    exact .inr ⟨Nat.le_of_not_lt outside, rfl, rfl⟩

theorem mem_deferAll {environment : Environment} {exprs : List Expr} {index : Nat}
    (member : index ∈ (environment.deferAll exprs).1) :
    environment.cells.size ≤ index ∧ index < (environment.deferAll exprs).2.cells.size := by
  rw [deferAll, deferIn_eq] at member ⊢
  simpa [List.mem_range'_1] using member

namespace Orderly

variable {environment : Environment} {index : Nat}

theorem captured_lt (orderly : environment.Orderly) {cell : Cell}
    (found : environment.cells[index]? = some cell) {older : Nat}
    (captures : environment.Captures index older) : older < cell.group := by
  obtain ⟨cell', found', scope, inScopes, entry, inScope, same⟩ := captures
  cases Option.some.inj (found.symm.trans found')
  obtain ⟨older', lt, same'⟩ := orderly.scopes found scope inScopes entry inScope
  cases same.symm.trans same'
  exact lt

theorem reached_le (orderly : environment.Orderly) {reached : Nat}
    (reaches : ReflTransGen environment.Captures index reached) : reached ≤ index := by
  induction reaches with
  | refl => exact Nat.le_refl _
  | tail _ captures ih =>
      have ⟨cell, found, _⟩ := captures
      have older := orderly.captured_lt found captures
      have group := orderly.group found
      omega

/-- An argument reaches only arguments older than its group. -/
theorem reached_lt_group (orderly : environment.Orderly) {cell : Cell}
    (found : environment.cells[index]? = some cell) {older reached : Nat}
    (captures : environment.Captures index older)
    (reaches : ReflTransGen environment.Captures older reached) : reached < cell.group :=
  Nat.lt_of_le_of_lt (orderly.reached_le reaches) (orderly.captured_lt found captures)

theorem record (orderly : environment.Orderly) {event : Event}
    (idle : ∀ index, event = .lookedUp index →
      ¬ Event.Pending environment.events.toList index)
    (fresh : ∀ index, event = .forcing index →
      index < environment.cells.size ∧ .forcing index ∉ environment.events.toList) :
    (environment.record event).Orderly where
  table := orderly.table
  group := orderly.group
  scopes := orderly.scopes
  begun member := by
    rw [events_record, List.mem_append, List.mem_singleton] at member
    rcases member with earlier | same
    · exact orderly.begun earlier
    · exact (fresh _ same.symm).1
  trace := by
    rw [events_record]
    exact orderly.trace.concat idle fun index same => (fresh index same).2

/-- An event that neither looks up an argument nor begins an evaluation. -/
theorem record_other (orderly : environment.Orderly) {event : Event}
    (notLookedUp : ∀ index, event ≠ .lookedUp index)
    (notForcing : ∀ index, event ≠ .forcing index) : (environment.record event).Orderly :=
  orderly.record (fun index same => absurd same (notLookedUp index))
    fun index same => absurd same (notForcing index)

theorem record_forced (orderly : environment.Orderly) (index : Nat) :
    (environment.record (.forced index)).Orderly :=
  orderly.record_other nofun nofun

/-- The evaluation of an argument that is idle and has no value may begin. -/
theorem record_forcing (orderly : environment.Orderly) {index : Nat}
    (inside : index < environment.cells.size)
    (fresh : .forcing index ∉ environment.events.toList) :
    (environment.record (.forcing index)).Orderly :=
  orderly.record nofun fun other same => by
    cases same
    exact ⟨inside, fresh⟩

/-- An argument may be looked up unless it is being evaluated. -/
theorem record_lookedUp (orderly : environment.Orderly) {index : Nat}
    (finished : ¬ Event.Pending environment.events.toList index) :
    (environment.record (.lookedUp index)).Orderly :=
  orderly.record (fun other same => by cases same; exact finished) nofun

theorem define (orderly : environment.Orderly) (name : String) (value : Expr) :
    (environment.define name (.expr value)).Orderly := by
  have insertion {environment : Environment} (orderly : environment.Orderly) :
      Environment.Orderly
        { environment with table := environment.table.insert name (.expr value) } :=
    ⟨@Bindings.forall_mem_insert _ _ _ (fun slot => ∃ expr, slot = Slot.expr expr) orderly.table _
      ⟨value, rfl⟩, orderly.group, orderly.scopes, orderly.begun, orderly.trace⟩
  unfold Environment.define
  split
  · exact insertion (orderly.record_other nofun nofun)
  · exact insertion orderly

theorem deferAll (orderly : environment.Orderly) (ready : environment.Ready) (exprs : List Expr) :
    (environment.deferAll exprs).2.Orderly where
  table := by
    rw [Environment.deferAll, deferIn_eq]
    exact orderly.table
  group found := by
    rcases getElem?_deferAll found with old | ⟨new, group, -⟩
    · exact orderly.group old
    · exact group ▸ new
  scopes found := by
    rcases getElem?_deferAll found with old | ⟨-, group, scopes⟩
    · exact orderly.scopes old
    · rw [group, scopes]
      intro scope inScopes entry inScope
      obtain ⟨index, same, available⟩ := ready.scopes scope inScopes entry inScope
      exact ⟨index, available.lt_size, same⟩
  begun member := by
    rw [Environment.deferAll, deferIn_eq] at member ⊢
    rw [Array.size_append]
    exact Nat.lt_add_right _ (orderly.begun member)
  trace := by
    rw [Environment.deferAll, deferIn_eq]
    exact orderly.trace

theorem fill (orderly : environment.Orderly) (value : Expr) :
    (environment.fill index value).Orderly := by
  have filled {other : Nat} {cell : Cell}
      (found : (environment.fill index value).cells[other]? = some cell) :
      ∃ cell', environment.cells[other]? = some cell' ∧ cell'.group = cell.group ∧
        cell'.scopes = cell.scopes := by
    rw [Environment.fill, Array.getElem?_modify] at found
    split at found
    · obtain ⟨cell', found', rfl⟩ := Option.map_eq_some_iff.mp found
      exact ⟨cell', found', rfl, rfl⟩
    · exact ⟨cell, found, rfl, rfl⟩
  refine ⟨orderly.table, fun found => ?_, fun found => ?_, fun member => ?_, orderly.trace⟩
  · obtain ⟨cell', found', group, -⟩ := filled found
    exact group ▸ orderly.group found'
  · obtain ⟨cell', found', group, scopes⟩ := filled found
    rw [← group, ← scopes]
    exact orderly.scopes found'
  · simp only [Environment.fill, Array.size_modify]
    exact orderly.begun member

end Orderly

/-! ## What has begun is finished -/

namespace Finishes

variable {before middle after : Environment}

/-- Nothing begins where no event or another one is recorded. -/
theorem of_events (settles : before.Settles after)
    (events : after.events = before.events ∨
      ∃ event, (∀ index, event ≠ Event.forcing index) ∧
        after.events = before.events.push event) : before.Finishes after := by
  rcases events with same | ⟨event, notForcing, more⟩
  · exact ⟨settles, fun member => .inl (same ▸ member), fun pending => same ▸ pending⟩
  · have concat : after.events.toList = before.events.toList ++ [event] := by
      rw [more, Array.toList_push]
    refine ⟨settles, fun member => ?_, fun pending => ?_⟩
    · rw [concat, List.mem_append, List.mem_singleton] at member
      exact member.imp_right fun same => absurd same.symm (notForcing _)
    · rw [concat] at pending
      exact pending.of_concat.2.resolve_left (notForcing _)

theorem refl (environment : Environment) : environment.Finishes environment :=
  of_events (.refl environment) (.inl rfl)

theorem record (environment : Environment) {event : Event}
    (notForcing : ∀ index, event ≠ .forcing index) :
    environment.Finishes (environment.record event) :=
  of_events (.record environment event) (.inr ⟨event, notForcing, rfl⟩)

theorem define (environment : Environment) (name : String) (slot : Slot) :
    environment.Finishes (environment.define name slot) := by
  refine of_events (.define environment name slot) ?_
  unfold Environment.define
  split
  · exact .inr ⟨.rebound name, nofun, rfl⟩
  · exact .inl rfl

theorem deferAll (environment : Environment) (exprs : List Expr) :
    environment.Finishes (environment.deferAll exprs).2 := by
  refine of_events (.deferIn environment _ exprs) (.inl ?_)
  rw [Environment.deferAll, deferIn_eq]

theorem pop {scope : Bindings} (finishes : (before.push scope).Finishes after) :
    ∃ after', after.pop? = some (scope, after') ∧ before.Finishes after' := by
  obtain ⟨after', popped, settles⟩ := finishes.settles.pop
  refine ⟨after', popped, ?_⟩
  unfold pop? at popped
  split at popped
  next => cases popped
  next =>
    cases popped
    exact ⟨settles, finishes.begun, finishes.pending⟩

theorem trans (finishes : before.Finishes middle) (finishes' : middle.Finishes after) :
    before.Finishes after where
  settles := finishes.settles.trans finishes'.settles
  begun member := by
    rcases finishes'.begun member with earlier | valued
    · rcases finishes.begun earlier with earliest | ⟨cell, found, valued⟩
      · exact .inl earliest
      · obtain ⟨cell', found', cellSettles⟩ := finishes'.settles.cells found
        refine .inr ⟨cell', found', ?_⟩
        cases cellSettles with
        | same => exact valued
        | forced value unforced => exact absurd unforced valued
    · exact .inr valued
  pending pending := finishes.pending (finishes'.pending pending)

/-- The evaluation of an argument has finished when its value is kept. -/
theorem force {index : Nat} {cell : Cell} {group : Option Nat} {scopes : List Bindings}
    (found : before.cells[index]? = some cell) (unforced : cell.value? = none) (value : Expr)
    (finishes : ((before.record (.forcing index)).switch group scopes).Finishes after) :
    before.Finishes (((after.restore before).fill index value).record (.forced index)) := by
  have restored : before.Settles (after.restore before) :=
    .trans (.record before (.forcing index)) finishes.settles.restore
  have concat : (((after.restore before).fill index value).record (.forced index)).events.toList =
      after.events.toList ++ [.forced index] := Array.toList_push
  have begunConcat : (before.record (.forcing index)).events.toList =
      before.events.toList ++ [.forcing index] := Array.toList_push
  have valued {other : Nat} {cell : Cell} (found : after.cells[other]? = some cell)
      (valued : other = index ∨ cell.value? ≠ none) :
      ∃ cell, ((after.restore before).fill index value).cells[other]? = some cell ∧
        cell.value? ≠ none := by
    rw [fill, restore, Array.getElem?_modify, found]
    split
    next => exact ⟨_, rfl, Option.some_ne_none value⟩
    next different => exact ⟨_, rfl, valued.resolve_left (Ne.symm different)⟩
  refine ⟨(restored.fill found unforced value).trans (.record _ _), fun {other} member => ?_,
    fun {other} pending => ?_⟩
  · simp only [concat, List.mem_append, List.mem_singleton, reduceCtorEq, or_false] at member
    rcases finishes.begun member with earlier | ⟨cell', found', isValued⟩
    · change _ ∈ (before.record (.forcing index)).events.toList at earlier
      rw [begunConcat, List.mem_append, List.mem_singleton] at earlier
      refine earlier.imp_right fun same => ?_
      cases same
      obtain ⟨cell', found', -⟩ := restored.cells found
      exact valued found' (.inl rfl)
    · exact .inr (valued found' (.inr isValued))
  · rw [concat] at pending
    obtain ⟨notForced, same | pending⟩ := pending.of_concat
    · cases same
    · have earlier : Event.Pending (before.record (.forcing index)).events.toList other :=
        finishes.pending pending
      rw [begunConcat] at earlier
      rcases earlier.of_concat.2 with same | earlier
      · cases same
        exact absurd rfl notForced
      · exact earlier

end Finishes

/-! ## What may be looked up stays so -/

section

variable {before after : Environment} (orderly : before.Orderly) (finishes : before.Finishes after)
  {index : Nat}

include finishes in
theorem Finishes.lt_size (inside : index < before.cells.size) : index < after.cells.size := by
  obtain ⟨_, found, -⟩ := finishes.settles.cells (Array.getElem?_eq_getElem inside)
  exact (Array.getElem?_eq_some_iff.mp found).1

include finishes in
theorem Finishes.groupsInUse_eq : after.groupsInUse = before.groupsInUse := by
  simp only [groupsInUse, groupStacks, finishes.settles.scopes, finishes.settles.group,
    finishes.settles.waiting]

include finishes in
/-- What an argument keeps does not change. -/
theorem Finishes.captures (inside : index < before.cells.size) {older : Nat}
    (captures : after.Captures index older) : before.Captures index older := by
  obtain ⟨cell, found, keeps⟩ := captures
  obtain ⟨cell', found', cellSettles⟩ :=
    finishes.settles.cells (Array.getElem?_eq_getElem inside)
  cases Option.some.inj (found.symm.trans found')
  refine ⟨_, Array.getElem?_eq_getElem inside, ?_⟩
  cases cellSettles <;> exact keeps

include finishes in
theorem Idle.later (idle : before.Idle index) (inside : index < before.cells.size) :
    after.Idle index := by
  have found := Array.getElem?_eq_getElem inside
  obtain ⟨cell', found', cellSettles⟩ := finishes.settles.cells found
  refine ⟨fun {present} foundPresent unforced member => ?_,
    fun pending => idle.finished (finishes.pending pending), fun {present} foundPresent => ?_⟩
  · cases Option.some.inj (foundPresent.symm.trans found')
    rcases finishes.begun member with earlier | ⟨_, foundValue, valued⟩
    · cases cellSettles with
      | same => exact idle.fresh found unforced earlier
      | forced => cases unforced
    · cases Option.some.inj (foundValue.symm.trans found')
      exact valued unforced
  · cases Option.some.inj (foundPresent.symm.trans found')
    have unused := idle.unused found
    rw [finishes.groupsInUse_eq]
    cases cellSettles <;> exact unused

include orderly finishes

theorem Available.later (available : before.Available index) : after.Available index := by
  refine ⟨finishes.lt_size available.lt_size, fun {reached} reaches => ?_⟩
  have reachesBefore : ReflTransGen before.Captures index reached := by
    induction reaches with
    | refl => exact .refl
    | tail _ captures ih =>
        have inside := Nat.lt_of_le_of_lt (orderly.reached_le ih) available.lt_size
        exact ih.tail (finishes.captures inside captures)
  have inside := Nat.lt_of_le_of_lt (orderly.reached_le reachesBefore) available.lt_size
  exact (available.idle reachesBefore).later finishes inside

theorem Ready.later (ready : before.Ready) : after.Ready where
  groups group member :=
    finishes.lt_size (ready.groups group (finishes.groupsInUse_eq ▸ member))
  scopes := by
    rw [finishes.settles.scopes]
    intro scope inScopes entry inScope
    obtain ⟨index, same, available⟩ := ready.scopes scope inScopes entry inScope
    exact ⟨index, same, available.later orderly finishes⟩

end

/-! ## Changes of the open scopes -/

section

variable {environment : Environment}

/-- What may be looked up depends on the arguments, the trace and the groups in use. -/
theorem Available.congr {present : Environment} {index : Nat}
    (available : environment.Available index) (cells : present.cells = environment.cells)
    (events : present.events = environment.events)
    (groups : present.groupsInUse = environment.groupsInUse) : present.Available index := by
  have captures : present.Captures = environment.Captures := by
    funext index older
    rw [Captures, Captures, cells]
  refine ⟨cells ▸ available.lt_size, fun {reached} reaches => ?_⟩
  have idle := available.idle (captures ▸ reaches)
  refine ⟨fun found => ?_, ?_, fun found => ?_⟩
  · rw [events]
    exact idle.fresh (cells ▸ found)
  · rw [events]
    exact idle.finished
  · rw [groups]
    exact idle.unused (cells ▸ found)

theorem Orderly.push (orderly : environment.Orderly) (scope : Bindings) :
    (environment.push scope).Orderly :=
  ⟨orderly.table, orderly.group, orderly.scopes, orderly.begun, orderly.trace⟩

theorem Orderly.switch (orderly : environment.Orderly) (group : Option Nat)
    (scopes : List Bindings) : (environment.switch group scopes).Orderly :=
  ⟨orderly.table, orderly.group, orderly.scopes, orderly.begun, orderly.trace⟩

/-- The evaluation of an argument that has no value may begin where it may be looked up. -/
theorem Orderly.switch_forcing (orderly : environment.Orderly) {index : Nat}
    (available : environment.Available index) {cell : Cell}
    (found : environment.cells[index]? = some cell) (unforced : cell.value? = none)
    (scopes : List Bindings) :
    ((environment.record (.forcing index)).switch (some cell.group) scopes).Orderly :=
  (orderly.record_forcing available.lt_size
    ((available.idle .refl).fresh found unforced)).switch _ scopes

theorem Orderly.restore (orderly : environment.Orderly) (earlier : Environment) :
    (environment.restore earlier).Orderly :=
  ⟨orderly.table, orderly.group, orderly.scopes, orderly.begun, orderly.trace⟩

theorem Orderly.pop (orderly : environment.Orderly) {scope : Bindings} {after : Environment}
    (popped : environment.pop? = some (scope, after)) : after.Orderly := by
  unfold pop? at popped
  split at popped
  next => cases popped
  next =>
    cases popped
    exact ⟨orderly.table, orderly.group, orderly.scopes, orderly.begun, orderly.trace⟩

theorem groupsInUse_push (environment : Environment) (scope : Bindings) :
    (environment.push scope).groupsInUse = environment.groupsInUse := by
  unfold groupsInUse groupStacks push
  cases environment.group <;> rfl

theorem Available.push {index : Nat} (available : environment.Available index)
    (scope : Bindings) : (environment.push scope).Available index :=
  available.congr rfl rfl (groupsInUse_push environment scope)

/-- A call opens a scope of arguments that may be looked up. -/
theorem Ready.push (ready : environment.Ready) (formals : List String) {cells : List Nat}
    (available : ∀ index ∈ cells, environment.Available index) :
    (environment.push (Bindings.ofPairs (formals.zip (cells.map .deferred)))).Ready where
  groups := by
    rw [groupsInUse_push]
    exact ready.groups
  scopes := by
    refine List.forall_mem_cons.mpr ⟨?_, fun scope inScopes entry inScope => ?_⟩
    · exact @Bindings.forall_mem_formals
        (fun slot => ∃ index, slot = .deferred index ∧ Available _ index) formals cells
        fun index member => ⟨index, rfl, (available index member).push _⟩
    · obtain ⟨index, same, available⟩ := ready.scopes scope inScopes entry inScope
      exact ⟨index, same, available.push _⟩

/-- Only an argument that may be looked up is found. -/
theorem Ready.find? (orderly : environment.Orderly) (ready : environment.Ready) {name : String}
    {index : Nat} (bound : environment.find? name = some (.deferred index)) :
    environment.Available index := by
  unfold Environment.find? at bound
  split at bound
  next inner =>
    cases bound
    obtain ⟨scope, inScopes, bound⟩ := List.exists_of_findSome?_eq_some inner
    obtain ⟨index, same, available⟩ :=
      ready.scopes scope inScopes _ (Bindings.mem_of_find? bound)
    cases same
    exact available
  next =>
    obtain ⟨expr, same⟩ := orderly.table _ (Bindings.mem_of_find? bound)
    cases same

/-- The arguments of a call may be looked up. -/
theorem Ready.deferAll (orderly : environment.Orderly) (ready : environment.Ready)
    (exprs : List Expr) :
    ∀ index ∈ (environment.deferAll exprs).1, (environment.deferAll exprs).2.Available index := by
  intro index member
  obtain ⟨new, inside⟩ := mem_deferAll member
  have finishes := Finishes.deferAll environment exprs
  have notBegun : .forcing index ∉ environment.events.toList :=
    fun begun => Nat.not_lt_of_le new (orderly.begun begun)
  have sameEvents : (environment.deferAll exprs).2.events = environment.events := by
    rw [Environment.deferAll, deferIn_eq]
  refine ⟨inside, fun {reached} reaches => ?_⟩
  rcases reaches.cases_head with rfl | ⟨older, ⟨cell, found, scope, inScopes, entry, inScope, same⟩,
    reaches⟩
  · refine ⟨fun _ _ => sameEvents ▸ notBegun, fun pending => ?_, fun found inUse => ?_⟩
    · exact notBegun (sameEvents ▸ pending.forcing_mem)
    · rw [finishes.groupsInUse_eq] at inUse
      have older := ready.groups _ inUse
      rcases getElem?_deferAll found with old | ⟨-, group, -⟩
      · exact Nat.not_lt_of_le new (Array.getElem?_eq_some_iff.mp old).1
      · omega
  · rcases getElem?_deferAll found with old | ⟨-, -, scopes⟩
    · exact absurd (Array.getElem?_eq_some_iff.mp old).1 (Nat.not_lt_of_le new)
    · obtain ⟨older', same', available⟩ :=
        ready.scopes scope (scopes ▸ inScopes) entry inScope
      cases same.symm.trans same'
      exact (available.later orderly finishes).idle reaches

/-- An argument that may be looked up is evaluated in the scopes of its caller. -/
theorem Available.scopesOf_eq {index : Nat} (available : environment.Available index) {cell : Cell}
    (found : environment.cells[index]? = some cell) :
    environment.scopesOf cell = cell.scopes := by
  refine scopesOf_of_unused (List.lookup_eq_none_iff.mpr ?_)
  intro stack member
  rw [bne_iff_ne]
  intro same
  exact (available.idle .refl).unused found (same ▸ List.mem_map_of_mem member)

/-- An argument that may be looked up may be evaluated in the scopes that it keeps. -/
theorem Ready.switch (orderly : environment.Orderly) (ready : environment.Ready) {index : Nat}
    (available : environment.Available index) {cell : Cell}
    (found : environment.cells[index]? = some cell) :
    ((environment.record (.forcing index)).switch (some cell.group) cell.scopes).Ready where
  groups := by
    have inside : cell.group < environment.cells.size :=
      Nat.lt_of_le_of_lt (orderly.group found) available.lt_size
    exact List.forall_mem_cons.mpr ⟨inside, ready.groups⟩
  scopes := by
    intro scope inScopes entry inScope
    obtain ⟨older, isOlder, same⟩ := orderly.scopes found scope inScopes entry inScope
    have captures : environment.Captures index older :=
      ⟨cell, found, scope, inScopes, entry, inScope, same⟩
    have group := orderly.group found
    have inside := available.lt_size
    refine ⟨older, same, show older < environment.cells.size by omega, fun {reached} reaches => ?_⟩
    have reaches : ReflTransGen environment.Captures older reached := reaches
    have reachedOlder := orderly.reached_lt_group found captures reaches
    have idle := available.idle (.head captures reaches)
    have different : Event.forcing index ≠ .forcing reached := by
      intro same
      cases same
      omega
    have events : (environment.record (.forcing index)).events.toList =
        environment.events.toList ++ [.forcing index] := events_record environment _
    refine ⟨fun found unforced => ?_, fun pending => ?_, fun found => ?_⟩
    · change _ ∉ (environment.record (.forcing index)).events.toList
      rw [events, List.mem_append, List.mem_singleton, not_or]
      exact ⟨idle.fresh found unforced, different.symm⟩
    · change Event.Pending (environment.record (.forcing index)).events.toList _ at pending
      rw [events] at pending
      exact idle.finished (pending.of_concat.2.resolve_left different)
    · have newer := orderly.group found
      intro inUse
      rcases List.mem_cons.mp inUse with same | earlier
      · omega
      · exact idle.unused found earlier

end

end Environment

end LazyLisp
