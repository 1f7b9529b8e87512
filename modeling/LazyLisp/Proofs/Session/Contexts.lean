import LazyLisp.Proofs.Evaluation.Contexts
import LazyLisp.Proofs.Evaluation.Frozen
import LazyLisp.Proofs.Session.Visited

/-!
# Contexts of environments

An environment that is in order represents a context. Evaluation that reaches no definition ends
there as evaluation in the context does, and afterwards the environment still represents the same
context: all that has changed is which arguments have their values.
-/

set_option autoImplicit false

namespace LazyLisp.Context

open Evaluation
open Sharing (Converges)

/-- An environment and a context that agree on what names are bound to. -/
structure Represents (world : World) (environment : Environment) (context : Context) : Prop where
  inOrder : environment.InOrder
  table : environment.table = context.table
  scopes : world.DenotesAll environment.scopes context.scopes
  cells {index : Nat} {argument : Argument} : world index = some argument →
    ∃ cell, environment.cells[index]? = some cell ∧ world.Agrees context.table cell argument

namespace Represents

variable {world world' : World} {environment after : Environment} {context : Context}
  {index : Nat} {argument : Argument}

theorem lt_size (represents : Represents world environment context)
    (known : world index = some argument) : index < environment.cells.size := by
  obtain ⟨cell, found, -⟩ := represents.cells known
  exact (Array.getElem?_eq_some_iff.mp found).1

/-- In other scopes the same environment represents another context. -/
theorem inScopes (represents : Represents world environment context) (inOrder : after.InOrder)
    (table : after.table = environment.table) (cells : after.cells = environment.cells)
    {scopes : List (Bindings Argument)} (denotes : world.DenotesAll after.scopes scopes) :
    Represents world after { context with scopes } where
  inOrder := inOrder
  table := table.trans represents.table
  scopes := denotes
  cells := by
    rw [cells]
    exact represents.cells

/-- Within a chain of lambdas the new cells stand for the arguments in the present scopes. -/
theorem inside (represents : Represents world environment context) (arguments : List Expr)
    (layers : List (List String)) (body : Expr) :
    ∃ world', world.Extends world' ∧
      Represents world' (environment.inside arguments layers body)
        (context.inside arguments layers) := by
  let deferred := arguments.map (Argument.deferred · context.scopes)
  let world' := world.add environment.cells.size deferred
  have grows : world.Extends world' := World.extends_add deferred represents.lt_size
  have denotes := World.denotes_add world environment.cells.size deferred
  rw [List.length_map] at denotes
  refine ⟨world', grows, represents.inOrder.inside arguments layers body, ?_, ?_, ?_⟩
  · rw [environment.inside_eq]
    exact represents.table
  · rw [environment.inside_eq]
    apply List.rel_append
    · apply List.rel_reverse
      rw [List.forall₂_map_left_iff, List.forall₂_map_right_iff, List.forall₂_same]
      intro formals _
      exact (Bindings.Related.zip formals denotes).ofPairs
    · exact World.DenotesAll.extend grows represents.scopes
  · intro index argument known
    rw [environment.inside_eq]
    simp only [Array.getElem?_append, List.getElem?_toArray, List.getElem?_map]
    rcases World.add_eq_some.mp known with ⟨isOld, known⟩ | ⟨isNew, known⟩
    · obtain ⟨cell, found, agrees⟩ := represents.cells known
      rw [if_pos isOld]
      exact ⟨cell, found, agrees.extend grows⟩
    · rw [List.getElem?_map] at known
      obtain ⟨expr, found, rfl⟩ := Option.map_eq_some_iff.mp known
      rw [if_neg (Nat.not_lt_of_le isNew), found]
      exact ⟨_, rfl, .unforced rfl (World.DenotesAll.extend grows represents.scopes)⟩

/-- The argument is evaluated in the scopes of its caller. -/
theorem forcing (represents : Represents world environment context) {name : String} {cell : Cell}
    (bound : environment.find? name = some (.deferred index))
    (found : environment.cells[index]? = some cell) (unvalued : cell.value? = none)
    {scopes : List (Bindings Argument)} (denotes : world.DenotesAll cell.scopes scopes) :
    Represents world (((environment.record (.lookedUp index)).record (.forcing index)).switch
      (some cell.group) (environment.scopesOf cell)) { context with scopes } := by
  have available := represents.inOrder.ready.find? represents.inOrder.orderly bound
  refine represents.inScopes (represents.inOrder.force bound found unvalued) rfl rfl ?_
  rw [available.scopesOf_eq found]
  exact denotes

/-- Afterwards the scopes are there again and the argument has its value. -/
theorem forced (represents : Represents world environment context) {earlier : Environment}
    (sameScopes : earlier.scopes = environment.scopes) (known : world index = some argument)
    (grows : world.Extends world') {scopes : List (Bindings Argument)}
    (represents' : Represents world' after { context with scopes }) {value : Expr}
    (converges : Converges (fun bound => force (evaluateWithin bound) context.table argument) ()
      (.ok value ()))
    (inOrder : (((after.restore earlier).fill index value).record (.forced index)).InOrder) :
    Represents world' (((after.restore earlier).fill index value).record (.forced index))
      context where
  inOrder := inOrder
  table := represents'.table
  scopes := by
    have denotes := World.DenotesAll.extend grows represents.scopes
    rw [← sameScopes] at denotes
    exact denotes
  cells := by
    intro other argument' known'
    obtain ⟨cell, found, agrees⟩ := represents'.cells known'
    simp only [Environment.record, Environment.fill, Environment.restore, Array.getElem?_modify,
      found]
    split
    next same =>
      subst same
      cases Option.some.inj ((grows known).symm.trans known')
      exact ⟨_, rfl, .forced rfl converges⟩
    next => exact ⟨cell, rfl, agrees⟩

end Represents

/-! ## Following an evaluation -/

/-- The evaluation ends where the environment still represents the context. The family converges to
the same result or failure, but where the evaluation was too deep, so is the member of the family
with the same bound. -/
def Ends {α : Type} (world : World) (context : Context) (bound : Nat) (good : α → Prop)
    (family : Nat → Action Unit α) : EStateM.Result Failure Environment α → Prop
  | .ok result after =>
    good result ∧ Converges family () (.ok result ()) ∧
      ∃ world', world.Extends world' ∧ Represents world' after context
  | .error failure _ =>
    (failure = .tooDeep → family bound () = .error .tooDeep ()) ∧
      (failure ≠ .tooDeep → Converges family () (.error failure ()))

/-- In every environment that represents the context, the family follows the action. -/
def Follows {α : Type} (context : Context) (bound : Nat) (good : α → Prop)
    (action : Action Environment α) (family : Nat → Action Unit α) : Prop :=
  ∀ ⦃world : World⦄ ⦃environment : Environment⦄, Represents world environment context →
    Ends world context bound good family (action environment)

namespace Ends

variable {world world' : World} {context : Context} {bound : Nat} {α : Type} {good : α → Prop}
  {family : Nat → Action Unit α} {result : EStateM.Result Failure Environment α}

theorem mono (grows : world.Extends world') (ends : Ends world' context bound good family result) :
    Ends world context bound good family result := by
  cases result with
  | ok _ _ =>
      obtain ⟨isGood, converges, reached, grows', represents⟩ := ends
      exact ⟨isGood, converges, reached, grows.trans grows', represents⟩
  | error _ _ => exact ends

theorem shift (first : family 0 () = .error .tooDeep ())
    (ends : Ends world context bound good (fun bound => family (bound + 1)) result) :
    Ends world context (bound + 1) good family result := by
  cases result with
  | ok _ _ =>
      obtain ⟨isGood, converges, represents⟩ := ends
      exact ⟨isGood, converges.shift first, represents⟩
  | error _ _ => exact ⟨ends.1, fun notDeep => (ends.2 notDeep).shift first⟩

end Ends

namespace Follows

variable {context : Context} {bound : Nat} {α β : Type} {good : α → Prop} {good' : β → Prop}

theorem pure {result : α} (isGood : good result) :
    Follows context bound good (Pure.pure result) fun _ => Pure.pure result :=
  fun world _ represents => ⟨isGood, .const rfl, world, .refl world, represents⟩

theorem throw {failure : Failure} (other : failure ≠ .tooDeep) :
    Follows context bound good (MonadExcept.throw failure) fun _ => MonadExcept.throw failure :=
  fun _ _ _ => ⟨fun tooDeep => absurd tooDeep other, fun _ => .const rfl⟩

theorem bind {first : Action Environment α} {next : α → Action Environment β}
    {first' : Nat → Action Unit α} {next' : Nat → α → Action Unit β}
    (follows : Follows context bound good first first')
    (follows' : ∀ result, good result →
      Follows context bound good' (next result) fun index => next' index result) :
    Follows context bound good' (first >>= next) fun index => first' index >>= next' index := by
  intro world environment represents
  have ends := follows represents
  cases same : first environment with
  | error failure middle =>
      rw [same] at ends
      rw [Action.bind_of_error same]
      exact ⟨fun isDeep => Action.bind_of_error (ends.1 isDeep) _,
        fun notDeep => (ends.2 notDeep).bind_error⟩
  | ok result middle =>
      rw [same] at ends
      rw [Action.bind_of_ok same]
      obtain ⟨isGood, converges, world', grows, represents'⟩ := ends
      have ends' := (follows' result isGood represents').mono grows
      cases same' : next result middle with
      | ok result' after =>
          rw [same'] at ends'
          exact ⟨ends'.1, converges.bind ends'.2.1, ends'.2.2⟩
      | error failure after =>
          rw [same'] at ends'
          refine ⟨fun isDeep => ?_, fun notDeep => converges.bind (ends'.2 notDeep)⟩
          rcases converges.otherwise bound with firstDeep | firstSame
          · exact Action.bind_of_error firstDeep _
          · exact (Action.bind_of_ok firstSame _).trans (ends'.1 isDeep)

end Follows

/-- Following, as a comparison of evaluation with evaluation in the context to all depths. -/
def following (context : Context) (bound : Nat) :
    Comparison (fun _ => True) Environment Unit Nat where
  holds good action family := Follows context bound good action family
  pure isGood := Follows.pure isGood
  throw check := Follows.throw check.ne_tooDeep
  bind follows follows' := Follows.bind follows follows'

/-! ## Names and calls -/

section

variable {bound : Nat} {environment after : Environment} {value : Expr}

theorem inOrder_of_lookUp (inOrder : environment.InOrder) {name : String}
    (ended : Evaluation.lookUp (frozenWithin bound) name environment = .ok value after) :
    after.InOrder := by
  have deeper := (lookUp_deepens (frozenWithin_deepens bound) name).of_ok ended
  have evaluated : Evaluation.evaluateWithin (bound + 1) (.identifier name) environment =
      .ok value after := deeper.1
  exact inOrder.evaluate evaluated

theorem inOrder_of_call (inOrder : environment.InOrder) {formals : List String} {body : Expr}
    {arguments : List Expr}
    (ended : Evaluation.call (frozenWithin bound) formals body arguments environment =
      .ok value after) : after.InOrder := by
  have deeper := (call_deepens (frozenWithin_deepens bound) (frozenWithin_keepsStacks bound)
    formals body arguments).of_ok ended
  obtain ⟨_, evaluated⟩ := exists_evaluated_of_call deeper.1
  exact inOrder.evaluate evaluated

variable (follows : ∀ (context : Context) (expr : Expr), Follows context bound (fun _ => True)
  (frozenWithin bound expr) fun index => evaluateWithin index context expr)

include follows

/-- An argument that has no value gets it, in the scopes of the caller. -/
theorem force_ends {world : World} {context : Context}
    (represents : Represents world environment context) {name : String} {index : Nat} {cell : Cell}
    (isBound : environment.find? name = some (.deferred index))
    (found : environment.cells[index]? = some cell) (unvalued : cell.value? = none)
    {scopes : List (Bindings Argument)} (denotes : world.DenotesAll cell.scopes scopes)
    (known : world index = some (.deferred cell.expr scopes)) :
    Ends world context bound (fun _ => True)
      (fun index => force (evaluateWithin index) context.table (.deferred cell.expr scopes))
      (Evaluation.lookUp (frozenWithin bound) name environment) := by
  have representsStart := represents.forcing isBound found unvalued denotes
  have ends := follows { context with scopes } cell.expr representsStart
  have looksUp := Evaluation.lookUp_of_deferred (frozenWithin bound) isBound found
  generalize done : frozenWithin bound cell.expr _ = result at ends
  cases result with
  | error failure after =>
      rw [looksUp, force_of_error _ unvalued done]
      exact ends
  | ok value after =>
      obtain ⟨-, converges, world', grows, represents'⟩ := ends
      have ended := looksUp.trans (force_of_ok _ unvalued done)
      have inOrder := inOrder_of_lookUp represents.inOrder ended
      rw [ended]
      exact ⟨trivial, converges, world', grows,
        represents.forced rfl known grows represents' converges inOrder⟩

theorem lookUp_follows (context : Context) (name : String) :
    Follows context bound (fun _ => True) (Evaluation.lookUp (frozenWithin bound) name)
      fun index => lookUp (evaluateWithin index) context name := by
  intro world environment represents
  have inScopes := Bindings.Related.findSome? represents.scopes name
  generalize slotFound : environment.scopes.findSome? (·.find? name) = slot? at inScopes
  generalize argumentFound : context.scopes.findSome? (·.find? name) = argument? at inScopes
  simp only [lookUp, argumentFound]
  cases inScopes with
  | some denotes =>
      obtain ⟨index, rfl, known⟩ := denotes
      obtain ⟨cell, found, agrees⟩ := represents.cells known
      have isBound : environment.find? name = some (.deferred index) := by
        simp only [Environment.find?, slotFound]
      cases agrees with
      | unforced unvalued denotes =>
          exact force_ends follows represents isBound found unvalued denotes known
      | @forced value _ valued converges =>
          have ended : Evaluation.lookUp (frozenWithin bound) name environment =
              .ok value (environment.record (.lookedUp index)) := by
            rw [Evaluation.lookUp_of_deferred _ isBound found]
            simp only [Evaluation.force, valued]
            rfl
          rw [ended]
          have inOrder := inOrder_of_lookUp represents.inOrder ended
          exact ⟨trivial, converges, world, .refl world,
            represents.inScopes inOrder rfl rfl represents.scopes⟩
  | none =>
      have inTable : environment.find? name = context.table.find? name := by
        simp only [Environment.find?, slotFound, represents.table]
      cases found : context.table.find? name with
      | none =>
          have notDeep : Failure.unknownSymbol name ≠ .tooDeep := by
            intro same
            cases same
          rw [Evaluation.lookUp_of_unbound _ (inTable.trans found)]
          exact Follows.throw notDeep represents
      | some slot =>
          cases slot with
          | expr expr =>
              rw [Evaluation.lookUp_of_expr _ (inTable.trans found)]
              exact Follows.pure trivial represents
          | deferred index =>
              rw [← represents.table] at found
              obtain ⟨expr, same⟩ :=
                represents.inOrder.orderly.table _ (Bindings.mem_of_find? found)
              cases same

theorem call_follows (context : Context) (formals : List String) (body : Expr)
    (arguments : List Expr) :
    Follows context bound (fun _ => True)
      (Evaluation.call (frozenWithin bound) formals body arguments)
      fun index => call (evaluateWithin index) context formals body arguments := by
  intro world environment represents
  have innermost := body.isInnermost_innermost
  generalize called : Evaluation.call (frozenWithin bound) formals body arguments environment =
    result
  have called' := called
  rw [← body.nested_layers] at called'
  unfold call
  cases fits : misfit? arguments.length (formals :: body.layers) with
  | some mismatching =>
      obtain ⟨_, -, stopped⟩ := call_of_misfit fits body.innermost environment
      rw [stopped] at called'
      subst called'
      exact ⟨nofun, fun _ => .const rfl⟩
  | none =>
      rw [call_of_keepsStacks (frozenWithin_keepsStacks bound _) innermost fits] at called'
      obtain ⟨world', grows, represents'⟩ :=
        represents.inside arguments (formals :: body.layers) body.innermost
      have ends := (follows _ body.innermost represents').mono grows
      generalize frozenWithin bound body.innermost _ = ended at called' ends
      subst called'
      cases ended with
      | error failure after => exact ends
      | ok value after =>
          obtain ⟨-, converges, reached, grows', representsEnd⟩ := ends
          refine ⟨trivial, converges, reached, grows', ?_⟩
          exact representsEnd.inScopes (inOrder_of_call represents.inOrder called) rfl rfl
            (World.DenotesAll.extend grows' represents.scopes)

end

/-- Evaluation in the context follows evaluation that reaches no definition. -/
theorem frozenWithin_follows (bound : Nat) (context : Context) (expr : Expr) :
    Follows context bound (fun _ => True) (frozenWithin bound expr)
      fun index => evaluateWithin index context expr := by
  induction bound generalizing context expr with
  | zero => exact fun _ _ _ => ⟨fun _ => rfl, fun other => absurd rfl other⟩
  | succ bound ih =>
      intro world environment represents
      have rulesFollow : (following context bound).Rules (fun _ => True)
          (frozen (frozenWithin bound)) fun index => rules (evaluateWithin index) context := {
        lookUp := fun _ => lookUp_follows ih context _
        define := fun _ _ _ _ _ => ⟨fun _ => rfl, fun other => absurd rfl other⟩
        call := fun _ _ => call_follows ih context _ _ _ }
      exact Ends.shift rfl
        (Comparison.form hereditary_true (fun expr _ => ih context expr) rulesFollow trivial
          represents)

/-! ## The context of an environment -/

/-- The world tells of the cells before the limit, and of no others. -/
structure Covers (world : World) (environment : Environment) (limit : Nat) : Prop where
  known {index : Nat} : index < limit → ∃ argument, world index = some argument
  cells {index : Nat} {argument : Argument} : world index = some argument →
    index < limit ∧ ∃ cell, environment.cells[index]? = some cell ∧
      world.Agrees environment.table cell argument

namespace Covers

variable {world : World} {environment : Environment} {limit : Nat} {cell : Cell}

theorem exists_denotesAll (covers : Covers world environment limit) {scopes : List Bindings}
    (before : ∀ scope ∈ scopes, ∀ entry ∈ scope, ∃ index < limit, entry.2 = .deferred index) :
    ∃ scopes', world.DenotesAll scopes scopes' := by
  apply World.exists_denotesAll
  intro scope inScopes entry inScope
  obtain ⟨index, older, same⟩ := before scope inScopes entry inScope
  obtain ⟨argument, known⟩ := covers.known older
  exact ⟨argument, index, same, known⟩

/-- The next cell keeps scopes of older ones, so it stands for an argument as well. -/
theorem exists_agrees (covers : Covers world environment limit) (orderly : environment.Orderly)
    (found : environment.cells[limit]? = some cell) :
    ∃ argument, world.Agrees environment.table cell argument := by
  cases valued : cell.value? with
  | some value => exact ⟨.value value, .forced valued (.const rfl)⟩
  | none =>
      have before : ∀ scope ∈ cell.scopes, ∀ entry ∈ scope,
          ∃ index < limit, entry.2 = .deferred index := by
        intro scope inScopes entry inScope
        obtain ⟨index, older, same⟩ := orderly.scopes found scope inScopes entry inScope
        exact ⟨index, Nat.lt_of_lt_of_le older (orderly.group found), same⟩
      obtain ⟨scopes, denotes⟩ := covers.exists_denotesAll before
      exact ⟨_, .unforced valued denotes⟩

theorem add (covers : Covers world environment limit) {argument : Argument}
    (found : environment.cells[limit]? = some cell)
    (agrees : world.Agrees environment.table cell argument) :
    Covers (world.add limit [argument]) environment (limit + 1) := by
  have grows : world.Extends (world.add limit [argument]) :=
    World.extends_add _ fun known => (covers.cells known).1
  constructor
  · intro index before
    rcases Nat.lt_succ_iff_lt_or_eq.mp before with older | last
    · obtain ⟨argument, known⟩ := covers.known older
      exact ⟨argument, grows known⟩
    · exact ⟨argument, World.add_singleton_eq_some.mpr (.inr ⟨last, rfl⟩)⟩
  · intro index argument' known
    rcases World.add_singleton_eq_some.mp known with ⟨-, known⟩ | ⟨rfl, rfl⟩
    · obtain ⟨older, cell, found, agrees'⟩ := covers.cells known
      exact ⟨Nat.lt_succ_of_lt older, cell, found, agrees'.extend grows⟩
    · exact ⟨Nat.lt_succ_self _, cell, found, agrees.extend grows⟩

end Covers

section

variable {environment : Environment}

theorem exists_world (orderly : environment.Orderly) {limit : Nat}
    (le : limit ≤ environment.cells.size) : ∃ world, Covers world environment limit := by
  induction limit with
  | zero => exact ⟨fun _ => none, nofun, nofun⟩
  | succ limit ih =>
      obtain ⟨world, covers⟩ := ih (Nat.le_of_succ_le le)
      have found := Array.getElem?_eq_getElem le
      obtain ⟨argument, agrees⟩ := covers.exists_agrees orderly found
      exact ⟨_, covers.add found agrees⟩

theorem exists_represents (inOrder : environment.InOrder) :
    ∃ world context, Represents world environment context := by
  obtain ⟨world, covers⟩ := exists_world inOrder.orderly (Nat.le_refl _)
  have before : ∀ scope ∈ environment.scopes, ∀ entry ∈ scope,
      ∃ index < environment.cells.size, entry.2 = .deferred index := by
    intro scope inScopes entry inScope
    obtain ⟨index, same, available⟩ := inOrder.ready.scopes scope inScopes entry inScope
    exact ⟨index, available.lt_size, same⟩
  obtain ⟨scopes, denotes⟩ := covers.exists_denotesAll before
  exact ⟨world, ⟨environment.table, scopes⟩, inOrder, rfl, denotes,
    fun known => (covers.cells known).2⟩

end

/-! ## Ending in the context -/

section

variable {world : World} {environment after : Environment} {context : Context} {bound : Nat}
  {expr value : Expr} (represents : Represents world environment context)

include represents

theorem converges_of_frozenWithin (ended : frozenWithin bound expr environment = .ok value after) :
    Converges (fun bound => evaluateWithin bound context expr) () (.ok value ()) := by
  have ends := frozenWithin_follows bound context expr represents
  rw [ended] at ends
  exact ends.2.1

/-- No greater depth is needed than in the context, since no argument is evaluated again. -/
theorem frozenWithin_of_evaluateWithin
    (ended : evaluateWithin bound context expr () = .ok value ()) :
    ∃ after, frozenWithin bound expr environment = .ok value after ∧
      after.table = environment.table := by
  have ends := frozenWithin_follows bound context expr represents
  cases result : frozenWithin bound expr environment with
  | ok value' after =>
      rw [result] at ends
      obtain ⟨-, converges, _, -, represents'⟩ := ends
      rcases converges.otherwise bound with isDeep | same
      · cases isDeep.symm.trans ended
      · cases same.symm.trans ended
        exact ⟨after, rfl, represents'.table.trans represents.table.symm⟩
  | error failure after =>
      rw [result] at ends
      by_cases isDeep : failure = .tooDeep
      · cases (ends.1 isDeep).symm.trans ended
      · rcases (ends.2 isDeep).otherwise bound with tooDeep | failed
        · cases tooDeep.symm.trans ended
        · cases failed.symm.trans ended

end

end LazyLisp.Context
