import LazyLisp.Proofs.Evaluation.Sharing

/-!
# Evaluation by need and by name

Keeping the value of a deferred argument cannot be observed as long as nothing is defined: what
evaluation by need ends in, evaluation by name ends in as well, and the other way round. Evaluation
by name may need a greater depth for it, since it evaluates arguments again.
-/

set_option autoImplicit false

namespace LazyLisp.Sharing

open Evaluation ByName

/-! ## Following an evaluation -/

/-- The environment represents the state, in the world or in one in which more is known. -/
def RepresentsFrom (world : World) (used : List Nat) (environment : Environment)
    (state : State) : Prop :=
  ∃ world', world.Extends world' ∧ Represents world' used environment state

/-- An evaluation by need ends where the environment still represents the state. From there the
family converges to the same result or failure, but where the evaluation was too deep, so is the
member of the family with the same bound. -/
def Ends {α : Type} (world : World) (used : List Nat) (bound : Nat) (good : α → Prop)
    (family : Nat → Action State α) (state : State) :
    EStateM.Result Failure Environment α → Prop
  | .ok result after =>
    RepresentsFrom world used after state ∧ good result ∧ Converges family state (.ok result state)
  | .error failure after =>
    RepresentsFrom world used after state ∧
      (failure = .tooDeep → family bound state = .error .tooDeep state) ∧
      (failure ≠ .tooDeep → Converges family state (.error failure state))

/-- Wherever the environment represents the state, the family follows the action. -/
def Follows {α : Type} (world : World) (used : List Nat) (bound : Nat) (good : α → Prop)
    (action : Action Environment α) (family : Nat → Action State α) : Prop :=
  ∀ ⦃environment : Environment⦄ ⦃state : State⦄, RepresentsFrom world used environment state →
    Ends world used bound good family state (action environment)

theorem Represents.from {world : World} {used : List Nat} {environment : Environment}
    {state : State} (represents : Represents world used environment state) :
    RepresentsFrom world used environment state :=
  ⟨world, fun _ _ known => known, represents⟩

theorem RepresentsFrom.mono {world world' : World} {used : List Nat} {environment : Environment}
    {state : State} (grows : world.Extends world')
    (represents : RepresentsFrom world' used environment state) :
    RepresentsFrom world used environment state := by
  obtain ⟨reached, grows', represents⟩ := represents
  exact ⟨reached, grows.trans grows', represents⟩

namespace Ends

variable {world : World} {used : List Nat} {bound : Nat} {α : Type} {good : α → Prop}
  {family : Nat → Action State α} {state : State}
  {result : EStateM.Result Failure Environment α}

theorem mono {world' : World} (grows : world.Extends world')
    (ends : Ends world' used bound good family state result) :
    Ends world used bound good family state result := by
  cases result with
  | ok _ _ => exact ⟨ends.1.mono grows, ends.2⟩
  | error _ _ => exact ⟨ends.1.mono grows, ends.2⟩

theorem congr {family' : Nat → Action State α}
    (same : ∀ bound, family' bound state = family bound state)
    (ends : Ends world used bound good family state result) :
    Ends world used bound good family' state result := by
  cases result with
  | ok _ _ => exact ⟨ends.1, ends.2.1, ends.2.2.congr same⟩
  | error _ _ =>
      exact ⟨ends.1, fun tooDeep => (same bound).trans (ends.2.1 tooDeep),
        fun other => (ends.2.2 other).congr same⟩

theorem shift (first : family 0 state = .error .tooDeep state)
    (ends : Ends world used bound good (fun bound => family (bound + 1)) state result) :
    Ends world used (bound + 1) good family state result := by
  cases result with
  | ok _ _ => exact ⟨ends.1, ends.2.1, ends.2.2.shift first⟩
  | error _ _ => exact ⟨ends.1, ends.2.1, fun other => (ends.2.2 other).shift first⟩

end Ends

namespace Follows

variable {world : World} {used : List Nat} {bound : Nat} {α β : Type} {good : α → Prop}

theorem pure {result : α} (isGood : good result) :
    Follows world used bound good (Pure.pure result) fun _ => Pure.pure result :=
  fun _ _ represents => ⟨represents, isGood, .const rfl⟩

theorem throw {failure : Failure} (other : failure ≠ .tooDeep) :
    Follows world used bound good (MonadExcept.throw failure)
      fun _ => MonadExcept.throw failure :=
  fun _ _ represents => ⟨represents, fun tooDeep => absurd tooDeep other, fun _ => .const rfl⟩

theorem bind {good' : β → Prop} {first : Action Environment α}
    {next : α → Action Environment β} {first' : Nat → Action State α}
    {next' : Nat → α → Action State β} (follows : Follows world used bound good first first')
    (follows' : ∀ result, good result →
      Follows world used bound good' (next result) fun index => next' index result) :
    Follows world used bound good' (first >>= next) fun index => first' index >>= next' index := by
  intro environment state represents
  have ends := follows represents
  cases same : first environment with
  | error failure middle =>
      rw [same] at ends
      rw [Action.bind_of_error same]
      obtain ⟨represents', tooDeep, other⟩ := ends
      exact ⟨represents', fun isDeep => Action.bind_of_error (tooDeep isDeep) _,
        fun notDeep => (other notDeep).bind_error⟩
  | ok result middle =>
      rw [same] at ends
      rw [Action.bind_of_ok same]
      obtain ⟨represents', isGood, converges⟩ := ends
      have ends' := follows' result isGood represents'
      cases same' : next result middle with
      | ok result' after =>
          rw [same'] at ends'
          exact ⟨ends'.1, ends'.2.1, converges.bind ends'.2.2⟩
      | error failure after =>
          rw [same'] at ends'
          obtain ⟨represents'', tooDeep, other⟩ := ends'
          refine ⟨represents'', fun isDeep => ?_, fun notDeep => converges.bind (other notDeep)⟩
          rcases converges.otherwise bound with firstDeep | firstSame
          · exact Action.bind_of_error firstDeep _
          · exact (Action.bind_of_ok firstSame _).trans (tooDeep isDeep)

end Follows

/-- Following, as a comparison of evaluation by need with evaluation by name to all depths. -/
def following (world : World) (used : List Nat) (bound : Nat) :
    Comparison Expr.DefFree Environment State Nat where
  holds good action family := Follows world used bound good action family
  pure isGood := Follows.pure isGood
  throw check := Follows.throw check.ne_tooDeep
  bind follows follows' := Follows.bind follows follows'

namespace Follows

variable {world : World} {used : List Nat} {bound : Nat} {α : Type} {good : α → Prop}

theorem record (event : Event) {action : Action Environment α} {family : Nat → Action State α}
    (follows : Follows world used bound good action family) :
    Follows world used bound good (Evaluation.record event >>= fun _ => action) family := by
  rintro environment state ⟨reached, grows, represents⟩
  exact follows ⟨reached, grows, represents.record event⟩

theorem inScope {cells : List Nat} {thunks : List Thunk}
    (stands : List.Forall₂ (world.Stands used) cells thunks) (formals : List String)
    {action : Action Environment α} {family : Nat → Action State α}
    (follows : Follows world used bound good action family) :
    Follows world used bound good
      (Evaluation.inScope (Bindings.ofPairs (formals.zip (cells.map .deferred))) action)
      fun index => ByName.inScope (Bindings.ofPairs (formals.zip thunks)) (family index) := by
  rintro environment state ⟨reached, grows, represents⟩
  have denotes : List.Forall₂ (reached.Denotes used environment.cells.size)
      (cells.map .deferred) thunks := by
    refine List.forall₂_map_left_iff.mpr (stands.imp fun cell thunk stand => ?_)
    have ⟨entry, known, _⟩ := stand
    exact ⟨cell, rfl, represents.lt_size (grows known), stand.extend grows⟩
  have pushed := represents.push (Bindings.Related.zip formals denotes).ofPairs
  have ends := follows ⟨reached, grows, pushed⟩
  suffices Ends world used bound good
      (fun index => ByName.inScopes (Bindings.ofPairs (formals.zip thunks) :: state.scopes)
        (family index))
      state
      (Evaluation.inScope (Bindings.ofPairs (formals.zip (cells.map .deferred))) action
        environment) by
    refine Ends.congr (fun _ => ?_) this
    rfl
  unfold Evaluation.inScope
  cases same : action (environment.push _) with
  | ok result after =>
      rw [same] at ends
      obtain ⟨⟨last, grows', represents'⟩, isGood, converges⟩ := ends
      obtain ⟨_, closed, popped, represents''⟩ := represents'.pop
      simp only [popped]
      exact ⟨⟨last, grows', represents''⟩, isGood, converges.inScopes⟩
  | error failure after =>
      rw [same] at ends
      obtain ⟨⟨last, grows', represents'⟩, tooDeep, other⟩ := ends
      obtain ⟨_, closed, popped, represents''⟩ := represents'.pop
      simp only [popped]
      exact ⟨⟨last, grows', represents''⟩, fun isDeep => inScopes_tooDeep (tooDeep isDeep),
        fun notDeep => (other notDeep).inScopes⟩

end Follows

/-! ## Names and calls -/

section

variable {world : World} {used : List Nat} {bound : Nat}
  (follows : ∀ (world : World) (used : List Nat) {expr : Expr}, expr.DefFree →
    Follows world used bound Expr.DefFree (Evaluation.evaluateWithin bound expr)
      fun index => ByName.evaluateWithin index expr)

include follows

/-- A cell has the value of its argument or gets it, in the scopes of the caller. -/
theorem force_ends {environment : Environment} {state : State}
    (represents : Represents world used environment state) {index : Nat} {entry : Entry}
    (known : world index = some entry) (apart : entry.Apart used) {cell : Cell}
    (found : environment.cells[index]? = some cell) :
    Ends world used bound Expr.DefFree
      (fun bound => ByName.inScopes entry.thunk.scopes
        (ByName.evaluateWithin bound entry.thunk.expr))
      state (force (Evaluation.evaluateWithin bound) index cell environment) := by
  obtain ⟨value?, found', values⟩ := represents.cells known
  cases Option.some.inj (found.symm.trans found')
  cases value? with
  | some value =>
      obtain ⟨defFree, isValue⟩ := values value rfl
      exact ⟨represents.from, defFree, isValue.inScopes⟩
  | none =>
      have representsStart := represents.record (.forcing index)
      have callerScopes : environment.scopesOf
          ⟨entry.thunk.expr, entry.group, entry.scopes, none⟩ = entry.scopes := by
        refine Environment.scopesOf_of_unused (List.lookup_eq_none_iff.mpr fun stack member => ?_)
        have unused := represents.group_unused known apart
        rw [← represents.groups, List.mem_map] at unused
        simp only [bne_iff_ne]
        exact fun same => unused ⟨stack, member, same.symm⟩
      have ends := follows world (entry.group :: used) (represents.valid known).defFree
        (representsStart.switch known apart).from
      rw [← callerScopes] at ends
      generalize done : Evaluation.evaluateWithin bound entry.thunk.expr _ = result at ends
      cases result with
      | ok value after =>
          obtain ⟨⟨reached, grows, representsEnd⟩, defFree, isValue⟩ := ends
          have representsAfter := represents.restore grows representsEnd
          rw [force_of_ok _ rfl done]
          exact ⟨⟨reached, grows,
            (representsAfter.fill (grows known) defFree isValue).record (.forced index)⟩, defFree,
            isValue.inScopes⟩
      | error failure after =>
          obtain ⟨⟨reached, grows, representsEnd⟩, tooDeep, other⟩ := ends
          rw [force_of_error _ rfl done]
          exact ⟨⟨reached, grows, represents.restore grows representsEnd⟩,
            fun isDeep => inScopes_tooDeep (tooDeep isDeep),
            fun notDeep => (other notDeep).inScopes⟩

theorem lookUp_follows (name : String) :
    Follows world used bound Expr.DefFree
      (Evaluation.lookUp (Evaluation.evaluateWithin bound) name)
      fun index => ByName.lookUp (ByName.evaluateWithin index) name := by
  rintro environment state ⟨reached, grows, represents⟩
  refine Ends.mono grows ?_
  have inScopes := Bindings.Related.findSome? represents.scopes name
  have inTable := represents.table_related.find? name
  generalize slotFound : environment.scopes.findSome? (·.find? name) = slot? at inScopes
  generalize thunkFound : state.scopes.findSome? (·.find? name) = thunk? at inScopes
  cases inScopes with
  | some denotes =>
      obtain ⟨index, rfl, below, entry, known, rfl, apart⟩ := denotes
      obtain ⟨value?, found, -⟩ := represents.cells known
      refine Ends.congr (fun _ => lookUp_inScopes _ thunkFound) ?_
      have bound : environment.find? name = some (.deferred index) := by
        simp only [Environment.find?, slotFound]
      rw [Evaluation.lookUp_of_deferred _ bound found]
      exact force_ends follows (represents.record (.lookedUp index)) known apart found
  | none =>
      refine Ends.congr (fun _ => lookUp_inTable _ thunkFound) ?_
      have slotInTable : environment.find? name = environment.table.find? name := by
        simp only [Environment.find?, slotFound]
      generalize valueFound : state.table.find? name = value? at inTable
      generalize environment.table.find? name = slot? at inTable slotInTable
      cases inTable with
      | none =>
          have other : Failure.unknownSymbol name ≠ .tooDeep := by simp
          rw [Evaluation.lookUp_of_unbound _ slotInTable]
          exact Follows.throw other represents.from
      | some same =>
          obtain ⟨rfl, defFree⟩ := same
          rw [Evaluation.lookUp_of_expr _ slotInTable]
          exact Follows.pure defFree represents.from

theorem enter_follows {cells : List Nat} {thunks : List Thunk}
    (stands : List.Forall₂ (world.Stands used) cells thunks) (formals : List String) {body : Expr}
    (defFree : body.DefFree) :
    Follows world used bound Expr.DefFree
      (Evaluation.enter (Evaluation.evaluateWithin bound) cells formals body)
      fun index => ByName.enter (ByName.evaluateWithin index) thunks formals body := by
  induction body using Expr.body_induction generalizing formals with
  | lambda formals' body ih =>
      refine Follows.record _ (Follows.inScope stands formals ?_)
      rw [stands.length_eq]
      exact Follows.bind ((following world used bound).requireExactArity _ _)
        fun _ _ => ih formals' defFree
  | other body notLambda =>
      rw [Evaluation.enter_of_not_lambda _ notLambda]
      simp only [ByName.enter_of_not_lambda _ notLambda]
      exact Follows.record _ (Follows.inScope stands formals (follows world used defFree))

theorem call_follows (formals : List String) {body : Expr} (defFree : body.DefFree)
    {arguments : List Expr} (argumentsDefFree : ∀ argument ∈ arguments, argument.DefFree) :
    Follows world used bound Expr.DefFree
      (Evaluation.call (Evaluation.evaluateWithin bound) formals body arguments)
      fun index => ByName.call (ByName.evaluateWithin index) formals body arguments := by
  refine Follows.bind ((following world used bound).requireExactArity _ _) fun _ _ => ?_
  rintro environment state ⟨reached, grows, represents⟩
  obtain ⟨last, grows', representsAfter, stands⟩ := represents.deferAll argumentsDefFree
  have ends := enter_follows follows stands formals defFree representsAfter.from
  refine Ends.congr (fun _ => ?_) (ends.mono (grows.trans grows'))
  rfl

end

/-- Evaluation by name follows evaluation by need, from all states to all depths. -/
theorem evaluateWithin_follows (bound : Nat) (world : World) (used : List Nat) {expr : Expr}
    (defFree : expr.DefFree) :
    Follows world used bound Expr.DefFree (Evaluation.evaluateWithin bound expr)
      fun index => ByName.evaluateWithin index expr := by
  induction bound generalizing world used expr with
  | zero => exact fun _ _ represents => ⟨represents, fun _ => rfl, fun other => absurd rfl other⟩
  | succ bound ih =>
      intro environment state represents
      have rulesFollow : (following world used bound).Rules Expr.DefFree
          (byNeed (Evaluation.evaluateWithin bound))
          fun index => ByName.rules (ByName.evaluateWithin index) := {
        lookUp := fun _ => lookUp_follows ih _
        define := fun isDefinition => isDefinition.elim
        call := fun lambda arguments =>
          call_follows ih _ (Expr.hereditary_defFree.body lambda) arguments }
      exact Ends.shift rfl
        (Comparison.form Expr.hereditary_defFree (fun _ => ih world used) rulesFollow defFree
          represents)

end LazyLisp.Sharing

namespace LazyLisp

/-! ## Sessions -/

/-- No call is going on, and no argument is being evaluated. -/
structure Environment.AtTopLevel (environment : Environment) : Prop where
  scopes : environment.scopes = []
  group : environment.group = none
  waiting : environment.waiting = []

namespace Evaluation

open Sharing

section

variable {environment : Environment} {table : Bindings Expr} {expr : Expr}
  (atTopLevel : environment.AtTopLevel)
  (same : environment.table = table.map fun entry => (entry.1, .expr entry.2))
  (tableDefFree : ∀ entry ∈ table, entry.2.DefFree) (defFree : expr.DefFree)

include atTopLevel same tableDefFree

/-- At the top level nothing need be known of cells. -/
theorem represents_of_atTopLevel : Represents (fun _ => none) [] environment ⟨table, []⟩ where
  table := same
  defFree := tableDefFree
  valid := nofun
  scopes := by
    rw [atTopLevel.scopes]
    exact .nil
  cells := nofun
  groups := by rw [Environment.groupStacks, atTopLevel.group, atTopLevel.waiting, List.map_nil]
  formed := nofun

include defFree

theorem ends_of_atTopLevel (bound : Nat) :
    Ends (fun _ => none) [] bound Expr.DefFree (fun index => ByName.evaluateWithin index expr)
      ⟨table, []⟩ (evaluateWithin bound expr environment) :=
  evaluateWithin_follows bound _ _ defFree
    (represents_of_atTopLevel atTopLevel same tableDefFree).from

/-- If evaluation by need is too deep, so is evaluation by name to the same depth. Otherwise
evaluation by name converges to the same outcome. -/
theorem tooDeep_or_converges (bound : Nat) :
    (outcome (evaluateWithin bound expr environment) = .error .tooDeep ∧
      ByName.evaluateWithin bound expr ⟨table, []⟩ = .error .tooDeep ⟨table, []⟩) ∨
    ∃ result, afterwards result = ⟨table, []⟩ ∧
      outcome result = outcome (evaluateWithin bound expr environment) ∧
      Converges (fun index => ByName.evaluateWithin index expr) ⟨table, []⟩ result := by
  have ends := ends_of_atTopLevel atTopLevel same tableDefFree defFree bound
  cases found : evaluateWithin bound expr environment with
  | ok value after =>
      rw [found] at ends
      exact .inr ⟨_, rfl, rfl, ends.2.2⟩
  | error failure after =>
      rw [found] at ends
      obtain ⟨-, tooDeep, other⟩ := ends
      by_cases isDeep : failure = .tooDeep
      · exact .inl ⟨congrArg Except.error isDeep, tooDeep isDeep⟩
      · exact .inr ⟨_, rfl, rfl, other isDeep⟩

theorem byName_of_byNeed {bound : Nat}
    (notDeep : outcome (evaluateWithin bound expr environment) ≠ .error .tooDeep) :
    ∃ bound', outcome (ByName.evaluateWithin bound' expr ⟨table, []⟩) =
      outcome (evaluateWithin bound expr environment) := by
  rcases tooDeep_or_converges atTopLevel same tableDefFree defFree bound with
    ⟨isDeep, -⟩ | ⟨result, -, sameOutcome, converges⟩
  · exact absurd isDeep notDeep
  · obtain ⟨least, eventually⟩ := converges.eventually
    refine ⟨least, ?_⟩
    rw [← sameOutcome]
    exact congrArg outcome (eventually least (Nat.le_refl _))

/-- Evaluation by need has no need of a greater depth than evaluation by name. -/
theorem byNeed_of_byName {bound : Nat}
    (notDeep : outcome (ByName.evaluateWithin bound expr ⟨table, []⟩) ≠ .error .tooDeep) :
    outcome (evaluateWithin bound expr environment) =
      outcome (ByName.evaluateWithin bound expr ⟨table, []⟩) := by
  rcases tooDeep_or_converges atTopLevel same tableDefFree defFree bound with
    ⟨-, isDeep⟩ | ⟨result, -, sameOutcome, converges⟩
  · exact absurd (congrArg outcome isDeep) notDeep
  · rcases converges.otherwise bound with isDeep | found
    · exact absurd (congrArg outcome isDeep) notDeep
    · exact sameOutcome.symm.trans (congrArg outcome found.symm)

theorem byNeed_keeps_table (bound : Nat) :
    (afterwards (evaluateWithin bound expr environment)).table = environment.table := by
  have ends := ends_of_atTopLevel atTopLevel same tableDefFree defFree bound
  cases found : evaluateWithin bound expr environment with
  | ok value after =>
      rw [found] at ends
      obtain ⟨⟨_, -, represents⟩, -⟩ := ends
      exact represents.table.trans same.symm
  | error failure after =>
      rw [found] at ends
      obtain ⟨⟨_, -, represents⟩, -⟩ := ends
      exact represents.table.trans same.symm

theorem byName_keeps_state (bound : Nat) :
    afterwards (ByName.evaluateWithin bound expr ⟨table, []⟩) = ⟨table, []⟩ := by
  rcases tooDeep_or_converges atTopLevel same tableDefFree defFree bound with
    ⟨-, isDeep⟩ | ⟨result, sameState, -, converges⟩
  · exact congrArg afterwards isDeep
  · rcases converges.otherwise bound with isDeep | found
    · exact congrArg afterwards isDeep
    · exact (congrArg afterwards found).trans sameState

/-- If no definition occurs in the expression and in the session table, evaluation by need and
evaluation by name end with the same value or the same failure, and one ends if and only if the
other does. The value is the same down to the marks of its `nan`s, which tell lists and lambdas
apart that are written alike. Both leave the session table as it is. -/
theorem byNeed_iff_byName :
    (∀ result, result ≠ .error .tooDeep →
      ((∃ bound, outcome (evaluateWithin bound expr environment) = result) ↔
        ∃ bound, outcome (ByName.evaluateWithin bound expr ⟨table, []⟩) = result)) ∧
    ∀ bound, (afterwards (evaluateWithin bound expr environment)).table = environment.table ∧
      afterwards (ByName.evaluateWithin bound expr ⟨table, []⟩) = ⟨table, []⟩ := by
  refine ⟨fun result notDeep => ⟨?_, ?_⟩, fun bound => ⟨?_, ?_⟩⟩
  · rintro ⟨bound, rfl⟩
    exact byName_of_byNeed atTopLevel same tableDefFree defFree notDeep
  · rintro ⟨bound, rfl⟩
    exact ⟨bound, byNeed_of_byName atTopLevel same tableDefFree defFree notDeep⟩
  · exact byNeed_keeps_table atTopLevel same tableDefFree defFree bound
  · exact byName_keeps_state atTopLevel same tableDefFree defFree bound

end

/-- A call that looks its argument up twice. -/
theorem byNeed_iff_byName_conjunction :
    let both := Expr.lambda ["x"] (.application (.operator .and) [.identifier "x", .identifier "x"])
    let call := Expr.application (.identifier "both")
      [.application (.operator .not) [.boolean false]]
    (∃ bound, outcome (ByName.evaluateWithin bound call ⟨[("both", both)], []⟩) =
      .ok (.boolean true)) ∧
    (afterwards (evaluateWithin 5 call { table := [("both", .expr both)] })).table =
      [("both", .expr both)] := by
  intro both call
  have tableDefFree : ∀ entry ∈ [("both", both)], entry.2.DefFree := by
    simp [both, Expr.DefFree, Expr.AllDefFree]
  have defFree : call.DefFree := by simp [call, Expr.DefFree, Expr.AllDefFree]
  have agrees := @byNeed_iff_byName { table := [("both", .expr both)] } _ _ ⟨rfl, rfl, rfl⟩ rfl
    tableDefFree defFree
  exact ⟨(agrees.1 (.ok (.boolean true)) (by simp)).mp ⟨5, rfl⟩, (agrees.2 5).1⟩

end Evaluation

end LazyLisp
