import LazyLisp.Proofs.Evaluation.OperatorNames
import LazyLisp.Proofs.Session

/-!
# Operators cannot be rebound

The grammar accepts the names of operators in definitions and as formals. No source ever reads what
they are bound to: in every session, whatever has been bound to them, every source and every
expression has the same outcome.
-/

set_option autoImplicit false

namespace LazyLisp

open Reader Evaluation

theorem Expr.not_isOperatorName {name : String}
    (wellFormed : (Expr.identifier name).unmarked.WellFormed) : ¬ IsOperatorName name :=
  IsIdentifier.not_isOperatorName wellFormed

namespace Environment

/-- The environment holds only expressions that are read from texts or are values of such. -/
abbrev OnlyRead (environment : Environment) : Prop :=
  environment.Only fun expr => expr.unmarked.WellFormed

variable {pairing : Pairing} {environment other : Environment}

theorem Alike.adopt (alike : environment.Alike pairing other) (expr : Expr) :
    (other.adopt expr).1 = (environment.adopt expr).1 ∧
      (environment.adopt expr).2.Alike pairing (other.adopt expr).2 := by
  unfold Environment.adopt
  rw [alike.programNans]
  exact ⟨rfl, alike.table, alike.scopes, alike.group, alike.waiting, alike.cells, alike.sameCell,
    alike.groupsInRange, alike.sameGroup, alike.preludeNans, rfl⟩

end Environment

namespace Evaluation

/-- The evaluations of a well-formed expression agree. -/
theorem evaluateWithin_agree {pairing : Pairing} (bound : Nat) {expr : Expr}
    (wellFormed : expr.unmarked.WellFormed) :
    Concurs pairing Environment.OnlyRead (fun value => value.unmarked.WellFormed)
      (evaluateWithin bound expr) (evaluateWithin bound expr) := by
  exact evaluateWithin_agrees Environment.invariant_only Expr.hereditary_wellFormed
    (fun _ => Expr.not_isOperatorName) bound wellFormed

/-- Evaluations that agree are the same for whoever asks for the value and the environment. -/
theorem Agree.evaluate {pairing : Pairing} {holds : Environment → Prop} {good : Expr → Prop}
    {environment other : Environment} {expr : Expr}
    (agree : Agree pairing holds good (evaluateWithin Environment.depthBound expr environment)
      (evaluateWithin Environment.depthBound expr other)) :
    (other.evaluate expr).1 = (environment.evaluate expr).1 ∧
      ∃ pairing', pairing.Extends pairing' ∧
        (environment.evaluate expr).2.Alike pairing' (other.evaluate expr).2 ∧
        holds (environment.evaluate expr).2 := by
  unfold Environment.evaluate
  generalize evaluateWithin Environment.depthBound expr environment = result at agree ⊢
  generalize evaluateWithin Environment.depthBound expr other = result' at agree ⊢
  cases agree with
  | ok grows alike kept _ => exact ⟨rfl, _, grows, alike, kept⟩
  | error grows alike kept => exact ⟨rfl, _, grows, alike, kept⟩

end Evaluation

/-! ## Sessions -/

namespace Session

variable {pairing : Pairing} {session other : Session}

/-- The environments are alike, with these cells and groups paired or with more, and they hold only
what is read. -/
structure Alike (pairing : Pairing) (session other : Session) : Prop where
  environments : ∃ pairing', pairing.Extends pairing' ∧
    session.environment.Alike pairing' other.environment
  onlyRead : session.environment.OnlyRead

theorem Alike.record (alike : session.Alike pairing other) (event : Event) :
    (session.record event).Alike pairing (other.record event) := by
  obtain ⟨⟨pairing', grows, environments⟩, onlyRead⟩ := alike
  exact ⟨⟨pairing', grows, environments.record event event⟩, onlyRead.record event⟩

/-- The outcome of an action on a session is the same, and the sessions are alike afterwards. -/
def Agree (pairing : Pairing) {α : Type} (outcome outcome' : α × Session) : Prop :=
  outcome'.1 = outcome.1 ∧ outcome.2.Alike pairing outcome'.2

theorem evaluate_agree (alike : session.Alike pairing other) {expr : Expr}
    (wellFormed : expr.unmarked.WellFormed) :
    Agree pairing (session.evaluate expr) (other.evaluate expr) := by
  obtain ⟨⟨pairing', grows, environments⟩, onlyRead⟩ := alike
  obtain ⟨marked, alikeStart⟩ := environments.adopt expr
  have adopts : session.environment.Adopts expr (session.environment.adopt expr) := .program
  have agree := evaluateWithin_agree Environment.depthBound
    (by rwa [adopts.unmarked_eq]) (.refl _) alikeStart (adopts.only onlyRead)
  obtain ⟨same, pairing'', grows', alike', onlyRead'⟩ := agree.evaluate
  simp only [evaluate, marked]
  exact ⟨same, ⟨pairing'', grows.trans grows', alike'⟩, onlyRead'⟩

theorem performAll_agree {α : Type} {step : Session → Expr → Except Failure α × Session}
    (agrees : ∀ {session other : Session} {expr : Expr}, session.Alike pairing other →
      expr.unmarked.WellFormed → Agree pairing (step session expr) (step other expr))
    {exprs : List Expr} (wellFormed : ∀ expr ∈ exprs, expr.unmarked.WellFormed)
    (alike : session.Alike pairing other) :
    (performAll step exprs other).1 = (performAll step exprs session).1 ∧
      Agree pairing (performAll step exprs session).2 (performAll step exprs other).2 := by
  induction exprs generalizing session other with
  | nil => exact ⟨rfl, rfl, alike⟩
  | cons expr exprs ih =>
      rw [List.forall_mem_cons] at wellFormed
      obtain ⟨same, alikeMiddle⟩ := agrees alike wellFormed.1
      simp only [performAll]
      generalize step session expr = stepped at same alikeMiddle
      generalize step other expr = stepped' at same alikeMiddle
      obtain ⟨result, middle⟩ := stepped
      obtain ⟨result', middle'⟩ := stepped'
      dsimp only at same alikeMiddle
      cases same
      cases result with
      | error failure => exact ⟨rfl, rfl, alikeMiddle⟩
      | ok result =>
          obtain ⟨results, failure, alikeAfter⟩ := ih wellFormed.2 alikeMiddle
          exact ⟨congrArg (result :: ·) results, failure, alikeAfter⟩

/-- Two sessions that differ in what operator names are bound to, in the session table or in any
scope, run every source with the same values and the same failure, and they evaluate every
well-formed expression alike to any depth. They differ in nothing else afterwards, and neither
session is told apart from the other by one more definition of such a name or one more formal. -/
theorem run_of_alike (alike : session.environment.Alike pairing other.environment)
    (onlyRead : session.environment.OnlyRead) :
    (∀ source, ∃ values failure after after' pairing',
      session.run source = (values, failure, after) ∧
        other.run source = (values, failure, after') ∧
        after.environment.Alike pairing' after'.environment) ∧
      (∀ bound {expr : Expr}, expr.unmarked.WellFormed →
        Evaluation.Agree pairing Environment.OnlyRead (fun value => value.unmarked.WellFormed)
          (evaluateWithin bound expr session.environment)
          (evaluateWithin bound expr other.environment)) ∧
      ∀ {name : String}, IsOperatorName name →
        (∀ bound {expr : Expr}, expr.unmarked.WellFormed →
          Evaluation.Agree pairing Environment.OnlyRead (fun value => value.unmarked.WellFormed)
            (evaluateWithin (bound + 1) (.binding name expr) session.environment)
            (evaluateWithin bound expr other.environment)) ∧
        ∀ {scope scope' : Bindings}, scope.Alike pairing scope' → ∀ slot,
          (session.environment.push (scope.insert name slot)).Alike pairing
            (other.environment.push scope') := by
  refine ⟨fun source => ?_, fun bound _ wellFormed =>
    evaluateWithin_agree bound wellFormed (.refl _) alike onlyRead, fun isOperator =>
    ⟨fun bound _ wellFormed => binding_agrees Environment.invariant_only isOperator
      (evaluateWithin_agree bound wellFormed) (.refl _) alike onlyRead, fun same slot =>
      alike.push (same.insert_left isOperator slot)⟩⟩
  have wellFormed : ∀ expr ∈ (readAll source).1, expr.unmarked.WellFormed := by
    intro expr member
    have wellFormed := (isRead_of_readAll expr member).wellFormed
    rwa [wellFormed.unmarked_eq]
  have evaluates {session other : Session} (expr : Expr) (alike : session.Alike pairing other)
      (wellFormed : expr.unmarked.WellFormed) :
      Agree pairing ((session.record (.evaluating expr)).evaluate expr)
        ((other.record (.evaluating expr)).evaluate expr) :=
    evaluate_agree (alike.record (.evaluating expr)) wellFormed
  obtain ⟨values, failure, ⟨pairing', -, alikeAfter⟩, -⟩ :=
    performAll_agree (fun {_ _ expr} => evaluates expr) wellFormed
      ⟨⟨pairing, .refl _, alike⟩, onlyRead⟩
  simp only [run, performSource]
  exact ⟨_, _, _, _, pairing', rfl, by rw [values, failure], alikeAfter⟩

/-- A formal with the name of an operator, in front of one that is looked up. -/
theorem run_of_alike_formal :
    let argument (index : Nat) : Cell := ⟨.boolean true, index, [], none⟩
    let session : Session := { environment :=
      { scopes := [[("not", .deferred 0), ("x", .deferred 1)]],
        cells := #[argument 0, argument 1] } }
    let other : Session := { environment :=
      { scopes := [[("x", .deferred 0)]], cells := #[argument 0] } }
    ∃ values, (session.run "(not x)".toList).1 = values ∧ (other.run "(not x)".toList).1 = values ∧
      values.map Expr.kind = [.boolean] := by
  intro argument session other
  let paired : Pairing := ⟨fun index index' => index = 1 ∧ index' = 0,
    fun group group' => group = 1 ∧ group' = 0⟩
  have alike : session.environment.Alike paired other.environment := by
    refine ⟨.nil, .cons ?_ .nil, .none, .nil, ?_, ?_, ?_, ?_, rfl, rfl⟩
    · exact .cons ⟨rfl, .deferred ⟨rfl, rfl⟩⟩ .nil
    · rintro _ _ ⟨rfl, rfl⟩
      exact ⟨argument 1, argument 0, rfl, rfl, rfl, ⟨rfl, rfl⟩, .nil, rfl⟩
    · rintro _ _ _ _ ⟨rfl, rfl⟩ ⟨rfl, rfl⟩
      exact iff_of_true rfl rfl
    · rintro _ _ ⟨rfl, rfl⟩
      exact ⟨by decide, by decide⟩
    · rintro _ _ _ _ ⟨rfl, rfl⟩ ⟨rfl, rfl⟩
      exact iff_of_true rfl rfl
  have onlyRead : session.environment.OnlyRead := by
    refine ⟨nofun, ?_, nofun, fun {index cell} found => ?_⟩
    · rw [List.forall_mem_singleton]
      exact List.forall_mem_cons.mpr ⟨nofun, List.forall_mem_cons.mpr ⟨nofun, nofun⟩⟩
    · have isArgument : cell ∈ [argument 0, argument 1] :=
        Array.mem_toList_iff.mpr (Array.mem_of_getElem? found)
      simp only [List.mem_cons, List.not_mem_nil, or_false] at isArgument
      rcases isArgument with rfl | rfl <;> exact ⟨trivial, nofun, nofun⟩
  obtain ⟨values, failure, after, after', pairing', ran, ran', -⟩ :=
    (run_of_alike alike onlyRead).1 "(not x)".toList
  refine ⟨values, by rw [ran], by rw [ran'], ?_⟩
  have kinds : (session.run "(not x)".toList).1.map Expr.kind = [.boolean] := by decide +kernel
  rwa [ran] at kinds

end Session

end LazyLisp
