import LazyLisp.Proofs.Evaluation.Counting
import LazyLisp.Proofs.Session.Contexts

/-!
# Counting in sessions

Counting the elements of a list literal is evaluating the calls of the lambda one after another and
counting what gives `true`. Where no definition is reached and no call fails, the elements may be
counted in any order.
-/

set_option autoImplicit false

namespace LazyLisp.Evaluation

open Context (Represents)

section

variable {environment after : Environment} {formal : String} {body value : Expr}
  {elements permuted : List Expr}

theorem contextual_counting_perm {context : Context} {bound : Nat}
    (perm : elements.Perm permuted)
    (ended : Context.evaluateWithin (bound + 2) context
      (.counting (.lambda [formal] body) elements) () = .ok value ()) :
    Context.evaluateWithin (bound + 2) context (.counting (.lambda [formal] body) permuted) () =
      .ok value () := by
  have counted (elements : List Expr) : Context.evaluateWithin (bound + 2) context
      (.counting (.lambda [formal] body) elements) () =
        (countTrue (Context.evaluateWithin (bound + 1) context) [formal] body elements >>=
          fun total => pure (Expr.number (.ofNat total))) () := count_of_literals rfl rfl
  rw [counted] at ended ⊢
  obtain ⟨total, _, counts, last⟩ := Action.exists_of_bind_eq_ok ended
  exact (Action.bind_of_ok (countTrue_perm perm counts) _).trans last

theorem frozen_counting_perm (inOrder : environment.InOrder)
    (counted : EndsWith (frozenWithin · (.counting (.lambda [formal] body) elements)) environment
      (.ok value after))
    (perm : elements.Perm permuted) :
    ∃ bound after', frozenWithin bound (.counting (.lambda [formal] body) permuted) environment =
      .ok value after' ∧ after'.table = environment.table := by
  obtain ⟨world, context, represents⟩ := Context.exists_represents inOrder
  obtain ⟨-, bound, ended⟩ := counted
  obtain ⟨least, eventually⟩ :=
    (Context.converges_of_frozenWithin represents ended).eventually
  have permutedEnded := contextual_counting_perm perm (eventually (least + 2) (by omega))
  obtain ⟨after', ended', sameTable⟩ :=
    Context.frozenWithin_of_evaluateWithin represents permutedEnded
  exact ⟨_, after', ended', sameTable⟩

end

/-- Let a lambda of one formal and a list be written out. Counting is evaluating the calls with the
elements one after another, with the same watched expressions, the same first failure and the same
environment in the end; the number is that of the values that are `true`, exactly so as far as
natural numbers are numbers exactly. A list may be counted in two parts, the second one in the
environment that the first one leaves. In an environment within a session, if counting reaches no
definition and does not fail, it gives the same number for the elements in any other order, and
defines nothing. No definition is reached if none is written in the form and in what the
environment holds. -/
theorem count_of_calls {environment : Environment} (visited : environment.Visited)
    (formal : String) (body : Expr) (elements others : List Expr) :
    let predicate := Expr.lambda [formal] body
    (∀ (watched : Expr → Bool) (bound : Nat),
      watchedWithin watched (bound + 2) (.counting predicate elements) environment =
        (evaluateAll (watchedWithin watched (bound + 1)) (Expr.calls predicate elements) >>=
          fun values => pure (.number (.ofNat (values.countP Expr.isTrue))))
          (noting watched (.list elements) (noting watched predicate
            (noting watched (.counting predicate elements) environment)))) ∧
      (∀ bound, evaluateWithin (bound + 2) (.counting predicate elements) environment =
        (evaluateAll (evaluateWithin (bound + 1)) (Expr.calls predicate elements) >>=
          fun values => pure (.number (.ofNat (values.countP Expr.isTrue)))) environment) ∧
      (∀ total ≤ 2 ^ 53, ∃ rank, Number.ofNat total = .finite false rank ∧
        Number.quanta rank = total * Number.quantaOfOne) ∧
      (∀ bound, evaluateWithin (bound + 2) (.counting predicate (elements ++ others)) environment =
        (evaluateAll (evaluateWithin (bound + 1)) (Expr.calls predicate elements) >>=
          fun first => evaluateAll (evaluateWithin (bound + 1)) (Expr.calls predicate others) >>=
          fun second => pure (.number (.ofNat
            (first.countP Expr.isTrue + second.countP Expr.isTrue)))) environment) ∧
      (elements.length + others.length ≤ 2 ^ 53 → ∀ bound,
        evaluateWithin (bound + 3) (.application (.operator .plus)
            [.counting predicate elements, .counting predicate others]) environment =
          evaluateWithin (bound + 2) (.counting predicate (elements ++ others)) environment) ∧
      (∀ {value : Expr} {after : Environment} {permuted : List Expr},
        EndsWith (frozenWithin · (.counting predicate elements)) environment (.ok value after) →
        elements.Perm permuted →
        ∃ after', EndsWith (evaluateWithin · (.counting predicate permuted)) environment
          (.ok value after') ∧ after'.table = environment.table) ∧
      ∀ {result : EStateM.Result Failure Environment Expr}, environment.Only Expr.DefFree →
        (Expr.counting predicate elements).DefFree →
        (EndsWith (frozenWithin · (.counting predicate elements)) environment result ↔
          EndsWith (evaluateWithin · (.counting predicate elements)) environment result) := by
  intro predicate
  have inTurn : ∀ bound, evaluateWithin (bound + 2) (.counting predicate elements) environment =
      (evaluateAll (evaluateWithin (bound + 1)) (Expr.calls predicate elements) >>=
        fun values => pure (.number (.ofNat (values.countP Expr.isTrue)))) environment := by
    intro bound
    rw [evaluateWithin_counting, countTrue_eq, bind_assoc]
    rfl
  refine ⟨fun watched bound => watchedWithin_counting watched bound environment, inTurn,
    fun total small => Number.ofNat_eq_finite small, ?_, ?_, ?_, ?_⟩
  · intro bound
    rw [evaluateWithin_counting, countTrue_append, countTrue_eq, countTrue_eq]
    simp only [bind_assoc, pure_bind]
    rfl
  · intro small bound
    rw [evaluateWithin_counting_append small]
  · intro value after permuted counted perm
    obtain ⟨bound, after', ended, sameTable⟩ := frozen_counting_perm visited.inOrder counted perm
    have real := ((frozenWithin_deepens bound _).of_ok ended).1
    exact ⟨after', ⟨trivial, bound, real⟩, sameTable⟩
  · intro result only defFree
    have same := fun bound => (frozenWithin_alike bound defFree).2 only
    simp only [EndsWith, same]

theorem count_of_calls_negation :
    let body := Expr.application (.operator .not) [.identifier "x"]
    let predicate := Expr.lambda ["x"] body
    let elements := [Expr.boolean false, .boolean true]
    let permuted := [Expr.boolean true, .boolean false]
    let one := Expr.number (.ofNat 1)
    Environment.empty.Visited ∧ elements.Perm permuted ∧
      (∃ after, EndsWith (frozenWithin · (.counting predicate elements)) .empty (.ok one after)) ∧
      ∃ after, EndsWith (evaluateWithin · (.counting predicate permuted)) .empty
        (.ok one after) ∧ after.table = Environment.empty.table := by
  intro body predicate elements permuted one
  have perm : elements.Perm permuted := .swap _ _ _
  have defFree : (Expr.counting predicate elements).DefFree :=
    ⟨trivial, ⟨trivial, trivial, trivial⟩, ⟨trivial, trivial, trivial⟩, trivial⟩
  obtain ⟨after, counts⟩ : ∃ after, countTrue (evaluateWithin 4) ["x"] body elements .empty =
      .ok 1 after := ⟨_, rfl⟩
  have ended : evaluateWithin 5 (.counting predicate elements) .empty = .ok one after :=
    (congrFun (evaluateWithin_counting 3 elements) _).trans (Action.bind_of_ok counts _)
  obtain ⟨-, -, -, -, -, inAnyOrder, reachesNone⟩ := count_of_calls .empty "x" body elements []
  have counted : EndsWith (frozenWithin · (.counting predicate elements)) .empty
      (.ok one after) := (reachesNone Environment.Only.empty defFree).mpr ⟨trivial, 5, ended⟩
  exact ⟨.empty, perm, ⟨after, counted⟩, inAnyOrder counted perm⟩

end LazyLisp.Evaluation
