import LazyLisp.Evaluation.ByNeed
import LazyLisp.Proofs.Expr.Equality

/-!
# Equality of many values

The operator compares each value with the first one only. As equality is symmetric and transitive,
this tells whether all of the values are equal to one another, and their order makes no difference.
-/

set_option autoImplicit false

namespace LazyLisp.Evaluation

/-- The values are equal to one another, each to every other one. -/
def AllPairsEqual (values : List Expr) : Prop :=
  values.Pairwise fun left right => left.equals right = true

theorem allEqual_iff {values : List Expr} : allEqual values = true ↔ AllPairsEqual values := by
  cases values with
  | nil => simp [allEqual, AllPairsEqual]
  | cons first others =>
      rw [allEqual, List.all_eq_true, AllPairsEqual, List.pairwise_cons]
      constructor
      · intro toFirst
        constructor
        · intro other member
          exact Expr.equals_symm (toFirst other member)
        · refine List.pairwise_of_forall_mem_list ?_
          intro left inLeft right inRight
          exact Expr.equals_trans (toFirst left inLeft) (Expr.equals_symm (toFirst right inRight))
      · intro pairs other member
        exact Expr.equals_symm (pairs.1 other member)

theorem allEqual_of_perm {values values' : List Expr} (perm : values'.Perm values) :
    allEqual values' = allEqual values := by
  have sameRelation : AllPairsEqual values' ↔ AllPairsEqual values :=
    perm.pairwise_iff fun equal => Expr.equals_symm equal
  rw [Bool.eq_iff_iff, allEqual_iff, allEqual_iff, sameRelation]

section

variable {σ : Type} {evaluate : Expr → Action σ Expr} {arguments values : List Expr}
  {state after : σ}

theorem length_of_evaluateAll
    (evaluated : evaluateAll evaluate arguments state = .ok values after) :
    values.length = arguments.length := by
  induction arguments generalizing state values after with
  | nil =>
      cases evaluated
      rfl
  | cons argument arguments ih =>
      obtain ⟨value, middle, -, evaluated⟩ := Action.exists_of_bind_eq_ok evaluated
      obtain ⟨others, last, evaluatedOthers, evaluated⟩ := Action.exists_of_bind_eq_ok evaluated
      cases evaluated
      rw [List.length_cons, List.length_cons, ih evaluatedOthers]

theorem equality_of_evaluateAll (several : 2 ≤ arguments.length)
    (evaluated : evaluateAll evaluate arguments state = .ok values after) :
    equality evaluate arguments state = .ok (.boolean (allEqual values)) after := by
  have enough : ¬ (arguments.length : Int) < 2 := by omega
  rw [equality, requireMinimumArity, if_neg enough]
  exact Action.bind_of_ok evaluated _

end

/-- Equality is symmetric and transitive, and a value is equal to itself unless it is `nan`; a part
is equal to itself if it is one node on both sides, and then it does not matter whether its parts
are compared. So for two arguments or more, whatever evaluates them, the operator tells whether
their values are all equal to one another, and for the same values in another order it tells the
same. -/
theorem equality_isEquivalence :
    (∀ left right : Expr, left.equals right = right.equals left) ∧
      (∀ {left middle right : Expr}, left.equals middle = true → middle.equals right = true →
        left.equals right = true) ∧
      (∀ value : Expr, value.equals value = true ↔ ∀ origin, value ≠ .number (.nan origin)) ∧
      (∀ {oneNode : Expr → Expr → Bool}, Expr.TellsNodes oneNode → ∀ left right : Expr,
        Expr.equalsAsNode oneNode left right = left.equalsPart right) ∧
      ∀ {σ : Type} {evaluate : Expr → Action σ Expr} {arguments values : List Expr}
        {state after : σ}, 2 ≤ arguments.length →
        evaluateAll evaluate arguments state = .ok values after →
        ∃ result, equality evaluate arguments state = .ok (.boolean result) after ∧
          (result = true ↔ AllPairsEqual values) ∧
          ∀ {arguments' values' : List Expr} {state' after' : σ}, values'.Perm values →
            evaluateAll evaluate arguments' state' = .ok values' after' →
            equality evaluate arguments' state' = .ok (.boolean result) after' := by
  refine ⟨?_, Expr.equals_trans, fun _ => Expr.equals_self_iff,
    fun tells => Expr.equalsAsNode_eq tells, ?_⟩
  · intro left right
    rw [Bool.eq_iff_iff]
    exact ⟨Expr.equals_symm, Expr.equals_symm⟩
  · intro σ evaluate arguments values state after several evaluated
    refine ⟨allEqual values, equality_of_evaluateAll several evaluated, allEqual_iff, ?_⟩
    intro arguments' values' state' after' perm evaluated'
    have sameLength : arguments'.length = arguments.length := by
      rw [← length_of_evaluateAll evaluated, ← length_of_evaluateAll evaluated', perm.length_eq]
    rw [equality_of_evaluateAll (sameLength ▸ several) evaluated', allEqual_of_perm perm]

/-- A list with a `nan` in it is equal to itself, but not to a number between the two. -/
theorem equality_isEquivalence_nan :
    let list := Expr.list [.number (.nan (.program 0))]
    let zero (negative : Bool) := Expr.number (Number.zero negative)
    let environment : Environment := { table := [("a", .expr list), ("b", .expr (zero true))] }
    let inOrder := [.identifier "a", .identifier "b", .identifier "a"]
    let reordered := [.identifier "a", .identifier "a", .identifier "b"]
    (zero false).equals (zero false) = true ∧ list.equals list = true ∧
      Expr.equalsAsNode Expr.oneNan list list = list.equalsPart list ∧
      equality (evaluateWithin 1) inOrder environment = .ok (.boolean false) environment ∧
      equality (evaluateWithin 1) reordered environment = .ok (.boolean false) environment := by
  intro list zero environment inOrder reordered
  obtain ⟨symmetric, transitive, reflexive, nodes, operator⟩ := equality_isEquivalence
  have zeros : (zero false).equals (zero true) = true := by decide +kernel
  have evaluated : evaluateAll (evaluateWithin 1) inOrder environment =
      .ok [list, zero true, list] environment := rfl
  obtain ⟨result, ofInOrder, iff, ofPermuted⟩ := operator (by decide) evaluated
  have notEqual : result = false := by
    refine Bool.eq_false_iff.mpr ?_
    intro isTrue
    have pairs := List.pairwise_cons.mp (iff.mp isTrue)
    exact absurd (pairs.1 (zero true) List.mem_cons_self) (by decide +kernel)
  subst notEqual
  have perm : [list, list, zero true].Perm [list, zero true, list] :=
    (List.Perm.swap (zero true) list []).cons list
  have zeros' : (zero true).equals (zero false) = true := (symmetric _ _).trans zeros
  exact ⟨transitive zeros zeros', (reflexive list).mpr nofun,
    nodes Expr.tellsNodes_oneNan list list, ofInOrder, ofPermuted perm rfl⟩

end LazyLisp.Evaluation
