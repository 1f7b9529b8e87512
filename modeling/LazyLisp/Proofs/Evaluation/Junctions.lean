import LazyLisp.Proofs.Evaluation.Depth

/-!
# Negated junctions

The negation of a conjunction does what the disjunction of the negations does, and the negation of
a disjunction what the conjunction of the negations does. Both stop at the same argument: at the
first one that is decisive, that is no boolean or that fails.
-/

set_option autoImplicit false

namespace LazyLisp

/-- The junction that stops at the decisive boolean. -/
def Operator.junction : Bool → Operator
  | false => .and
  | true => .or

def Expr.negations (exprs : List Expr) : List Expr :=
  exprs.map fun expr => .application (.operator .not) [expr]

namespace Evaluation

section

variable {σ : Type} (evaluate : Expr → Action σ Expr)

theorem applyOperator_junction (decisive : Bool) :
    applyOperator evaluate (.junction decisive) = junction evaluate decisive := by
  cases decisive <;> rfl

theorem searchBoolean_map (change : Expr → Expr) (decisive : Bool) (arguments : List Expr) :
    searchBoolean evaluate decisive (arguments.map change) =
      searchBoolean (fun argument => evaluate (change argument)) decisive arguments := by
  induction arguments with
  | nil => rfl
  | cons argument arguments ih =>
      simp only [List.map_cons, searchBoolean, ih]
      rfl

theorem evaluateBoolean_negation (argument : Expr) :
    evaluateBoolean (fun argument => negation evaluate [argument]) argument =
      evaluateBoolean evaluate argument >>= fun value => pure !value := by
  simp only [evaluateBoolean, negation, bind_assoc, pure_bind]
  rfl

theorem searchBoolean_negation (decisive : Bool) (arguments : List Expr) :
    searchBoolean (fun argument => negation evaluate [argument]) (!decisive) arguments =
      searchBoolean evaluate decisive arguments >>= fun found =>
        expectBoolean found >>= fun value => pure (.boolean !value) := by
  induction arguments with
  | nil => rfl
  | cons argument arguments ih =>
      simp only [searchBoolean, evaluateBoolean_negation, bind_assoc, pure_bind]
      congr 1
      funext value
      by_cases isDecisive : value = decisive
      · simp only [isDecisive, if_true]
        rfl
      · have notDecisive : (!value) ≠ !decisive := fun same => isDecisive (Bool.not_inj same)
        simp only [isDecisive, notDecisive, if_false, ih]

/-- The arguments are evaluated two steps below the whole in both forms. -/
theorem negation_junction (rules : NameRules σ) (decisive : Bool) (arguments : List Expr) :
    negation (form rules evaluate) [.application (.operator (.junction decisive)) arguments] =
      junction (form rules evaluate) (!decisive) (Expr.negations arguments) := by
  have inner : form rules evaluate (.application (.operator (.junction decisive)) arguments) =
      junction evaluate decisive arguments :=
    congrFun (applyOperator_junction evaluate decisive) arguments
  have searched := searchBoolean_negation evaluate decisive arguments
  simp only [negation, evaluateBoolean, inner, junction, bind_assoc, Expr.negations,
    List.length_map, searchBoolean_map]
  congr 1
  funext _
  exact searched.symm

end

/-- Negating a junction and joining the negations with the dual operator are the same action, which
covers the value or the failure and the whole environment afterwards. It stays the same if the
evaluation of the arguments and of all below them is watched, whatever is watched there. -/
theorem evaluate_negated_junction (decisive : Bool) (arguments : List Expr) :
    let joined : Expr := .application (.operator (.junction decisive)) arguments
    let negations := Expr.negations arguments
    let negated : Expr := .application (.operator .not) [joined]
    let dual : Expr := .application (.operator (.junction !decisive)) negations
    (∀ environment : Environment, environment.evaluate negated = environment.evaluate dual) ∧
      (∀ bound, evaluateWithin (bound + 2) negated = evaluateWithin (bound + 2) dual) ∧
      ∀ (watched : Expr → Bool) (bound : Nat),
        applyOperator (formWithin watched · bound) .not [joined] =
          applyOperator (formWithin watched · bound) (.junction !decisive) negations := by
  intro joined negations negated dual
  have same : ∀ bound, evaluateWithin (bound + 2) negated = evaluateWithin (bound + 2) dual := by
    intro bound
    have unfolded : evaluateWithin (bound + 2) dual =
        junction (evaluateWithin (bound + 1)) (!decisive) negations :=
      congrFun (applyOperator_junction _ _) negations
    rw [unfolded]
    exact negation_junction (evaluateWithin bound) _ decisive arguments
  refine ⟨fun environment => ?_, same, fun watched bound => ?_⟩
  · have deep : Environment.depthBound = 998 + 2 := rfl
    simp only [Environment.evaluate, deep, same]
  · rw [applyOperator_junction]
    exact negation_junction (watchedWithin watched bound) _ decisive arguments

end Evaluation

end LazyLisp
