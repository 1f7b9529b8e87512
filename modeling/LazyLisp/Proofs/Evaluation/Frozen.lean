import LazyLisp.Proofs.Evaluation.Depth
import LazyLisp.Proofs.Evaluation.Nested
import LazyLisp.Proofs.Evaluation.Sharing
import LazyLisp.Proofs.Evaluation.Values

/-!
# Evaluation that defines nothing

This evaluation gives up as soon as a definition is reached, and otherwise does what evaluation by
need does. So it ends just where no definition is reached on the way.
-/

set_option autoImplicit false

namespace LazyLisp.Evaluation

/-- Evaluation by need that is too deep wherever a definition is reached. -/
def frozen (evaluate : Expr → Action Environment Expr) : NameRules Environment :=
  { byNeed evaluate with define := fun _ _ => throw .tooDeep }

def frozenWithin : Nat → Expr → Action Environment Expr
  | 0, _ => throw .tooDeep
  | bound + 1, expr => form (frozen (frozenWithin bound)) (frozenWithin bound) expr

theorem frozenWithin_keepsStacks (bound : Nat) (expr : Expr) :
    KeepsStacks (frozenWithin bound expr) := by
  induction bound generalizing expr with
  | zero => exact fun _ _ => ⟨rfl, trivial, trivial⟩
  | succ bound ih =>
      have rulesKeep : keepingStacks.Rules (fun _ => True) (frozen (frozenWithin bound))
          fun _ => frozen (frozenWithin bound) := {
        byNeed_keepsStacks ih with
        define := fun _ _ _ _ => ⟨rfl, trivial, trivial⟩ }
      exact form_keepsStacks ih rulesKeep expr

/-- What ends without a definition ends so in evaluation by need. -/
theorem frozenWithin_deepens (bound : Nat) (expr : Expr) :
    Deepens (fun _ => True) (frozenWithin bound expr) (evaluateWithin bound expr) := by
  induction bound generalizing expr with
  | zero => exact .refl _
  | succ bound ih =>
      have followed := byNeed_deepens ih (frozenWithin_keepsStacks bound)
      have rulesHold : deepening.Rules (fun _ => True) (frozen (frozenWithin bound))
          fun _ => byNeed (evaluateWithin bound) := {
        lookUp := followed.lookUp
        define := fun _ _ _ => ⟨fun notDeep => absurd rfl notDeep, nofun⟩
        call := followed.call }
      exact @Comparison.form _ _ _ _ _ deepening hereditary_true (frozenWithin bound)
        (fun _ => evaluateWithin bound) (fun expr _ => ih expr) _ _ rulesHold expr trivial

/-! ## Without definitions -/

/-- In environments that hold no definitions the actions do the same, and leave such ones. -/
def FreezesAlike {α : Type} (good : α → Prop) (action action' : Action Environment α) : Prop :=
  Preserves (Environment.Only Expr.DefFree) (fun _ => True) good action ∧
    ∀ {environment : Environment}, environment.Only Expr.DefFree →
      action' environment = action environment

theorem FreezesAlike.bind {α β : Type} {good : α → Prop} {good' : β → Prop}
    {first first' : Action Environment α} {next next' : α → Action Environment β}
    (alike : FreezesAlike good first first')
    (alike' : ∀ result, good result → FreezesAlike good' (next result) (next' result)) :
    FreezesAlike good' (first >>= next) (first' >>= next') := by
  refine ⟨alike.1.bind fun result isGood => (alike' result isGood).1, ?_⟩
  intro environment only
  have leaves := alike.1 only
  cases ended : first environment with
  | ok result middle =>
      rw [ended] at leaves
      rw [Action.bind_of_ok ended, Action.bind_of_ok ((alike.2 only).trans ended)]
      exact (alike' result leaves.2.2).2 leaves.2.1
  | error failure middle =>
      rw [Action.bind_of_error ended, Action.bind_of_error ((alike.2 only).trans ended)]

/-- Freezing alike, as a comparison with one other evaluation. -/
def freezing : Comparison Expr.DefFree Environment Environment Unit where
  holds good action action' := FreezesAlike good action (action' ())
  pure isGood := ⟨fun _ only => ⟨rfl, only, isGood⟩, fun _ => rfl⟩
  throw _ := ⟨fun _ only => ⟨rfl, only, trivial⟩, fun _ => rfl⟩
  bind alike alike' := alike.bind alike'

theorem defFree_of_nested {layers : List (List String)} {body : Expr}
    (defFree : (Expr.nested layers body).DefFree) : body.DefFree := by
  induction layers with
  | nil => exact defFree
  | cons _ _ ih => exact ih defFree

/-- Where no definition is written in what is evaluated, nor in what the environment holds, none is
reached. -/
theorem frozenWithin_alike (bound : Nat) {expr : Expr} (defFree : expr.DefFree) :
    FreezesAlike Expr.DefFree (evaluateWithin bound expr) (frozenWithin bound expr) := by
  induction bound generalizing expr with
  | zero => exact ⟨fun _ only => ⟨rfl, only, trivial⟩, fun _ => rfl⟩
  | succ bound ih =>
      have preserves (expr : Expr) (defFree : expr.DefFree) := (ih defFree).1
      have rulesHold : freezing.Rules Expr.DefFree (byNeed (evaluateWithin bound))
          fun _ => frozen (frozenWithin bound) := by
        constructor
        · intro name _
          refine ⟨lookUp_preserves Environment.invariant_only preserves trivial, ?_⟩
          intro environment only
          apply lookUp_congr
          intro index cell _ found _
          have recorded := (only.record (.lookedUp index)).record (.forcing index)
          exact (ih (only.cells found).expr).2 (Environment.invariant_only.switch found recorded)
        · intro name _ _ isDefinition
          exact isDefinition.elim
        · intro formals body arguments lambda argumentsDefFree
          refine ⟨call_preserves Environment.invariant_only preserves (fun _ _ => trivial)
            Expr.hereditary_defFree lambda argumentsDefFree, ?_⟩
          intro environment only
          apply call_congr
          rintro layers innermost rfl
          exact (ih (defFree_of_nested lambda)).2
            (Environment.invariant_only.inside argumentsDefFree only _ innermost)
      exact @Comparison.form _ _ _ _ _ freezing Expr.hereditary_defFree (evaluateWithin bound)
        (fun _ => frozenWithin bound) (fun _ => ih) _ _ rulesHold expr defFree

end LazyLisp.Evaluation
