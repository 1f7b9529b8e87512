import LazyLisp.Failure

/-!
# Checks

An evaluation step gives a value or a failure and leaves a state in both cases. The checks here
fail when the number of arguments or the kind of a value is not the expected one.
-/

set_option autoImplicit false

namespace LazyLisp

/-- A step that gives an `α` or a failure and changes a state of type `σ`, also when it fails. -/
abbrev Action (σ α : Type) := EStateM Failure σ α

namespace Action

variable {σ α β : Type} {action : Action σ α} {state after : σ}

theorem bind_of_ok {result : α} (done : action state = .ok result after)
    (next : α → Action σ β) : (action >>= next) state = next result after := by
  simp only [bind, EStateM.bind, done]

theorem bind_of_error {failure : Failure} (failed : action state = .error failure after)
    (next : α → Action σ β) : (action >>= next) state = .error failure after := by
  simp only [bind, EStateM.bind, failed]

/-- Two steps give a result only if both do. -/
theorem exists_of_bind_eq_ok {next : α → Action σ β} {result : β}
    (done : (action >>= next) state = .ok result after) :
    ∃ value middle, action state = .ok value middle ∧ next value middle = .ok result after := by
  cases first : action state with
  | ok value middle =>
      rw [bind_of_ok first] at done
      exact ⟨value, middle, rfl, done⟩
  | error failure middle =>
      rw [bind_of_error first] at done
      cases done

theorem get_bind (next : σ → Action σ β) : ((get : Action σ σ) >>= next) state = next state state :=
  rfl

end Action

namespace Evaluation

variable {σ : Type}

/-- Fails unless there are exactly as many arguments as expected. -/
def requireExactArity (expected received : Int) : Action σ Unit :=
  if expected = received then pure () else throw (.exactArity expected received)

/-- Fails unless there are at least so many arguments. -/
def requireMinimumArity (least received : Int) : Action σ Unit :=
  if received < least then throw (.minimumArity least received) else pure ()

def expectNumber : Expr → Action σ Number
  | .number value => pure value
  | other => throw (.typeMismatch .number other.kind)

def expectBoolean : Expr → Action σ Bool
  | .boolean value => pure value
  | other => throw (.typeMismatch .boolean other.kind)

/-- The formal parameters and the body of the lambda that a value must be. -/
def expectLambda : Expr → Action σ (List String × Expr)
  | .lambda formals body => pure (formals, body)
  | other => throw (.typeMismatch .lambda other.kind)

def expectList : Expr → Action σ (List Expr)
  | .list elements => pure elements
  | other => throw (.typeMismatch .list other.kind)

end Evaluation

end LazyLisp
