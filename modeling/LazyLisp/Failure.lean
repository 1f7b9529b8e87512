import LazyLisp.Expr.Basic
import LazyLisp.Reader.Fault

/-!
# Failures

Why a session cannot give a value: the source cannot be read, or evaluation stops. Evaluation that
would not end stops at the depth bound, which is a failure apart from the errors of a program.
-/

set_option autoImplicit false

namespace LazyLisp

/-- Why there is no value. -/
inductive Failure where
  | unreadable (error : SyntaxError)
  | unknownSymbol (name : String)
  | typeMismatch (expected received : Kind)
  | exactArity (expected received : Int)
  | minimumArity (least received : Int)
  | noScope
  | tooDeep
  deriving DecidableEq, Repr

def Failure.message : Failure → String
  | .unreadable error => error.message
  | .unknownSymbol name => "Unknown symbol: " ++ name
  | .typeMismatch expected received =>
    "Type error: Expected " ++ expected.label ++ ", received " ++ received.label
  | .exactArity expected received =>
    "Expected " ++ toString expected ++ " arguments, received " ++ toString received
  | .minimumArity least received =>
    "Expected at least " ++ toString least ++ " arguments, received " ++ toString received
  | .noScope => "Tried to pop from an empty collection"
  | .tooDeep => "maximum recursion depth exceeded"

end LazyLisp
