import LazyLisp.Number.Basic
import LazyLisp.Operator

/-!
# Expressions

One type for the forms that are read and for the values that evaluation gives. A value is an atom
other than an identifier, a lambda, or a list whose elements stay unevaluated.
-/

set_option autoImplicit false

namespace LazyLisp

/-- A form of the language. The payload of a string is the text between its quotes as written. -/
inductive Expr where
  | number (value : Number)
  | boolean (value : Bool)
  | string (payload : String)
  | symbol (name : String)
  | identifier (name : String)
  | operator (op : Operator)
  | nil
  | application (head : Expr) (arguments : List Expr)
  | ifThen (condition consequent : Expr)
  | ifThenElse (condition consequent alternative : Expr)
  | binding (name : String) (value : Expr)
  | lambda (formals : List String) (body : Expr)
  | cond (clauses : List Expr)
  | list (elements : List Expr)

/-- What an expression is, as error messages name it. -/
inductive Kind where
  | number
  | boolean
  | string
  | symbol
  | identifier
  | operator (op : Operator)
  | nil
  | application
  | conditional
  | binding
  | lambda
  | cond
  | list
  deriving DecidableEq, Repr

/-- The word for a kind. An operator is called by its token. -/
def Kind.label : Kind → String
  | .number => "number"
  | .boolean => "boolean"
  | .string => "string"
  | .symbol => "symbol"
  | .identifier => "identifier"
  | .operator op => op.token
  | .nil => "nil"
  | .application => "application"
  | .conditional => "if"
  | .binding => "binding"
  | .lambda => "lambda"
  | .cond => "cond"
  | .list => "list"

namespace Expr

def kind : Expr → Kind
  | .number _ => .number
  | .boolean _ => .boolean
  | .string _ => .string
  | .symbol _ => .symbol
  | .identifier _ => .identifier
  | .operator op => .operator op
  | .nil => .nil
  | .application _ _ => .application
  | .ifThen _ _ => .conditional
  | .ifThenElse _ _ _ => .conditional
  | .binding _ _ => .binding
  | .lambda _ _ => .lambda
  | .cond _ => .cond
  | .list _ => .list

/-- An expression without parts. -/
def isAtom : Expr → Bool
  | .number _ | .boolean _ | .string _ | .symbol _ | .identifier _ | .operator _ | .nil => true
  | _ => false

/-- The boolean `true`, the only value that a condition holds for. -/
def isTrue : Expr → Bool
  | .boolean value => value
  | _ => false

def number? : Expr → Option Number
  | .number value => some value
  | _ => none

def boolean? : Expr → Option Bool
  | .boolean value => some value
  | _ => none

def lambda? : Expr → Option Expr
  | .lambda formals body => some (.lambda formals body)
  | _ => none

def list? : Expr → Option Expr
  | .list elements => some (.list elements)
  | _ => none

end Expr

end LazyLisp
