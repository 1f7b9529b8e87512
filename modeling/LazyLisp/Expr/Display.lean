import LazyLisp.Expr.Basic
import LazyLisp.Number.Display

/-!
# The text of an expression

Every expression has a text that reads back as the expression: the parts on one line, separated
by single spaces.
-/

set_option autoImplicit false

namespace LazyLisp

def renderNames : List String → Text
  | [] => []
  | [name] => name.toList
  | name :: names => name.toList ++ ' ' :: renderNames names

namespace Expr

mutual

def render : Expr → Text
  | .number value => value.render
  | .boolean value => if value then ['t', 'r', 'u', 'e'] else ['f', 'a', 'l', 's', 'e']
  | .string payload => '"' :: payload.toList ++ ['"']
  | .symbol name => ':' :: name.toList
  | .identifier name => name.toList
  | .operator op => op.token.toList
  | .nil => ['n', 'i', 'l']
  | .application head arguments => '(' :: render head ++ renderAfter arguments ++ [')']
  | .ifThen condition consequent =>
    ['(', 'i', 'f', ' '] ++ render condition ++ ' ' :: render consequent ++ [')']
  | .ifThenElse condition consequent alternative =>
    ['(', 'i', 'f', ' '] ++ render condition ++ ' ' :: render consequent ++
      ' ' :: render alternative ++ [')']
  | .binding name value => ['(', 'd', 'e', 'f', ' '] ++ name.toList ++ ' ' :: render value ++ [')']
  | .lambda formals body =>
    ['(', 'f', 'n', ' ', '['] ++ renderNames formals ++ [']', ' '] ++ render body ++ [')']
  | .cond clauses => ['(', 'c', 'o', 'n', 'd'] ++ renderAfter clauses ++ [')']
  | .list elements => '[' :: renderRow elements ++ [']']

/-- The texts of expressions, each after a space. -/
def renderAfter : List Expr → Text
  | [] => []
  | expr :: exprs => ' ' :: render expr ++ renderAfter exprs

/-- The texts of expressions with single spaces between them. -/
def renderRow : List Expr → Text
  | [] => []
  | expr :: exprs => render expr ++ renderAfter exprs

end

def display (expr : Expr) : String := String.ofList expr.render

end Expr

end LazyLisp
