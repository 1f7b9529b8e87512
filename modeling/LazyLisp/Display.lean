import LazyLisp.Layout
import LazyLisp.Session

/-!
# Printing results

What a program prints for a source: one text for each expression, which is its value or, on request,
its tree; and the line that reports a failure. On a terminal they are colored. Failures need not go
to the terminal that results go to, so their line has a flag of its own.
-/

set_option autoImplicit false

namespace LazyLisp

/-- How results are shown: as trees instead of values, and on a terminal or not. -/
structure Display where
  trees : Bool := false
  terminal : Bool := false

namespace Display

def tree (display : Display) (expr : Expr) : Text :=
  Layout.layOut { color := display.terminal } expr 0 0

/-- The text shown for an expression, which is evaluated unless its tree is shown. -/
def result (display : Display) (session : Session) (expr : Expr) : Except Failure Text × Session :=
  if display.trees then (.ok (display.tree expr), session)
  else
    let (outcome, session) := session.evaluate expr
    (outcome.map Expr.render, session)

/-- The texts shown for the expressions of a source up to the first failure, and that failure. -/
def showSource (display : Display) (session : Session) (source : Text) :
    List Text × Option Failure × Session :=
  session.performSource display.result source

end Display

def renderLines (texts : List Text) : Text := texts.flatMap (· ++ ['\n'])

/-- The line that reports a failure, on a terminal or not. -/
def renderFailure (terminal : Bool) (message : String) : Text :=
  let label := "error:".toList
  let label := if terminal then "\x1b[91m".toList ++ label ++ Layout.resetCode else label
  label ++ ' ' :: message.toList ++ ['\n']

end LazyLisp
