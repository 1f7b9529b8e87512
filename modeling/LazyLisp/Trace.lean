import LazyLisp.Expr.Display
import LazyLisp.Text.Quoted

/-!
# Traces

What happens while a session runs, in order. Some events are lines of the log; the others only tell
when deferred arguments are looked up and evaluated.
-/

set_option autoImplicit false

namespace LazyLisp

/-- The level of a log line, and the least level that a log shows. -/
inductive Level where
  | all
  | debug
  | info
  | warning
  | error
  | critical
  deriving DecidableEq, Repr

def Level.rank : Level → Nat
  | .all => 0
  | .debug => 10
  | .info => 20
  | .warning => 30
  | .error => 40
  | .critical => 50

inductive Event where
  /-- A lambda is called with so many arguments. -/
  | called (formals : List String) (body : Expr) (arguments : Nat)
  /-- A bound name of the session table is bound again. -/
  | rebound (name : String)
  /-- A formal bound to the deferred argument is looked up. -/
  | lookedUp (cell : Nat)
  /-- The evaluation of the deferred argument begins. -/
  | forcing (cell : Nat)
  /-- The evaluation of the deferred argument has given its value. -/
  | forced (cell : Nat)
  /-- A form of a source is evaluated. -/
  | evaluating (form : Expr)
  /-- A prelude has been loaded, and so many names are bound. -/
  | preludeLoaded (bindings : Nat)
  /-- There is no prelude at the path. -/
  | preludeMissing (path : Text)
  /-- The text after the first form of a source is ignored. -/
  | trailingIgnored (rest : Text)
  /-- A source file is run. -/
  | running (file : Text)

namespace Event

/-- The level, the logger and the text of the log line for an event, if it has one. -/
def line? : Event → Option (Level × String × Text)
  | .called formals body arguments =>
    some (.debug, "ceceio.evaluation.apply",
      "Calling ".toList ++ (Expr.lambda formals body).render ++ " with ".toList ++
        Nat.toDigits 10 arguments ++ " argument(s)".toList)
  | .rebound name =>
    some (.debug, "ceceio.types.environment", "Rebinding ".toList ++ name.toList)
  | .evaluating form =>
    some (.debug, "ceceio.interpreter", "Evaluating ".toList ++ form.render)
  | .preludeLoaded bindings =>
    some (.debug, "ceceio.interpreter",
      "Prelude loaded, ".toList ++ Nat.toDigits 10 bindings ++ " binding(s)".toList)
  | .preludeMissing path =>
    some (.warning, "ceceio.interpreter",
      "Cannot find prelude '".toList ++ path ++ "' (set CECEIO_PRELUDE_PATH)".toList)
  | .trailingIgnored rest =>
    some (.debug, "ceceio.interpreter", "Ignoring trailing input ".toList ++ Text.quoted rest)
  | .running file => some (.debug, "ceceio.cli", "Running ".toList ++ file)
  | .lookedUp _ | .forcing _ | .forced _ => none

end Event

def Level.label : Level → String
  | .all => "NOTSET"
  | .debug => "DEBUG"
  | .info => "INFO"
  | .warning => "WARNING"
  | .error => "ERROR"
  | .critical => "CRITICAL"

/-- The log of some events: the lines of the least level or above. -/
def renderLog (least : Level) (events : List Event) : Text :=
  events.flatMap fun event =>
    match event.line? with
    | some (level, logger, text) =>
      if least.rank ≤ level.rank then
        level.label.toList ++ ' ' :: logger.toList ++ ':' :: ' ' :: text ++ ['\n']
      else []
    | none => []

end LazyLisp
