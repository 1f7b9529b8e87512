import LazyLisp.Evaluation.ByNeed
import LazyLisp.Reader.Source

/-!
# Sessions

A session reads and evaluates one source after another in one environment, so later sources see
what earlier ones define. What a source did before a failure stays done.
-/

set_option autoImplicit false

namespace LazyLisp

/-- A running session. A strict session refuses input after the first expression of a source where
only one is evaluated. -/
structure Session where
  environment : Environment := .empty
  strict : Bool := false

namespace Session

def record (session : Session) (event : Event) : Session :=
  { session with environment := session.environment.record event }

/-- Reads the first expression of a source. The rest of the source is refused in a strict session
and ignored in another. -/
def parse (session : Session) (source : Text) : Except Failure Expr × Session :=
  match Reader.readFirst source with
  | .error error => (.error (.unreadable error), session)
  | .ok (expr, rest) =>
    if session.strict then ((Reader.readOnly source).mapError .unreadable, session)
    else
      match Reader.skipGap rest with
      | [] => (.ok expr, session)
      | rest => (.ok expr, session.record (.trailingIgnored rest))

def evaluate (session : Session) (expr : Expr) : Except Failure Expr × Session :=
  let (expr, environment) := session.environment.adopt expr
  let (outcome, environment) := environment.evaluate expr
  (outcome, { session with environment })

def evaluatePrelude (session : Session) (expr : Expr) : Except Failure Expr × Session :=
  let (expr, environment) := session.environment.adoptPrelude expr
  let (outcome, environment) := environment.evaluate expr
  (outcome, { session with environment })

def evaluateFirst (session : Session) (source : Text) : Except Failure Expr × Session :=
  match session.parse source with
  | (.error failure, session) => (.error failure, session)
  | (.ok expr, session) => session.evaluate expr

/-- Performs a step for one expression after another up to the first failure: the results before
it, the failure if there is one, and the session after it. -/
def performAll {α : Type} (step : Session → Expr → Except Failure α × Session) :
    List Expr → Session → List α × Option Failure × Session
  | [], session => ([], none, session)
  | expr :: exprs, session =>
    match step session expr with
    | (.error failure, session) => ([], some failure, session)
    | (.ok result, session) =>
      let (results, failure, session) := performAll step exprs session
      (result :: results, failure, session)

/-- Performs a step for each expression of a source that is read before the source fails to be
read, up to the first failure. A fault of the source is the failure only if no step failed. -/
def performSource {α : Type} (step : Session → Expr → Except Failure α × Session)
    (session : Session) (source : Text) : List α × Option Failure × Session :=
  let (exprs, error) := Reader.readAll source
  let (results, failure, session) := performAll step exprs session
  (results, failure <|> error.map .unreadable, session)

/-- Evaluates every expression of a source in order: the values before the first failure, and that
failure. -/
def run (session : Session) (source : Text) : List Expr × Option Failure × Session :=
  session.performSource (fun session expr => (session.record (.evaluating expr)).evaluate expr)
    source

/-- Evaluates every expression of a prelude in order. -/
def loadPrelude (session : Session) (source : Text) : Option Failure × Session :=
  match session.performSource evaluatePrelude source with
  | (_, some failure, session) => (some failure, session)
  | (_, none, session) =>
    (none, session.record (.preludeLoaded session.environment.table.length))

/-- A fresh session that has loaded the prelude, if there is one. -/
def start (strict : Bool) (prelude : Option Text) : Except Failure Session :=
  let session : Session := { strict }
  match prelude with
  | none => .ok session
  | some source =>
    match session.loadPrelude source with
    | (some failure, _) => .error failure
    | (none, session) => .ok session

end Session

end LazyLisp
