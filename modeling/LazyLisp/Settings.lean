import LazyLisp.Files
import LazyLisp.Prelude
import LazyLisp.Session
import LazyLisp.Text.Lines

/-!
# Settings

What the environment variables choose: the level of the log, whether sources are read strictly, and
where the prelude is; and the session that a program starts with under these settings.
-/

set_option autoImplicit false

namespace LazyLisp

/-- The environment variables of a program with their values. -/
abbrev Variables := List (String × String)

/-- Why a program breaks off without a report: the prelude variable lists no path, a path of the
prelude cannot be looked at, the prelude fails, the path of the file holds the zero character, or
there is no expression where one is asked for. -/
inductive Breakdown where
  | noPreludePath
  | badPreludePath (path : Text)
  | prelude (failure : Failure)
  | zeroInPath
  | noExpression
  deriving DecidableEq, Repr

def Breakdown.message : Breakdown → String
  | .noPreludePath => "list index out of range"
  | .badPreludePath path => (Entry.nameTooLong.refusal? path).getD ""
  | .prelude failure => failure.message
  | .zeroInPath => "embedded null byte"
  | .noExpression => "expected string or bytes-like object, got 'list'"

namespace Settings

def value? (settings : Variables) (name : String) : Option Text :=
  (settings.find? fun entry => entry.1 = name).map fun entry => entry.2.toList

/-- The capital of a letter if that is a letter of the ASCII range. Besides the small letters of
that range these are the dotless i and the long s. -/
def capital (char : Char) : Char :=
  if char = 'ı' then 'I' else if char = 'ſ' then 'S' else char.toUpper

def level? (name : Text) : Option Level :=
  match String.ofList name with
  | "NOTSET" => some .all
  | "DEBUG" => some .debug
  | "INFO" => some .info
  | "WARN" | "WARNING" => some .warning
  | "ERROR" => some .error
  | "CRITICAL" | "FATAL" => some .critical
  | _ => none

/-- The variable that chooses the level of the log. -/
def logVariable : String := "CECEIO_LOG_LEVEL"

/-- The variable that makes sessions strict. -/
def strictVariable : String := "CECEIO_STRICT_PARSE"

/-- The variable that lists where the prelude is. -/
def preludeVariable : String := "CECEIO_PRELUDE_PATH"

def variableNames : List String := [logVariable, strictVariable, preludeVariable]

/-- The least level that the log shows: the one that the variable names in letters of either case,
and otherwise warnings. -/
def logLevel (settings : Variables) : Level :=
  let name := (value? settings logVariable).getD "WARNING".toList
  (level? ((Text.strip name).map capital)).getD .warning

/-- Sources are read strictly if the variable is one of the words of consent in letters of either
case. -/
def strict (settings : Variables) : Bool :=
  let word := (value? settings strictVariable).getD []
  ["1", "true", "yes", "on"].contains (String.ofList ((Text.strip word).map Char.toLower))

/-- The paths that a variable lists between colons, without the blank ones, or the default paths if
the variable is not set or empty. -/
def paths (settings : Variables) (name : String) (defaults : List Path) : List Path :=
  match value? settings name with
  | none | some [] => defaults
  | some list =>
    (((Text.split ':' list).map Text.strip).filter fun path => !path.isEmpty).map Path.ofText

/-- What a path of the prelude leads to. -/
def lookUp (files : Files) (path : Path) : Except Breakdown Entry :=
  match files path.render with
  | .nameTooLong => .error (.badPreludePath path.render)
  | entry => .ok entry

/-- The directory of the prelude: the first path that the variable lists, or the directory it lies
in if it is not a directory itself. Without the variable it is the core prelude's own place, which
has no path. -/
def preludeRoot (settings : Variables) (files : Files) : Except Breakdown (Option Path) :=
  match value? settings preludeVariable with
  | none | some [] => .ok none
  | some _ =>
    match paths settings preludeVariable [] with
    | [] => .error .noPreludePath
    | path :: _ => do
      if (← lookUp files path) = .directory then .ok (some path) else .ok (some path.parent)

/-- The path of the prelude file, if the variable says where it is. -/
def preludePath (settings : Variables) (files : Files) : Except Breakdown (Option Path) :=
  (preludeRoot settings files).map (·.map (·.child Prelude.fileName))

/-- The paths that the search for the prelude may look at: the first path that the variable lists,
and the prelude file in it and beside it. -/
def preludePlaces (settings : Variables) : List Text :=
  match paths settings preludeVariable [] with
  | [] => []
  | path :: _ =>
    [path, path.child Prelude.fileName, path.parent.child Prelude.fileName].map Path.render

/-- The session that a program starts with: fresh, or with the prelude loaded. A prelude that is
not there is not loaded, and the trace tells. -/
def startSession (settings : Variables) (files : Files) (withPrelude : Bool) :
    Except Breakdown Session :=
  let start (prelude : Option Text) : Except Breakdown Session :=
    (Session.start (strict settings) prelude).mapError .prelude
  if withPrelude then do
    match ← preludePath settings files with
    | none => start (some Prelude.core)
    | some path =>
      match ← lookUp files path with
      | .file content => start (some (Text.unifyLineEnds content))
      | _ => do
        let session ← start none
        .ok (session.record (.preludeMissing path.render))
  else start none

end Settings

end LazyLisp
