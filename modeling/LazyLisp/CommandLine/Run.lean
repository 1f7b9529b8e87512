import LazyLisp.CommandLine.Arguments
import LazyLisp.Settings
import LazyLisp.Shell

/-!
# Running the command line

What the program prints and how it ends, given its arguments, its environment variables, the files
it can see and its input. It evaluates one expression, runs a file, or starts the shell. Where a
session cannot start or there is nothing to evaluate, it breaks off without a report.
-/

set_option autoImplicit false

namespace LazyLisp.CommandLine

/-- All that a run of the program depends on. Results and errors are printed apart, each on a
terminal or not, and on the same one unless it is said otherwise. -/
structure Invocation where
  arguments : List Text
  settings : Variables := []
  files : Files
  input : Text := []
  terminal : Bool := false
  errorTerminal : Bool := terminal

/-- How a run ends: the exit code, what it prints, and whether the arguments alone ended it. -/
structure Report where
  code : Nat
  output : Text
  errors : Text
  byArguments : Bool := false
  deriving DecidableEq, Repr

def versionLine : Text := "ceceio 0.1.0\n".toList

/-- A file is read, its line ends unified, unless there is a reason why it cannot be. -/
def readFile (files : Files) (path : Text) : Except String Text :=
  let entry := files path
  match entry, entry.refusal? path with
  | .file content, _ => .ok (Text.unifyLineEnds content)
  | _, refusal => .error (refusal.getD "")

/-- How errors are printed: the least level that the log shows, and on a terminal or not. -/
structure ErrorOutput where
  level : Level
  terminal : Bool

/-- The report of a run that showed some texts and perhaps failed: the failure is reported behind
the log. -/
def finish (errors : ErrorOutput) (session : Session) (texts : List Text)
    (failure : Option String) : Report :=
  let log := renderLog errors.level session.environment.events.toList
  match failure with
  | none => { code := 0, output := renderLines texts, errors := log }
  | some message =>
    { code := 1, output := renderLines texts,
      errors := log ++ renderFailure errors.terminal message }

/-- Evaluates one expression, or shows its tree. -/
def runExpr (display : Display) (errors : ErrorOutput) (session : Session) (source : Text) :
    Report :=
  match session.parse source with
  | (.error failure, session) => finish errors session [] (some failure.message)
  | (.ok expr, session) =>
    match display.result session expr with
    | (.ok text, session) => finish errors session [text] none
    | (.error failure, session) => finish errors session [] (some failure.message)

/-- Runs a file. What was shown before a failure stays shown. -/
def runFile (display : Display) (errors : ErrorOutput) (files : Files) (session : Session)
    (path : Text) : Report :=
  let session := session.record (.running path)
  match readFile files path with
  | .error message => finish errors session [] (some message)
  | .ok source =>
    let (texts, failure, session) := display.showSource session source
    finish errors session texts (failure.map Failure.message)

def finishShell (level : Level) (printed : Text) (shell : Shell) : Report :=
  { code := 0, output := printed,
    errors := renderLog level shell.session.environment.events.toList }

/-- What a run comes to before it reads its input: its end, or a shell with the level of its log. -/
inductive Opening where
  | ended (report : Report)
  | shell (shell : Shell) (level : Level)

def Invocation.display (invocation : Invocation) (options : Options) : Display :=
  { trees := options.trees, terminal := invocation.terminal }

def Invocation.errorOutput (invocation : Invocation) (options : Options) : ErrorOutput :=
  { level := if options.verbose then .debug else Settings.logLevel invocation.settings
    terminal := invocation.errorTerminal }

/-- Starts the session that the options ask for, and what is to be done in it. The shell reports
failures among its results. -/
def openOptions (invocation : Invocation) (options : Options) : Except Breakdown Opening := do
  let display := invocation.display options
  let errors := invocation.errorOutput options
  let session ← Settings.startSession invocation.settings invocation.files options.prelude
  match options.expr, options.file with
  | some (.source source), _ => .ok (.ended (runExpr display errors session source))
  | some .nothing, _ => .error .noExpression
  | none, some path =>
    if path.contains '\x00' then .error .zeroInPath
    else .ok (.ended (runFile display errors invocation.files session path))
  | none, none => .ok (.shell { session, display } errors.level)

def start (invocation : Invocation) : Except Breakdown Opening :=
  match Request.ofArguments invocation.arguments with
  | .invalid => .ok (.ended { code := 2, output := [], errors := [], byArguments := true })
  | .showHelp => .ok (.ended { code := 0, output := [], errors := [], byArguments := true })
  | .showVersion =>
    .ok (.ended { code := 0, output := versionLine, errors := [], byArguments := true })
  | .run options => openOptions invocation options

def run (invocation : Invocation) : Except Breakdown Report := do
  match ← start invocation with
  | .ended report => .ok report
  | .shell shell level =>
    let (printed, shell) := Shell.run shell invocation.input
    .ok (finishShell level printed shell)

/-- The paths that a run may look at: its file and the places of the prelude. -/
def pathsOfInterest (arguments : List Text) (settings : Variables) : List Text :=
  let file :=
    match Request.ofArguments arguments with
    | .run options => options.file.toList
    | _ => []
  file ++ Settings.preludePlaces settings

end LazyLisp.CommandLine
