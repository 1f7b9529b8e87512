import LazyLisp.CommandLine.Run

/-!
# The program

The program as it runs on a machine: it collects its arguments, its environment variables and the
files it may look at, and prints what the run reports. A shell is served line by line, so each
prompt stands before its line is read.
-/

set_option autoImplicit false

namespace LazyLisp.CommandLine

/-- What a path leads to on this machine. Opening a path fails if it leads through a file or holds a
name that is too long, while a directory can be opened, and only reading it fails. -/
def lookAt (path : Text) : IO Entry := do
  try
    return .file (← IO.FS.readFile (String.ofList path)).toList
  catch
    | .noFileOrDirectory _ _ _ => return .missing
    | .inappropriateType (some _) _ _ => return .insideFile
    | .inappropriateType none _ _ => return .directory
    | .invalidArgument _ _ _ => return .nameTooLong
    | other => throw other

/-- The files at some paths of this machine. Other paths are missing. -/
def lookAtAll (paths : List Text) : IO Files := do
  let entries ← paths.mapM fun path => return (path, ← lookAt path)
  return fun path => (entries.lookup path).getD .missing

/-- The environment variables that are set, of those that the program knows. -/
def readVariables : IO Variables := do
  let values ← Settings.variableNames.mapM fun name => return (name, ← IO.getEnv name)
  return values.filterMap fun (name, value) => value.map fun value => (name, value)

/-- Prints the log lines of the events that come after the first `shown` ones. -/
def printLog (errors : IO.FS.Stream) (level : Level) (session : Session) (shown : Nat) :
    IO Unit := do
  errors.putStr (String.ofList (renderLog level (session.environment.events.toList.drop shown)))
  errors.flush

/-- Serves the shell until a line ends it. The end of the input acts as the line `EOF`. -/
partial def serve (input output errors : IO.FS.Stream) (level : Level) (shell : Shell) :
    IO Unit := do
  output.putStr (String.ofList shell.prompt)
  output.flush
  let line ← input.getLine
  let line := if line.isEmpty then "EOF".toList else line.toList
  let line := if line.getLast? = some '\n' then line.dropLast else line
  let (reply, printed, after) := shell.enter line
  printLog errors level after.session shell.session.environment.events.size
  output.putStr (String.ofList printed)
  output.flush
  if reply ≠ .left then serve input output errors level after

end LazyLisp.CommandLine

open LazyLisp LazyLisp.CommandLine in
/-- Runs the program and gives its exit code. -/
def main (words : List String) : IO UInt32 := do
  let input ← IO.getStdin
  let output ← IO.getStdout
  let errors ← IO.getStderr
  let arguments := words.map String.toList
  let settings ← readVariables
  let files ← lookAtAll (pathsOfInterest arguments settings)
  let terminal ← output.isTty
  let errorTerminal ← errors.isTty
  match start { arguments, settings, files, terminal, errorTerminal } with
  | .error failure =>
    errors.putStr (String.ofList (renderFailure errorTerminal failure.message))
    return 1
  | .ok (.ended report) =>
    output.putStr (String.ofList report.output)
    errors.putStr (String.ofList report.errors)
    return report.code.toUInt32
  | .ok (.shell shell level) =>
    printLog errors level shell.session 0
    output.putStr (String.ofList Shell.greeting)
    serve input output errors level shell
    return 0
