import LazyLisp.Display
import LazyLisp.Text.Lines

/-!
# The interactive shell

The shell collects lines until no bracket is open and then shows the results of the collected
source. Only `exit`, where no source is pending, and the end of input leave it.
-/

set_option autoImplicit false

namespace LazyLisp

/-- Where a character of a source stands: outside of strings and comments, in a comment, or in a
string, there perhaps behind a backslash. -/
inductive ScanState where
  | code
  | comment
  | string
  | escape
  deriving DecidableEq, Repr

/-- The state after a character. -/
def ScanState.next : ScanState → Char → ScanState
  | .code, char => if char = '"' then .string else if char = ';' then .comment else .code
  | .comment, char => if char = '\n' then .code else .comment
  | .string, char => if char = '\\' then .escape else if char = '"' then .code else .string
  | .escape, _ => .string

/-- How much a character adds to the number of open brackets. -/
def ScanState.bracketChange : ScanState → Char → Int
  | .code, char =>
    if char = '(' || char = '[' then 1 else if char = ')' || char = ']' then -1 else 0
  | _, _ => 0

/-- The number of brackets open at the end of a text that begins in the given state. -/
def openDepthFrom (state : ScanState) : Text → Int
  | [] => 0
  | char :: text => state.bracketChange char + openDepthFrom (state.next char) text

theorem openDepthFrom_append (state : ScanState) (text more : Text) :
    openDepthFrom state (text ++ more) =
      openDepthFrom state text + openDepthFrom (text.foldl ScanState.next state) more := by
  induction text generalizing state with
  | nil => simp [openDepthFrom]
  | cons char text ih => simp [openDepthFrom, ih, Int.add_assoc]

/-- The number of brackets that a source leaves open; those in strings and comments do not count,
and closing brackets without an opening one count negatively. -/
def openDepth (source : Text) : Int := openDepthFrom .code source

/-- An interactive shell: its session, how it shows results, and the lines of an unfinished
source. -/
structure Shell where
  session : Session
  display : Display := {}
  pending : Text := []

namespace Shell

/-- What the shell does after a line: wait for the next one, having read the line or passed over a
blank one, or end. -/
inductive Reply where
  | read
  | skipped
  | left
  deriving DecidableEq, Repr

def greeting : Text := "ceceio 0.1.0\nType an expression, or 'exit' to leave.\n".toList

def prompt (shell : Shell) : Text :=
  if shell.pending.isEmpty then ['>', ' '] else ['.', ' ']

/-- The source that a line completes or continues. -/
def sourceWith (shell : Shell) (line : Text) : Text :=
  if shell.pending.isEmpty then line else shell.pending ++ '\n' :: line

/-- Takes in a line of source: the text it prints and the shell after it. -/
def enterSource (shell : Shell) (line : Text) : Text × Shell :=
  let source := shell.sourceWith line
  if 0 < openDepth source then ([], { shell with pending := source })
  else
    let (texts, failure, session) := shell.display.showSource shell.session source
    let report := failure.elim [] fun failure =>
      renderFailure shell.display.terminal failure.message
    (renderLines texts ++ report, { shell with session, pending := [] })

/-- Takes in a line: what the shell does next, the text it prints and the shell after it. -/
def enter (shell : Shell) (line : Text) : Reply × Text × Shell :=
  let command := Text.strip line
  if command = "EOF".toList then (.left, ['\n'], shell)
  else if command = "exit".toList && shell.pending.isEmpty then (.left, [], shell)
  else if command.isEmpty then (.skipped, [], shell)
  else
    let (printed, shell) := shell.enterSource line
    (.read, printed, shell)

/-- Takes in lines until one of them ends the shell: all that is printed, the prompts included. The
end of the lines acts as the line `EOF`. -/
def enterAll : Shell → List Text → Text × Shell
  | shell, [] =>
    let (_, printed, after) := shell.enter "EOF".toList
    (shell.prompt ++ printed, after)
  | shell, line :: lines =>
    match shell.enter line with
    | (.left, printed, after) => (shell.prompt ++ printed, after)
    | (_, printed, after) =>
      let (more, last) := after.enterAll lines
      (shell.prompt ++ printed ++ more, last)

/-- Runs the shell on an input: all that is printed, and the shell after it. -/
def run (shell : Shell) (input : Text) : Text × Shell :=
  let (printed, shell) := shell.enterAll (Text.inputLines input)
  (greeting ++ printed, shell)

end Shell

end LazyLisp
