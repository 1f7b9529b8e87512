import LazyLisp.Text.Digit

/-!
# Command-line arguments

The options of the command line: flags with one letter or with a word, which may be shortened to any
beginning that belongs to no other, and one file. Letters may be joined behind one minus. A negative
number, and an argument with a space that is no option, are ordinary arguments, and so is everything
behind two minuses.
-/

set_option autoImplicit false

namespace LazyLisp.CommandLine

/-- An option. Only `expr` takes a value. -/
inductive Flag where
  | help
  | expr
  | noPrelude
  | trees
  | verbose
  | version
  deriving DecidableEq, Repr

def Flag.ofLetter? : Char → Option Flag
  | 'h' => some .help
  | 'e' => some .expr
  | 'v' => some .verbose
  | _ => none

/-- The options and the words they are called by. -/
def Flag.words : List (Text × Flag) :=
  [("help".toList, .help), ("expr".toList, .expr), ("no-prelude".toList, .noPrelude),
    ("ast".toList, .trees), ("verbose".toList, .verbose), ("version".toList, .version)]

/-- The value that is given for `expr`: a source, or two minuses alone, which never count as a value
and leave none. -/
inductive ExprValue where
  | source (text : Text)
  | nothing
  deriving DecidableEq, Repr

def ExprValue.ofText (text : Text) : ExprValue :=
  if text = ['-', '-'] then .nothing else .source text

structure Options where
  file : Option Text := none
  expr : Option ExprValue := none
  prelude : Bool := true
  trees : Bool := false
  verbose : Bool := false
  deriving DecidableEq, Repr

/-- An argument by itself: an option by its word or its letter, perhaps with a text behind it, which
an equals sign may set off; an ordinary argument; the two minuses; or an option that does not
exist. -/
inductive Item where
  | word (flag : Flag) (value : Option Text)
  | letter (flag : Flag)
  | letterWith (flag : Flag) (rest : Text)
  | argument (text : Text)
  | separator
  | unknown
  deriving DecidableEq, Repr

/-- A minus and a decimal number without exponent. A line feed may end it. -/
def isNegativeNumber : Text → Bool
  | '-' :: text =>
    let text := if text.getLast? = some '\n' then text.dropLast else text
    let rest := text.dropWhile Text.isDigit
    match rest with
    | [] => !text.isEmpty
    | '.' :: fraction => !fraction.isEmpty && fraction.all Text.isDigit
    | _ => false
  | _ => false

/-- An argument that begins with a minus and is no option: an ordinary argument if it is a negative
number or holds a space. -/
def notAnOption (text : Text) : Item :=
  if isNegativeNumber text || text.contains ' ' then .argument text else .unknown

/-- Classifies an argument that begins with two minuses and goes on with the given text. Nothing is
given if its word is the beginning of several words. -/
def classifyWord (argument text : Text) : Option Item :=
  let name := text.takeWhile (· != '=')
  let value := match text.dropWhile (· != '=') with
    | [] => none
    | _ :: value => some value
  match Flag.words.filter fun entry => entry.1 == text with
  | (_, flag) :: _ => some (.word flag none)
  | [] =>
    match Flag.words.filter fun entry => entry.1 == name with
    | (_, flag) :: _ => some (.word flag value)
    | [] =>
      match Flag.words.filter fun entry => name.isPrefixOf entry.1 with
      | [] => some (notAnOption argument)
      | [(_, flag)] => some (.word flag value)
      | _ => none

/-- Classifies an argument that is not behind two minuses. -/
def classify (argument : Text) : Option Item :=
  match argument with
  | ['-', '-'] => some .separator
  | '-' :: '-' :: text => classifyWord argument text
  | ['-', letter] =>
    match Flag.ofLetter? letter with
    | some flag => some (.letter flag)
    | none => some (notAnOption argument)
  | '-' :: letter :: rest =>
    match Flag.ofLetter? letter with
    | some flag =>
      match rest with
      | '=' :: value => some (.letterWith flag value)
      | rest => some (.letterWith flag rest)
    | none => some (notAnOption argument)
  | argument => some (.argument argument)

/-- Classifies all arguments. Nothing is given if one of them is ambiguous. -/
def classifyAll : List Text → Option (List Item)
  | [] => some []
  | argument :: arguments =>
    match classify argument with
    | none => none
    | some .separator => some (.separator :: arguments.map .argument)
    | some item => (classifyAll arguments).map (item :: ·)

/-- How joined letters end: with nothing left over, with the value of `expr`, or with `expr` whose
value is the next argument. -/
inductive LettersEnd where
  | complete
  | value (text : Text)
  | valueFollows

/-- The options without value among joined letters, of which the first has been read, and how they
end. What stands behind `expr` is its value; behind another letter stands one more letter of an
option, or else nothing is given. -/
def joinedLetters (flag : Flag) : Text → Option (List Flag × LettersEnd)
  | [] => if flag = .expr then some ([], .value []) else none
  | letter :: rest =>
    if flag = .expr then some ([], .value (letter :: rest))
    else
      match Flag.ofLetter? letter with
      | none => none
      | some next =>
        match rest with
        | [] => some (if next = .expr then ([flag], .valueFollows) else ([flag, next], .complete))
        | more :: others =>
          (joinedLetters next (more :: others)).map fun (flags, last) => (flag :: flags, last)

inductive Request where
  | run (options : Options)
  | showVersion
  | showHelp
  | invalid
  deriving DecidableEq, Repr

/-- The arguments read so far: the options, whether a file may still come, and whether something is
left over. -/
structure Progress where
  options : Options := {}
  fileExpected : Bool := true
  leftOver : Bool := false

/-- Takes in an option without value. The options that show something end the reading. -/
def Progress.take (progress : Progress) : Flag → Except Request Progress
  | .help => .error .showHelp
  | .version => .error .showVersion
  | .expr => .ok progress
  | .noPrelude => .ok { progress with options := { progress.options with prelude := false } }
  | .trees => .ok { progress with options := { progress.options with trees := true } }
  | .verbose => .ok { progress with options := { progress.options with verbose := true } }

def Progress.takeAll (progress : Progress) (flags : List Flag) : Except Request Progress :=
  flags.foldlM Progress.take progress

/-- Takes in the expression to evaluate; a later one replaces it. -/
def Progress.takeExpr (progress : Progress) (text : Text) : Progress :=
  { progress with options := { progress.options with expr := some (.ofText text) } }

/-- Takes in an ordinary argument: the file, or something left over. -/
def Progress.takeArgument (progress : Progress) (text : Text) : Progress :=
  if progress.fileExpected then
    { progress with options := { progress.options with file := some text }, fileExpected := false }
  else { progress with leftOver := true }

/-- Takes in two minuses. They belong to the file argument beside them; `besideFile` tells that the
item before them was the file. -/
def Progress.takeSeparator (progress : Progress) (besideFile : Bool) : Progress :=
  if progress.fileExpected || besideFile then progress else { progress with leftOver := true }

/-- Reads classified arguments in order; `besideFile` tells that the item before was the file. -/
def readItems (progress : Progress) (besideFile : Bool) : List Item → Except Request Progress
  | [] => .ok progress
  | .argument text :: items =>
    readItems (progress.takeArgument text) progress.fileExpected items
  | .separator :: items => readItems (progress.takeSeparator besideFile) false items
  | .unknown :: items => readItems { progress with leftOver := true } false items
  | .word .expr (some text) :: items => readItems (progress.takeExpr text) false items
  | .word .expr none :: .argument text :: items => readItems (progress.takeExpr text) false items
  | .word .expr none :: _ => .error .invalid
  | .word _ (some _) :: _ => .error .invalid
  | .word flag none :: items => do readItems (← progress.take flag) false items
  | .letter .expr :: .argument text :: items => readItems (progress.takeExpr text) false items
  | .letter .expr :: _ => .error .invalid
  | .letter flag :: items => do readItems (← progress.take flag) false items
  | .letterWith flag rest :: items =>
    match joinedLetters flag rest with
    | none => .error .invalid
    | some (flags, .complete) => do readItems (← progress.takeAll flags) false items
    | some (flags, .value text) => do
      readItems ((← progress.takeAll flags).takeExpr text) false items
    | some (flags, .valueFollows) =>
      match items with
      | .argument text :: items => do
        readItems ((← progress.takeAll flags).takeExpr text) false items
      | _ => .error .invalid

def Request.ofArguments (arguments : List Text) : Request :=
  match classifyAll arguments with
  | none => .invalid
  | some items =>
    match readItems {} false items with
    | .error request => request
    | .ok progress => if progress.leftOver then .invalid else .run progress.options

end LazyLisp.CommandLine
