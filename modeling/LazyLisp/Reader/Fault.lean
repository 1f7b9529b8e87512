import LazyLisp.Text.Place

/-!
# Faults of a source text

Why a source cannot be read, and where. A reading step that fails names the fault and the text it
did not read; the place in the whole source follows from the length of that text.
-/

set_option autoImplicit false

namespace LazyLisp

/-- The bracket that ends a sequence of forms. -/
inductive Closer where
  | parenthesis
  | bracket
  deriving DecidableEq, Repr

def Closer.char : Closer → Char
  | .parenthesis => ')'
  | .bracket => ']'

def Closer.name : Closer → String
  | .parenthesis => "closing parenthesis"
  | .bracket => "closing bracket"

/-- A part that a special form cannot do without. -/
inductive RequiredPart where
  | condition
  | consequent
  | alternative
  | value
  | body
  deriving DecidableEq, Repr

def RequiredPart.name : RequiredPart → String
  | .condition => "condition"
  | .consequent => "then branch"
  | .alternative => "else branch"
  | .value => "expression"
  | .body => "lambda body"

/-- Why a source cannot be read. -/
inductive Fault where
  | expectedAtom
  | expectedIdentifier
  | expectedSymbolName
  | unterminatedString
  | expectedExpression
  | expectedFunction
  | expectedPart (part : RequiredPart)
  | expectedCloser (closer : Closer)
  | expectedFormals
  | expectedFormal
  | duplicateFormal (name : String)
  | trailingInput
  | exhausted
  deriving DecidableEq, Repr

def Fault.message : Fault → String
  | .expectedAtom => "expected atom"
  | .expectedIdentifier => "expected identifier"
  | .expectedSymbolName => "expected identifier after ':'"
  | .unterminatedString => "unterminated string literal"
  | .expectedExpression => "expected expression"
  | .expectedFunction => "expected function name"
  | .expectedPart part => "expected " ++ part.name
  | .expectedCloser closer => "expected " ++ closer.name ++ " '" ++ closer.char.toString ++ "'"
  | .expectedFormals => "expected '[' before the formal parameters"
  | .expectedFormal => "expected identifier or closing bracket ']'"
  | .duplicateFormal name => "duplicate formal parameter '" ++ name ++ "'"
  | .trailingInput => "unexpected input after expression"
  | .exhausted => "expression nested too deeply"

structure SyntaxError where
  fault : Fault
  offset : Nat
  place : Text.Place
  deriving DecidableEq, Repr

/-- The message for a syntax error; line and column count from one. -/
def SyntaxError.message (error : SyntaxError) : String :=
  "Parsing error: " ++ error.fault.message ++ " (line " ++ toString (error.place.line + 1) ++
    ", column " ++ toString (error.place.column + 1) ++ ")"

namespace Reader

/-- Where a reading step stopped: the fault and the text that was not read. -/
structure Stop where
  fault : Fault
  rest : Text
  deriving DecidableEq, Repr

def Stop.locate (source : Text) (stop : Stop) : SyntaxError :=
  let offset := source.length - stop.rest.length
  ⟨stop.fault, offset, Text.Place.ofOffset source offset⟩

end Reader

end LazyLisp
