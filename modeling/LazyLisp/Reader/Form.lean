import LazyLisp.Reader.Atom
import LazyLisp.Text.Blank

/-!
# Forms

The grammar of expressions. Blanks and comments may stand between any two tokens; a comment begins
with a semicolon and ends with the line. A parenthesis commits to the form its first word names, so
what is missing in it is a fault at the place where it should stand.

Reading an expression calls itself for the parts. The calls are counted down by a budget; one
character more than the source has is always enough, since each part is shorter than the whole.
-/

set_option autoImplicit false

namespace LazyLisp.Reader

/-- The text after the blanks and comments at its beginning, or, inside a comment, after that
comment and what follows of them. -/
def skipFrom (comment : Bool) : Text → Text
  | [] => []
  | char :: text =>
    if comment then skipFrom (char != '\n') text
    else if Text.isBlank char then skipFrom false text
    else if char == ';' then skipFrom true text
    else char :: text

/-- The text after the blanks and comments at its beginning. -/
def skipGap (text : Text) : Text := skipFrom false text

theorem skipFrom_suffix (comment : Bool) (text : Text) : skipFrom comment text <:+ text := by
  induction text generalizing comment with
  | nil => simp [skipFrom]
  | cons char text ih =>
      rw [skipFrom]
      split
      · exact (ih _).trans (List.suffix_cons char text)
      · split
        · exact (ih _).trans (List.suffix_cons char text)
        · split
          · exact (ih _).trans (List.suffix_cons char text)
          · exact List.suffix_refl _

theorem skipGap_suffix (text : Text) : skipGap text <:+ text := skipFrom_suffix false text

/-- Where skipping stops, there is nothing to skip. -/
theorem skipGap_skipGap (text : Text) : skipGap (skipGap text) = skipGap text := by
  suffices ∀ comment, skipFrom false (skipFrom comment text) = skipFrom comment text from
    this false
  induction text with
  | nil => simp [skipFrom]
  | cons char text ih =>
      intro comment
      rw [skipFrom]
      split
      · exact ih _
      · split
        · exact ih _
        · split
          · exact ih _
          · simp_all [skipFrom]

/-- The text begins with a closing bracket or is at its end. -/
def atCloser (text : Text) : Bool := text.head?.all fun char => char == ')' || char == ']'

/-- The text after the closing bracket that it begins with. -/
def stripCloser? (closer : Closer) : Text → Option Text
  | [] => none
  | char :: text => if char = closer.char then some text else none

def close (closer : Closer) (text : Text) : Except Stop Text :=
  let text := skipGap text
  match stripCloser? closer text with
  | some rest => .ok rest
  | none => .error ⟨.expectedCloser closer, text⟩

section

variable (read : Text → Except Stop (Expr × Text))

def required (part : RequiredPart) (text : Text) : Except Stop (Expr × Text) :=
  let text := skipGap text
  if atCloser text then .error ⟨.expectedPart part, text⟩ else read text

/-- Reads expressions up to the closing bracket. -/
def sequence (closer : Closer) : Nat → Text → Except Stop (List Expr × Text)
  | 0, text => .error ⟨.exhausted, text⟩
  | budget + 1, text =>
    let text := skipGap text
    match stripCloser? closer text with
    | some rest => .ok ([], rest)
    | none =>
      if atCloser text then .error ⟨.expectedCloser closer, text⟩
      else do
        let (expr, rest) ← read text
        let (exprs, rest) ← sequence closer budget rest
        .ok (expr :: exprs, rest)

def conditional (text : Text) : Except Stop (Expr × Text) := do
  let (condition, text) ← required read .condition text
  let (consequent, text) ← required read .consequent text
  let text := skipGap text
  match stripCloser? .parenthesis text with
  | some rest => .ok (.ifThen condition consequent, rest)
  | none =>
    let (alternative, text) ← required read .alternative text
    let rest ← close .parenthesis text
    .ok (.ifThenElse condition consequent alternative, rest)

def binding (text : Text) : Except Stop (Expr × Text) :=
  let text := skipGap text
  match name? text with
  | none => .error ⟨.expectedIdentifier, text⟩
  | some (name, rest) => do
    let (value, rest) ← required read .value rest
    let rest ← close .parenthesis rest
    .ok (.binding name value, rest)

/-- Reads formal parameters up to the closing bracket, given those read before. A parameter that
repeats one of them is a fault. -/
def formals : Nat → List String → Text → Except Stop (List String × Text)
  | 0, _, text => .error ⟨.exhausted, text⟩
  | budget + 1, names, text =>
    let text := skipGap text
    match stripCloser? .bracket text with
    | some rest => .ok (names, rest)
    | none =>
      match name? text with
      | none => .error ⟨.expectedFormal, text⟩
      | some (name, rest) =>
        if names.contains name then .error ⟨.duplicateFormal name, text⟩
        else formals budget (names ++ [name]) rest

def lambda (budget : Nat) (text : Text) : Except Stop (Expr × Text) :=
  match skipGap text with
  | '[' :: rest => do
    let (names, rest) ← formals budget [] rest
    let (body, rest) ← required read .body rest
    let rest ← close .parenthesis rest
    .ok (.lambda names body, rest)
  | text => .error ⟨.expectedFormals, text⟩

/-- Reads the function of an application: an operator, an identifier or a form in parentheses. -/
def function (text : Text) : Except Stop (Expr × Text) :=
  match text with
  | '(' :: _ => read text
  | _ =>
    match functionName? text with
    | some found => .ok found
    | none => .error ⟨.expectedFunction, text⟩

def application (budget : Nat) (text : Text) : Except Stop (Expr × Text) := do
  let (head, rest) ← function read text
  let (arguments, rest) ← sequence read .parenthesis budget rest
  .ok (.application head arguments, rest)

/-- Reads a form whose opening parenthesis has been read. -/
def parenthesized (budget : Nat) (text : Text) : Except Stop (Expr × Text) :=
  let text := skipGap text
  match word? "if" text with
  | some rest => conditional read rest
  | none =>
    match word? "def" text with
    | some rest => binding read rest
    | none =>
      match word? "fn" text with
      | some rest => lambda read budget rest
      | none =>
        match word? "cond" text with
        | some rest => do
          let (clauses, rest) ← sequence read .parenthesis budget rest
          .ok (.cond clauses, rest)
        | none => application read budget text

/-- Reads a form that is not an atom. -/
def compound (budget : Nat) : Text → Except Stop (Expr × Text)
  | '(' :: text => parenthesized read budget text
  | '[' :: text => do
    let (elements, rest) ← sequence read .bracket budget text
    .ok (.list elements, rest)
  | '\'' :: '(' :: text => do
    let (elements, rest) ← sequence read .parenthesis budget text
    .ok (.list elements, rest)
  | text => .error ⟨.expectedExpression, text⟩

/-- Reads an expression, given how its parts are read. -/
def expression (budget : Nat) (text : Text) : Except Stop (Expr × Text) := do
  let text := skipGap text
  match ← atom? text with
  | some found => .ok found
  | none => compound read budget text

end

/-- Reads an expression whose nesting and whose sequences stay within the budget. -/
def readWithin : Nat → Text → Except Stop (Expr × Text)
  | 0, text => .error ⟨.exhausted, text⟩
  | budget + 1, text => expression (readWithin budget) budget text

def readForm (text : Text) : Except Stop (Expr × Text) := readWithin (text.length + 1) text

/-- The expressions of a text, each with the text that begins with it, and the stop that ends them
unless the text is read to its end. -/
def formsWithin : Nat → Text → List (Expr × Text) × Option Stop
  | 0, text => ([], some ⟨.exhausted, text⟩)
  | budget + 1, text =>
    match skipGap text with
    | [] => ([], none)
    | text =>
      match readForm text with
      | .error stop => ([], some stop)
      | .ok (expr, rest) =>
        let (forms, stop) := formsWithin budget rest
        ((expr, text) :: forms, stop)

end LazyLisp.Reader
