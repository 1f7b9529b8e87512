import LazyLisp.Proofs.Reader.Completion
import LazyLisp.Reader.Source

/-!
# Open forms

Where the reader stops in the middle of a form, it is inside of that form and of each form around
it, and perhaps inside of the formals of a lambda. The reader here is the one of sources, but it
counts them: at a stop it tells how many forms and lists of formals are open.
-/

set_option autoImplicit false

namespace LazyLisp.OpenForms

open Reader

/-- Where a reading step stopped, and how many of the forms and lists of formals that it had begun
to read are open there. -/
structure OpenStop where
  stop : Stop
  opened : Nat

section

variable {α β : Type}

/-- A reading step that begins no form. -/
def plain (result : Except Stop α) : Except OpenStop α := result.mapError (⟨·, 0⟩)

/-- A reading step inside of one more form or list of formals. -/
def inside (result : Except OpenStop α) : Except OpenStop α :=
  result.mapError fun ended => { ended with opened := ended.opened + 1 }

/-- The reading step without the count. -/
def uncounted (result : Except OpenStop α) : Except Stop α := result.mapError OpenStop.stop

@[simp]
theorem uncounted_ok (value : α) : uncounted (.ok value) = .ok value := rfl

@[simp]
theorem uncounted_plain (result : Except Stop α) : uncounted (plain result) = result := by
  cases result <;> rfl

@[simp]
theorem uncounted_inside (result : Except OpenStop α) :
    uncounted (inside result) = uncounted result := by
  cases result <;> rfl

@[simp]
theorem uncounted_bind (first : Except OpenStop α) (next : α → Except OpenStop β) :
    uncounted (first >>= next) = uncounted first >>= fun value => uncounted (next value) := by
  cases first <;> rfl

end

/-! ## The counting reader -/

section

variable (read : Text → Except OpenStop (Expr × Text))

def required (part : RequiredPart) (text : Text) : Except OpenStop (Expr × Text) :=
  let text := skipGap text
  if atCloser text then plain (.error ⟨.expectedPart part, text⟩) else read text

def sequence (closer : Closer) : Nat → Text → Except OpenStop (List Expr × Text)
  | 0, text => plain (.error ⟨.exhausted, text⟩)
  | budget + 1, text =>
    let text := skipGap text
    match stripCloser? closer text with
    | some rest => .ok ([], rest)
    | none =>
      if atCloser text then plain (.error ⟨.expectedCloser closer, text⟩)
      else do
        let (expr, rest) ← read text
        let (exprs, rest) ← sequence closer budget rest
        .ok (expr :: exprs, rest)

/-- What stands behind the consequent of a conditional. -/
def branch (condition consequent : Expr) (text : Text) : Except OpenStop (Expr × Text) :=
  let text := skipGap text
  match stripCloser? .parenthesis text with
  | some rest => .ok (.ifThen condition consequent, rest)
  | none => do
    let (alternative, text) ← required read .alternative text
    let rest ← plain (close .parenthesis text)
    .ok (.ifThenElse condition consequent alternative, rest)

def conditional (text : Text) : Except OpenStop (Expr × Text) := do
  let (condition, text) ← required read .condition text
  let (consequent, text) ← required read .consequent text
  branch read condition consequent text

def binding (text : Text) : Except OpenStop (Expr × Text) :=
  let text := skipGap text
  match name? text with
  | none => plain (.error ⟨.expectedIdentifier, text⟩)
  | some (name, rest) => do
    let (value, rest) ← required read .value rest
    let rest ← plain (close .parenthesis rest)
    .ok (.binding name value, rest)

/-- The list of formals is open from its bracket on. -/
def lambda (budget : Nat) (text : Text) : Except OpenStop (Expr × Text) :=
  match skipGap text with
  | '[' :: rest => do
    let (names, rest) ← inside (plain (formals budget [] rest))
    let (body, rest) ← required read .body rest
    let rest ← plain (close .parenthesis rest)
    .ok (.lambda names body, rest)
  | text => plain (.error ⟨.expectedFormals, text⟩)

def function (text : Text) : Except OpenStop (Expr × Text) :=
  match text with
  | '(' :: _ => read text
  | _ =>
    match functionName? text with
    | some found => .ok found
    | none => plain (.error ⟨.expectedFunction, text⟩)

def application (budget : Nat) (text : Text) : Except OpenStop (Expr × Text) := do
  let (head, rest) ← function read text
  let (arguments, rest) ← sequence read .parenthesis budget rest
  .ok (.application head arguments, rest)

def parenthesized (budget : Nat) (text : Text) : Except OpenStop (Expr × Text) :=
  let text := skipGap text
  match word? "if" text with
  | some rest => conditional read rest
  | none =>
    match word? "def" text with
    | some rest => binding read rest
    | none =>
      match word? "fn" text with
      | some rest => lambda read budget rest
      | none =>
        match word? "cond" text with
        | some rest => do
          let (clauses, rest) ← sequence read .parenthesis budget rest
          .ok (.cond clauses, rest)
        | none => application read budget text

/-- A form that is not an atom is open from its bracket on. -/
def compound (budget : Nat) : Text → Except OpenStop (Expr × Text)
  | '(' :: text => inside (parenthesized read budget text)
  | '[' :: text => inside do
    let (elements, rest) ← sequence read .bracket budget text
    .ok (.list elements, rest)
  | '\'' :: '(' :: text => inside do
    let (elements, rest) ← sequence read .parenthesis budget text
    .ok (.list elements, rest)
  | text => plain (.error ⟨.expectedExpression, text⟩)

def expression (budget : Nat) (text : Text) : Except OpenStop (Expr × Text) := do
  let text := skipGap text
  match ← plain (atom? text) with
  | some found => .ok found
  | none => compound read budget text

end

def readWithin : Nat → Text → Except OpenStop (Expr × Text)
  | 0, text => plain (.error ⟨.exhausted, text⟩)
  | budget + 1, text => expression (readWithin budget) budget text

/-- How many forms and lists of formals are open where reading the forms of a text stops. -/
def countWithin : Nat → Text → Nat
  | 0, _ => 0
  | budget + 1, text =>
    match skipGap text with
    | [] => 0
    | text =>
      match readWithin (text.length + 1) text with
      | .error ended => ended.opened
      | .ok (_, rest) => countWithin budget rest

/-! ## It reads like the reader -/

section

variable (read : Text → Except OpenStop (Expr × Text))

theorem uncounted_required (part : RequiredPart) (text : Text) :
    uncounted (required read part text) =
      Reader.required (fun text => uncounted (read text)) part text := by
  simp only [required, Reader.required]
  split
  · exact uncounted_plain _
  · rfl

theorem uncounted_sequence (closer : Closer) (budget : Nat) (text : Text) :
    uncounted (sequence read closer budget text) =
      Reader.sequence (fun text => uncounted (read text)) closer budget text := by
  induction budget generalizing text with
  | zero => rfl
  | succ budget ih =>
      simp only [sequence, Reader.sequence]
      cases stripCloser? closer (skipGap text) with
      | some rest => rfl
      | none =>
          dsimp only
          split
          · rfl
          · simp only [uncounted_bind, uncounted_ok, ih]

theorem uncounted_branch (condition consequent : Expr) (text : Text) :
    uncounted (branch read condition consequent text) =
      Reader.branch (fun text => uncounted (read text)) condition consequent text := by
  simp only [branch, Reader.branch]
  cases stripCloser? .parenthesis (skipGap text) with
  | some rest => rfl
  | none => simp only [uncounted_bind, uncounted_required, uncounted_plain, uncounted_ok]

theorem uncounted_conditional (text : Text) :
    uncounted (conditional read text) =
      Reader.conditional (fun text => uncounted (read text)) text := by
  simp only [conditional, uncounted_bind, uncounted_required, uncounted_branch]
  rfl

theorem uncounted_binding (text : Text) :
    uncounted (binding read text) =
      Reader.binding (fun text => uncounted (read text)) text := by
  simp only [binding, Reader.binding]
  cases name? (skipGap text) with
  | none => rfl
  | some found =>
      simp only [uncounted_bind, uncounted_required, uncounted_plain, uncounted_ok]

theorem uncounted_lambda (budget : Nat) (text : Text) :
    uncounted (lambda read budget text) =
      Reader.lambda (fun text => uncounted (read text)) budget text := by
  by_cases bracket : ∃ rest, skipGap text = '[' :: rest
  · obtain ⟨rest, skipped⟩ := bracket
    simp only [lambda, Reader.lambda, skipped, uncounted_bind, uncounted_required, uncounted_plain,
      uncounted_inside, uncounted_ok]
  · have counted : lambda read budget text = plain (.error ⟨.expectedFormals, skipGap text⟩) := by
      unfold lambda
      split
      next same => exact absurd ⟨_, same⟩ bracket
      next => rfl
    have plainly : Reader.lambda (fun text => uncounted (read text)) budget text =
        .error ⟨.expectedFormals, skipGap text⟩ := by
      unfold Reader.lambda
      split
      next same => exact absurd ⟨_, same⟩ bracket
      next => rfl
    rw [counted, plainly, uncounted_plain]

theorem uncounted_function (text : Text) :
    uncounted (function read text) =
      Reader.function (fun text => uncounted (read text)) text := by
  have named : uncounted (match functionName? text with
      | some found => .ok found
      | none => plain (.error ⟨.expectedFunction, text⟩)) =
      match functionName? text with
      | some found => .ok found
      | none => .error ⟨.expectedFunction, text⟩ := by cases functionName? text <;> rfl
  unfold function
  split
  next => rfl
  next other =>
    rw [named]
    symm
    unfold Reader.function
    split
    next => exact (other _ rfl).elim
    next => rfl

theorem uncounted_application (budget : Nat) (text : Text) :
    uncounted (application read budget text) =
      Reader.application (fun text => uncounted (read text)) budget text := by
  simp only [application, Reader.application, uncounted_bind, uncounted_function,
    uncounted_sequence, uncounted_ok]

theorem uncounted_parenthesized (budget : Nat) (text : Text) :
    uncounted (parenthesized read budget text) =
      Reader.parenthesized (fun text => uncounted (read text)) budget text := by
  simp only [parenthesized, Reader.parenthesized]
  cases word? "if" (skipGap text) with
  | some rest => exact uncounted_conditional read rest
  | none =>
      cases word? "def" (skipGap text) with
      | some rest => exact uncounted_binding read rest
      | none =>
          cases word? "fn" (skipGap text) with
          | some rest => exact uncounted_lambda read budget rest
          | none =>
              cases word? "cond" (skipGap text) with
              | some rest => simp only [uncounted_bind, uncounted_sequence, uncounted_ok]
              | none => exact uncounted_application read budget _

theorem uncounted_compound (budget : Nat) (text : Text) :
    uncounted (compound read budget text) =
      Reader.compound (fun text => uncounted (read text)) budget text := by
  unfold compound
  split
  next inner =>
    rw [uncounted_inside, uncounted_parenthesized]
    rfl
  next inner =>
    simp only [uncounted_inside, uncounted_bind, uncounted_sequence, uncounted_ok]
    rfl
  next inner =>
    simp only [uncounted_inside, uncounted_bind, uncounted_sequence, uncounted_ok]
    rfl
  next noForm noList noQuote =>
    rw [uncounted_plain]
    unfold Reader.compound
    split
    next inner => exact (noForm inner rfl).elim
    next inner => exact (noList inner rfl).elim
    next inner => exact (noQuote inner rfl).elim
    next => rfl

end

/-- With the count forgotten, the counting reader is the reader. -/
theorem uncounted_readWithin (budget : Nat) (text : Text) :
    uncounted (readWithin budget text) = Reader.readWithin budget text := by
  induction budget generalizing text with
  | zero => rfl
  | succ budget ih =>
      have same : (fun text => uncounted (readWithin budget text)) = Reader.readWithin budget :=
        funext ih
      rw [readWithin, Reader.readWithin, expression, Reader.expression, uncounted_bind,
        uncounted_plain]
      congr
      funext atom
      cases atom with
      | some found => rfl
      | none =>
          rw [← same]
          exact uncounted_compound _ budget _

end LazyLisp.OpenForms

namespace LazyLisp

/-- How many forms and lists of formals the reader is inside of where it stops reading a source;
none if it reads the source to its end. -/
def openForms (source : Text) : Nat := OpenForms.countWithin (source.length + 1) source

example : openForms "(a) (def b '(1 [2".toList = 3 := by decide +kernel

end LazyLisp
