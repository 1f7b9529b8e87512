import LazyLisp.Expr.Display
import LazyLisp.Reader.Source

/-!
# Outlines

What a source defines at its top level, found by reading alone: the name of each definition, where
it is written and what it is. Definitions before the first syntax error are in the outline of a
source that cannot be read to its end.
-/

set_option autoImplicit false

namespace LazyLisp

/-- A definition at the top level of a source: a function if its value is a lambda, with its call as
the detail, and otherwise a variable with its expression as the detail. -/
structure Definition where
  name : String
  isFunction : Bool
  place : Text.Place
  detail : Text
  deriving DecidableEq, Repr

/-- The definitions of a source in the order in which their names first appear, the syntax error
that ends it, and the number of forms before that. -/
structure Outline where
  definitions : List Definition := []
  error : Option SyntaxError := none
  forms : Nat := 0
  deriving DecidableEq, Repr

namespace Outline

def isBracket (char : Char) : Bool := ['(', ')', '[', ']'].contains char

/-- The text from the name on, in the text of a definition whose opening parenthesis, keyword and
name are only separated by blanks. -/
def nameIn? : Text → Option Text
  | '(' :: text =>
    match text.dropWhile Text.isBlank with
    | 'd' :: 'e' :: 'f' :: text =>
      let name := text.dropWhile Text.isBlank
      if text.head?.any Text.isBlank &&
          name.head?.any (fun char => !isBracket char) then
        some name
      else none
    | _ => none
  | _ => none

/-- What a definition of the name is: whether it is a function, and its detail. -/
def describe (name : String) : Expr → Bool × Text
  | .lambda formals _ => (true, '(' :: renderNames (name :: formals) ++ [')'])
  | value => (false, value.render)

/-- The definition that a form of the source is, if it is one; the source is this text from the form
on. It is placed where its name is written, or else where the form begins. -/
def definition? (source text : Text) : Expr → Option Definition
  | .binding name value =>
    let fromName := (nameIn? text).getD text
    let (isFunction, detail) := describe name value
    some ⟨name, isFunction, Text.Place.ofOffset source (source.length - fromName.length), detail⟩
  | _ => none

/-- The definitions with one more, which replaces an earlier one of the same name in its place. -/
def insert (definition : Definition) : List Definition → List Definition
  | [] => [definition]
  | first :: rest =>
    if first.name = definition.name then definition :: rest else first :: insert definition rest

/-- The outline with one more form. The source is this text from the form on. -/
def add (outline : Outline) (source text : Text) (expr : Expr) : Outline :=
  let counted := { outline with forms := outline.forms + 1 }
  match definition? source text expr with
  | none => counted
  | some definition => { counted with definitions := insert definition counted.definitions }

/-- Adds the forms of what is left of the source to the outline, one after another, up to its end or
to its first syntax error. -/
def addWithin (source : Text) (outline : Outline) : Nat → Text → Outline
  | 0, text => { outline with error := some (Reader.Stop.locate source ⟨.exhausted, text⟩) }
  | budget + 1, text =>
    match Reader.skipGap text with
    | [] => outline
    | text =>
      match Reader.readForm text with
      | .error stop => { outline with error := some (stop.locate source) }
      | .ok (expr, rest) => addWithin source (outline.add source text expr) budget rest

def ofSource (source : Text) : Outline := addWithin source { } (source.length + 1) source

def find? (outline : Outline) (name : String) : Option Definition :=
  outline.definitions.find? fun definition => definition.name = name

end Outline

end LazyLisp
