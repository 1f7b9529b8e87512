import LazyLisp.Expr.Basic
import LazyLisp.Reader.Fault
import LazyLisp.Reader.Numeral

/-!
# Atoms

The kinds of atom are tried in a fixed order and the first that matches is read: number, boolean,
operator, `nil`, symbol, string, identifier. A colon and a quote commit to a symbol and a string.
-/

set_option autoImplicit false

namespace LazyLisp.Reader

/-- The boolean at the beginning of the text and the text after it. -/
def boolean? (text : Text) : Option (Bool × Text) :=
  match word? "true" text with
  | some rest => some (true, rest)
  | none => (word? "false" text).map fun rest => (false, rest)

/-- The operator at the beginning of the text and the text after it. -/
def operator? : Text → Option (Operator × Text)
  | [] => none
  | char :: text =>
    match Operator.ofChar? char with
    | some op => some (op, text)
    | none =>
      Operator.words.findSome? fun op => (word? op.token (char :: text)).map fun rest => (op, rest)

/-- The name of a function in front of its arguments: an operator or an identifier. -/
def functionName? (text : Text) : Option (Expr × Text) :=
  match operator? text with
  | some (op, rest) => some (.operator op, rest)
  | none => (name? text).map fun (name, rest) => (.identifier name, rest)

/-- The payload of a string whose opening quote has been read, and the text after its closing
quote. A backslash and the character after it stay as they are and do not end the string. -/
def payload? : Text → Option (Text × Text)
  | [] => none
  | '"' :: text => some ([], text)
  | '\\' :: [] => none
  | '\\' :: char :: text =>
    (payload? text).map fun (payload, rest) => ('\\' :: char :: payload, rest)
  | char :: text => (payload? text).map fun (payload, rest) => (char :: payload, rest)

/-- The symbol or string that the first character commits to, or else an identifier. -/
def committedAtom? (text : Text) : Except Stop (Option (Expr × Text)) :=
  match text with
  | ':' :: rest =>
    match name? rest with
    | some (name, rest) => .ok (some (.symbol name, rest))
    | none => .error ⟨.expectedSymbolName, rest⟩
  | '"' :: rest =>
    match payload? rest with
    | some (payload, rest) => .ok (some (.string (String.ofList payload), rest))
    | none => .error ⟨.unterminatedString, text⟩
  | text => .ok ((name? text).map fun (name, rest) => (.identifier name, rest))

/-- The atom at the beginning of the text, if one begins there, and the text after it. -/
def atom? (text : Text) : Except Stop (Option (Expr × Text)) :=
  match numeral? text with
  | some (number, rest) => .ok (some (.number number, rest))
  | none =>
    match boolean? text with
    | some (value, rest) => .ok (some (.boolean value, rest))
    | none =>
      match operator? text with
      | some (op, rest) => .ok (some (.operator op, rest))
      | none =>
        match word? "nil" text with
        | some rest => .ok (some (.nil, rest))
        | none => committedAtom? text

end LazyLisp.Reader
