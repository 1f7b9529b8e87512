import LazyLisp.Reader.Form

/-!
# Reading a source

What a source text holds: its first atom, its first expression, its only expression, or all of its
expressions. A fault is reported with its place in the source.
-/

set_option autoImplicit false

namespace LazyLisp.Reader

/-- The atom at the beginning of the source and the text after it. Nothing is skipped before it. -/
def readAtom (source : Text) : Except SyntaxError (Expr × Text) :=
  match atom? source with
  | .ok (some found) => .ok found
  | .ok none => .error (Stop.locate source ⟨.expectedAtom, source⟩)
  | .error stop => .error (stop.locate source)

/-- The identifier at the beginning of the source and the text after it. -/
def readIdentifier (source : Text) : Except SyntaxError (Expr × Text) :=
  match name? source with
  | some (name, rest) => .ok (.identifier name, rest)
  | none => .error (Stop.locate source ⟨.expectedIdentifier, source⟩)

/-- The first expression of the source and the text after it. -/
def readFirst (source : Text) : Except SyntaxError (Expr × Text) :=
  (readForm source).mapError (·.locate source)

/-- The first expression of a source that holds nothing after it but blanks and comments. -/
def readOnly (source : Text) : Except SyntaxError Expr := do
  let (expr, rest) ← readFirst source
  match skipGap rest with
  | [] => .ok expr
  | rest => .error (Stop.locate source ⟨.trailingInput, rest⟩)

/-- The expressions of the source, and the error that ends them unless the source is read to its
end. -/
def readAll (source : Text) : List Expr × Option SyntaxError :=
  let (forms, stop) := formsWithin (source.length + 1) source
  (forms.map Prod.fst, stop.map (·.locate source))

end LazyLisp.Reader
