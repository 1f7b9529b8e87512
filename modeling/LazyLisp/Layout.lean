import LazyLisp.Expr.Display

/-!
# Layout of expressions

An expression as a tree over several lines, for people. A compound expression stays on one line if
its text fits behind its indentation; otherwise each part after the first has a line of its own.
Colors mark what names and keywords are; they do not count as width.
-/

set_option autoImplicit false

namespace LazyLisp.Layout

/-- How to lay out: the width of lines, the depth below which compound expressions are cut off,
whether to begin with a key to the colors, and whether to color. -/
structure Style where
  width : Int := 80
  depthLimit : Int := 32
  legend : Bool := false
  color : Bool := true

/-- What a color marks. -/
inductive Role where
  | identifier
  | symbol
  | operator
  | lambda
  | keyword
  deriving DecidableEq, Repr

/-- The terminal code that begins a color. -/
def Role.code : Role → Text
  | .identifier => "\x1b[94m".toList
  | .symbol => "\x1b[96m".toList
  | .operator => "\x1b[95m".toList
  | .lambda => "\x1b[92m".toList
  | .keyword => "\x1b[90m".toList

/-- The terminal code that ends a color. -/
def resetCode : Text := "\x1b[0m".toList

/-- The text in the color of its role, if the style has colors. -/
def paint (style : Style) (role : Role) (text : Text) : Text :=
  if style.color then role.code ++ text ++ resetCode else text

/-- The key to the colors on a line of its own. It stands before an expression without
indentation. -/
def legend (style : Style) (indent : Int) : Text :=
  if style.legend && indent == 0 then
    let items := [paint style .identifier "Identifier".toList, paint style .symbol ":symbol".toList,
      paint style .operator "Built-in".toList, paint style .lambda "Lambda".toList,
      paint style .keyword "Special Form".toList]
    "Color Key: ".toList ++ " | ".toList.intercalate items ++ ['\n']
  else []

def atom (style : Style) (expr : Expr) : Text :=
  match expr with
  | .identifier _ => paint style .identifier expr.render
  | .symbol _ => paint style .symbol expr.render
  | .operator _ => paint style .operator expr.render
  | _ => expr.render

def keyword (style : Style) (word : String) : Text := paint style .keyword word.toList

def formals (style : Style) (names : List String) : Text :=
  '[' :: [' '].intercalate (names.map fun name => paint style .identifier name.toList) ++ [']']

/-- A compound expression from its brackets and its parts: cut off, on one line, or with each part
after the first on a line of its own. -/
def compound (style : Style) (indent : Int) (depth : Nat) (expr : Expr)
    (opening : Char) (parts : List Text) (closing : Char) : Text :=
  legend style indent ++
    if style.depthLimit ≤ depth then ['.', '.', '.']
    else if expr.render.length + indent * 2 ≤ style.width then
      opening :: [' '].intercalate parts ++ [closing]
    else
      let lineStart := '\n' :: List.replicate (2 * (indent + 1)).toNat ' '
      opening :: lineStart.intercalate parts ++ [closing]

mutual

/-- Lays out an expression at an indentation, in steps of two columns, and a depth. -/
def layOut (style : Style) : Expr → Int → Nat → Text
  | .application head arguments, indent, depth =>
    let first :=
      match head with
      | .operator op => atom style (.operator op)
      | .identifier name => atom style (.identifier name)
      | head => layOut style head (indent + 1) (depth + 1)
    compound style indent depth (.application head arguments) '('
      (first :: layOutAll style arguments (indent + 1) (depth + 1)) ')'
  | .ifThen condition consequent, indent, depth =>
    compound style indent depth (.ifThen condition consequent) '('
      [keyword style "if", layOut style condition (indent + 1) (depth + 1),
        layOut style consequent (indent + 1) (depth + 1)] ')'
  | .ifThenElse condition consequent alternative, indent, depth =>
    compound style indent depth (.ifThenElse condition consequent alternative) '('
      [keyword style "if", layOut style condition (indent + 1) (depth + 1),
        layOut style consequent (indent + 1) (depth + 1),
        layOut style alternative (indent + 1) (depth + 1)] ')'
  | .binding name value, indent, depth =>
    compound style indent depth (.binding name value) '('
      [keyword style "def", paint style .identifier name.toList,
        layOut style value (indent + 1) (depth + 1)] ')'
  | .lambda names body, indent, depth =>
    compound style indent depth (.lambda names body) '('
      [paint style .lambda "fn".toList, formals style names,
        layOut style body (indent + 1) (depth + 1)] ')'
  | .cond clauses, indent, depth =>
    compound style indent depth (.cond clauses) '('
      (keyword style "cond" :: layOutAll style clauses (indent + 1) (depth + 1)) ')'
  | .list elements, indent, depth =>
    compound style indent depth (.list elements) '['
      (layOutAll style elements (indent + 1) (depth + 1)) ']'
  | expr, indent, _ => legend style indent ++ atom style expr

def layOutAll (style : Style) : List Expr → Int → Nat → List Text
  | [], _, _ => []
  | expr :: exprs, indent, depth =>
    layOut style expr indent depth :: layOutAll style exprs indent depth

end

end LazyLisp.Layout
