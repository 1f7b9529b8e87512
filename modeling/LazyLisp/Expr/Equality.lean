import LazyLisp.Expr.Basic

/-!
# Equality of expressions

Two expressions are equal if they have the same shape, names and payloads and equal numbers in it.
Numbers compare as numbers, so `nan` equals nothing; but a `nan` inside a list or another compound
expression counts as equal to itself, that is, to the `nan` written at the same place. To tell the
written ones apart, each expression has its own serial numbers written into them before it is used.
-/

set_option autoImplicit false

namespace LazyLisp.Expr

mutual

/-- Equality of parts: a number is also equal to the very same `nan`. -/
def equalsPart : Expr → Expr → Bool
  | .number left, .number right => left.equals right || left == right
  | .boolean left, .boolean right => left == right
  | .string left, .string right => left == right
  | .symbol left, .symbol right => left == right
  | .identifier left, .identifier right => left == right
  | .operator left, .operator right => left == right
  | .nil, .nil => true
  | .application head arguments, .application head' arguments' =>
    equalsPart head head' && equalsParts arguments arguments'
  | .ifThen condition consequent, .ifThen condition' consequent' =>
    equalsPart condition condition' && equalsPart consequent consequent'
  | .ifThenElse condition consequent alternative, .ifThenElse condition' consequent' alternative' =>
    equalsPart condition condition' && equalsPart consequent consequent' &&
      equalsPart alternative alternative'
  | .binding name value, .binding name' value' => name == name' && equalsPart value value'
  | .lambda formals body, .lambda formals' body' => formals == formals' && equalsPart body body'
  | .cond clauses, .cond clauses' => equalsParts clauses clauses'
  | .list elements, .list elements' => equalsParts elements elements'
  | _, _ => false

/-- Equality of rows of parts. -/
def equalsParts : List Expr → List Expr → Bool
  | [], [] => true
  | left :: lefts, right :: rights => equalsPart left right && equalsParts lefts rights
  | _, _ => false

end

/-- Equality of values. Numbers compare as numbers only. -/
def equals : Expr → Expr → Bool
  | .number left, .number right => left.equals right
  | left, right => equalsPart left right

mutual

/-- The expression with a serial number in each `nan`, counted on from `serial` in reading order,
and the next free number. -/
def markNans (origin : Nat → NanOrigin) : Expr → Nat → Expr × Nat
  | .number (.nan _), serial => (.number (.nan (origin serial)), serial + 1)
  | .application head arguments, serial =>
    let (head, serial) := markNans origin head serial
    let (arguments, serial) := markAllNans origin arguments serial
    (.application head arguments, serial)
  | .ifThen condition consequent, serial =>
    let (condition, serial) := markNans origin condition serial
    let (consequent, serial) := markNans origin consequent serial
    (.ifThen condition consequent, serial)
  | .ifThenElse condition consequent alternative, serial =>
    let (condition, serial) := markNans origin condition serial
    let (consequent, serial) := markNans origin consequent serial
    let (alternative, serial) := markNans origin alternative serial
    (.ifThenElse condition consequent alternative, serial)
  | .binding name value, serial =>
    let (value, serial) := markNans origin value serial
    (.binding name value, serial)
  | .lambda formals body, serial =>
    let (body, serial) := markNans origin body serial
    (.lambda formals body, serial)
  | .cond clauses, serial =>
    let (clauses, serial) := markAllNans origin clauses serial
    (.cond clauses, serial)
  | .list elements, serial =>
    let (elements, serial) := markAllNans origin elements serial
    (.list elements, serial)
  | atom, serial => (atom, serial)

/-- The same for a row of expressions. -/
def markAllNans (origin : Nat → NanOrigin) : List Expr → Nat → List Expr × Nat
  | [], serial => ([], serial)
  | expr :: exprs, serial =>
    let (expr, serial) := markNans origin expr serial
    let (exprs, serial) := markAllNans origin exprs serial
    (expr :: exprs, serial)

end

end LazyLisp.Expr
