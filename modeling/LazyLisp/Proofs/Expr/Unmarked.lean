import LazyLisp.Expr.Display
import LazyLisp.Expr.Equality
import LazyLisp.Proofs.Number.Display

/-!
# Expressions without their marks

Where a `nan` was written is no part of a text. Two expressions that differ in it only have the same
text and the same shape, names and payloads.
-/

set_option autoImplicit false

namespace LazyLisp

namespace Expr

mutual

/-- The expression with the origin of each `nan` forgotten. -/
def unmarked : Expr → Expr
  | .number value => .number value.unmarked
  | .application head arguments => .application (unmarked head) (unmarkedAll arguments)
  | .ifThen condition consequent => .ifThen (unmarked condition) (unmarked consequent)
  | .ifThenElse condition consequent alternative =>
    .ifThenElse (unmarked condition) (unmarked consequent) (unmarked alternative)
  | .binding name value => .binding name (unmarked value)
  | .lambda formals body => .lambda formals (unmarked body)
  | .cond clauses => .cond (unmarkedAll clauses)
  | .list elements => .list (unmarkedAll elements)
  | atom => atom

def unmarkedAll : List Expr → List Expr
  | [] => []
  | expr :: exprs => unmarked expr :: unmarkedAll exprs

end

mutual

/-- How many `nan`s are written in an expression. -/
def countNans : Expr → Nat
  | .number (.nan _) => 1
  | .application head arguments => countNans head + countAllNans arguments
  | .ifThen condition consequent => countNans condition + countNans consequent
  | .ifThenElse condition consequent alternative =>
    countNans condition + countNans consequent + countNans alternative
  | .binding _ value => countNans value
  | .lambda _ body => countNans body
  | .cond clauses => countAllNans clauses
  | .list elements => countAllNans elements
  | _ => 0

def countAllNans : List Expr → Nat
  | [] => 0
  | expr :: exprs => countNans expr + countAllNans exprs

end

/-! ## Texts -/

theorem render_number_unmarked (value : Number) : value.unmarked.render = value.render := by
  cases value <;> rfl

mutual

/-- The origin of a `nan` does not show in a text. -/
theorem render_unmarked : (expr : Expr) → expr.unmarked.render = expr.render
  | .number value => render_number_unmarked value
  | .application head arguments => by
      simp only [unmarked, render, render_unmarked head, renderAfter_unmarkedAll arguments]
  | .ifThen condition consequent => by
      simp only [unmarked, render, render_unmarked condition, render_unmarked consequent]
  | .ifThenElse condition consequent alternative => by
      simp only [unmarked, render, render_unmarked condition, render_unmarked consequent,
        render_unmarked alternative]
  | .binding name value => by simp only [unmarked, render, render_unmarked value]
  | .lambda formals body => by simp only [unmarked, render, render_unmarked body]
  | .cond clauses => by simp only [unmarked, render, renderAfter_unmarkedAll clauses]
  | .list [] => rfl
  | .list (element :: elements) => by
      simp only [unmarked, unmarkedAll, render, renderRow, render_unmarked element,
        renderAfter_unmarkedAll elements]
  | .boolean _ | .string _ | .symbol _ | .identifier _ | .operator _ | .nil => rfl

theorem renderAfter_unmarkedAll : (exprs : List Expr) →
    renderAfter (unmarkedAll exprs) = renderAfter exprs
  | [] => rfl
  | expr :: exprs => by
      simp only [unmarkedAll, renderAfter, render_unmarked expr, renderAfter_unmarkedAll exprs]

end

/-! ## Marking -/

mutual

theorem unmarked_markNans (origin : Nat → NanOrigin) : (expr : Expr) → (serial : Nat) →
    (expr.markNans origin serial).1.unmarked = expr.unmarked
  | .number (.nan _), serial => rfl
  | .number (.infinite _), serial => rfl
  | .number (.finite _ _), serial => rfl
  | .application head arguments, serial => by
      simp only [markNans, unmarked, unmarked_markNans origin head,
        unmarkedAll_markAllNans origin arguments]
  | .ifThen condition consequent, serial => by
      simp only [markNans, unmarked, unmarked_markNans origin condition,
        unmarked_markNans origin consequent]
  | .ifThenElse condition consequent alternative, serial => by
      simp only [markNans, unmarked, unmarked_markNans origin condition,
        unmarked_markNans origin consequent, unmarked_markNans origin alternative]
  | .binding name value, serial => by
      simp only [markNans, unmarked, unmarked_markNans origin value]
  | .lambda formals body, serial => by
      simp only [markNans, unmarked, unmarked_markNans origin body]
  | .cond clauses, serial => by
      simp only [markNans, unmarked, unmarkedAll_markAllNans origin clauses]
  | .list elements, serial => by
      simp only [markNans, unmarked, unmarkedAll_markAllNans origin elements]
  | .boolean _, _ | .string _, _ | .symbol _, _ | .identifier _, _ | .operator _, _ | .nil, _ =>
      rfl

theorem unmarkedAll_markAllNans (origin : Nat → NanOrigin) : (exprs : List Expr) →
    (serial : Nat) → unmarkedAll (markAllNans origin exprs serial).1 = unmarkedAll exprs
  | [], _ => rfl
  | expr :: exprs, serial => by
      simp only [markAllNans, unmarkedAll, unmarked_markNans origin expr,
        unmarkedAll_markAllNans origin exprs]

end

mutual

theorem markNans_of_countNans (origin : Nat → NanOrigin) : (expr : Expr) → (serial : Nat) →
    expr.countNans = 0 → expr.markNans origin serial = (expr, serial)
  | .number (.nan _), _, noNan => by cases noNan
  | .number (.infinite _), _, _ => rfl
  | .number (.finite _ _), _, _ => rfl
  | .application head arguments, serial, noNan => by
      simp only [countNans, Nat.add_eq_zero_iff] at noNan
      simp only [markNans, markNans_of_countNans origin head serial noNan.1,
        markAllNans_of_countAllNans origin arguments serial noNan.2]
  | .ifThen condition consequent, serial, noNan => by
      simp only [countNans, Nat.add_eq_zero_iff] at noNan
      simp only [markNans, markNans_of_countNans origin condition serial noNan.1,
        markNans_of_countNans origin consequent serial noNan.2]
  | .ifThenElse condition consequent alternative, serial, noNan => by
      simp only [countNans, Nat.add_eq_zero_iff] at noNan
      simp only [markNans, markNans_of_countNans origin condition serial noNan.1.1,
        markNans_of_countNans origin consequent serial noNan.1.2,
        markNans_of_countNans origin alternative serial noNan.2]
  | .binding name value, serial, noNan => by
      simp only [markNans, markNans_of_countNans origin value serial noNan]
  | .lambda formals body, serial, noNan => by
      simp only [markNans, markNans_of_countNans origin body serial noNan]
  | .cond clauses, serial, noNan => by
      simp only [markNans, markAllNans_of_countAllNans origin clauses serial noNan]
  | .list elements, serial, noNan => by
      simp only [markNans, markAllNans_of_countAllNans origin elements serial noNan]
  | .boolean _, _, _ | .string _, _, _ | .symbol _, _, _ | .identifier _, _, _
  | .operator _, _, _ | .nil, _, _ => rfl

theorem markAllNans_of_countAllNans (origin : Nat → NanOrigin) : (exprs : List Expr) →
    (serial : Nat) → countAllNans exprs = 0 → markAllNans origin exprs serial = (exprs, serial)
  | [], _, _ => rfl
  | expr :: exprs, serial, noNan => by
      simp only [countAllNans, Nat.add_eq_zero_iff] at noNan
      simp only [markAllNans, markNans_of_countNans origin expr serial noNan.1,
        markAllNans_of_countAllNans origin exprs serial noNan.2]

end

/-! ## Equality -/

mutual

theorem equalsPart_self : (expr : Expr) → expr.equalsPart expr = true
  | .number value => by simp [equalsPart]
  | .application head arguments => by
      simp only [equalsPart, equalsPart_self head, equalsParts_self arguments, Bool.and_self]
  | .ifThen condition consequent => by
      simp only [equalsPart, equalsPart_self condition, equalsPart_self consequent, Bool.and_self]
  | .ifThenElse condition consequent alternative => by
      simp only [equalsPart, equalsPart_self condition, equalsPart_self consequent,
        equalsPart_self alternative, Bool.and_self]
  | .binding name value => by
      simp only [equalsPart, equalsPart_self value, beq_self_eq_true, Bool.and_self]
  | .lambda formals body => by
      simp only [equalsPart, equalsPart_self body, beq_self_eq_true, Bool.and_self]
  | .cond clauses => by simp only [equalsPart, equalsParts_self clauses]
  | .list elements => by simp only [equalsPart, equalsParts_self elements]
  | .boolean _ | .string _ | .symbol _ | .identifier _ | .operator _ => by
      simp only [equalsPart, beq_self_eq_true]
  | .nil => rfl

theorem equalsParts_self : (exprs : List Expr) → equalsParts exprs exprs = true
  | [] => rfl
  | expr :: exprs => by
      simp only [equalsParts, equalsPart_self expr, equalsParts_self exprs, Bool.and_self]

end

theorem equals_self_of_countNans {expr : Expr} (noNan : expr.countNans = 0) :
    expr.equals expr = true := by
  cases expr with
  | number value =>
      rw [equals, Number.equals_self_iff]
      rintro origin rfl
      cases noNan
  | _ => exact equalsPart_self _

end Expr

end LazyLisp
