import LazyLisp.Proofs.Layout

/-!
# Parts of expressions

A compound expression is its brackets and what stands between them: words, formals and expressions.
Its text and its layout put the same parts between the brackets.
-/

set_option autoImplicit false

namespace LazyLisp.Layout

inductive Part where
  | word (role : Role) (text : Text)
  | formals (names : List String)
  | form (expr : Expr)

namespace Part

def render : Part → Text
  | .word _ text => text
  | .formals names => '[' :: renderNames names ++ [']']
  | .form expr => expr.render

/-- How a part stands in a layout, at the indentation and the depth of an expression. -/
def layOut (style : Style) (indent : Int) (depth : Nat) : Part → Text
  | .word role text => paint style role text
  | .formals names => Layout.formals style names
  | .form expr => Layout.layOut style expr indent depth

/-- The function of an application. An operator or an identifier is a word there. -/
def head : Expr → Part
  | .operator op => .word .operator op.token.toList
  | .identifier name => .word .identifier name.toList
  | expr => .form expr

end Part

end Layout

namespace Expr

open Layout

def parts : Expr → List Part
  | .application head arguments => .head head :: arguments.map .form
  | .ifThen condition consequent => [.word .keyword "if".toList, .form condition, .form consequent]
  | .ifThenElse condition consequent alternative =>
    [.word .keyword "if".toList, .form condition, .form consequent, .form alternative]
  | .binding name value =>
    [.word .keyword "def".toList, .word .identifier name.toList, .form value]
  | .lambda names body => [.word .lambda "fn".toList, .formals names, .form body]
  | .cond clauses => .word .keyword "cond".toList :: clauses.map .form
  | .list elements => elements.map .form
  | .number _ | .boolean _ | .string _ | .symbol _ | .identifier _ | .operator _ | .nil => []

def openingBracket : Expr → Char
  | .list _ => '['
  | _ => '('

def closingBracket : Expr → Char
  | .list _ => ']'
  | _ => ')'

theorem openingBracket_mem (expr : Expr) : expr.openingBracket ∈ ['(', '['] := by
  unfold openingBracket
  split <;> decide

theorem closingBracket_mem (expr : Expr) : expr.closingBracket ∈ [')', ']'] := by
  unfold closingBracket
  split <;> decide

theorem ne_brackets {char : Char} (other : char ∉ ['(', '[', ')', ']']) (expr : Expr) :
    char ≠ expr.openingBracket ∧ char ≠ expr.closingBracket := by
  constructor
  · rintro rfl
    exact other (List.mem_append_left [')', ']'] expr.openingBracket_mem)
  · rintro rfl
    exact other (List.mem_append_right ['(', '['] expr.closingBracket_mem)

theorem parts_of_isAtom {expr : Expr} (isAtom : expr.isAtom = true) : expr.parts = [] := by
  cases expr with
  | number | boolean | string | symbol | identifier | operator | nil => rfl
  | application | ifThen | ifThenElse | binding | lambda | cond | list => cases isAtom

end Expr

namespace Layout

variable {style : Style} {expr : Expr} {part : Part}

theorem Part.render_head (expr : Expr) : (Part.head expr).render = expr.render := by
  cases expr <;> rfl

theorem Part.eq_of_head {head inner : Expr} (isForm : Part.head head = .form inner) :
    inner = head := by
  unfold Part.head at isForm
  split at isForm <;> cases isForm
  rfl

/-! ## Texts -/

theorem intercalate_cons (separator first : Text) (others : List Text) :
    separator.intercalate (first :: others) = first ++ others.flatMap (separator ++ ·) := by
  induction others generalizing first with
  | nil => simp only [List.intercalate_singleton, List.flatMap_nil, List.append_nil]
  | cons second others ih =>
      rw [List.intercalate_cons_cons, ih, List.flatMap_cons]
      simp only [List.append_assoc]

theorem infix_intercalate (separator : Text) {text : Text} {texts : List Text}
    (member : text ∈ texts) : text <:+: separator.intercalate texts := by
  cases texts with
  | nil => cases member
  | cons first others =>
      rw [intercalate_cons]
      rcases List.mem_cons.mp member with rfl | later
      · exact (List.prefix_append _ _).isInfix
      · obtain ⟨before, behind, rfl⟩ := List.append_of_mem later
        rw [List.flatMap_append, List.flatMap_cons]
        exact ⟨first ++ before.flatMap (separator ++ ·) ++ separator,
          behind.flatMap (separator ++ ·), by simp only [List.append_assoc]⟩

theorem renderNames_eq (names : List String) :
    renderNames names = [' '].intercalate (names.map String.toList) := by
  fun_induction renderNames names with
  | case1 => rfl
  | case2 name => simp only [List.map_cons, List.map_nil, List.intercalate_singleton]
  | case3 name names more ih =>
      obtain ⟨second, others, rfl⟩ := List.exists_cons_of_ne_nil more
      rw [ih]
      rfl

theorem renderAfter_eq (exprs : List Expr) :
    Expr.renderAfter exprs = (exprs.map Expr.render).flatMap (' ' :: ·) := by
  induction exprs with
  | nil => rfl
  | cons expr exprs ih =>
      rw [Expr.renderAfter, ih, List.map_cons, List.flatMap_cons]

theorem map_render_form (exprs : List Expr) :
    (exprs.map Part.form).map Part.render = exprs.map Expr.render := by
  rw [List.map_map]
  rfl

/-- The text of a compound expression: its parts between its brackets, on one line. -/
theorem render_of_parts (compound : expr.isAtom = false) :
    expr.render = expr.openingBracket :: [' '].intercalate (expr.parts.map Part.render) ++
      [expr.closingBracket] := by
  cases expr with
  | number | boolean | string | symbol | identifier | operator | nil => cases compound
  | application head arguments =>
      rw [Expr.parts, List.map_cons, map_render_form, intercalate_cons, Part.render_head,
        Expr.render, renderAfter_eq]
      rfl
  | cond clauses =>
      rw [Expr.parts, List.map_cons, map_render_form, intercalate_cons, Expr.render, renderAfter_eq]
      rfl
  | list elements =>
      rw [Expr.parts, map_render_form, Expr.render]
      cases elements with
      | nil => rfl
      | cons element elements =>
          rw [Expr.renderRow, renderAfter_eq, List.map_cons, intercalate_cons]
          rfl
  | ifThen | ifThenElse | binding | lambda =>
      simp [Expr.parts, Part.render, Expr.render, Expr.openingBracket, Expr.closingBracket]

theorem layOutAll_eq (style : Style) (exprs : List Expr) (indent : Int) (depth : Nat) :
    layOutAll style exprs indent depth =
      (exprs.map Part.form).map (Part.layOut style indent depth) := by
  induction exprs with
  | nil => rfl
  | cons expr exprs ih => exact congrArg _ ih

theorem layOut_of_parts (compound : expr.isAtom = false) (indent : Int) (depth : Nat) :
    layOut style expr indent depth =
      Layout.compound style indent depth expr expr.openingBracket
        (expr.parts.map (Part.layOut style (indent + 1) (depth + 1))) expr.closingBracket := by
  cases expr with
  | number | boolean | string | symbol | identifier | operator | nil => cases compound
  | application head arguments =>
      rw [Expr.parts, List.map_cons, ← layOutAll_eq]
      cases head <;> rfl
  | cond clauses =>
      rw [Expr.parts, List.map_cons, ← layOutAll_eq]
      rfl
  | list elements =>
      rw [Expr.parts, ← layOutAll_eq]
      rfl
  | ifThen | ifThenElse | binding | lambda => rfl

theorem layOut_of_isAtom (isAtom : expr.isAtom = true) (indent : Int) (depth : Nat) :
    layOut style expr indent depth = legend style indent ++ atom style expr := by
  cases expr with
  | number | boolean | string | symbol | identifier | operator | nil => rfl
  | application | ifThen | ifThenElse | binding | lambda | cond | list => cases isAtom

end Layout

/-! ## Induction -/

namespace Expr

open Layout

variable {expr : Expr} {part : Part}

theorem not_isAtom_of_mem (member : part ∈ expr.parts) : expr.isAtom = false := by
  cases isAtom : expr.isAtom with
  | true =>
      rw [parts_of_isAtom isAtom] at member
      cases member
  | false => rfl

theorem render_infix_of_mem (member : part ∈ expr.parts) : part.render <:+: expr.render := by
  rw [render_of_parts (not_isAtom_of_mem member)]
  exact (infix_intercalate [' '] (List.mem_map_of_mem member)).trans
    ⟨[expr.openingBracket], [expr.closingBracket], rfl⟩

theorem length_render_of_mem (member : part ∈ expr.parts) :
    part.render.length + 2 ≤ expr.render.length := by
  have inside := infix_intercalate [' '] (List.mem_map_of_mem (f := Part.render) member)
  rw [render_of_parts (not_isAtom_of_mem member)]
  simpa using inside.length_le

/-- What holds of an expression if it holds of its parts holds of every expression. -/
theorem parts_induction {motive : Expr → Prop}
    (step : ∀ expr : Expr, (∀ inner, .form inner ∈ expr.parts → motive inner) → motive expr)
    (expr : Expr) : motive expr := by
  induction length : expr.render.length using Nat.strong_induction_on generalizing expr with
  | h length ih =>
      subst length
      refine step expr fun inner member => ih _ ?_ inner rfl
      have shorter : inner.render.length + 2 ≤ expr.render.length := length_render_of_mem member
      omega

theorem WellFormed.of_mem {inner : Expr} (wellFormed : expr.WellFormed)
    (member : .form inner ∈ expr.parts) : inner.WellFormed := by
  have ofForms {exprs : List Expr} (allWellFormed : AllWellFormed exprs)
      (member : .form inner ∈ exprs.map Part.form) : inner.WellFormed := by
    rw [List.mem_map_of_injective fun _ _ => Part.form.inj] at member
    exact allWellFormed_iff.mp allWellFormed inner member
  cases expr with
  | number | boolean | string | symbol | identifier | operator | nil => cases member
  | application head arguments =>
      obtain ⟨-, head, arguments⟩ := wellFormed
      rcases List.mem_cons.mp member with isHead | isArgument
      · rwa [Part.eq_of_head isHead.symm]
      · exact ofForms arguments isArgument
  | cond clauses => exact ofForms wellFormed (by simpa [parts] using member)
  | list elements => exact ofForms wellFormed member
  | ifThen condition consequent =>
      have isPart : inner = condition ∨ inner = consequent := by simpa [parts] using member
      rcases isPart with rfl | rfl
      · exact wellFormed.1
      · exact wellFormed.2
  | ifThenElse condition consequent alternative =>
      have isPart : inner = condition ∨ inner = consequent ∨ inner = alternative := by
        simpa [parts] using member
      rcases isPart with rfl | rfl | rfl
      · exact wellFormed.1
      · exact wellFormed.2.1
      · exact wellFormed.2.2
  | binding name value =>
      have isPart : inner = value := by simpa [parts] using member
      exact isPart ▸ wellFormed.2
  | lambda formals body =>
      have isPart : inner = body := by simpa [parts] using member
      exact isPart ▸ wellFormed.2.2

end Expr

end LazyLisp
