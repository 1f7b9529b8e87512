import LazyLisp.Proofs.Number.Display
import LazyLisp.Proofs.Reader.Mentions
import LazyLisp.Proofs.Reader.Parting

/-!
# Control characters

No control character is needed to write an expression. The only ones in its text are those in its
strings, and these stand in the source that the expression is read from.
-/

set_option autoImplicit false

namespace LazyLisp

def Text.isControl (char : Char) : Bool := char.toNat < 0x20

/-! ## Words -/

theorem Text.visible_of_all {text : Text}
    (visible : (text.all fun char => !isControl char) = true) :
    ∀ char ∈ text, isControl char = false := by
  simpa only [List.all_eq_true, Bool.not_eq_true'] using visible

namespace Reader

theorem SignText.visible {negative : Bool} {text : Text} (signed : SignText negative text) :
    ∀ char ∈ text, Text.isControl char = false := by
  cases signed <;> exact Text.visible_of_all rfl

theorem DigitsText.visible {values : List Nat} {text : Text} (digits : DigitsText values text) :
    ∀ char ∈ text, Text.isControl char = false := by
  intro char member
  have isValue : Text.digitValue? char ∈ values.map some :=
    digits ▸ List.mem_map_of_mem member
  obtain ⟨value, -, found⟩ := List.mem_map.mp isValue
  obtain ⟨first, isFirst, -⟩ := Option.map_eq_some_iff.mp found.symm
  have inScript := List.find?_some isFirst
  have visible : ∀ first ∈ Text.zeroCodes, 0x20 ≤ first := by decide
  have firstVisible := visible first (List.mem_of_find?_eq_some isFirst)
  simp only [Bool.and_eq_true, decide_eq_true_eq] at inScript
  simp only [Text.isControl, decide_eq_false_iff_not]
  omega

theorem MantissaText.visible {whole fraction : List Nat} {text : Text}
    (isMantissa : MantissaText whole fraction text) :
    ∀ char ∈ text, Text.isControl char = false := by
  cases isMantissa with
  | whole digits => exact digits.visible
  | point before after =>
      rw [List.forall_mem_append, List.forall_mem_cons]
      exact ⟨before.visible, by decide, after.visible⟩

theorem ExponentText.visible {power : Int} {text : Text} (isExponent : ExponentText power text) :
    ∀ char ∈ text, Text.isControl char = false := by
  cases isExponent with
  | none => exact List.forall_mem_nil _
  | power letter signed digits =>
      rw [List.cons_append, List.forall_mem_cons, List.forall_mem_append]
      refine ⟨?_, signed.visible, digits.visible⟩
      rcases letter with rfl | rfl <;> decide

theorem Literal.visible {number : Number} {text : Text} (literal : Literal number text) :
    ∀ char ∈ text, Text.isControl char = false := by
  cases literal with
  | infinite signed | nan signed =>
      rw [List.forall_mem_append]
      exact ⟨signed.visible, Text.visible_of_all rfl⟩
  | decimal signed isMantissa isExponent =>
      rw [List.forall_mem_append, List.forall_mem_append]
      exact ⟨⟨signed.visible, isMantissa.visible⟩, isExponent.visible⟩

theorem not_isControl_of_isNameChar {char : Char} (isName : isNameChar char = true) :
    Text.isControl char = false := by
  have table : ∀ code < 0x20, isNameChar (Char.ofNat code) = false := by decide
  simp only [Text.isControl, decide_eq_false_iff_not]
  intro isControl
  have noName := table char.toNat isControl
  rw [Char.ofNat_toNat, isName] at noName
  cases noName

theorem IsName.visible {name : String} (isName : IsName name) :
    ∀ char ∈ name.toList, Text.isControl char = false :=
  fun char member => not_isControl_of_isNameChar (List.all_eq_true.mp isName.chars char member)

end Reader

theorem Operator.visible_token (op : Operator) :
    ∀ char ∈ op.token.toList, Text.isControl char = false := by
  cases op <;> exact Text.visible_of_all rfl

/-! ## Strings -/

namespace Expr

open Reader

mutual

/-- The payloads of the strings in the expression. -/
def payloads : Expr → List Text
  | .string payload => [payload.toList]
  | .application head arguments => payloads head ++ payloadsAll arguments
  | .ifThen condition consequent => payloads condition ++ payloads consequent
  | .ifThenElse condition consequent alternative =>
    payloads condition ++ payloads consequent ++ payloads alternative
  | .binding _ value => payloads value
  | .lambda _ body => payloads body
  | .cond clauses => payloadsAll clauses
  | .list elements => payloadsAll elements
  | .number _ | .boolean _ | .symbol _ | .identifier _ | .operator _ | .nil => []

def payloadsAll : List Expr → List Text
  | [] => []
  | expr :: exprs => payloads expr ++ payloadsAll exprs

end

mutual

theorem oneLine_iff : {expr : Expr} → expr.OneLine ↔ ∀ payload ∈ expr.payloads, '\n' ∉ payload
  | .string _ => by simp only [OneLine, payloads, List.forall_mem_singleton]
  | .application _ _ => by
      simp only [OneLine, payloads, List.forall_mem_append, oneLine_iff, allOneLine_iff]
  | .ifThen _ _ => by simp only [OneLine, payloads, List.forall_mem_append, oneLine_iff]
  | .ifThenElse _ _ _ => by
      simp only [OneLine, payloads, List.forall_mem_append, oneLine_iff, and_assoc]
  | .binding _ value => @oneLine_iff value
  | .lambda _ body => @oneLine_iff body
  | .cond clauses => @allOneLine_iff clauses
  | .list elements => @allOneLine_iff elements
  | .number _ | .boolean _ | .symbol _ | .identifier _ | .operator _ | .nil => by
      simp [OneLine, payloads]

theorem allOneLine_iff : {exprs : List Expr} →
    AllOneLine exprs ↔ ∀ payload ∈ payloadsAll exprs, '\n' ∉ payload
  | [] => by simp [AllOneLine, payloadsAll]
  | _ :: _ => by
      simp only [AllOneLine, payloadsAll, List.forall_mem_append, oneLine_iff, allOneLine_iff]

end

section

variable {char : Char} (control : Text.isControl char = true)

include control

theorem notMem_of_visible {text : Text} (visible : ∀ char ∈ text, Text.isControl char = false) :
    char ∉ text := by
  intro member
  rw [visible char member] at control
  cases control

theorem ne_of_visible {other : Char} (visible : Text.isControl other = false) : char ≠ other := by
  rintro rfl
  rw [visible] at control
  cases control

theorem notMem_renderNames {names : List String} (areNames : ∀ name ∈ names, IsName name) :
    char ∉ renderNames names := by
  induction names with
  | nil => exact List.not_mem_nil
  | cons name names ih =>
      rw [List.forall_mem_cons] at areNames
      have nameAbsent := notMem_of_visible control areNames.1.visible
      cases names with
      | nil => exact nameAbsent
      | cons second names =>
          simp only [renderNames, List.mem_append, List.mem_cons, not_or]
          exact ⟨nameAbsent, ne_of_visible control (by decide), ih areNames.2⟩

mutual

/-- A control character that is in no string is not in the text of the expression. -/
theorem WellFormed.notMem_render : {expr : Expr} → expr.WellFormed →
    (∀ payload ∈ expr.payloads, char ∉ payload) → char ∉ expr.render
  | .number value, wellFormed, absent =>
      notMem_of_visible control (Number.literal_render value).visible
  | .boolean value, _, _ => by
      refine notMem_of_visible control ?_
      cases value <;> exact Text.visible_of_all rfl
  | .string payload, _, absent => by
      simp (disch := decide) only [render, List.cons_append, List.mem_cons, List.mem_append,
        List.not_mem_nil, ne_of_visible control, or_false, false_or]
      exact absent _ List.mem_cons_self
  | .symbol name, wellFormed, _ => by
      have isName : IsName name := wellFormed
      simp only [render, List.mem_cons, not_or]
      exact ⟨ne_of_visible control (by decide), notMem_of_visible control isName.visible⟩
  | .identifier name, wellFormed, _ =>
      notMem_of_visible control (IsIdentifier.toIsName wellFormed).visible
  | .operator op, _, _ => notMem_of_visible control op.visible_token
  | .nil, _, _ => notMem_of_visible control (Text.visible_of_all rfl)
  | .application _ _, wellFormed, absent => by
      rw [payloads, List.forall_mem_append] at absent
      simp (disch := decide) only [render, List.mem_append, List.mem_cons, List.not_mem_nil,
        ne_of_visible control, or_false, false_or, not_or]
      exact ⟨wellFormed.2.1.notMem_render absent.1, wellFormed.2.2.notMem_renderAfter absent.2⟩
  | .ifThen _ _, wellFormed, absent => by
      rw [payloads, List.forall_mem_append] at absent
      simp (disch := decide) only [render, List.mem_append, List.mem_cons, List.not_mem_nil,
        ne_of_visible control, or_false, false_or, not_or]
      exact ⟨wellFormed.1.notMem_render absent.1, wellFormed.2.notMem_render absent.2⟩
  | .ifThenElse _ _ _, wellFormed, absent => by
      rw [payloads, List.forall_mem_append, List.forall_mem_append] at absent
      simp (disch := decide) only [render, List.mem_append, List.mem_cons, List.not_mem_nil,
        ne_of_visible control, or_false, false_or, not_or]
      exact ⟨⟨wellFormed.1.notMem_render absent.1.1, wellFormed.2.1.notMem_render absent.1.2⟩,
        wellFormed.2.2.notMem_render absent.2⟩
  | .binding _ _, wellFormed, absent => by
      simp (disch := decide) only [render, List.mem_append, List.mem_cons, List.not_mem_nil,
        ne_of_visible control, or_false, false_or, not_or]
      exact ⟨notMem_of_visible control wellFormed.1.visible, wellFormed.2.notMem_render absent⟩
  | .lambda _ _, wellFormed, absent => by
      simp (disch := decide) only [render, List.mem_append, List.mem_cons, List.not_mem_nil,
        ne_of_visible control, or_false, false_or, not_or]
      exact ⟨notMem_renderNames control wellFormed.2.1, wellFormed.2.2.notMem_render absent⟩
  | .cond clauses, wellFormed, absent => by
      have allWellFormed : AllWellFormed clauses := wellFormed
      simp (disch := decide) only [render, List.mem_append, List.mem_cons, List.not_mem_nil,
        ne_of_visible control, or_false, false_or]
      exact allWellFormed.notMem_renderAfter absent
  | .list elements, wellFormed, absent => by
      have allWellFormed : AllWellFormed elements := wellFormed
      have absentAfter := allWellFormed.notMem_renderAfter absent
      simp (disch := decide) only [render, List.cons_append, List.mem_append, List.mem_cons,
        List.not_mem_nil, ne_of_visible control, or_false, false_or]
      intro member
      cases elements with
      | nil => cases member
      | cons element elements => exact absentAfter (List.mem_cons_of_mem ' ' member)

theorem AllWellFormed.notMem_renderAfter : {exprs : List Expr} → AllWellFormed exprs →
    (∀ payload ∈ payloadsAll exprs, char ∉ payload) → char ∉ renderAfter exprs
  | [], _, _ => List.not_mem_nil
  | _ :: _, wellFormed, absent => by
      rw [payloadsAll, List.forall_mem_append] at absent
      simp (disch := decide) only [renderAfter, List.cons_append, List.mem_append, List.mem_cons,
        ne_of_visible control, false_or, not_or]
      exact ⟨wellFormed.1.notMem_render absent.1, wellFormed.2.notMem_renderAfter absent.2⟩

end

end

end Expr

namespace Reader

/-! ## Sources -/

/-- From the end of a source a step leaves an end of it, and the payloads of what it reads stand in
the source. -/
def Quotes (source : Text) (read : Text → Except Stop (Expr × Text)) : Prop :=
  ∀ ⦃text rest : Text⦄ ⦃expr : Expr⦄, text <:+ source → read text = .ok (expr, rest) →
    rest <:+ source ∧ ∀ payload ∈ expr.payloads, payload <:+: source

section

variable {source : Text} {read : Text → Except Stop (Expr × Text)} (quotes : Quotes source read)

include quotes

theorem required_quotes (part : RequiredPart) : Quotes source (required read part) := by
  intro text rest expr inside found
  simp only [required] at found
  split at found
  · cases found
  · exact quotes ((skipGap_suffix text).trans inside) found

theorem sequence_quotes {closer : Closer} {budget : Nat} {text rest : Text} {exprs : List Expr}
    (inside : text <:+ source) (found : sequence read closer budget text = .ok (exprs, rest)) :
    ∀ payload ∈ Expr.payloadsAll exprs, payload <:+: source := by
  induction budget generalizing text exprs with
  | zero => cases found
  | succ budget ih =>
      simp only [sequence] at found
      split at found
      · cases found
        exact List.forall_mem_nil _
      · split at found
        · cases found
        · obtain ⟨⟨expr, behind⟩, first, found⟩ := exists_of_bind_eq_ok found
          obtain ⟨⟨others, behind'⟩, more, found⟩ := exists_of_bind_eq_ok found
          cases found
          obtain ⟨left, quoted⟩ := quotes ((skipGap_suffix text).trans inside) first
          rw [Expr.payloadsAll, List.forall_mem_append]
          exact ⟨quoted, ih left more⟩

theorem function_quotes {text rest : Text} {head : Expr} (inside : text <:+ source)
    (found : function read text = .ok (head, rest)) :
    rest <:+ source ∧ ∀ payload ∈ head.payloads, payload <:+: source := by
  unfold function at found
  split at found
  · exact quotes inside found
  · split at found
    next isFunction =>
      cases found
      obtain ⟨word, -, split⟩ := (consumes_of_functionName? isFunction).passes
      refine ⟨List.IsSuffix.trans ⟨word, split.symm⟩ inside, ?_⟩
      rcases functionName?_cases isFunction with ⟨op, rfl⟩ | ⟨name, rfl, -⟩ <;>
        exact List.forall_mem_nil _
    · cases found

omit quotes in
theorem payloads_inside_of_atom? {text rest : Text} {expr : Expr}
    (found : atom? text = .ok (some (expr, rest))) :
    ∀ payload ∈ expr.payloads, payload <:+: text := by
  unfold atom? at found
  split at found
  · cases found
    exact List.forall_mem_nil _
  · split at found
    · cases found
      exact List.forall_mem_nil _
    · split at found
      · cases found
        exact List.forall_mem_nil _
      · split at found
        · cases found
          exact List.forall_mem_nil _
        · unfold committedAtom? at found
          split at found
          · split at found <;> cases found
            exact List.forall_mem_nil _
          · split at found
            next payload _ isPayload =>
              cases found
              rw [append_eq_of_payload? isPayload, Expr.payloads, List.forall_mem_singleton,
                String.toList_ofList]
              exact ⟨['"'], '"' :: rest, rfl⟩
            · cases found
          · simp only [Except.ok.injEq, Option.map_eq_some_iff] at found
            obtain ⟨⟨name, behind⟩, -, same⟩ := found
            cases same
            exact List.forall_mem_nil _

theorem Parses.payloads_inside {budget : Nat} {text rest : Text} {expr : Expr}
    (inside : text <:+ source) (parses : Parses read budget text expr rest) :
    ∀ payload ∈ expr.payloads, payload <:+: source := by
  have behind {char : Char} {text : Text} (inside : char :: text <:+ source) : text <:+ source :=
    (List.suffix_cons char text).trans inside
  have behindGap {text : Text} (inside : text <:+ source) : skipGap text <:+ source :=
    (skipGap_suffix text).trans inside
  have behindWord {char : Char} {word : String} {inner text : Text}
      (inside : char :: inner <:+ source) (isWord : word? word (skipGap inner) = some text) :
      text <:+ source :=
    (suffix_of_word? isWord).trans (behindGap (behind inside))
  cases parses with
  | atom found =>
      exact fun payload member =>
        (payloads_inside_of_atom? found payload member).trans inside.isInfix
  | ifThen isIf readCondition readConsequent _ =>
      obtain ⟨left, condition⟩ := required_quotes quotes _ (behindWord inside isIf) readCondition
      obtain ⟨-, consequent⟩ := required_quotes quotes _ left readConsequent
      rw [Expr.payloads, List.forall_mem_append]
      exact ⟨condition, consequent⟩
  | ifThenElse isIf readCondition readConsequent _ readAlternative =>
      obtain ⟨left, condition⟩ := required_quotes quotes _ (behindWord inside isIf) readCondition
      obtain ⟨left, consequent⟩ := required_quotes quotes _ left readConsequent
      obtain ⟨-, alternative⟩ := required_quotes quotes _ (behindGap left) readAlternative
      rw [Expr.payloads, List.forall_mem_append, List.forall_mem_append]
      exact ⟨⟨condition, consequent⟩, alternative⟩
  | binding _ isDef isName readValue =>
      have left := (suffix_of_name? isName).trans (behindGap (behindWord inside isDef))
      exact (required_quotes quotes _ left readValue).2
  | lambda _ _ isFn opened readFormals readBody =>
      have names := behindGap (behindWord inside isFn)
      rw [opened] at names
      have left := (suffix_of_formals readFormals).trans (behind names)
      exact (required_quotes quotes _ left readBody).2
  | cond _ _ _ isCond readClauses =>
      exact sequence_quotes quotes (behindWord inside isCond) readClauses
  | application _ _ _ _ readHead readArguments =>
      obtain ⟨left, head⟩ := function_quotes quotes (behindGap (behind inside)) readHead
      rw [Expr.payloads, List.forall_mem_append]
      exact ⟨head, sequence_quotes quotes left readArguments⟩
  | list readElements => exact sequence_quotes quotes (behind inside) readElements
  | quoted readElements => exact sequence_quotes quotes (behind (behind inside)) readElements

end

/-- By induction on the budget: each part is read from an end of the source. -/
theorem readWithin_quotes (source : Text) (budget : Nat) : Quotes source (readWithin budget) := by
  induction budget with
  | zero =>
      intro text rest expr inside found
      cases found
  | succ budget ih =>
      intro text rest expr inside found
      exact ⟨(suffix_of_readWithin found).trans inside,
        (parses_of_expression found).payloads_inside ih ((skipGap_suffix text).trans inside)⟩

/-- A control character that is not in the source is not in the text of a form that is read
there. -/
theorem notMem_render_of_readForm {source text rest : Text} {expr : Expr} (inside : text <:+ source)
    (read : readForm text = .ok (expr, rest)) {char : Char} (control : Text.isControl char = true)
    (absent : char ∉ source) : char ∉ expr.render := by
  refine (readWithin_sound _ read).notMem_render control fun payload member isInside => ?_
  have quoted := (readWithin_quotes source _ inside read).2 payload member
  exact absent (quoted.mem isInside)

end Reader

end LazyLisp
