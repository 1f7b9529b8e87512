import LazyLisp.Proofs.Layout.Parts
import LazyLisp.Proofs.Reader.Controls
import LazyLisp.Proofs.Text.Lines

/-!
# The width of a layout

A line of a layout is one piece of the expression: behind its margin, and in front of the closing
brackets of the expressions around it that end with it. Up to these brackets it stays within the
width, unless the piece is one that cannot be split.
-/

set_option autoImplicit false

namespace LazyLisp

theorem Expr.WellFormed.render_ne_nil {expr : Expr} (wellFormed : expr.WellFormed) :
    expr.render ≠ [] := by
  cases expr with
  | number value =>
      obtain ⟨char, letters, spelled, -⟩ := (Number.literal_render value).exists_cons
      simp only [render, spelled, ne_eq, reduceCtorEq, not_false_eq_true]
  | identifier name => exact (Reader.IsIdentifier.toIsName wellFormed).nonempty
  | boolean value => cases value <;> exact List.cons_ne_nil _ _
  | operator op => cases op <;> decide
  | string | symbol | nil | application | ifThen | ifThenElse | binding | lambda | cond | list =>
      exact List.cons_ne_nil _ _

namespace Layout

/-- A part together with where it is laid out. -/
structure Piece where
  part : Part
  indent : Int
  depth : Nat

namespace Piece

def text (style : Style) (piece : Piece) : Text :=
  piece.part.layOut style piece.indent piece.depth

/-- The dots of an empty list take more room than the list. -/
inductive CutsEmpty (style : Style) : Piece → Prop where
  | list {indent : Int} {depth : Nat} : style.depthLimit ≤ depth →
      CutsEmpty style ⟨.form (.list []), indent, depth⟩
  | inside {expr : Expr} {part : Part} {indent : Int} {depth : Nat} : part ∈ expr.parts →
      depth < style.depthLimit → CutsEmpty style ⟨part, indent + 1, depth + 1⟩ →
      CutsEmpty style ⟨.form expr, indent, depth⟩

/-- The piece is on one line, and there not longer than its part, unless the dots of an empty list
are in it. -/
structure OnOneLine (style : Style) (piece : Piece) : Prop where
  noLineFeed : '\n' ∉ piece.text style
  length : (piece.text style).length ≤ piece.part.render.length ∨ CutsEmpty style piece

/-- An atom, a word, formals, an empty list or dots. -/
def Indivisible (style : Style) (piece : Piece) : Prop :=
  match piece.part with
  | .word _ _ | .formals _ => True
  | .form expr => expr.parts = [] ∨ style.depthLimit ≤ piece.depth

theorem Indivisible.of_notForm {style : Style} {part : Part} {indent : Int} {depth : Nat}
    (notForm : ¬ ∃ inner, part = .form inner) : Indivisible style ⟨part, indent, depth⟩ := by
  cases part with
  | word | formals => trivial
  | form inner => exact absurd ⟨inner, rfl⟩ notForm

/-- The parts of the expression have lines of their own. -/
def Splits (style : Style) (expr : Expr) (indent : Int) (depth : Nat) : Prop :=
  depth < style.depthLimit ∧ style.width < expr.render.length + indent * 2

/-- In the layout of the whole, the piece is at the end of a line or has only closing brackets
behind it there, of expressions that have their parts on several lines. -/
inductive EndsLine (style : Style) : Piece → Piece → Text → Prop where
  | whole {piece : Piece} : EndsLine style piece piece []
  | inside {expr : Expr} {part : Part} {indent : Int} {depth : Nat} {piece : Piece}
      {closing : Text} :
      Splits style expr indent depth → part ∈ expr.parts →
      EndsLine style ⟨part, indent + 1, depth + 1⟩ piece closing →
      EndsLine style ⟨.form expr, indent, depth⟩ piece closing
  | last {expr : Expr} {part : Part} {indent : Int} {depth : Nat} {piece : Piece}
      {closing : Text} :
      Splits style expr indent depth → expr.parts.getLast? = some part →
      EndsLine style ⟨part, indent + 1, depth + 1⟩ piece closing →
      EndsLine style ⟨.form expr, indent, depth⟩ piece (closing ++ [expr.closingBracket])

/-- What stands in front of a piece: blanks and opening brackets, at most up to its indentation. -/
structure Margin (indent : Int) (margin : Text) : Prop where
  chars : ∀ char ∈ margin, char ∈ [' ', '(', '[']
  length : margin.length ≤ 2 * indent

/-- The line holds one piece, and up to the end of it stays within the width, unless the piece is
indivisible or holds the dots of an empty list. -/
def Fits (style : Style) (whole : Piece) (line : Text) : Prop :=
  ∃ margin piece closing, line = margin ++ piece.text style ++ closing ∧
    Margin piece.indent margin ∧ EndsLine style whole piece closing ∧
    ((margin ++ piece.text style).length ≤ style.width ∨ Indivisible style piece ∨
      CutsEmpty style piece)

end Piece

/-! ## Texts of one line -/

variable {style : Style} {expr : Expr} {part : Part}

theorem notMem_intercalate {char : Char} {separator : Text} (noSeparator : char ∉ separator)
    {texts : List Text} (absent : ∀ text ∈ texts, char ∉ text) :
    char ∉ separator.intercalate texts := by
  cases texts with
  | nil => exact List.not_mem_nil
  | cons first others =>
      rw [List.forall_mem_cons] at absent
      simp only [intercalate_cons, List.mem_append, List.mem_flatMap, not_or, not_exists, not_and]
      exact ⟨absent.1, fun text member => ⟨noSeparator, absent.2 text member⟩⟩

theorem length_intercalate_le (separator : Text) {parts : List Part} {left right : Part → Text}
    (shorter : ∀ part ∈ parts, (left part).length ≤ (right part).length) :
    (separator.intercalate (parts.map left)).length ≤
      (separator.intercalate (parts.map right)).length := by
  induction parts with
  | nil => rfl
  | cons first others ih =>
      rw [List.forall_mem_cons] at shorter
      have shorterOthers := ih shorter.2
      cases others with
      | nil => simpa using shorter.1
      | cons second others =>
          simp only [List.map_cons, List.intercalate_cons_cons, List.length_append] at *
          omega

open Piece

/-- An expression that is cut off is not shorter than the dots, unless it is an empty list. -/
theorem three_le_length (wellFormed : expr.WellFormed) (compound : expr.isAtom = false)
    (nonempty : expr ≠ .list []) : 3 ≤ expr.render.length := by
  obtain ⟨part, member, visible⟩ : ∃ part ∈ expr.parts, part.render ≠ [] := by
    cases expr with
    | number | boolean | string | symbol | identifier | operator | nil => cases compound
    | application head arguments =>
        refine ⟨_, List.mem_cons_self, ?_⟩
        rw [Part.render_head]
        exact wellFormed.2.1.render_ne_nil
    | ifThen | ifThenElse | binding | lambda | cond =>
        exact ⟨_, List.mem_cons_self, by decide⟩
    | list elements =>
        cases elements with
        | nil => exact absurd rfl nonempty
        | cons element elements => exact ⟨_, List.mem_cons_self, wellFormed.1.render_ne_nil⟩
  have length := Expr.length_render_of_mem member
  have positive := List.length_pos_iff.mpr visible
  omega

section

variable (plain : style.Plain)

include plain

theorem text_of_isAtom (isAtom : expr.isAtom = true) (indent : Int) (depth : Nat) :
    text style ⟨.form expr, indent, depth⟩ = expr.render := by
  rw [text, Part.layOut, layOut_of_isAtom isAtom, legend_of_plain plain, atom_of_plain plain,
    List.nil_append]

/-- Words and formals are laid out as they are. -/
theorem text_of_notForm (notForm : ¬ ∃ inner, part = .form inner) (indent : Int) (depth : Nat) :
    text style ⟨part, indent, depth⟩ = part.render := by
  cases part with
  | word role word => exact paint_of_plain plain role word
  | formals names =>
      simp only [text, Part.layOut, formals, paint_of_plain plain, Part.render, renderNames_eq]
  | form inner => exact absurd ⟨inner, rfl⟩ notForm

theorem text_of_cut (compound : expr.isAtom = false) {depth : Nat} (cut : style.depthLimit ≤ depth)
    (indent : Int) : text style ⟨.form expr, indent, depth⟩ = ['.', '.', '.'] := by
  change layOut style expr indent depth = _
  rw [layOut_of_parts compound, Layout.compound, legend_of_plain plain, if_pos cut, List.nil_append]

theorem text_of_fits (compound : expr.isAtom = false) {indent : Int} {depth : Nat}
    (above : depth < style.depthLimit) (fits : expr.render.length + indent * 2 ≤ style.width) :
    text style ⟨.form expr, indent, depth⟩ =
      expr.openingBracket :: [' '].intercalate
        (expr.parts.map fun part => text style ⟨part, indent + 1, depth + 1⟩) ++
          [expr.closingBracket] := by
  change layOut style expr indent depth = _
  rw [layOut_of_parts compound, Layout.compound, legend_of_plain plain, if_neg (by omega),
    if_pos fits, List.nil_append]
  rfl

theorem text_of_splits (compound : expr.isAtom = false) {indent : Int} {depth : Nat}
    (splits : Splits style expr indent depth) :
    text style ⟨.form expr, indent, depth⟩ =
      expr.openingBracket :: ('\n' :: List.replicate (2 * (indent + 1)).toNat ' ').intercalate
        (expr.parts.map fun part => text style ⟨part, indent + 1, depth + 1⟩) ++
          [expr.closingBracket] := by
  obtain ⟨above, tooLong⟩ := splits
  change layOut style expr indent depth = _
  rw [layOut_of_parts compound, Layout.compound, legend_of_plain plain, if_neg (by omega),
    if_neg (by omega), List.nil_append]
  rfl

theorem onOneLine_of_parts (compound : expr.isAtom = false) {indent : Int} {depth : Nat}
    (above : depth < style.depthLimit) (fits : expr.render.length + indent * 2 ≤ style.width)
    (each : ∀ part ∈ expr.parts, OnOneLine style ⟨part, indent + 1, depth + 1⟩) :
    OnOneLine style ⟨.form expr, indent, depth⟩ := by
  constructor
  · have joined := @notMem_intercalate '\n' [' '] (by decide) _
      (List.forall_mem_map.mpr fun part member => (each part member).noLineFeed)
    have brackets := expr.ne_brackets (by decide : '\n' ∉ ['(', '[', ')', ']'])
    simpa [text_of_fits plain compound above fits, brackets] using joined
  · by_cases cutInside : ∃ part ∈ expr.parts, CutsEmpty style ⟨part, indent + 1, depth + 1⟩
    · obtain ⟨part, member, cutEmpty⟩ := cutInside
      exact .inr (.inside member above cutEmpty)
    · have shorter := length_intercalate_le [' '] fun part member =>
        (each part member).length.resolve_right fun cutEmpty => cutInside ⟨part, member, cutEmpty⟩
      refine .inl ?_
      rw [text_of_fits plain compound above fits, Part.render, render_of_parts compound]
      simpa using shorter

/-- By induction on the parts: where the text of an expression fits behind its indentation, the
texts of its parts do. -/
theorem onOneLine_of_fits (wellFormed : expr.WellFormed) (oneLine : '\n' ∉ expr.render)
    {indent : Int} {depth : Nat} (fits : expr.render.length + indent * 2 ≤ style.width) :
    OnOneLine style ⟨.form expr, indent, depth⟩ := by
  induction expr using Expr.parts_induction generalizing indent depth with
  | step expr ih =>
      by_cases isAtom : expr.isAtom = true
      · have spelled := text_of_isAtom plain isAtom indent depth
        exact ⟨spelled ▸ oneLine, .inl (spelled ▸ le_rfl)⟩
      · have compound : expr.isAtom = false := by simpa using isAtom
        by_cases cut : style.depthLimit ≤ depth
        · have spelled := text_of_cut plain compound cut indent
          refine ⟨spelled ▸ by decide, ?_⟩
          by_cases isEmpty : expr = .list []
          · exact .inr (isEmpty ▸ .list cut)
          · exact .inl (spelled ▸ three_le_length wellFormed compound isEmpty)
        · refine onOneLine_of_parts plain compound (by omega) fits fun part member => ?_
          have partOneLine := mt (Expr.render_infix_of_mem member).mem oneLine
          have shorter := Expr.length_render_of_mem member
          by_cases isForm : ∃ inner, part = .form inner
          · obtain ⟨inner, rfl⟩ := isForm
            rw [Part.render] at shorter
            exact ih inner member (wellFormed.of_mem member) partOneLine (by omega)
          · have spelled := text_of_notForm plain isForm (indent + 1) (depth + 1)
            exact ⟨spelled ▸ partOneLine, .inl (spelled ▸ le_rfl)⟩

end

/-! ## Lines -/

namespace Piece

variable {indent : Int} {depth : Nat} {margin line : Text}

theorem isMargin_replicate (nonneg : 0 ≤ indent) :
    Margin indent (List.replicate (2 * indent).toNat ' ') := by
  refine ⟨fun char member => ?_, by rw [List.length_replicate]; omega⟩
  rw [List.eq_of_mem_replicate member]
  decide

theorem Margin.openingBracket (isMargin : Margin indent margin) (expr : Expr) :
    Margin (indent + 1) (margin ++ [expr.openingBracket]) := by
  have length := isMargin.length
  refine ⟨?_, by rw [List.length_append, List.length_singleton]; omega⟩
  rw [List.forall_mem_append, List.forall_mem_singleton]
  exact ⟨isMargin.chars, List.mem_cons_of_mem ' ' expr.openingBracket_mem⟩

theorem Margin.oneLine (isMargin : Margin indent margin) : '\n' ∉ margin := by
  intro member
  have isChar := isMargin.chars '\n' member
  revert isChar
  decide

theorem Fits.of_oneLine {piece : Piece} (isMargin : Margin piece.indent margin)
    (noLineFeed : '\n' ∉ piece.text style)
    (within : (margin ++ piece.text style).length ≤ style.width ∨ Indivisible style piece ∨
      CutsEmpty style piece)
    (member : line ∈ Text.split '\n' (margin ++ piece.text style)) : Fits style piece line := by
  have isLine : line = margin ++ piece.text style := by
    rw [Text.split_of_notMem (by simp [isMargin.oneLine, noLineFeed])] at member
    exact List.mem_singleton.mp member
  exact ⟨margin, piece, [], by rw [isLine, List.append_nil], isMargin, .whole, within⟩

theorem Fits.inside (splits : Splits style expr indent depth) (member : part ∈ expr.parts)
    (fits : Fits style ⟨part, indent + 1, depth + 1⟩ line) :
    Fits style ⟨.form expr, indent, depth⟩ line := by
  obtain ⟨margin, piece, closing, isLine, isMargin, ends, within⟩ := fits
  exact ⟨margin, piece, closing, isLine, isMargin, .inside splits member ends, within⟩

theorem Fits.last (splits : Splits style expr indent depth)
    (isLast : expr.parts.getLast? = some part)
    (fits : Fits style ⟨part, indent + 1, depth + 1⟩ line) :
    Fits style ⟨.form expr, indent, depth⟩ (line ++ [expr.closingBracket]) := by
  obtain ⟨margin, piece, closing, rfl, isMargin, ends, within⟩ := fits
  exact ⟨margin, piece, _, List.append_assoc _ _ _, isMargin, .last splits isLast ends, within⟩

/-- By induction on the parts that are left, the first of them behind a margin: each part begins a
line of its own, and the closing bracket stands at the end of the last one. -/
theorem fits_of_splits (nonneg : 0 ≤ indent) (splits : Splits style expr indent depth)
    (each : ∀ part ∈ expr.parts, ∀ margin line, Margin (indent + 1) margin →
      line ∈ Text.split '\n' (margin ++ text style ⟨part, indent + 1, depth + 1⟩) →
      Fits style ⟨part, indent + 1, depth + 1⟩ line)
    {parts : List Part} (isSuffix : parts <:+ expr.parts) (nonempty : parts ≠ [])
    (isMargin : Margin (indent + 1) margin)
    (member : line ∈ Text.split '\n'
      (margin ++ (('\n' :: List.replicate (2 * (indent + 1)).toNat ' ').intercalate
        (parts.map fun part => text style ⟨part, indent + 1, depth + 1⟩) ++
          [expr.closingBracket]))) :
    Fits style ⟨.form expr, indent, depth⟩ line := by
  induction parts generalizing margin with
  | nil => exact absurd rfl nonempty
  | cons part parts ih =>
      have isPart : part ∈ expr.parts := isSuffix.mem List.mem_cons_self
      cases parts with
      | nil =>
          obtain ⟨before, whole⟩ := isSuffix
          have isLast : expr.parts.getLast? = some part := by
            rw [← whole, List.getLast?_concat]
          rw [List.map_singleton, List.intercalate_singleton, ← List.append_assoc] at member
          have noLineFeed := (expr.ne_brackets (by decide : '\n' ∉ ['(', '[', ')', ']'])).2
          obtain ⟨lines, last, pieces, pieces'⟩ := Text.exists_split_append
            (mt List.mem_singleton.mp noLineFeed)
            (margin ++ text style ⟨part, indent + 1, depth + 1⟩)
          have fits := each part isPart margin
          rw [pieces] at fits
          rw [pieces', List.mem_append, List.mem_singleton] at member
          rcases member with inLines | rfl
          · exact .inside splits isPart (fits _ isMargin (List.mem_append_left _ inLines))
          · exact .last splits isLast (fits _ isMargin (by simp))
      | cons second parts =>
          have behind := ih ((List.suffix_cons _ _).trans isSuffix) (List.cons_ne_nil _ _)
            (isMargin_replicate (by omega))
          simp only [List.map_cons, List.intercalate_cons_cons, List.append_assoc, List.cons_append]
            at member
          rw [← List.append_assoc, Text.split_append_lineFeed, List.mem_append] at member
          rcases member with first | later
          · exact .inside splits isPart (each part isPart _ _ isMargin first)
          · exact behind later

/-- By induction on the parts: an expression on one line is within the width if it fits there, and
the lines of one that does not fit are the lines of its parts. -/
theorem fits_of_mem_split (plain : style.Plain) (wellFormed : expr.WellFormed)
    (oneLine : '\n' ∉ expr.render) (nonneg : 0 ≤ indent) (isMargin : Margin indent margin)
    (member : line ∈ Text.split '\n' (margin ++ text style ⟨.form expr, indent, depth⟩)) :
    Fits style ⟨.form expr, indent, depth⟩ line := by
  induction expr using Expr.parts_induction generalizing indent depth margin line with
  | step expr ih =>
      by_cases isAtom : expr.isAtom = true
      · refine .of_oneLine isMargin ?_ (.inr (.inl (.inl (Expr.parts_of_isAtom isAtom)))) member
        rwa [text_of_isAtom plain isAtom]
      have compound : expr.isAtom = false := by simpa using isAtom
      by_cases cut : style.depthLimit ≤ depth
      · refine .of_oneLine isMargin ?_ (.inr (.inl (.inr cut))) member
        rw [text_of_cut plain compound cut]
        decide
      by_cases fits : expr.render.length + indent * 2 ≤ style.width
      · obtain ⟨noLineFeed, shorter | cutEmpty⟩ := onOneLine_of_fits plain wellFormed oneLine fits
        · have marginLength := isMargin.length
          refine .of_oneLine isMargin noLineFeed (.inl ?_) member
          rw [Part.render] at shorter
          rw [List.length_append]
          omega
        · exact .of_oneLine isMargin noLineFeed (.inr (.inr cutEmpty)) member
      have splits : Splits style expr indent depth := ⟨by omega, by omega⟩
      have spelled := text_of_splits plain compound splits
      by_cases noParts : expr.parts = []
      · refine .of_oneLine isMargin ?_ (.inr (.inl (.inl noParts))) member
        have brackets := expr.ne_brackets (by decide : '\n' ∉ ['(', '[', ')', ']'])
        simp [spelled, noParts, brackets]
      refine fits_of_splits nonneg splits ?_ (List.suffix_refl _) noParts
        (isMargin.openingBracket expr) (by simpa [spelled] using member)
      intro part isPart margin line isMargin member
      have partOneLine := mt (Expr.render_infix_of_mem isPart).mem oneLine
      by_cases isForm : ∃ inner, part = .form inner
      · obtain ⟨inner, rfl⟩ := isForm
        exact ih inner isPart (wellFormed.of_mem isPart) partOneLine (by omega) isMargin member
      · refine .of_oneLine isMargin ?_ (.inr (.inl (.of_notForm isForm))) member
        rwa [text_of_notForm plain isForm]

end Piece

/-- Each line of a layout, if its first one begins at its indentation, holds one piece of the
expression: behind blanks and opening brackets, and in front of closing brackets of expressions that
have their parts on several lines. Up to the end of the piece the line is not longer than the width,
unless the piece is an atom, a word, formals, an empty list or the dots of what is cut off, or holds
the dots of an empty list. -/
theorem fits_layOut (read : IsRead expr) (oneLine : expr.OneLine) (plain : style.Plain)
    {indent : Int} (nonneg : 0 ≤ indent) {line : Text}
    (member : line ∈ Text.split '\n'
      (List.replicate (2 * indent).toNat ' ' ++ layOut style expr indent 0)) :
    Fits style ⟨.form expr, indent, 0⟩ line := by
  have noLineFeed : '\n' ∉ expr.render :=
    read.wellFormed.notMem_render (by decide) (Expr.oneLine_iff.mp oneLine)
  exact fits_of_mem_split plain read.wellFormed noLineFeed nonneg (isMargin_replicate nonneg) member

/-- The inner call fits, and the line is too long only by the bracket of the outer one. -/
theorem fits_layOut_nested_call :
    Fits { width := 7, color := false }
      ⟨.form (.application (.identifier "f")
        [.application (.identifier "g") [.identifier "x"]]), 0, 0⟩ "  (g x))".toList :=
  fits_layOut ⟨"(f (g x))".toList, [], rfl⟩ ⟨trivial, ⟨trivial, trivial, trivial⟩, trivial⟩
    ⟨rfl, rfl⟩ (le_refl 0) (by decide +kernel)

/-! ## Lines that are too long -/

/-- The part is the other one or stands inside it. -/
inductive Holds : Part → Part → Prop where
  | self {part : Part} : Holds part part
  | inside {expr : Expr} {inner part : Part} :
      inner ∈ expr.parts → Holds inner part → Holds (.form expr) part

/-- An atom, a word or formals of the expression alone go beyond the width on the line. -/
def Overruns (width : Int) (expr : Expr) (line : Text) : Prop :=
  ∃ part before behind, Holds (.form expr) part ∧
    (∀ inner, part = .form inner → inner.isAtom = true) ∧ line = before ++ part.render ++ behind ∧
    width < (before ++ part.render).length

/-- There are only lists in the expression. -/
def OnlyLists (expr : Expr) : Prop :=
  ∀ part, Holds (.form expr) part → ∃ elements, part = .form (.list elements)

theorem onlyLists_list {elements : List Expr} (each : ∀ element ∈ elements, OnlyLists element) :
    OnlyLists (.list elements) := by
  intro part holds
  cases holds with
  | self => exact ⟨elements, rfl⟩
  | inside member holds =>
      obtain ⟨element, isElement, rfl⟩ := List.mem_map.mp member
      exact each element isElement part holds

theorem OnlyLists.not_overruns (onlyLists : OnlyLists expr) (width : Int) (line : Text) :
    ¬ Overruns width expr line := by
  rintro ⟨part, before, behind, holds, leaf, -⟩
  obtain ⟨elements, isList⟩ := onlyLists part holds
  cases leaf _ isList

/-- Lines that are too long without any atoms, words or formals: an empty list is not split, dots
are longer than the empty list in their place, and a list that fits behind its indentation is put on
one line even where the closing bracket of another one follows. -/
theorem layOut_too_long :
    (IsRead (.list []) ∧ (Expr.list []).OneLine ∧
      Text.split '\n' (layOut { width := 1, color := false } (.list []) 0 0) = ["[]".toList] ∧
      ¬ Overruns 1 (.list []) "[]".toList) ∧
    (IsRead (.list [.list []]) ∧ (Expr.list [.list []]).OneLine ∧
      Text.split '\n' (layOut { width := 4, depthLimit := 1, color := false }
        (.list [.list []]) 0 0) = ["[...]".toList] ∧
      ¬ Overruns 4 (.list [.list []]) "[...]".toList) ∧
    IsRead (.list [.list [], .list [.list [], .list []]]) ∧
      (Expr.list [.list [], .list [.list [], .list []]]).OneLine ∧
      Text.split '\n' (layOut { width := 9, color := false }
        (.list [.list [], .list [.list [], .list []]]) 0 0) =
          ["[[]".toList, "  [[] []]]".toList] ∧
      ¬ Overruns 9 (.list [.list [], .list [.list [], .list []]]) "  [[] []]]".toList := by
  have empty : OnlyLists (.list []) := onlyLists_list (List.forall_mem_nil _)
  have one : OnlyLists (.list [.list []]) := onlyLists_list (by simpa using empty)
  have two : OnlyLists (.list [.list [], .list []]) := onlyLists_list (by simpa using empty)
  have nested : OnlyLists (.list [.list [], .list [.list [], .list []]]) :=
    onlyLists_list (by simpa using ⟨empty, two⟩)
  have oneLine : (Expr.list [.list [], .list [.list [], .list []]]).OneLine :=
    ⟨trivial, ⟨trivial, trivial, trivial⟩, trivial⟩
  exact ⟨⟨⟨"[]".toList, [], rfl⟩, trivial, by decide +kernel, empty.not_overruns _ _⟩,
    ⟨⟨"[[]]".toList, [], rfl⟩, ⟨trivial, trivial⟩, by decide +kernel, one.not_overruns _ _⟩,
    ⟨"[[] [[] []]]".toList, [], rfl⟩, oneLine, by decide +kernel, nested.not_overruns _ _⟩

end Layout

end LazyLisp
