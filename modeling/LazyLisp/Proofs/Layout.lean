import LazyLisp.Layout
import LazyLisp.Proofs.Session

/-!
# Programs in other layouts

A program that is printed again, form by form on lines of their own, means the same, whether each
form is printed on one line or laid out over several. Only colors, the key to them and the dots at
the limit of the depth are nothing that can be read.
-/

set_option autoImplicit false

namespace LazyLisp

/-! ## Texts next to each other -/

namespace Reader

/-- Texts of which each holds the tokens of one row. -/
def DisplayEach : List Text → List (List Token) → Prop :=
  List.Forall₂ fun text tokens => tokens ≠ [] ∧ Displays text tokens

theorem displays_nil : Displays [] [] := fun _ _ _ laidOut => laidOut.weaken

/-- Texts with blanks between them hold the rows one after another. -/
theorem DisplayEach.intercalate {separator : Text}
    (allBlank : ∀ char ∈ separator, Text.isBlank char = true) (nonempty : separator ≠ [])
    {texts : List Text} {rows : List (List Token)} (each : DisplayEach texts rows) :
    Displays (separator.intercalate texts) rows.flatten := by
  induction each with
  | nil => exact displays_nil
  | @cons text tokens texts rows first others ih =>
      intro ending more rest laidOut
      cases others with
      | nil =>
          simp only [List.intercalate_singleton, List.flatten_cons, List.flatten_nil,
            List.append_nil]
          exact first.2 laidOut
      | cons second others =>
          rw [List.intercalate_cons_cons, List.flatten_cons]
          simp only [List.append_assoc]
          refine first.2 ((ih laidOut).blanks_append allBlank nonempty ?_)
          simp [second.1]

theorem Displays.between {left right : Token} (leftMark : left.isWord = false)
    (rightMark : right.isWord = false) {text : Text} {tokens : List Token}
    (displays : Displays text tokens) :
    Displays (left.text ++ (text ++ right.text)) (left :: (tokens ++ [right])) :=
  @Displays.enclosed left right leftMark rightMark text [] tokens [] displays
    fun _ _ _ laidOut => laidOut

theorem exists_displayEach {print : Expr → Text} {exprs : List Expr}
    (prints : ∀ expr ∈ exprs,
      ∃ tokens, Spells expr.unmarked tokens ∧ Displays (print expr) tokens) :
    ∃ rows, SpellsAll (Expr.unmarkedAll exprs) rows.flatten ∧
      DisplayEach (exprs.map print) rows := by
  induction exprs with
  | nil => exact ⟨[], .nil, .nil⟩
  | cons expr exprs ih =>
      rw [List.forall_mem_cons] at prints
      obtain ⟨tokens, spells, displays⟩ := prints.1
      obtain ⟨rows, spellsAll, each⟩ := ih prints.2
      exact ⟨tokens :: rows, .cons spells spellsAll, .cons ⟨spells.ne_nil, displays⟩ each⟩

/-- Well-formed expressions that are printed, one after another with line feeds between them, are
read again. -/
theorem readAll_of_prints {print : Expr → Text} {exprs : List Expr}
    (wellFormed : Expr.AllWellFormed exprs)
    (prints : ∀ expr ∈ exprs,
      ∃ tokens, Spells expr.unmarked tokens ∧ Displays (print expr) tokens) :
    readAll (['\n'].intercalate (exprs.map print)) = (exprs, none) := by
  obtain ⟨rows, spells, each⟩ := exists_displayEach prints
  rw [wellFormed.unmarkedAll_eq] at spells
  have laidOut := each.intercalate (List.forall_mem_singleton.mpr (by decide))
    (List.cons_ne_nil '\n' []) (@LaidOut.finished [] true (.gap .empty))
  rw [List.append_nil, List.append_nil] at laidOut
  obtain ⟨forms, read, same⟩ := formsWithin_of_laidOut wellFormed spells laidOut
    (Nat.lt_succ_self _)
  simp only [readAll, read, same, Option.map_none]

end Reader

/-! ## Layouts without colors -/

namespace Expr

mutual

/-- How many compound expressions are at most inside each other. -/
def nesting : Expr → Nat
  | .number _ | .boolean _ | .string _ | .symbol _ | .identifier _ | .operator _ | .nil => 0
  | .application head arguments => 1 + max (nesting head) (nestingAll arguments)
  | .ifThen condition consequent => 1 + max (nesting condition) (nesting consequent)
  | .ifThenElse condition consequent alternative =>
    1 + max (nesting condition) (max (nesting consequent) (nesting alternative))
  | .binding _ value => 1 + nesting value
  | .lambda _ body => 1 + nesting body
  | .cond clauses => 1 + nestingAll clauses
  | .list elements => 1 + nestingAll elements

def nestingAll : List Expr → Nat
  | [] => 0
  | expr :: exprs => max (nesting expr) (nestingAll exprs)

end

end Expr

namespace Layout

open Reader

/-- Neither colors nor the key to them. -/
structure Style.Plain (style : Style) : Prop where
  color : style.color = false
  legend : style.legend = false

variable {style : Style}

section

variable (plain : style.Plain)

include plain

theorem paint_of_plain (role : Role) (text : Text) : paint style role text = text := by
  simp [paint, plain.color]

theorem displays_paint (role : Role) (word : Text) :
    Displays (paint style role word) [.word word] := by
  rw [paint_of_plain plain]
  exact displays_word word

theorem legend_of_plain (indent : Int) : legend style indent = [] := by
  simp [legend, plain.legend]

theorem atom_of_plain (expr : Expr) : atom style expr = expr.render := by
  cases expr <;> simp [atom, paint_of_plain plain]

/-- A compound expression above the limit of the depth holds its parts between its brackets, on one
line or on several. -/
theorem displays_compound {indent : Int} {depth : Nat} (within : depth < style.depthLimit)
    (expr : Expr) {left right : Token} (leftMark : left.isWord = false)
    (rightMark : right.isWord = false) {opening closing : Char} (opens : left.text = [opening])
    (closes : right.text = [closing]) {parts : List Text} {rows : List (List Token)}
    (each : DisplayEach parts rows) :
    Displays (compound style indent depth expr opening parts closing)
      (left :: (rows.flatten ++ [right])) := by
  have joined {separator : Text} (allBlank : ∀ char ∈ separator, Text.isBlank char = true)
      (nonempty : separator ≠ []) :
      Displays (opening :: (separator.intercalate parts ++ [closing]))
        (left :: (rows.flatten ++ [right])) := by
    have enclosed := (each.intercalate allBlank nonempty).between leftMark rightMark
    rwa [opens, closes] at enclosed
  have notCut : ¬ style.depthLimit ≤ depth := by omega
  rw [compound, legend_of_plain plain, List.nil_append, if_neg notCut]
  split
  · exact joined (List.forall_mem_singleton.mpr (by decide)) (List.cons_ne_nil _ _)
  · refine joined ?_ (List.cons_ne_nil _ _)
    rw [List.forall_mem_cons]
    refine ⟨by decide, fun char member => ?_⟩
    rw [List.eq_of_mem_replicate member]
    decide

/-- A form is laid out with its keyword in front of its parts. -/
theorem displays_form (indent : Int) {depth : Nat} (within : depth < style.depthLimit)
    (expr : Expr) (role : Role) (word : String) {parts : List Text} {rows : List (List Token)}
    (each : DisplayEach parts rows) :
    Displays (compound style indent depth expr '(' (paint style role word.toList :: parts) ')')
      (.opening :: .word word.toList :: (rows.flatten ++ [.closing])) := by
  have eachWithWord : DisplayEach (paint style role word.toList :: parts)
      ([.word word.toList] :: rows) :=
    .cons ⟨List.cons_ne_nil _ _, displays_paint plain role word.toList⟩ each
  exact @displays_compound _ plain indent _ within expr .opening .closing rfl rfl _ _ rfl rfl _ _
    eachWithWord

/-- A head is laid out like any other part. -/
theorem layOut_application (head : Expr) (arguments : List Expr) (indent : Int) (depth : Nat) :
    layOut style (.application head arguments) indent depth =
      compound style indent depth (.application head arguments) '('
        (layOut style head (indent + 1) (depth + 1) ::
          layOutAll style arguments (indent + 1) (depth + 1)) ')' := by
  cases head <;> simp only [layOut, legend_of_plain plain, List.nil_append]

theorem displays_formals (names : List String) :
    Displays (formals style names)
      (.openingBracket :: (names.map (.word ·.toList) ++ [.closingBracket])) := by
  have each : DisplayEach (names.map String.toList)
      (names.map fun name => [.word name.toList]) := by
    rw [DisplayEach, List.forall₂_map_left_iff, List.forall₂_map_right_iff, List.forall₂_same]
    exact fun name _ => ⟨List.cons_ne_nil _ _, displays_word name.toList⟩
  have joined := @DisplayEach.intercalate [' '] (List.forall_mem_singleton.mpr (by decide))
    (List.cons_ne_nil _ _) _ _ each
  rw [← List.flatMap_def, ← List.map_eq_flatMap] at joined
  simp only [formals, paint_of_plain plain]
  exact @Displays.between .openingBracket .closingBracket rfl rfl _ _ joined

end

mutual

/-- The layout of an expression whose parts are all above the limit of the depth is a layout of
tokens that spell it without its marks. -/
theorem exists_spells_layOut (plain : style.Plain) : (expr : Expr) → (indent : Int) →
    (depth : Nat) → depth + expr.nesting ≤ style.depthLimit →
    ∃ tokens, Spells expr.unmarked tokens ∧ Displays (layOut style expr indent depth) tokens
  | .number _, _, _, _ | .boolean _, _, _, _ | .string _, _, _, _ | .symbol _, _, _, _
  | .identifier _, _, _, _ | .operator _, _, _, _ | .nil, _, _, _ => by
      simp only [layOut, legend_of_plain plain, atom_of_plain plain, List.nil_append]
      exact exists_spells _
  | .application head arguments, indent, depth, within => by
      simp only [Expr.nesting] at within
      obtain ⟨tokens, spells, displays⟩ :=
        exists_spells_layOut plain head (indent + 1) (depth + 1) (by omega)
      obtain ⟨rows, spellsAll, each⟩ :=
        exists_spells_layOutAll plain arguments (indent + 1) (depth + 1) (by omega)
      refine ⟨_, .application spells spellsAll, ?_⟩
      rw [layOut_application plain, ← List.append_assoc, ← List.flatten_cons]
      exact @displays_compound _ plain indent depth (by omega) _ .opening .closing rfl rfl _ _
        rfl rfl _ _ (.cons ⟨spells.ne_nil, displays⟩ each)
  | .ifThen condition consequent, indent, depth, within => by
      simp only [Expr.nesting] at within
      obtain ⟨tokens, spells, displays⟩ :=
        exists_spells_layOut plain condition (indent + 1) (depth + 1) (by omega)
      obtain ⟨tokens', spells', displays'⟩ :=
        exists_spells_layOut plain consequent (indent + 1) (depth + 1) (by omega)
      have parts : DisplayEach _ [tokens, tokens'] :=
        .cons ⟨spells.ne_nil, displays⟩ (.cons ⟨spells'.ne_nil, displays'⟩ .nil)
      have displaysForm := displays_form plain indent (show depth < style.depthLimit by omega)
        (.ifThen condition consequent) .keyword "if" parts
      simp only [List.flatten_cons, List.flatten_nil, List.append_assoc,
        List.nil_append] at displaysForm
      exact ⟨_, .ifThen spells spells', displaysForm⟩
  | .ifThenElse condition consequent alternative, indent, depth, within => by
      simp only [Expr.nesting] at within
      obtain ⟨tokens, spells, displays⟩ :=
        exists_spells_layOut plain condition (indent + 1) (depth + 1) (by omega)
      obtain ⟨tokens', spells', displays'⟩ :=
        exists_spells_layOut plain consequent (indent + 1) (depth + 1) (by omega)
      obtain ⟨tokens'', spells'', displays''⟩ :=
        exists_spells_layOut plain alternative (indent + 1) (depth + 1) (by omega)
      have parts : DisplayEach _ [tokens, tokens', tokens''] :=
        .cons ⟨spells.ne_nil, displays⟩ (.cons ⟨spells'.ne_nil, displays'⟩
          (.cons ⟨spells''.ne_nil, displays''⟩ .nil))
      have displaysForm := displays_form plain indent (show depth < style.depthLimit by omega)
        (.ifThenElse condition consequent alternative) .keyword "if" parts
      simp only [List.flatten_cons, List.flatten_nil, List.append_assoc,
        List.nil_append] at displaysForm
      exact ⟨_, .ifThenElse spells spells' spells'', displaysForm⟩
  | .binding name value, indent, depth, within => by
      simp only [Expr.nesting] at within
      obtain ⟨tokens, spells, displays⟩ :=
        exists_spells_layOut plain value (indent + 1) (depth + 1) (by omega)
      have parts : DisplayEach _ [[.word name.toList], tokens] :=
        .cons ⟨List.cons_ne_nil _ _, displays_paint plain .identifier name.toList⟩
          (.cons ⟨spells.ne_nil, displays⟩ .nil)
      have displaysForm := displays_form plain indent (show depth < style.depthLimit by omega)
        (.binding name value) .keyword "def" parts
      simp only [List.flatten_cons, List.flatten_nil, List.append_assoc, List.nil_append,
        List.cons_append] at displaysForm
      exact ⟨_, .binding spells, displaysForm⟩
  | .lambda names body, indent, depth, within => by
      simp only [Expr.nesting] at within
      obtain ⟨tokens, spells, displays⟩ :=
        exists_spells_layOut plain body (indent + 1) (depth + 1) (by omega)
      have parts : DisplayEach _ [_, tokens] :=
        .cons ⟨List.cons_ne_nil _ _, displays_formals plain names⟩
          (.cons ⟨spells.ne_nil, displays⟩ .nil)
      have displaysForm := displays_form plain indent (show depth < style.depthLimit by omega)
        (.lambda names body) .lambda "fn" parts
      simp only [List.flatten_cons, List.flatten_nil, List.append_assoc, List.nil_append,
        List.cons_append] at displaysForm
      exact ⟨_, .lambda spells, displaysForm⟩
  | .cond clauses, indent, depth, within => by
      simp only [Expr.nesting] at within
      obtain ⟨rows, spellsAll, each⟩ :=
        exists_spells_layOutAll plain clauses (indent + 1) (depth + 1) (by omega)
      exact ⟨_, .cond spellsAll, displays_form plain indent (by omega) _ .keyword "cond" each⟩
  | .list elements, indent, depth, within => by
      simp only [Expr.nesting] at within
      obtain ⟨rows, spellsAll, each⟩ :=
        exists_spells_layOutAll plain elements (indent + 1) (depth + 1) (by omega)
      have displaysList := @displays_compound _ plain indent depth (by omega) (.list elements)
        .openingBracket .closingBracket rfl rfl _ _ rfl rfl _ _ each
      exact ⟨_, .list spellsAll, displaysList⟩

theorem exists_spells_layOutAll (plain : style.Plain) : (exprs : List Expr) → (indent : Int) →
    (depth : Nat) → depth + Expr.nestingAll exprs ≤ style.depthLimit →
    ∃ rows, SpellsAll (Expr.unmarkedAll exprs) rows.flatten ∧
      DisplayEach (layOutAll style exprs indent depth) rows
  | [], _, _, _ => ⟨[], .nil, .nil⟩
  | expr :: exprs, indent, depth, within => by
      simp only [Expr.nestingAll] at within
      obtain ⟨tokens, spells, displays⟩ := exists_spells_layOut plain expr indent depth (by omega)
      obtain ⟨rows, spellsAll, each⟩ := exists_spells_layOutAll plain exprs indent depth (by omega)
      exact ⟨tokens :: rows, .cons spells spellsAll, .cons ⟨spells.ne_nil, displays⟩ each⟩

end

/-! ## Reading a layout again -/

/-- The innermost of `nesting` compound expressions stands at the depth `nesting - 1`, so none is
cut off if all the depths before `nesting` are above the limit. An atom is printed at any depth. -/
theorem exists_spells_layOut_of_depths (plain : style.Plain) {expr : Expr}
    (within : ∀ depth < expr.nesting, depth < style.depthLimit) (indent : Int) :
    ∃ tokens, Spells expr.unmarked tokens ∧ Displays (layOut style expr indent 0) tokens := by
  cases nested : expr.nesting with
  | zero =>
      have isAtom : layOut style expr indent 0 = expr.render := by
        cases expr with
        | number | boolean | string | symbol | identifier | operator | nil =>
            simp only [layOut, legend_of_plain plain, atom_of_plain plain, List.nil_append]
        | application | ifThen | ifThenElse | binding | lambda | cond | list =>
            simp only [Expr.nesting] at nested
            omega
      rw [isAtom]
      exact exists_spells expr
  | succ innermost =>
      have above := within innermost (by omega)
      exact exists_spells_layOut plain expr indent 0 (by omega)

/-- An expression that the reader has read is read again from its layout, with nothing left over: in
lines of any width and at any indentation, without colors, if no compound expression stands at the
limit of the depth or below it. -/
theorem readFirst_layOut {expr : Expr} (read : IsRead expr) (plain : style.Plain)
    (within : ∀ depth < expr.nesting, depth < style.depthLimit) (indent : Int) :
    readFirst (layOut style expr indent 0) = .ok (expr, []) := by
  have wellFormed := read.wellFormed
  obtain ⟨tokens, spells, displays⟩ := exists_spells_layOut_of_depths plain within indent
  rw [wellFormed.unmarked_eq] at spells
  exact readFirst_of_displays wellFormed spells displays

/-- Lines that are too narrow for a call of a call, with an empty list and a string over two lines
among the arguments and as many expressions inside each other as the limit allows. -/
theorem readFirst_layOut_narrow :
    readFirst "((f\n          -0.0\n          [])\n        \"a\nb\")".toList =
      .ok (.application (.application (.identifier "f") [.number (.zero true), .list []])
        [.string "a\nb"], []) := by
  let expr : Expr := .application
    (.application (.identifier "f") [.number (.zero true), .list []]) [.string "a\nb"]
  let style : Style := { width := 9, depthLimit := 3, color := false }
  have read : IsRead expr := ⟨"((f -0. '()) \"a\nb\")".toList, [], rfl⟩
  have laidOut : layOut style expr 3 0 =
      "((f\n          -0.0\n          [])\n        \"a\nb\")".toList := by decide +kernel
  rw [← laidOut]
  exact readFirst_layOut read ⟨rfl, rfl⟩ (by decide) 3

end Layout

/-! ## Sessions -/

open Reader

/-- A source that is read without a fault can be printed again, with each form on a line of its own
or laid out over several, in any width and at any indentation, without colors and without cutting
anything off. Every session runs what is printed just as the source: with the same values, the same
failure and the same environment afterwards. -/
theorem Session.run_of_printed {source : Text} {exprs : List Expr}
    (read : readAll source = (exprs, none)) (session : Session) :
    session.run (['\n'].intercalate (exprs.map Expr.render)) = session.run source ∧
      ∀ (style : Layout.Style) (indent : Int), style.Plain →
        (∀ expr ∈ exprs, expr.nesting ≤ style.depthLimit) →
        session.run (['\n'].intercalate (exprs.map fun expr => Layout.layOut style expr indent 0)) =
          session.run source := by
  have wellFormed : Expr.AllWellFormed exprs := by
    rw [Expr.allWellFormed_iff]
    have isRead := @isRead_of_readAll source
    rw [read] at isRead
    exact fun expr member => (isRead expr member).wellFormed
  have runs {text : Text} (reread : readAll text = (exprs, none)) :
      session.run text = session.run source := by
    simp only [run, performSource, reread, read]
  refine ⟨runs (readAll_of_prints wellFormed fun expr _ => exists_spells expr),
    fun style indent plain within => runs (readAll_of_prints wellFormed fun expr member => ?_)⟩
  have above := within expr member
  exact Layout.exists_spells_layOut plain expr indent 0 (by omega)

/-- Two forms of one line, laid out in lines that are too narrow for them. -/
theorem Session.run_of_printed_narrow :
    ({ } : Session).run "(def\n  y\n  nan)\n(=\n  y\n  y)".toList =
      ({ } : Session).run "(def y nan)(= y y);".toList := by
  let exprs : List Expr := [.binding "y" (.number (.nan .computed)),
    .application (.operator .equal) [.identifier "y", .identifier "y"]]
  let style : Layout.Style := { width := 5, color := false }
  have read : readAll "(def y nan)(= y y);".toList = (exprs, none) := rfl
  have printed : ['\n'].intercalate (exprs.map fun expr => Layout.layOut style expr 0 0) =
      "(def\n  y\n  nan)\n(=\n  y\n  y)".toList := by decide +kernel
  rw [← printed]
  exact (run_of_printed read { }).2 style 0 ⟨rfl, rfl⟩ (by decide)

end LazyLisp
