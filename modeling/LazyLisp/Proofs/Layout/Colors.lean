import LazyLisp.Proofs.Layout.Parts
import LazyLisp.Proofs.Reader.Controls

/-!
# Layouts with and without colors

Colors are no part of a layout: without their codes, the text of a layout with colors is the text of
the layout without. What is laid out holds none of the codes itself, as it is read from a source
without the character that they begin with.
-/

set_option autoImplicit false

namespace LazyLisp.Layout

def Style.colored (style : Style) : Style := { style with color := true }

def Style.uncolored (style : Style) : Style := { style with color := false }

/-- The codes that begin the colors, and the code that ends them. -/
def codes : List Text :=
  resetCode :: [Role.identifier, .symbol, .operator, .lambda, .keyword].map Role.code

/-- The text without the codes in it and without its first characters, which are the rest of a code
that has begun in front of it. -/
def eraseFrom : Nat → Text → Text
  | _, [] => []
  | begun + 1, _ :: text => eraseFrom begun text
  | 0, char :: text =>
    match codes.find? (·.isPrefixOf (char :: text)) with
    | some code => eraseFrom (code.length - 1) text
    | none => char :: eraseFrom 0 text

def eraseCodes (text : Text) : Text := eraseFrom 0 text

theorem eraseCodes_code {code : Text} (isCode : code ∈ codes) (rest : Text) :
    eraseCodes (code ++ rest) = eraseCodes rest := by
  simp only [codes, List.map_cons, List.map_nil, List.mem_cons, List.not_mem_nil, or_false]
    at isCode
  rcases isCode with rfl | rfl | rfl | rfl | rfl | rfl <;> rfl

theorem eraseCodes_cons {char : Char} (noEscape : char ≠ '\x1b') (text : Text) :
    eraseCodes (char :: text) = char :: eraseCodes text := by
  have begins : ∀ code ∈ codes, code.head? = some '\x1b' := by decide
  have noCode : codes.find? (·.isPrefixOf (char :: text)) = none := by
    rw [List.find?_eq_none]
    intro code isCode
    cases code with
    | nil => cases begins _ isCode
    | cons first rest =>
        cases begins _ isCode
        simp [List.isPrefixOf, Ne.symm noEscape]
  rw [eraseCodes, eraseFrom, noCode]
  rfl

/-! ## Texts with colors -/

/-- Without codes, the first text is the second, whatever stands behind it. -/
def Erases (colored plain : Text) : Prop :=
  ∀ rest, eraseCodes (colored ++ rest) = plain ++ eraseCodes rest

theorem Erases.code {code : Text} (isCode : code ∈ codes) : Erases code [] := eraseCodes_code isCode

theorem Erases.of_notMem {text : Text} (noEscape : '\x1b' ∉ text) : Erases text text := by
  intro rest
  induction text with
  | nil => rfl
  | cons char text ih =>
      rw [List.mem_cons, not_or] at noEscape
      rw [List.cons_append, eraseCodes_cons (Ne.symm noEscape.1), ih noEscape.2, List.cons_append]

theorem Erases.append {colored colored' plain plain' : Text} (erases : Erases colored plain)
    (erases' : Erases colored' plain') : Erases (colored ++ colored') (plain ++ plain') := by
  intro rest
  rw [List.append_assoc, erases, erases', List.append_assoc]

theorem Erases.eraseCodes_eq {colored plain : Text} (erases : Erases colored plain) :
    eraseCodes colored = plain := by
  have whole := erases []
  rwa [List.append_nil, show eraseCodes [] = [] from rfl, List.append_nil] at whole

/-- What is decided without the colors is decided alike. -/
theorem Erases.ite {condition : Prop} [Decidable condition] {colored colored' plain plain' : Text}
    (erases : Erases colored plain) (erases' : Erases colored' plain') :
    Erases (if condition then colored else colored') (if condition then plain else plain') := by
  split
  · exact erases
  · exact erases'

theorem Erases.intercalate {α : Type} {separator : Text} (noEscape : '\x1b' ∉ separator)
    {items : List α} {colored plain : α → Text}
    (each : ∀ item ∈ items, Erases (colored item) (plain item)) :
    Erases (separator.intercalate (items.map colored))
      (separator.intercalate (items.map plain)) := by
  induction items with
  | nil => exact .of_notMem List.not_mem_nil
  | cons first others ih =>
      rw [List.forall_mem_cons] at each
      have erasesOthers := ih each.2
      cases others with
      | nil => simpa using each.1
      | cons second others =>
          simp only [List.map_cons, List.intercalate_cons_cons] at erasesOthers ⊢
          exact (each.1.append (.of_notMem noEscape)).append erasesOthers

variable {expr : Expr}

theorem erases_paint (style : Style) (role : Role) {text : Text} (noEscape : '\x1b' ∉ text) :
    Erases (paint style.colored role text) (paint style.uncolored role text) := by
  have isCode : role.code ∈ codes := by cases role <;> decide
  have painted := (Erases.code isCode).append (.of_notMem noEscape)
    |>.append (.code (List.mem_cons_self : resetCode ∈ codes))
  rwa [List.nil_append, List.append_nil] at painted

theorem erases_legend (style : Style) (indent : Int) :
    Erases (legend style.colored indent) (legend style.uncolored indent) := by
  let items : List (Role × Text) := [(.identifier, "Identifier".toList),
    (.symbol, ":symbol".toList), (.operator, "Built-in".toList), (.lambda, "Lambda".toList),
    (.keyword, "Special Form".toList)]
  have noEscape : ∀ item ∈ items, '\x1b' ∉ item.2 := by decide
  have joined := @Erases.intercalate _ " | ".toList (by decide) items
    (fun item => paint style.colored item.1 item.2)
    (fun item => paint style.uncolored item.1 item.2)
    fun item member => erases_paint style item.1 (noEscape item member)
  exact .ite (((Erases.of_notMem (by decide)).append joined).append (.of_notMem (by decide)))
    (.of_notMem List.not_mem_nil)

theorem erases_atom (style : Style) (noEscape : '\x1b' ∉ expr.render) :
    Erases (atom style.colored expr) (atom style.uncolored expr) := by
  cases expr with
  | identifier | symbol | operator => exact erases_paint style _ noEscape
  | number | boolean | string | nil | application | ifThen | ifThenElse | binding | lambda | cond
  | list => exact .of_notMem noEscape

theorem erases_formals (style : Style) {names : List String}
    (noEscape : '\x1b' ∉ (Part.formals names).render) :
    Erases (formals style.colored names) (formals style.uncolored names) := by
  have each : ∀ name ∈ names, '\x1b' ∉ name.toList := by
    intro name member isInside
    have inside := infix_intercalate [' '] (List.mem_map_of_mem (f := String.toList) member)
    rw [Part.render, renderNames_eq] at noEscape
    exact noEscape (List.mem_cons_of_mem _ (List.mem_append_left _ (inside.mem isInside)))
  have joined := @Erases.intercalate _ [' '] (by decide) names
    (fun name => paint style.colored .identifier name.toList)
    (fun name => paint style.uncolored .identifier name.toList)
    fun name member => erases_paint style .identifier (each name member)
  exact ((Erases.of_notMem (by decide : '\x1b' ∉ ['['])).append joined).append
    (.of_notMem (by decide))

/-! ## Layouts -/

/-- A compound expression is laid out the same way in both styles. -/
theorem Erases.compound (style : Style) (indent : Int) (depth : Nat) (expr : Expr)
    {parts : List Part} {colored plain : Part → Text}
    (each : ∀ part ∈ parts, Erases (colored part) (plain part)) :
    Erases
      (Layout.compound style.colored indent depth expr expr.openingBracket (parts.map colored)
        expr.closingBracket)
      (Layout.compound style.uncolored indent depth expr expr.openingBracket (parts.map plain)
        expr.closingBracket) := by
  have brackets := expr.ne_brackets (by decide : '\x1b' ∉ ['(', '[', ')', ']'])
  have enclosed {separator : Text} (noEscape : '\x1b' ∉ separator) :
      Erases
        (expr.openingBracket :: separator.intercalate (parts.map colored) ++ [expr.closingBracket])
        (expr.openingBracket :: separator.intercalate (parts.map plain) ++ [expr.closingBracket]) :=
    ((Erases.of_notMem (mt List.mem_singleton.mp brackets.1)).append
      (.intercalate noEscape each)).append (.of_notMem (mt List.mem_singleton.mp brackets.2))
  refine (erases_legend style indent).append (.ite (.of_notMem (by decide)) ?_)
  refine .ite (enclosed (by decide)) (enclosed ?_)
  simp only [List.mem_cons, List.mem_replicate, not_or, not_and]
  exact ⟨by decide, fun _ => by decide⟩

/-- By induction on the parts. -/
theorem erases_layOut (style : Style) (noEscape : '\x1b' ∉ expr.render) (indent : Int)
    (depth : Nat) :
    Erases (layOut style.colored expr indent depth) (layOut style.uncolored expr indent depth) := by
  induction expr using Expr.parts_induction generalizing indent depth with
  | step expr ih =>
      by_cases isAtom : expr.isAtom = true
      · rw [layOut_of_isAtom isAtom, layOut_of_isAtom isAtom]
        exact (erases_legend style indent).append (erases_atom style noEscape)
      · have compound : expr.isAtom = false := by simpa using isAtom
        rw [layOut_of_parts compound, layOut_of_parts compound]
        refine .compound style indent depth expr fun part member => ?_
        have partNoEscape := mt (Expr.render_infix_of_mem member).mem noEscape
        cases part with
        | word role text => exact erases_paint style role partNoEscape
        | formals names => exact erases_formals style partNoEscape
        | form inner => exact ih inner member partNoEscape _ _

open Reader in
/-- In every style and at every indentation, an expression that is read from a source without escape
characters has the same layout with colors and without, apart from the codes. -/
theorem eraseCodes_layOut {source : Text} (noEscape : '\x1b' ∉ source)
    (returned : (∃ rest, readFirst source = .ok (expr, rest)) ∨ expr ∈ (readAll source).1)
    (style : Style) (indent : Int) :
    eraseCodes (layOut style.colored expr indent 0) = layOut style.uncolored expr indent 0 := by
  have textNoEscape : '\x1b' ∉ expr.render := by
    rcases returned with ⟨rest, read⟩ | member
    · exact notMem_render_of_readForm (List.suffix_refl _) (readFirst_eq_ok_iff.mp read) (by decide)
        noEscape
    · rw [← map_fst_sourceForms, List.mem_map] at member
      obtain ⟨form, isForm, rfl⟩ := member
      obtain ⟨inside, -, rest, read⟩ := read_of_mem_formsWithin isForm
      exact notMem_render_of_readForm inside read (by decide) noEscape
  exact (erases_layOut style textNoEscape indent 0).eraseCodes_eq

theorem eraseCodes_layOut_narrow :
    eraseCodes "(\x1b[94mf\x1b[0m\n  \x1b[96m:a\x1b[0m)".toList = "(f\n  :a)".toList := by
  let style : Style := { width := 4 }
  let expr : Expr := .application (.identifier "f") [.symbol "a"]
  have colored : layOut style.colored expr 0 0 =
      "(\x1b[94mf\x1b[0m\n  \x1b[96m:a\x1b[0m)".toList := by
    decide +kernel
  have plain : layOut style.uncolored expr 0 0 = "(f\n  :a)".toList := by decide +kernel
  have noEscape : '\x1b' ∉ "(f :a)".toList := by decide
  rw [← colored, ← plain]
  exact eraseCodes_layOut noEscape (.inl ⟨[], rfl⟩) style 0

end LazyLisp.Layout
