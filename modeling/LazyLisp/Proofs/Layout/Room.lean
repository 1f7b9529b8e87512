import LazyLisp.Proofs.Layout.Width

/-!
# Room behind the indentation

If there is room for the text of an expression behind its indentation, there is room for everything
inside of it, although that is indented further. So the expression is laid out as its text. If there
is no room, its parts are stacked.
-/

set_option autoImplicit false

namespace LazyLisp.Layout

/-- The texts below each other: each one but the first begins a line, behind a margin. -/
def stack (margin : Nat) : List Text → Text
  | [] => []
  | first :: others => first ++ others.flatMap fun text => '\n' :: List.replicate margin ' ' ++ text

theorem intercalate_eq_stack (margin : Nat) (texts : List Text) :
    ('\n' :: List.replicate margin ' ').intercalate texts = stack margin texts := by
  cases texts with
  | nil => rfl
  | cons first others => exact intercalate_cons _ first others

namespace Piece

variable {style : Style} {whole piece : Piece} {expr : Expr} {indent : Int} {depth : Nat}

/-- The second piece is the first one or laid out inside of it. -/
inductive Within : Piece → Piece → Prop where
  | self {piece : Piece} : Within piece piece
  | inside {expr : Expr} {part : Part} {indent : Int} {depth : Nat} {piece : Piece} :
      part ∈ expr.parts → Within ⟨part, indent + 1, depth + 1⟩ piece →
      Within ⟨.form expr, indent, depth⟩ piece

theorem Within.trans {middle : Piece} (within : Within whole middle)
    (within' : Within middle piece) : Within whole piece := by
  induction within with
  | self => exact within'
  | inside member _ ih => exact .inside member (ih within')

/-- Each level adds a step to the indentation, but the text of the part is shorter by the two
brackets around it. -/
theorem Within.exists_levels (within : Within whole piece) :
    ∃ levels : Nat, piece.indent = whole.indent + levels ∧ piece.depth = whole.depth + levels ∧
      piece.part.render.length + 2 * levels ≤ whole.part.render.length := by
  induction within with
  | self => exact ⟨0, by simp⟩
  | inside member _ ih =>
      obtain ⟨levels, indent, depth, shorter⟩ := ih
      have inner := Expr.length_render_of_mem member
      dsimp only [Part.render] at *
      exact ⟨levels + 1, by omega, by omega, by omega⟩

/-- There is room for the text of the piece behind its indentation. -/
def HasRoom (style : Style) (piece : Piece) : Prop :=
  piece.part.render.length + piece.indent * 2 ≤ style.width

theorem Within.hasRoom (within : Within whole piece) (room : HasRoom style whole) :
    HasRoom style piece := by
  obtain ⟨levels, indent, -, shorter⟩ := within.exists_levels
  simp only [HasRoom] at *
  omega

/-- No compound expression in the piece stands at the limit of the depth or below it. -/
def Shallow (style : Style) (whole : Piece) : Prop :=
  ∀ {inner : Expr} {indent : Int} {depth : Nat}, Within whole ⟨.form inner, indent, depth⟩ →
    inner.isAtom = false → depth < style.depthLimit

theorem Within.shallow (within : Within whole piece) (shallow : Shallow style whole) :
    Shallow style piece :=
  fun within' => shallow (within.trans within')

/-- By induction on the parts: on one line, the texts of the parts are joined to the text of the
expression. -/
theorem text_of_hasRoom (plain : style.Plain) (shallow : Shallow style piece)
    (room : HasRoom style piece) : piece.text style = piece.part.render := by
  obtain ⟨part, indent, depth⟩ := piece
  by_cases isForm : ∃ expr, part = .form expr
  · obtain ⟨expr, rfl⟩ := isForm
    induction expr using Expr.parts_induction generalizing indent depth with
    | step expr ih =>
        by_cases isAtom : expr.isAtom = true
        · exact text_of_isAtom plain isAtom indent depth
        have compound : expr.isAtom = false := by simpa using isAtom
        have same : ∀ part ∈ expr.parts,
            text style ⟨part, indent + 1, depth + 1⟩ = part.render := by
          intro part member
          have within : Within ⟨.form expr, indent, depth⟩ ⟨part, indent + 1, depth + 1⟩ :=
            .inside member .self
          by_cases isForm : ∃ inner, part = .form inner
          · obtain ⟨inner, rfl⟩ := isForm
            exact ih inner member _ _ (within.shallow shallow) (within.hasRoom room)
          · exact text_of_notForm plain isForm _ _
        rw [text_of_fits plain compound (shallow .self compound) room, List.map_congr_left same,
          Part.render, render_of_parts compound]
  · exact text_of_notForm plain isForm indent depth

theorem text_of_not_hasRoom (plain : style.Plain) (compound : expr.isAtom = false)
    (above : depth < style.depthLimit) (noRoom : ¬ HasRoom style ⟨.form expr, indent, depth⟩) :
    text style ⟨.form expr, indent, depth⟩ =
      expr.openingBracket :: stack (2 * (indent + 1)).toNat
        (expr.parts.map fun part => text style ⟨part, indent + 1, depth + 1⟩) ++
          [expr.closingBracket] := by
  rw [text_of_splits plain compound ⟨above, Int.not_le.mp noRoom⟩, intercalate_eq_stack]

end Piece

open Piece

variable {style : Style} {expr : Expr} {indent : Int} {depth : Nat}

/-- Where nothing is cut off, an expression is laid out as its text if there is room for that behind
its indentation, and then the same holds of every piece inside of it. Where there is no room for a
compound expression, each of its parts but the first one begins a line of its own. -/
theorem layOut_by_room (plain : style.Plain) (shallow : Shallow style ⟨.form expr, indent, depth⟩) :
    (expr.render.length + indent * 2 ≤ style.width →
      layOut style expr indent depth = expr.render ∧
      ∀ piece, Within ⟨.form expr, indent, depth⟩ piece →
        piece.part.render.length + piece.indent * 2 ≤ style.width ∧
        piece.part.layOut style piece.indent piece.depth = piece.part.render) ∧
    ∀ inner indent' depth', Within ⟨.form expr, indent, depth⟩ ⟨.form inner, indent', depth'⟩ →
      inner.isAtom = false → style.width < inner.render.length + indent' * 2 →
      layOut style inner indent' depth' =
        inner.openingBracket :: stack (2 * (indent' + 1)).toNat
          (inner.parts.map (Part.layOut style (indent' + 1) (depth' + 1))) ++
            [inner.closingBracket] := by
  constructor
  · intro room
    refine ⟨text_of_hasRoom plain shallow room, fun piece within => ?_⟩
    have pieceRoom : HasRoom style piece := within.hasRoom room
    exact ⟨pieceRoom, text_of_hasRoom plain (within.shallow shallow) pieceRoom⟩
  · intro inner indent' depth' within compound noRoom
    exact text_of_not_hasRoom plain compound (shallow within compound) (Int.not_le.mpr noRoom)

/-- A call in a call, in lines that have just the room for it, and in lines that are narrower by a
column. -/
theorem layOut_by_room_nested_call :
    let inner : Expr := .application (.identifier "g") [.identifier "x"]
    let expr : Expr := .application (.identifier "f") [inner]
    layOut { width := 9, color := false } expr 0 0 = "(f (g x))".toList ∧
      layOut { width := 9, color := false } inner 1 1 = "(g x)".toList ∧
      layOut { width := 8, color := false } expr 0 0 = "(f\n  (g x))".toList := by
  intro inner expr
  have shallow (style : Style) (deep : style.depthLimit = 32) :
      Shallow style ⟨.form expr, 0, 0⟩ := by
    intro inner indent depth within _
    obtain ⟨levels, -, isDepth, shorter⟩ := within.exists_levels
    have length : expr.render.length = 9 := by decide
    simp only [Part.render, length] at isDepth shorter
    omega
  have inside : Within ⟨.form expr, 0, 0⟩ ⟨.form inner, 1, 1⟩ :=
    .inside (List.mem_cons_of_mem _ List.mem_cons_self) .self
  obtain ⟨whole, pieces⟩ := (layOut_by_room ⟨rfl, rfl⟩
    (shallow { width := 9, color := false } rfl)).1 (by decide)
  refine ⟨whole, (pieces _ inside).2, ?_⟩
  exact (layOut_by_room ⟨rfl, rfl⟩ (shallow { width := 8, color := false } rfl)).2 expr 0 0
    .self rfl (by decide)

end LazyLisp.Layout
