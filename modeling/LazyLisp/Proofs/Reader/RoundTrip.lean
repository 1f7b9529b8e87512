import LazyLisp.Proofs.Reader.Spelling

/-!
# Reading the text of an expression

The text of an expression is a layout of tokens that spell it, so it reads back as the expression.
Only the marks of its `nan`s are lost.
-/

set_option autoImplicit false

namespace LazyLisp.Reader

/-! ## Building layouts -/

section

variable {ending : Text} {behindWord : Bool} {tokens : List Token} {text : Text}

theorem LaidOut.cons_mark {token : Token} (mark : token.isWord = false)
    (laidOut : LaidOut ending false tokens text) :
    LaidOut ending behindWord (token :: tokens) (token.text ++ text) := by
  refine @LaidOut.token ending behindWord token tokens [] text .empty (fun _ isWord => ?_) ?_
  · rw [mark] at isWord
    cases isWord
  · rwa [mark]

theorem LaidOut.cons_word {word : Text} (laidOut : LaidOut ending true tokens text) :
    LaidOut ending false (.word word :: tokens) (word ++ text) :=
  @LaidOut.token ending false (.word word) tokens [] text .empty (fun never => by cases never)
    laidOut

/-- A blank separates whatever stands around it. -/
theorem LaidOut.cons_blank {behindWord' : Bool} {blank : Char} (isBlank : Text.isBlank blank = true)
    (noEnd : tokens ≠ []) (laidOut : LaidOut ending behindWord tokens text) :
    LaidOut ending behindWord' tokens (blank :: text) := by
  cases laidOut with
  | finished => exact absurd rfl noEnd
  | @token _ token tokens gap text isGap _ laidOut =>
      exact @LaidOut.token ending behindWord' token tokens (blank :: gap) text
        (.blank isBlank isGap) (fun _ _ => List.cons_ne_nil blank gap) laidOut

/-- So do several blanks. -/
theorem LaidOut.blanks_append {behindWord' : Bool} {blanks : Text}
    (allBlank : ∀ char ∈ blanks, Text.isBlank char = true) (nonempty : blanks ≠ [])
    (noEnd : tokens ≠ []) (laidOut : LaidOut ending behindWord tokens text) :
    LaidOut ending behindWord' tokens (blanks ++ text) := by
  induction blanks generalizing behindWord' with
  | nil => exact absurd rfl nonempty
  | cons blank blanks ih =>
      rw [List.forall_mem_cons] at allBlank
      by_cases last : blanks = []
      · subst last
        exact laidOut.cons_blank allBlank.1 noEnd
      · exact (@ih false allBlank.2 last).cons_blank allBlank.1 noEnd

end

/-- The text holds the tokens and ends with them: whatever may stand behind a word may follow. -/
def Displays (text : Text) (tokens : List Token) : Prop :=
  ∀ ⦃ending : Text⦄ ⦃more : List Token⦄ ⦃rest : Text⦄, LaidOut ending true more rest →
    LaidOut ending false (tokens ++ more) (text ++ rest)

/-- The same for a text that may stand behind a word. -/
def DisplaysAfter (text : Text) (tokens : List Token) : Prop :=
  ∀ ⦃ending : Text⦄ ⦃more : List Token⦄ ⦃rest : Text⦄, LaidOut ending true more rest →
    LaidOut ending true (tokens ++ more) (text ++ rest)

theorem displays_word (word : Text) : Displays word [.word word] :=
  fun _ _ _ laidOut => laidOut.cons_word

theorem Displays.blank {text : Text} {tokens : List Token} (nonempty : tokens ≠ [])
    (displays : Displays text tokens) : DisplaysAfter (' ' :: text) tokens :=
  fun _ _ _ laidOut => (displays laidOut).cons_blank (by decide) (by simp [nonempty])

theorem DisplaysAfter.append {text text' : Text} {tokens tokens' : List Token}
    (displays : DisplaysAfter text tokens) (displays' : DisplaysAfter text' tokens') :
    DisplaysAfter (text ++ text') (tokens ++ tokens') := by
  intro ending more rest laidOut
  rw [List.append_assoc, List.append_assoc]
  exact displays (displays' laidOut)

theorem Displays.enclosed {left right : Token} (leftMark : left.isWord = false)
    (rightMark : right.isWord = false) {first text : Text} {tokens tokens' : List Token}
    (displays : Displays first tokens) (displaysAll : DisplaysAfter text tokens') :
    Displays (left.text ++ (first ++ (text ++ right.text)))
      (left :: (tokens ++ (tokens' ++ [right]))) := by
  intro ending more rest laidOut
  have closed := @LaidOut.cons_mark _ true _ _ right rightMark laidOut.weaken
  have opened := @LaidOut.cons_mark _ false _ _ left leftMark (displays (displaysAll closed))
  simp only [List.cons_append, List.append_assoc, List.nil_append]
  exact opened

theorem DisplaysAfter.form (word : Text) {text : Text} {tokens : List Token}
    (displays : DisplaysAfter text tokens) :
    Displays ('(' :: (word ++ (text ++ [')'])))
      (.opening :: .word word :: (tokens ++ [.closing])) :=
  @Displays.enclosed .opening .closing rfl rfl _ _ _ _ (displays_word word) displays

/-! ## The text of an expression -/

theorem LaidOut.renderNames_append {ending : Text} (names : List String) {tokens : List Token}
    {text : Text} (laidOut : LaidOut ending false tokens text) :
    LaidOut ending false (names.map (.word ·.toList) ++ .closingBracket :: tokens)
      (renderNames names ++ ']' :: text) := by
  fun_induction renderNames names with
  | case1 => exact laidOut.cons_mark rfl
  | case2 name => exact (@LaidOut.cons_mark _ _ _ _ .closingBracket rfl laidOut).cons_word
  | case3 name names _ ih =>
      simp only [List.map_cons, List.cons_append, List.append_assoc]
      exact (ih.cons_blank (by decide) (by simp)).cons_word

theorem displaysAfter_formals (formals : List String) :
    DisplaysAfter (' ' :: '[' :: (renderNames formals ++ [']']))
      (.openingBracket :: (formals.map (.word ·.toList) ++ [.closingBracket])) := by
  intro ending more rest laidOut
  have names := laidOut.weaken.renderNames_append formals
  have bracketed := @LaidOut.cons_mark _ false _ _ .openingBracket rfl names
  simp only [List.cons_append, List.append_assoc, List.nil_append]
  exact bracketed.cons_blank (by decide) (List.cons_ne_nil _ _)

theorem Spells.ne_nil {expr : Expr} {tokens : List Token} (spells : Spells expr tokens) :
    tokens ≠ [] := by
  cases spells <;> exact List.cons_ne_nil _ _

mutual

/-- The text of an expression is a layout of tokens that spell it without its marks. -/
theorem exists_spells : (expr : Expr) →
    ∃ tokens, Spells expr.unmarked tokens ∧ Displays expr.render tokens
  | .number value => ⟨_, .atom (.number (Number.literal_render value)), displays_word _⟩
  | .boolean value => ⟨_, .atom .boolean, by cases value <;> exact displays_word _⟩
  | .string payload => ⟨_, .atom .string, displays_word _⟩
  | .symbol name => ⟨_, .atom .symbol, displays_word _⟩
  | .identifier name => ⟨_, .atom .identifier, displays_word _⟩
  | .operator op => ⟨_, .atom .operator, displays_word _⟩
  | .nil => ⟨_, .atom .nil, displays_word _⟩
  | .application head arguments => by
      obtain ⟨headTokens, spells, displays⟩ := exists_spells head
      obtain ⟨tokens, spellsAll, displaysAll⟩ := exists_spellsAll arguments
      have displaysForm := @Displays.enclosed .opening .closing rfl rfl _ _ _ _ displays displaysAll
      refine ⟨_, .application spells spellsAll, ?_⟩
      simp only [Expr.render, List.cons_append, List.append_assoc]
      exact displaysForm
  | .ifThen condition consequent => by
      obtain ⟨tokens, spells, displays⟩ := exists_spells condition
      obtain ⟨tokens', spells', displays'⟩ := exists_spells consequent
      have parts := (displays.blank spells.ne_nil).append (displays'.blank spells'.ne_nil)
      refine ⟨_, .ifThen spells spells', ?_⟩
      have displaysForm := parts.form "if".toList
      simp only [List.cons_append, List.append_assoc] at displaysForm
      simp only [Expr.render, List.cons_append, List.append_assoc, List.nil_append]
      exact displaysForm
  | .ifThenElse condition consequent alternative => by
      obtain ⟨tokens, spells, displays⟩ := exists_spells condition
      obtain ⟨tokens', spells', displays'⟩ := exists_spells consequent
      obtain ⟨tokens'', spells'', displays''⟩ := exists_spells alternative
      have parts := (displays.blank spells.ne_nil).append
        ((displays'.blank spells'.ne_nil).append (displays''.blank spells''.ne_nil))
      refine ⟨_, .ifThenElse spells spells' spells'', ?_⟩
      have displaysForm := parts.form "if".toList
      simp only [List.cons_append, List.append_assoc] at displaysForm
      simp only [Expr.render, List.cons_append, List.append_assoc, List.nil_append]
      exact displaysForm
  | .binding name value => by
      obtain ⟨tokens, spells, displays⟩ := exists_spells value
      have named := (displays_word name.toList).blank (List.cons_ne_nil _ _)
      have parts := named.append (displays.blank spells.ne_nil)
      refine ⟨_, .binding spells, ?_⟩
      have displaysForm := parts.form "def".toList
      simp only [List.cons_append, List.append_assoc, List.nil_append] at displaysForm
      simp only [Expr.render, List.cons_append, List.append_assoc, List.nil_append]
      exact displaysForm
  | .lambda formals body => by
      obtain ⟨tokens, spells, displays⟩ := exists_spells body
      have names := displaysAfter_formals formals
      have parts := names.append (displays.blank spells.ne_nil)
      refine ⟨_, .lambda spells, ?_⟩
      have displaysForm := parts.form "fn".toList
      simp only [List.cons_append, List.append_assoc, List.nil_append] at displaysForm
      simp only [Expr.render, List.cons_append, List.append_assoc, List.nil_append]
      exact displaysForm
  | .cond clauses => by
      obtain ⟨tokens, spellsAll, displaysAll⟩ := exists_spellsAll clauses
      refine ⟨_, .cond spellsAll, ?_⟩
      simp only [Expr.render, List.cons_append, List.nil_append]
      exact displaysAll.form "cond".toList
  | .list [] => by
      refine ⟨_, .list .nil, ?_⟩
      intro ending more rest laidOut
      have closed := @LaidOut.cons_mark _ false _ _ .closingBracket rfl laidOut.weaken
      exact @LaidOut.cons_mark _ false _ _ .openingBracket rfl closed
  | .list (element :: elements) => by
      obtain ⟨tokens, spells, displays⟩ := exists_spells element
      obtain ⟨tokens', spellsAll, displaysAll⟩ := exists_spellsAll elements
      have displaysList :=
        @Displays.enclosed .openingBracket .closingBracket rfl rfl _ _ _ _ displays displaysAll
      refine ⟨_, .list (.cons spells spellsAll), ?_⟩
      simp only [Expr.render, Expr.renderRow, List.cons_append, List.append_assoc]
      exact displaysList

theorem exists_spellsAll : (exprs : List Expr) →
    ∃ tokens, SpellsAll (Expr.unmarkedAll exprs) tokens ∧
      DisplaysAfter (Expr.renderAfter exprs) tokens
  | [] => ⟨[], .nil, fun _ _ _ laidOut => laidOut⟩
  | expr :: exprs => by
      obtain ⟨tokens, spells, displays⟩ := exists_spells expr
      obtain ⟨tokens', spellsAll, displaysAll⟩ := exists_spellsAll exprs
      exact ⟨tokens ++ tokens', .cons spells spellsAll,
        (displays.blank spells.ne_nil).append displaysAll⟩

end

/-- A text that holds a spelling of a well-formed expression and ends with it is read whole, and as
the expression. -/
theorem readFirst_of_displays {expr : Expr} (wellFormed : expr.WellFormed) {tokens : List Token}
    (spells : Spells expr tokens) {text : Text} (displays : Displays text tokens) :
    readFirst text = .ok (expr, []) := by
  have laidOut := @displays [] [] [] (.finished (.gap .empty))
  obtain ⟨rest, behind, -, read⟩ := spells.reads wellFormed laidOut
  cases behind with
  | finished =>
      have found : readForm (text ++ []) = .ok (expr, []) := read _ (by simp)
      rw [List.append_nil] at found
      rw [readFirst, found]
      rfl

/-- Reading the text of an expression that is well-formed without its marks gives it back without
them, and leaves nothing unread. -/
theorem readFirst_render {expr : Expr} (wellFormed : expr.unmarked.WellFormed) :
    readFirst expr.render = .ok (expr.unmarked, []) := by
  obtain ⟨tokens, spells, displays⟩ := exists_spells expr
  exact readFirst_of_displays wellFormed spells displays

end LazyLisp.Reader
