import LazyLisp.Reader.Form

/-!
# Gaps between tokens

What may stand between two tokens, and the characters behind which a token is at its end. Reading
skips a gap whole and stops at the token behind it.
-/

set_option autoImplicit false

namespace LazyLisp.Reader

/-- Blanks and comments, where each comment is ended by a line feed. -/
inductive Gap : Text → Prop where
  | empty : Gap []
  | blank {char : Char} {gap : Text} :
      Text.isBlank char = true → Gap gap → Gap (char :: gap)
  | comment {body gap : Text} : '\n' ∉ body → Gap gap → Gap (';' :: body ++ '\n' :: gap)

/-- What may stand behind the last token: the end of the text may also end a comment. -/
inductive FinalGap : Text → Prop where
  | gap {gap : Text} : Gap gap → FinalGap gap
  | comment {gap body : Text} : Gap gap → '\n' ∉ body → FinalGap (gap ++ ';' :: body)

/-- A blank or the beginning of a comment. -/
def startsGap (char : Char) : Bool := Text.isBlank char || char == ';'

/-- A token cannot go on with the character: it starts a gap, or it is a bracket or a quote. -/
def endsToken (char : Char) : Bool :=
  startsGap char || ['(', ')', '[', ']', '\'', '"'].contains char

/-- A token that is followed by the text is at its end. -/
def AtTokenEnd (text : Text) : Prop := ∀ char ∈ text.head?, endsToken char = true

/-- No name goes on with the text. -/
abbrev AtNameEnd (text : Text) : Prop := text.head?.any isNameChar = false

/-- No numeral goes on with the text. -/
abbrev AtNumeralEnd (text : Text) : Prop := text.head?.any continuesNumeral = false

/-! ## Characters that end tokens -/

/-- The codes of the characters that end a token. -/
def tokenEndCodes : List Nat :=
  [0x09, 0x0A, 0x0B, 0x0C, 0x0D, 0x1C, 0x1D, 0x1E, 0x1F, 0x20, 0x85, 0xA0, 0x1680, 0x2000, 0x2001,
   0x2002, 0x2003, 0x2004, 0x2005, 0x2006, 0x2007, 0x2008, 0x2009, 0x200A, 0x2028, 0x2029, 0x202F,
   0x205F, 0x3000, 0x3B, 0x28, 0x29, 0x5B, 0x5D, 0x27, 0x22]

theorem toNat_mem_tokenEndCodes {char : Char} (ends : endsToken char = true) :
    char.toNat ∈ tokenEndCodes := by
  simp only [endsToken, startsGap, Bool.or_eq_true, List.contains_iff_mem, List.mem_cons,
    List.not_mem_nil, or_false, beq_iff_eq] at ends
  rcases ends with (blank | rfl) | rfl | rfl | rfl | rfl | rfl | rfl
  · simp only [Text.isBlank, Bool.or_eq_true, Bool.and_eq_true, decide_eq_true_eq,
      beq_iff_eq] at blank
    simp only [tokenEndCodes, List.mem_cons, List.not_mem_nil, or_false]
    omega
  all_goals decide

/-- No character that ends a token belongs to names or goes on a numeral. -/
theorem not_continues_of_endsToken {char : Char} (ends : endsToken char = true) :
    isNameChar char = false ∧ continuesNumeral char = false := by
  have table : ∀ code ∈ tokenEndCodes,
      isNameChar (Char.ofNat code) = false ∧ continuesNumeral (Char.ofNat code) = false := by
    decide
  rw [← Char.ofNat_toNat char]
  exact table _ (toNat_mem_tokenEndCodes ends)

theorem AtTokenEnd.not_name {text : Text} (ends : AtTokenEnd text) : AtNameEnd text := by
  cases text with
  | nil => rfl
  | cons char text => exact (not_continues_of_endsToken (ends char rfl)).1

theorem AtTokenEnd.not_numeral {text : Text} (ends : AtTokenEnd text) : AtNumeralEnd text := by
  cases text with
  | nil => rfl
  | cons char text => exact (not_continues_of_endsToken (ends char rfl)).2

theorem AtNumeralEnd.not_digit {text : Text} (ends : AtNumeralEnd text) :
    text.head?.any Text.isDigit = false := by
  cases text with
  | nil => rfl
  | cons char text =>
      simp only [AtNumeralEnd, List.head?_cons, Option.any_some, continuesNumeral,
        Bool.or_eq_false_iff] at ends
      exact ends.2

/-! ## Skipping -/

theorem skipFrom_comment {body : Text} (noLineFeed : '\n' ∉ body) (text : Text) :
    skipFrom true (body ++ '\n' :: text) = skipGap text := by
  induction body with
  | nil => simp [skipFrom, skipGap]
  | cons char body ih =>
      simp only [List.mem_cons, not_or] at noLineFeed
      have inside : (char != '\n') = true := bne_iff_ne.mpr fun same => noLineFeed.1 same.symm
      simp only [List.cons_append, skipFrom, if_true, inside]
      exact ih noLineFeed.2

theorem skipFrom_unended {body : Text} (noLineFeed : '\n' ∉ body) : skipFrom true body = [] := by
  induction body with
  | nil => rfl
  | cons char body ih =>
      simp only [List.mem_cons, not_or] at noLineFeed
      have inside : (char != '\n') = true := bne_iff_ne.mpr fun same => noLineFeed.1 same.symm
      simp only [skipFrom, if_true, inside]
      exact ih noLineFeed.2

theorem skipGap_semicolon (text : Text) : skipGap (';' :: text) = skipFrom true text := by
  have notBlank : Text.isBlank ';' = false := by decide
  simp [skipGap, skipFrom, notBlank]

/-- A gap is skipped whole, and skipping goes on behind it. -/
theorem Gap.skipGap_append {gap : Text} (skipped : Gap gap) (text : Text) :
    skipGap (gap ++ text) = skipGap text := by
  induction skipped with
  | empty => rfl
  | blank isBlank _ ih =>
      rw [← ih]
      simp [skipGap, skipFrom, isBlank]
  | comment noLineFeed _ ih =>
      rw [← ih, List.append_assoc, List.cons_append, List.cons_append, skipGap_semicolon,
        skipFrom_comment noLineFeed]

theorem skipGap_lineFeed (text : Text) : skipGap ('\n' :: text) = skipGap text :=
  (Gap.blank (by decide) .empty).skipGap_append text

theorem FinalGap.skipGap_eq_nil {gap : Text} (skipped : FinalGap gap) : skipGap gap = [] := by
  cases skipped with
  | gap skipped =>
      have whole := skipped.skipGap_append []
      rwa [List.append_nil] at whole
  | comment skipped noLineFeed =>
      rw [skipped.skipGap_append, skipGap_semicolon, skipFrom_unended noLineFeed]

theorem skipGap_cons_of_not_startsGap {char : Char} (text : Text)
    (token : startsGap char = false) : skipGap (char :: text) = char :: text := by
  simp only [startsGap, Bool.or_eq_false_iff] at token
  simp [skipGap, skipFrom, token]

theorem not_startsGap_of_skipGap {char : Char} {text rest : Text}
    (skipped : skipGap text = char :: rest) : startsGap char = false := by
  have again := skipGap_skipGap text
  rw [skipped] at again
  cases starts : startsGap char with
  | false => rfl
  | true =>
      simp only [startsGap, Bool.or_eq_true] at starts
      have shorter : (skipGap (char :: rest)).length ≤ rest.length := by
        simp only [skipGap, skipFrom, Bool.false_eq_true, if_false]
        split
        · exact (skipFrom_suffix false rest).length_le
        next notBlank =>
          rw [if_pos (starts.resolve_left notBlank)]
          exact (skipFrom_suffix true rest).length_le
      rw [again, List.length_cons] at shorter
      omega

theorem Gap.head_startsGap {gap : Text} (skipped : Gap gap) :
    ∀ char ∈ gap.head?, startsGap char = true := by
  intro char member
  cases skipped with
  | empty => cases member
  | blank isBlank _ =>
      cases member
      simp [startsGap, isBlank]
  | comment _ _ =>
      cases member
      rfl

theorem FinalGap.head_startsGap {gap : Text} (skipped : FinalGap gap) :
    ∀ char ∈ gap.head?, startsGap char = true := by
  cases skipped with
  | gap skipped => exact skipped.head_startsGap
  | @comment gap body skipped _ =>
      cases gap with
      | nil =>
          intro char member
          cases member
          rfl
      | cons first gap => exact skipped.head_startsGap

end LazyLisp.Reader
