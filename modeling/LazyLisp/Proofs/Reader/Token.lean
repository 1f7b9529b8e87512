import LazyLisp.Proofs.Reader.WellFormed

/-!
# Tokens

A source is laid out by writing tokens one after another with gaps around them. Two words must not
stand directly behind each other; otherwise a gap may be empty. An expression can be spelled with
several rows of tokens.
-/

set_option autoImplicit false

namespace LazyLisp.Reader

/-- A bracket, the opening of a quoted list, or any other word. -/
inductive Token where
  | opening
  | closing
  | openingBracket
  | closingBracket
  | quoteOpening
  | word (text : Text)

def Token.text : Token → Text
  | .opening => ['(']
  | .closing => [')']
  | .openingBracket => ['[']
  | .closingBracket => [']']
  | .quoteOpening => ['\'', '(']
  | .word text => text

/-- A token that is neither a bracket nor the opening of a quoted list. -/
def Token.isWord : Token → Bool
  | .word _ => true
  | _ => false

/-- A text that holds the tokens in their order, with gaps before and between them, and that has the
given gap for its ending. The gap in front of a word is not empty if a word stands before it. -/
inductive LaidOut (ending : Text) : Bool → List Token → Text → Prop where
  | finished {behindWord : Bool} : FinalGap ending → LaidOut ending behindWord [] ending
  | token {behindWord : Bool} {token : Token} {tokens : List Token} {gap text : Text} :
      Gap gap → (behindWord = true → token.isWord = true → gap ≠ []) →
      LaidOut ending token.isWord tokens text →
      LaidOut ending behindWord (token :: tokens) (gap ++ token.text ++ text)

/-- The words that spell an atom. -/
inductive AtomText : Expr → Text → Prop where
  | number {value : Number} {text : Text} : Literal value text → AtomText (.number value) text
  | boolean {value : Bool} : AtomText (.boolean value) (if value then "true" else "false").toList
  | string {payload : String} : AtomText (.string payload) ('"' :: payload.toList ++ ['"'])
  | symbol {name : String} : AtomText (.symbol name) (':' :: name.toList)
  | identifier {name : String} : AtomText (.identifier name) name.toList
  | operator {op : Operator} : AtomText (.operator op) op.token.toList
  | nil : AtomText .nil "nil".toList

mutual

/-- The rows of tokens that spell an expression. A number may be written as any literal that denotes
it, and a list in brackets or as a quoted list. -/
inductive Spells : Expr → List Token → Prop where
  | atom {expr : Expr} {text : Text} : AtomText expr text → Spells expr [.word text]
  | application {head : Expr} {arguments : List Expr} {headTokens tokens : List Token} :
      Spells head headTokens → SpellsAll arguments tokens →
      Spells (.application head arguments) (.opening :: (headTokens ++ (tokens ++ [.closing])))
  | ifThen {condition consequent : Expr} {tokens tokens' : List Token} :
      Spells condition tokens → Spells consequent tokens' →
      Spells (.ifThen condition consequent)
        (.opening :: .word "if".toList :: (tokens ++ (tokens' ++ [.closing])))
  | ifThenElse {condition consequent alternative : Expr} {tokens tokens' tokens'' : List Token} :
      Spells condition tokens → Spells consequent tokens' → Spells alternative tokens'' →
      Spells (.ifThenElse condition consequent alternative)
        (.opening :: .word "if".toList :: (tokens ++ (tokens' ++ (tokens'' ++ [.closing]))))
  | binding {name : String} {value : Expr} {tokens : List Token} :
      Spells value tokens →
      Spells (.binding name value)
        (.opening :: .word "def".toList :: .word name.toList :: (tokens ++ [.closing]))
  | lambda {formals : List String} {body : Expr} {tokens : List Token} :
      Spells body tokens →
      Spells (.lambda formals body)
        (.opening :: .word "fn".toList :: .openingBracket ::
          (formals.map (.word ·.toList) ++ (.closingBracket :: (tokens ++ [.closing]))))
  | cond {clauses : List Expr} {tokens : List Token} :
      SpellsAll clauses tokens →
      Spells (.cond clauses) (.opening :: .word "cond".toList :: (tokens ++ [.closing]))
  | list {elements : List Expr} {tokens : List Token} :
      SpellsAll elements tokens →
      Spells (.list elements) (.openingBracket :: (tokens ++ [.closingBracket]))
  | quoted {elements : List Expr} {tokens : List Token} :
      SpellsAll elements tokens →
      Spells (.list elements) (.quoteOpening :: (tokens ++ [.closing]))

/-- The rows of tokens that spell expressions one after another. -/
inductive SpellsAll : List Expr → List Token → Prop where
  | nil : SpellsAll [] []
  | cons {expr : Expr} {exprs : List Expr} {tokens tokens' : List Token} :
      Spells expr tokens → SpellsAll exprs tokens' → SpellsAll (expr :: exprs) (tokens ++ tokens')

end

/-! ## Layouts -/

variable {ending : Text} {behindWord : Bool}

theorem LaidOut.weaken {tokens : List Token} {text : Text}
    (laidOut : LaidOut ending behindWord tokens text) : LaidOut ending false tokens text := by
  cases laidOut with
  | finished gap => exact .finished gap
  | token gap _ laidOut => exact .token gap (fun never => by cases never) laidOut

/-- A word is at its end where a layout goes on behind it. -/
theorem LaidOut.atTokenEnd {tokens : List Token} {text : Text}
    (laidOut : LaidOut ending true tokens text) : AtTokenEnd text := by
  intro char member
  cases laidOut with
  | finished gap => simp [endsToken, gap.head_startsGap char member]
  | @token _ token tokens gap text isGap separated _ =>
      cases gap with
      | cons first gap => simp [endsToken, isGap.head_startsGap char member]
      | nil =>
          cases token with
          | word => exact absurd rfl (separated rfl rfl)
          | opening | closing | openingBracket | closingBracket | quoteOpening =>
              cases member
              rfl

theorem LaidOut.skipGap_eq {token : Token} {tokens : List Token} {text : Text}
    (laidOut : LaidOut ending behindWord (token :: tokens) text) {char : Char} {letters : Text}
    (spelled : token.text = char :: letters) (noGap : startsGap char = false) :
    ∃ rest, skipGap text = token.text ++ rest ∧ LaidOut ending token.isWord tokens rest ∧
      rest.length < text.length := by
  cases laidOut with
  | @token _ _ _ gap rest isGap _ laidOut =>
      refine ⟨rest, ?_, laidOut, ?_⟩
      · rw [List.append_assoc, isGap.skipGap_append, spelled, List.cons_append,
          skipGap_cons_of_not_startsGap _ noGap]
      · simp only [spelled, List.length_append, List.length_cons]
        omega

/-! ## The first characters of words -/

/-- Neither a gap nor a closing bracket begins with the character. -/
def beginsForm (char : Char) : Bool := !startsGap char && char != ')' && char != ']'

theorem beginsForm_of_not_endsToken {char : Char} (inside : endsToken char = false) :
    beginsForm char = true := by
  simp only [endsToken, Bool.or_eq_false_iff, List.contains_eq_mem, decide_eq_false_iff_not,
    List.mem_cons, not_or] at inside
  simp [beginsForm, inside]

theorem not_startsGap_of_beginsForm {char : Char} (begins : beginsForm char = true) :
    startsGap char = false := by
  simp only [beginsForm, Bool.and_eq_true, Bool.not_eq_true'] at begins
  exact begins.1.1

theorem not_endsToken_of_isNameChar {char : Char} (isName : isNameChar char = true) :
    endsToken char = false := by
  cases ends : endsToken char with
  | false => rfl
  | true =>
      rw [(not_continues_of_endsToken ends).1] at isName
      cases isName

theorem Literal.exists_cons {number : Number} {text : Text} (literal : Literal number text) :
    ∃ char letters, text = char :: letters ∧ endsToken char = false := by
  have ofSign {negative : Bool} {signText rest : Text} (signed : SignText negative signText)
      (unsigned : ∃ char letters, rest = char :: letters ∧ endsToken char = false) :
      ∃ char letters, signText ++ rest = char :: letters ∧ endsToken char = false := by
    cases signed with
    | none => exact unsigned
    | plus => exact ⟨'+', rest, rfl, by decide⟩
    | minus => exact ⟨'-', rest, rfl, by decide⟩
  cases literal with
  | infinite signed => exact ofSign signed ⟨'i', ['n', 'f'], rfl, by decide⟩
  | nan signed => exact ofSign signed ⟨'n', ['a', 'n'], rfl, by decide⟩
  | @decimal _ _ _ powerText _ _ _ signed mantissa _ =>
      obtain ⟨char, letters, rfl, starts⟩ := mantissa.exists_cons
      rw [List.append_assoc]
      refine ofSign signed ⟨char, letters ++ powerText, rfl, ?_⟩
      cases ends : endsToken char with
      | false => rfl
      | true =>
          have stops := (not_continues_of_endsToken ends).2
          simp only [continuesNumeral, Bool.or_eq_false_iff] at stops
          simp [startsMantissa, stops] at starts

theorem IsName.exists_cons {name : String} (isName : IsName name) :
    ∃ char letters, name.toList = char :: letters ∧ endsToken char = false := by
  cases spelled : name.toList with
  | nil => exact absurd spelled isName.nonempty
  | cons char letters =>
      have chars := isName.chars
      rw [spelled, List.all_cons, Bool.and_eq_true] at chars
      exact ⟨char, letters, rfl, not_endsToken_of_isNameChar chars.1⟩

/-- No atom begins like a gap or with a closing bracket. -/
theorem AtomText.exists_cons {expr : Expr} {text : Text} (spelling : AtomText expr text)
    (wellFormed : expr.WellFormed) :
    ∃ char letters, text = char :: letters ∧ beginsForm char = true := by
  cases spelling with
  | number literal =>
      obtain ⟨char, letters, spelled, inside⟩ := literal.exists_cons
      exact ⟨char, letters, spelled, beginsForm_of_not_endsToken inside⟩
  | @boolean value => cases value <;> exact ⟨_, _, rfl, by decide⟩
  | string => exact ⟨'"', _, rfl, by decide⟩
  | symbol => exact ⟨':', _, rfl, by decide⟩
  | identifier =>
      obtain ⟨char, letters, spelled, inside⟩ := IsName.exists_cons wellFormed.toIsName
      exact ⟨char, letters, spelled, beginsForm_of_not_endsToken inside⟩
  | @operator op => cases op <;> exact ⟨_, _, rfl, by decide⟩
  | nil => exact ⟨'n', _, rfl, by decide⟩

/-- The spelling of an atom in front of a character that ends tokens is read as the atom. -/
theorem AtomText.atom?_append {expr : Expr} {text rest : Text} (spelling : AtomText expr text)
    (wellFormed : expr.WellFormed) (ends : AtTokenEnd rest) :
    atom? (text ++ rest) = .ok (some (expr, rest)) := by
  cases spelling with
  | number literal => exact atom?_number literal ends
  | boolean => exact atom?_boolean _ ends.not_name
  | string => exact atom?_string wellFormed rest
  | symbol => exact atom?_symbol wellFormed ends.not_name
  | identifier => exact atom?_identifier wellFormed ends.not_name
  | operator => exact atom?_operator _ ends
  | nil => exact atom?_nil ends.not_name

/-- The first token begins neither like a gap nor with a closing bracket. -/
def BeginsForm (tokens : List Token) : Prop :=
  ∃ token others char letters,
    tokens = token :: others ∧ token.text = char :: letters ∧ beginsForm char = true

theorem Spells.first_token {expr : Expr} {tokens : List Token} (spells : Spells expr tokens)
    (wellFormed : expr.WellFormed) : BeginsForm tokens := by
  cases spells with
  | @atom _ text spelling =>
      obtain ⟨char, letters, spelled, begins⟩ := spelling.exists_cons wellFormed
      exact ⟨.word text, [], char, letters, rfl, spelled, begins⟩
  | application | ifThen | ifThenElse | binding | lambda | cond =>
      exact ⟨.opening, _, '(', [], rfl, rfl, by decide⟩
  | list => exact ⟨.openingBracket, _, '[', [], rfl, rfl, by decide⟩
  | quoted => exact ⟨.quoteOpening, _, '\'', ['('], rfl, rfl, by decide⟩

/-! ## Single tokens -/

theorem LaidOut.opening {more : List Token} {text : Text}
    (laidOut : LaidOut ending behindWord (.opening :: more) text) :
    ∃ rest, skipGap text = '(' :: rest ∧ LaidOut ending false more rest ∧
      rest.length < text.length :=
  laidOut.skipGap_eq rfl (by decide)

theorem LaidOut.word {word : Text} {more : List Token} {text : Text}
    (laidOut : LaidOut ending behindWord (.word word :: more) text)
    (begins : ∃ char letters, word = char :: letters ∧ startsGap char = false) :
    ∃ rest, skipGap text = word ++ rest ∧ AtTokenEnd rest ∧ LaidOut ending false more rest ∧
      rest.length < text.length := by
  obtain ⟨char, letters, spelled, noGap⟩ := begins
  obtain ⟨rest, skipped, behind, shorter⟩ := laidOut.skipGap_eq spelled noGap
  exact ⟨rest, skipped, behind.atTokenEnd, behind.weaken, shorter⟩

def closerToken : Closer → Token
  | .parenthesis => .closing
  | .bracket => .closingBracket

theorem LaidOut.stripCloser? {closer : Closer} {more : List Token}
    {text : Text} (laidOut : LaidOut ending behindWord (closerToken closer :: more) text) :
    ∃ rest, LaidOut ending false more rest ∧ rest.length < text.length ∧
      stripCloser? closer (skipGap text) = some rest := by
  cases closer with
  | parenthesis =>
      obtain ⟨rest, skipped, behind, shorter⟩ :=
        laidOut.skipGap_eq (show Token.text _ = [')'] from rfl) (by decide)
      exact ⟨rest, behind, shorter, by rw [skipped]; rfl⟩
  | bracket =>
      obtain ⟨rest, skipped, behind, shorter⟩ :=
        laidOut.skipGap_eq (show Token.text _ = [']'] from rfl) (by decide)
      exact ⟨rest, behind, shorter, by rw [skipped]; rfl⟩

theorem LaidOut.close {closer : Closer} {more : List Token} {text : Text}
    (laidOut : LaidOut ending behindWord (closerToken closer :: more) text) :
    ∃ rest, LaidOut ending false more rest ∧ rest.length < text.length ∧
      close closer text = .ok rest := by
  obtain ⟨rest, behind, shorter, stripped⟩ := laidOut.stripCloser?
  exact ⟨rest, behind, shorter, by simp only [Reader.close, stripped]⟩

/-- In front of a form there is no closing bracket, and skipping the gap keeps the layout. -/
theorem LaidOut.atForm {tokens more : List Token} {text : Text}
    (laidOut : LaidOut ending behindWord (tokens ++ more) text) (begins : BeginsForm tokens) :
    LaidOut ending false (tokens ++ more) (skipGap text) ∧ atCloser (skipGap text) = false ∧
      ∀ closer, Reader.stripCloser? closer (skipGap text) = none := by
  obtain ⟨token, others, char, letters, rfl, spelled, begins⟩ := begins
  simp only [beginsForm, Bool.and_eq_true, Bool.not_eq_true', bne_iff_ne] at begins
  obtain ⟨⟨noGap, noParenthesis⟩, noBracket⟩ := begins
  obtain ⟨rest, skipped, behind, -⟩ := laidOut.skipGap_eq spelled noGap
  refine ⟨?_, ?_, fun closer => ?_⟩
  · rw [skipped]
    exact @LaidOut.token ending false token _ [] rest .empty (fun never => by cases never) behind
  · rw [skipped, spelled]
    simp [atCloser, noParenthesis, noBracket]
  · rw [skipped, spelled]
    cases closer with
    | parenthesis => exact if_neg noParenthesis
    | bracket => exact if_neg noBracket

end LazyLisp.Reader
