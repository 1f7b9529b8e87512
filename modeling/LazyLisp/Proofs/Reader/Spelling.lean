import LazyLisp.Proofs.Reader.Token

/-!
# Reading what is laid out

Every layout of the tokens of a well-formed expression is read as the expression, and a source that
lays out several expressions is read as all of them.
-/

set_option autoImplicit false

namespace LazyLisp.Reader

/-! ## Reading a layout -/

variable {ending : Text} {behindWord : Bool}

/-- Every layout of the tokens, whatever is laid out behind them, is read as the expression, and
reading stops behind the tokens. The budget need not exceed the number of characters read. -/
def Reads (expr : Expr) (tokens : List Token) : Prop :=
  ∀ ⦃ending : Text⦄ ⦃behindWord : Bool⦄ ⦃more : List Token⦄ ⦃text : Text⦄,
    LaidOut ending behindWord (tokens ++ more) text →
    ∃ rest, LaidOut ending false more rest ∧ rest.length < text.length ∧
      ∀ budget, text.length ≤ budget + rest.length → readWithin budget text = .ok (expr, rest)

theorem AtomText.reads {expr : Expr} {word : Text} (spelling : AtomText expr word)
    (wellFormed : expr.WellFormed) : Reads expr [.word word] := by
  intro ending behindWord more text laidOut
  obtain ⟨char, letters, spelled, begins⟩ := spelling.exists_cons wellFormed
  obtain ⟨rest, skipped, ends, behind, shorter⟩ :=
    laidOut.word ⟨char, letters, spelled, not_startsGap_of_beginsForm begins⟩
  refine ⟨rest, behind, shorter, fun budget enough => ?_⟩
  cases budget with
  | zero => omega
  | succ budget =>
      simp only [readWithin, expression, skipped, spelling.atom?_append wellFormed ends]
      rfl

theorem readWithin_eq_compound {budget : Nat} {text rest : Text} {char : Char}
    (opening : char ∈ ['(', '[', '\'']) (skipped : skipGap text = char :: rest) :
    readWithin (budget + 1) text = compound (readWithin budget) budget (char :: rest) := by
  simp only [readWithin, expression, skipped, atom?_opening opening]
  rfl

theorem Reads.required {expr : Expr} {tokens : List Token} (reads : Reads expr tokens)
    (begins : BeginsForm tokens) (part : RequiredPart) {more : List Token}
    {text : Text} (laidOut : LaidOut ending behindWord (tokens ++ more) text) :
    ∃ rest, LaidOut ending false more rest ∧ rest.length < text.length ∧
      ∀ budget, text.length ≤ budget + rest.length →
        required (readWithin budget) part text = .ok (expr, rest) := by
  obtain ⟨atForm, noCloser, -⟩ := laidOut.atForm begins
  obtain ⟨rest, behind, shorter, read⟩ := reads atForm
  have skipped := (skipGap_suffix text).length_le
  refine ⟨rest, behind, by omega, fun budget enough => ?_⟩
  simp only [Reader.required, noCloser, read budget (by omega)]
  rfl

/-- Every layout of the tokens and a closing bracket behind them is read as the sequence. -/
def ReadsAll (exprs : List Expr) (tokens : List Token) : Prop :=
  ∀ ⦃closer : Closer⦄ ⦃ending : Text⦄ ⦃behindWord : Bool⦄ ⦃more : List Token⦄ ⦃text : Text⦄,
    LaidOut ending behindWord (tokens ++ closerToken closer :: more) text →
    ∃ rest, LaidOut ending false more rest ∧ rest.length < text.length ∧
      ∀ budget count, text.length ≤ budget + rest.length → text.length ≤ count + rest.length →
        sequence (readWithin budget) closer count text = .ok (exprs, rest)

theorem ReadsAll.nil : ReadsAll [] [] := by
  intro closer ending behindWord more text laidOut
  obtain ⟨rest, behind, shorter, stripped⟩ := laidOut.stripCloser?
  refine ⟨rest, behind, shorter, fun budget count _ enough => ?_⟩
  cases count with
  | zero => omega
  | succ count => simp only [sequence, stripped]

theorem ReadsAll.cons {expr : Expr} {exprs : List Expr} {tokens tokens' : List Token}
    (reads : Reads expr tokens) (begins : BeginsForm tokens) (readsAll : ReadsAll exprs tokens') :
    ReadsAll (expr :: exprs) (tokens ++ tokens') := by
  intro closer ending behindWord more text laidOut
  rw [List.append_assoc] at laidOut
  obtain ⟨atForm, noCloser, notClosed⟩ := laidOut.atForm begins
  obtain ⟨rest, behind, shorter, read⟩ := reads atForm
  obtain ⟨rest', behind', shorter', readOthers⟩ := readsAll behind
  have skipped := (skipGap_suffix text).length_le
  refine ⟨rest', behind', by omega, fun budget count enough enough' => ?_⟩
  cases count with
  | zero => omega
  | succ count =>
      simp only [sequence, notClosed, noCloser, read budget (by omega), bind, Except.bind,
        readOthers budget count (by omega) (by omega)]
      rfl

/-! ## Words behind an opening parenthesis -/

def keywords : List String := ["if", "def", "fn", "cond"]

theorem isPlainWord_of_mem_keywords {keyword : String} (isKeyword : keyword ∈ keywords) :
    IsPlainWord keyword := by
  simp only [keywords, List.mem_cons, List.not_mem_nil, or_false] at isKeyword
  rcases isKeyword with rfl | rfl | rfl | rfl <;>
    exact ⟨by decide, by decide, by decide, by decide⟩

theorem word?_of_isPlainWord {word keyword : String} (isPlain : IsPlainWord word)
    (isKeyword : keyword ∈ keywords) {rest : Text} (ends : AtNameEnd rest) :
    word? keyword (word.toList ++ rest) = if word = keyword then some rest else none :=
  word?_plain isPlain ends (isPlainWord_of_mem_keywords isKeyword).chars

theorem LaidOut.keyword {keyword : String} {tokens : List Token} {text : Text}
    (isKeyword : keyword ∈ keywords)
    (laidOut : LaidOut ending behindWord (.opening :: .word keyword.toList :: tokens) text) :
    ∃ inner rest, LaidOut ending false tokens rest ∧ rest.length + 2 ≤ text.length ∧
      (∀ budget, readWithin (budget + 1) text = parenthesized (readWithin budget) budget inner) ∧
      skipGap inner = keyword.toList ++ rest ∧ AtNameEnd rest := by
  obtain ⟨inner, skipped, behind, shorter⟩ := laidOut.opening
  obtain ⟨char, letters, spelled, isNameChar, -, -⟩ :=
    (isPlainWord_of_mem_keywords isKeyword).exists_cons
  have inside := beginsForm_of_not_endsToken (not_endsToken_of_isNameChar isNameChar)
  obtain ⟨rest, skipped', ends, behind, shorter'⟩ :=
    behind.word ⟨char, letters, spelled, not_startsGap_of_beginsForm inside⟩
  exact ⟨inner, rest, behind, by omega,
    fun budget => readWithin_eq_compound (by decide) skipped, skipped', ends.not_name⟩

section

variable {read : Text → Except Stop (Expr × Text)} {budget : Nat} {text rest : Text}
  (ends : AtNameEnd rest)

include ends

theorem parenthesized_if (skipped : skipGap text = "if".toList ++ rest) :
    parenthesized read budget text = conditional read rest := by
  have isPlain := isPlainWord_of_mem_keywords (by decide : "if" ∈ keywords)
  have isIf := word?_of_isPlainWord isPlain (by decide : "if" ∈ keywords) ends
  rw [if_pos rfl] at isIf
  simp only [parenthesized, skipped, isIf]

theorem parenthesized_def (skipped : skipGap text = "def".toList ++ rest) :
    parenthesized read budget text = binding read rest := by
  have isPlain := isPlainWord_of_mem_keywords (by decide : "def" ∈ keywords)
  have notIf := word?_of_isPlainWord isPlain (by decide : "if" ∈ keywords) ends
  have isDef := word?_of_isPlainWord isPlain (by decide : "def" ∈ keywords) ends
  rw [if_neg (by decide)] at notIf
  rw [if_pos rfl] at isDef
  simp only [parenthesized, skipped, notIf, isDef]

theorem parenthesized_fn (skipped : skipGap text = "fn".toList ++ rest) :
    parenthesized read budget text = lambda read budget rest := by
  have isPlain := isPlainWord_of_mem_keywords (by decide : "fn" ∈ keywords)
  have notIf := word?_of_isPlainWord isPlain (by decide : "if" ∈ keywords) ends
  have notDef := word?_of_isPlainWord isPlain (by decide : "def" ∈ keywords) ends
  have isFn := word?_of_isPlainWord isPlain (by decide : "fn" ∈ keywords) ends
  rw [if_neg (by decide)] at notIf notDef
  rw [if_pos rfl] at isFn
  simp only [parenthesized, skipped, notIf, notDef, isFn]

theorem parenthesized_cond (skipped : skipGap text = "cond".toList ++ rest) :
    parenthesized read budget text = sequence read .parenthesis budget rest >>= fun found =>
      .ok (.cond found.1, found.2) := by
  have isPlain := isPlainWord_of_mem_keywords (by decide : "cond" ∈ keywords)
  have notIf := word?_of_isPlainWord isPlain (by decide : "if" ∈ keywords) ends
  have notDef := word?_of_isPlainWord isPlain (by decide : "def" ∈ keywords) ends
  have notFn := word?_of_isPlainWord isPlain (by decide : "fn" ∈ keywords) ends
  have isCond := word?_of_isPlainWord isPlain (by decide : "cond" ∈ keywords) ends
  rw [if_neg (by decide)] at notIf notDef notFn
  rw [if_pos rfl] at isCond
  simp only [parenthesized, skipped, notIf, notDef, notFn, isCond]

end

/-- Behind anything but the word of a special form an application is read. -/
theorem parenthesized_application {read : Text → Except Stop (Expr × Text)} {budget : Nat}
    {text rest behind : Text} {head : Expr} {arguments : List Expr}
    (noKeyword : ∀ keyword ∈ keywords, word? keyword (skipGap text) = none)
    (readHead : function read (skipGap text) = .ok (head, rest))
    (readArguments : sequence read .parenthesis budget rest = .ok (arguments, behind)) :
    parenthesized read budget text = .ok (.application head arguments, behind) := by
  simp only [parenthesized, noKeyword "if" (by decide), noKeyword "def" (by decide),
    noKeyword "fn" (by decide), noKeyword "cond" (by decide), application, readHead, bind,
    Except.bind, readArguments]

/-! ## Heads -/

theorem function_of_functionName? {read : Text → Except Stop (Expr × Text)} {text : Text}
    {found : Expr × Text} (named : functionName? text = some found) :
    function read text = .ok found := by
  rw [function]
  · simp only [named]
  · rintro rest rfl
    cases named

theorem no_keyword_of_operator (op : Operator) {rest : Text} (ends : AtNameEnd rest)
    {keyword : String} (isKeyword : keyword ∈ keywords) :
    word? keyword (op.token.toList ++ rest) = none := by
  rcases op.mem_words_or_ofChar? with isWord | ⟨char, found⟩
  · have table : ∀ op ∈ Operator.words, ∀ keyword ∈ keywords, op.token ≠ keyword := by decide
    rw [word?_of_isPlainWord (isPlainWord_of_mem_words isWord) isKeyword ends,
      if_neg (table op isWord keyword isKeyword)]
  · have table : ∀ keyword ∈ keywords, keyword.toList.head?.bind Operator.ofChar? = none := by
      decide
    obtain ⟨first, letters, spelled, -⟩ := (isPlainWord_of_mem_keywords isKeyword).exists_cons
    refine word?_eq_none_of_head spelled fun other member => ?_
    rw [Operator.token_of_ofChar? found] at member
    cases member
    rintro rfl
    have none := table keyword isKeyword
    rw [spelled, List.head?_cons, Option.bind_some, found] at none
    cases none

theorem no_keyword_of_identifier {name : String} (isIdentifier : IsIdentifier name) {rest : Text}
    (ends : AtNameEnd rest) {keyword : String} (isKeyword : keyword ∈ keywords) :
    word? keyword (name.toList ++ rest) = none := by
  have reserved : ∀ keyword ∈ keywords, keyword ∈ reservedWords := by decide
  rw [word?_of_isPlainWord isIdentifier.isPlainWord isKeyword ends,
    if_neg (isIdentifier.ne_of_mem_reservedWords (reserved keyword isKeyword))]

/-- Every layout of the tokens is read as the function of an application, and no word of a special
form stands there. -/
def ReadsHead (head : Expr) (tokens : List Token) : Prop :=
  ∀ ⦃ending : Text⦄ ⦃behindWord : Bool⦄ ⦃more : List Token⦄ ⦃text : Text⦄,
    LaidOut ending behindWord (tokens ++ more) text →
    ∃ rest, LaidOut ending false more rest ∧ rest.length < text.length ∧
      (∀ keyword ∈ keywords, word? keyword (skipGap text) = none) ∧
      ∀ budget, text.length ≤ budget + rest.length →
        function (readWithin budget) (skipGap text) = .ok (head, rest)

theorem Reads.head {head : Expr} {tokens : List Token} (reads : Reads head (.opening :: tokens)) :
    ReadsHead head (.opening :: tokens) := by
  intro ending behindWord more text laidOut
  have begins : BeginsForm (.opening :: tokens) := ⟨.opening, tokens, '(', [], rfl, rfl, by decide⟩
  obtain ⟨rest, behind, shorter, read⟩ := reads (laidOut.atForm begins).1
  have skippedShorter := (skipGap_suffix text).length_le
  obtain ⟨inner, skipped, -, -⟩ := laidOut.opening
  refine ⟨rest, behind, by omega, fun keyword isKeyword => ?_, fun budget enough => ?_⟩
  · obtain ⟨first, letters, spelled, isName, -⟩ :=
      (isPlainWord_of_mem_keywords isKeyword).exists_cons
    refine word?_eq_none_of_head spelled fun other member => ?_
    rw [skipped] at member
    cases member
    rintro rfl
    revert isName
    decide
  · have readForm := read budget (by omega)
    rw [skipped] at readForm ⊢
    exact readForm

theorem readsHead_identifier {name : String} (isIdentifier : IsIdentifier name) :
    ReadsHead (.identifier name) [.word name.toList] := by
  intro ending behindWord more text laidOut
  obtain ⟨char, letters, spelled, inside⟩ := isIdentifier.toIsName.exists_cons
  obtain ⟨rest, skipped, ends, behind, shorter⟩ :=
    laidOut.word ⟨char, letters, spelled,
      not_startsGap_of_beginsForm (beginsForm_of_not_endsToken inside)⟩
  rw [skipped]
  exact ⟨rest, behind, shorter, fun keyword => no_keyword_of_identifier isIdentifier ends.not_name,
    fun budget _ => function_of_functionName? (functionName?_identifier isIdentifier ends.not_name)⟩

theorem readsHead_operator (op : Operator) : ReadsHead (.operator op) [.word op.token.toList] := by
  intro ending behindWord more text laidOut
  have inside : ∀ op : Operator, ∃ char letters, op.token.toList = char :: letters ∧
      beginsForm char = true := by
    intro op
    cases op <;> exact ⟨_, _, rfl, by decide⟩
  obtain ⟨char, letters, spelled, begins⟩ := inside op
  obtain ⟨rest, skipped, ends, behind, shorter⟩ :=
    laidOut.word ⟨char, letters, spelled, not_startsGap_of_beginsForm begins⟩
  rw [skipped]
  exact ⟨rest, behind, shorter, fun keyword => no_keyword_of_operator op ends.not_name,
    fun budget _ => function_of_functionName? (functionName?_operator op ends.not_name)⟩

theorem Spells.readsHead {head : Expr} {tokens : List Token} (spells : Spells head tokens)
    (wellFormed : head.WellFormed) (isHead : head.isHead = true) (reads : Reads head tokens) :
    ReadsHead head tokens := by
  cases spells with
  | application | ifThen | ifThenElse | binding | lambda | cond => exact reads.head
  | list | quoted => cases isHead
  | atom spelling =>
      cases spelling with
      | number | boolean | string | symbol | nil => cases isHead
      | identifier => exact readsHead_identifier wellFormed
      | operator => exact readsHead_operator _

/-! ## Forms -/

theorem ReadsHead.application {head : Expr} {arguments : List Expr}
    {headTokens tokens : List Token} (readsHead : ReadsHead head headTokens)
    (readsAll : ReadsAll arguments tokens) :
    Reads (.application head arguments) (.opening :: (headTokens ++ (tokens ++ [.closing]))) := by
  intro ending behindWord more text laidOut
  simp only [List.cons_append, List.append_assoc, List.nil_append] at laidOut
  obtain ⟨inner, skipped, behind, shorter⟩ := laidOut.opening
  obtain ⟨rest, behind', shorter', noKeyword, readHead⟩ := readsHead behind
  obtain ⟨rest', behind'', shorter'', readArguments⟩ := @readsAll .parenthesis _ _ _ _ behind'
  refine ⟨rest', behind'', by omega, fun budget enough => ?_⟩
  cases budget with
  | zero => omega
  | succ budget =>
      rw [readWithin_eq_compound (by decide) skipped]
      exact parenthesized_application noKeyword (readHead budget (by omega))
        (readArguments budget budget (by omega) (by omega))

theorem Reads.ifThen {condition consequent : Expr} {tokens tokens' : List Token}
    (readsCondition : Reads condition tokens) (begins : BeginsForm tokens)
    (readsConsequent : Reads consequent tokens') (begins' : BeginsForm tokens') :
    Reads (.ifThen condition consequent)
      (.opening :: .word "if".toList :: (tokens ++ (tokens' ++ [.closing]))) := by
  intro ending behindWord more text laidOut
  simp only [List.cons_append, List.append_assoc, List.nil_append] at laidOut
  obtain ⟨inner, rest, behind, shorter, read, skipped, ends⟩ := laidOut.keyword (by decide)
  obtain ⟨rest₁, behind₁, shorter₁, read₁⟩ := readsCondition.required begins .condition behind
  obtain ⟨rest₂, behind₂, shorter₂, read₂⟩ := readsConsequent.required begins' .consequent behind₁
  obtain ⟨rest₃, behind₃, shorter₃, closed⟩ :=
    @LaidOut.stripCloser? _ _ .parenthesis _ _ behind₂
  refine ⟨rest₃, behind₃, by omega, fun budget enough => ?_⟩
  cases budget with
  | zero => omega
  | succ budget =>
      rw [read, parenthesized_if ends skipped]
      simp only [conditional, read₁ budget (by omega), read₂ budget (by omega), closed, bind,
        Except.bind]

theorem Reads.ifThenElse {condition consequent alternative : Expr}
    {tokens tokens' tokens'' : List Token}
    (readsCondition : Reads condition tokens) (begins : BeginsForm tokens)
    (readsConsequent : Reads consequent tokens') (begins' : BeginsForm tokens')
    (readsAlternative : Reads alternative tokens'') (begins'' : BeginsForm tokens'') :
    Reads (.ifThenElse condition consequent alternative)
      (.opening :: .word "if".toList :: (tokens ++ (tokens' ++ (tokens'' ++ [.closing])))) := by
  intro ending behindWord more text laidOut
  simp only [List.cons_append, List.append_assoc, List.nil_append] at laidOut
  obtain ⟨inner, rest, behind, shorter, read, skipped, ends⟩ := laidOut.keyword (by decide)
  obtain ⟨rest₁, behind₁, shorter₁, read₁⟩ := readsCondition.required begins .condition behind
  obtain ⟨rest₂, behind₂, shorter₂, read₂⟩ := readsConsequent.required begins' .consequent behind₁
  obtain ⟨atForm, -, notClosed⟩ := behind₂.atForm begins''
  have shorterGap := (skipGap_suffix rest₂).length_le
  obtain ⟨rest₃, behind₃, shorter₃, read₃⟩ :=
    readsAlternative.required begins'' .alternative atForm
  obtain ⟨rest₄, behind₄, shorter₄, closed⟩ := @LaidOut.close _ _ .parenthesis _ _ behind₃
  refine ⟨rest₄, behind₄, by omega, fun budget enough => ?_⟩
  cases budget with
  | zero => omega
  | succ budget =>
      rw [read, parenthesized_if ends skipped]
      simp only [conditional, read₁ budget (by omega), read₂ budget (by omega), notClosed,
        read₃ budget (by omega), closed, bind, Except.bind]

theorem Reads.binding {name : String} {value : Expr} {tokens : List Token} (isName : IsName name)
    (reads : Reads value tokens) (begins : BeginsForm tokens) :
    Reads (.binding name value)
      (.opening :: .word "def".toList :: .word name.toList :: (tokens ++ [.closing])) := by
  intro ending behindWord more text laidOut
  simp only [List.cons_append, List.append_assoc, List.nil_append] at laidOut
  obtain ⟨inner, rest, behind, shorter, read, skipped, ends⟩ := laidOut.keyword (by decide)
  obtain ⟨char, letters, spelled, inside⟩ := isName.exists_cons
  obtain ⟨rest₁, skipped₁, ends₁, behind₁, shorter₁⟩ :=
    behind.word ⟨char, letters, spelled,
      not_startsGap_of_beginsForm (beginsForm_of_not_endsToken inside)⟩
  obtain ⟨rest₂, behind₂, shorter₂, read₂⟩ := reads.required begins .value behind₁
  obtain ⟨rest₃, behind₃, shorter₃, closed⟩ := @LaidOut.close _ _ .parenthesis _ _ behind₂
  refine ⟨rest₃, behind₃, by omega, fun budget enough => ?_⟩
  cases budget with
  | zero => omega
  | succ budget =>
      rw [read, parenthesized_def ends skipped]
      simp only [Reader.binding, skipped₁, name?_append isName ends₁.not_name,
        read₂ budget (by omega), closed, bind, Except.bind]

/-- Every layout of distinct new names and a closing bracket is read as formal parameters. -/
theorem LaidOut.formals {names names' : List String} (areNames : ∀ name ∈ names', IsName name)
    (distinct : (names ++ names').Nodup) {more : List Token} {text : Text}
    (laidOut :
      LaidOut ending behindWord (names'.map (.word ·.toList) ++ .closingBracket :: more) text) :
    ∃ rest, LaidOut ending false more rest ∧ rest.length < text.length ∧
      ∀ count, text.length ≤ count + rest.length →
        formals count names text = .ok (names ++ names', rest) := by
  induction names' generalizing names behindWord text with
  | nil =>
      obtain ⟨rest, behind, shorter, closed⟩ := @LaidOut.stripCloser? _ _ .bracket _ _ laidOut
      refine ⟨rest, behind, shorter, fun count enough => ?_⟩
      cases count with
      | zero => omega
      | succ count => simp only [Reader.formals, closed, List.append_nil]
  | cons name names' ih =>
      have isName := areNames name List.mem_cons_self
      obtain ⟨char, letters, spelled, inside⟩ := isName.exists_cons
      have begins := beginsForm_of_not_endsToken inside
      obtain ⟨rest, skipped, ends, behind, shorter⟩ :=
        laidOut.word ⟨char, letters, spelled, not_startsGap_of_beginsForm begins⟩
      have notClosed : Reader.stripCloser? .bracket (skipGap text) = none :=
        (@LaidOut.atForm _ _ [.word name.toList] _ _ laidOut
          ⟨_, _, char, letters, rfl, spelled, begins⟩).2.2 .bracket
      have isNew : names.contains name = false := by
        rw [Bool.eq_false_iff, Ne, List.contains_iff_mem]
        intro member
        rw [List.nodup_append] at distinct
        exact distinct.2.2 name member name List.mem_cons_self rfl
      have distinct' : ((names ++ [name]) ++ names').Nodup := by
        rwa [List.append_assoc, List.singleton_append]
      obtain ⟨rest', behind', shorter', read⟩ := ih
        (fun other member => areNames other (List.mem_cons_of_mem _ member)) distinct' behind
      refine ⟨rest', behind', by omega, fun count enough => ?_⟩
      cases count with
      | zero => omega
      | succ count =>
          have readOthers := read count (by omega)
          rw [skipped] at notClosed
          rw [List.append_assoc, List.singleton_append] at readOthers
          simp only [Reader.formals, skipped, notClosed, name?_append isName ends.not_name, isNew]
          exact readOthers

theorem Reads.lambda {formals : List String} {body : Expr} {tokens : List Token}
    (distinct : formals.Nodup) (areNames : ∀ formal ∈ formals, IsName formal)
    (reads : Reads body tokens) (begins : BeginsForm tokens) :
    Reads (.lambda formals body)
      (.opening :: .word "fn".toList :: .openingBracket ::
        (formals.map (.word ·.toList) ++ (.closingBracket :: (tokens ++ [.closing])))) := by
  intro ending behindWord more text laidOut
  simp only [List.cons_append, List.append_assoc, List.nil_append] at laidOut
  obtain ⟨inner, rest, behind, shorter, read, skipped, ends⟩ := laidOut.keyword (by decide)
  obtain ⟨rest₁, skipped₁, behind₁, shorter₁⟩ :=
    behind.skipGap_eq (show Token.openingBracket.text = ['['] from rfl) (by decide)
  obtain ⟨rest₂, behind₂, shorter₂, read₂⟩ :=
    @LaidOut.formals _ _ [] formals areNames distinct _ _ behind₁
  obtain ⟨rest₃, behind₃, shorter₃, read₃⟩ := reads.required begins .body behind₂
  obtain ⟨rest₄, behind₄, shorter₄, closed⟩ := @LaidOut.close _ _ .parenthesis _ _ behind₃
  refine ⟨rest₄, behind₄, by omega, fun budget enough => ?_⟩
  cases budget with
  | zero => omega
  | succ budget =>
      have opened : skipGap rest = '[' :: rest₁ := skipped₁
      rw [read, parenthesized_fn ends skipped]
      simp only [Reader.lambda, opened, read₂ budget (by omega), read₃ budget (by omega), closed,
        bind, Except.bind, List.nil_append]

theorem Reads.cond {clauses : List Expr} {tokens : List Token}
    (readsAll : ReadsAll clauses tokens) :
    Reads (.cond clauses) (.opening :: .word "cond".toList :: (tokens ++ [.closing])) := by
  intro ending behindWord more text laidOut
  simp only [List.cons_append, List.append_assoc, List.nil_append] at laidOut
  obtain ⟨inner, rest, behind, shorter, read, skipped, ends⟩ := laidOut.keyword (by decide)
  obtain ⟨rest', behind', shorter', readClauses⟩ := @readsAll .parenthesis _ _ _ _ behind
  refine ⟨rest', behind', by omega, fun budget enough => ?_⟩
  cases budget with
  | zero => omega
  | succ budget =>
      rw [read, parenthesized_cond ends skipped, readClauses budget budget (by omega) (by omega),
        bind_ok]

theorem Reads.list {elements : List Expr} {tokens : List Token}
    (readsAll : ReadsAll elements tokens) :
    Reads (.list elements) (.openingBracket :: (tokens ++ [.closingBracket])) := by
  intro ending behindWord more text laidOut
  simp only [List.cons_append, List.append_assoc, List.nil_append] at laidOut
  obtain ⟨rest, skipped, behind, shorter⟩ :=
    laidOut.skipGap_eq (show Token.openingBracket.text = ['['] from rfl) (by decide)
  obtain ⟨rest', behind', shorter', readElements⟩ := @readsAll .bracket _ _ _ _ behind
  refine ⟨rest', behind', by omega, fun budget enough => ?_⟩
  cases budget with
  | zero => omega
  | succ budget =>
      have opened : skipGap text = '[' :: rest := skipped
      rw [readWithin_eq_compound (by decide) opened]
      simp only [compound, readElements budget budget (by omega) (by omega), bind, Except.bind]

theorem Reads.quoted {elements : List Expr} {tokens : List Token}
    (readsAll : ReadsAll elements tokens) :
    Reads (.list elements) (.quoteOpening :: (tokens ++ [.closing])) := by
  intro ending behindWord more text laidOut
  simp only [List.cons_append, List.append_assoc, List.nil_append] at laidOut
  obtain ⟨rest, skipped, behind, shorter⟩ :=
    laidOut.skipGap_eq (show Token.quoteOpening.text = ['\'', '('] from rfl) (by decide)
  obtain ⟨rest', behind', shorter', readElements⟩ := @readsAll .parenthesis _ _ _ _ behind
  refine ⟨rest', behind', by omega, fun budget enough => ?_⟩
  cases budget with
  | zero => omega
  | succ budget =>
      have opened : skipGap text = '\'' :: '(' :: rest := skipped
      rw [readWithin_eq_compound (by decide) opened]
      simp only [compound, readElements budget budget (by omega) (by omega), bind, Except.bind]

mutual

/-- Every spelling of a well-formed expression is read as the expression, in every layout. -/
theorem Spells.reads : {expr : Expr} → {tokens : List Token} → Spells expr tokens →
    expr.WellFormed → Reads expr tokens
  | _, _, .atom spelling, wellFormed => spelling.reads wellFormed
  | _, _, .application spells spellsAll, wellFormed =>
      (spells.readsHead wellFormed.2.1 wellFormed.1 (spells.reads wellFormed.2.1)).application
        (spellsAll.readsAll wellFormed.2.2)
  | _, _, .ifThen spells spells', wellFormed =>
      .ifThen (spells.reads wellFormed.1) (spells.first_token wellFormed.1)
        (spells'.reads wellFormed.2) (spells'.first_token wellFormed.2)
  | _, _, .ifThenElse spells spells' spells'', wellFormed =>
      .ifThenElse (spells.reads wellFormed.1) (spells.first_token wellFormed.1)
        (spells'.reads wellFormed.2.1) (spells'.first_token wellFormed.2.1)
        (spells''.reads wellFormed.2.2) (spells''.first_token wellFormed.2.2)
  | _, _, .binding spells, wellFormed =>
      .binding wellFormed.1 (spells.reads wellFormed.2) (spells.first_token wellFormed.2)
  | _, _, .lambda spells, wellFormed =>
      .lambda wellFormed.1 wellFormed.2.1 (spells.reads wellFormed.2.2)
        (spells.first_token wellFormed.2.2)
  | _, _, .cond spellsAll, wellFormed => .cond (spellsAll.readsAll wellFormed)
  | _, _, .list spellsAll, wellFormed => .list (spellsAll.readsAll wellFormed)
  | _, _, .quoted spellsAll, wellFormed => .quoted (spellsAll.readsAll wellFormed)

theorem SpellsAll.readsAll : {exprs : List Expr} → {tokens : List Token} →
    SpellsAll exprs tokens → Expr.AllWellFormed exprs → ReadsAll exprs tokens
  | _, _, .nil, _ => .nil
  | _, _, .cons spells spellsAll, wellFormed =>
      .cons (spells.reads wellFormed.1) (spells.first_token wellFormed.1)
        (spellsAll.readsAll wellFormed.2)

end

/-! ## Sources -/

/-- Every layout of spellings of well-formed expressions is read as these expressions, one after
another. -/
theorem formsWithin_of_laidOut {exprs : List Expr} {tokens : List Token}
    (wellFormed : Expr.AllWellFormed exprs) (spells : SpellsAll exprs tokens) {text : Text}
    (laidOut : LaidOut ending behindWord tokens text) {budget : Nat}
    (enough : text.length < budget) :
    ∃ forms, formsWithin budget text = (forms, none) ∧ forms.map Prod.fst = exprs := by
  induction exprs generalizing tokens behindWord text budget with
  | nil =>
      cases spells
      cases laidOut with
      | finished gap =>
          cases budget with
          | zero => omega
          | succ budget => exact ⟨[], by simp only [formsWithin, gap.skipGap_eq_nil], rfl⟩
  | cons expr exprs ih =>
      cases spells with
      | @cons _ _ tokens tokens' spells spellsAll =>
          obtain ⟨atForm, -, -⟩ := laidOut.atForm (spells.first_token wellFormed.1)
          obtain ⟨rest, behind, shorter, read⟩ := spells.reads wellFormed.1 atForm
          have skippedShorter := (skipGap_suffix text).length_le
          cases budget with
          | zero => omega
          | succ budget =>
              obtain ⟨forms, readOthers, same⟩ :=
                ih wellFormed.2 spellsAll behind (show rest.length < budget by omega)
              have readFirst : readForm (skipGap text) = .ok (expr, rest) := read _ (by omega)
              refine ⟨(expr, skipGap text) :: forms, ?_, by rw [List.map_cons, same]⟩
              rw [formsWithin]
              split
              next empty =>
                rw [empty] at shorter
                cases shorter
              next => simp only [readFirst, readOthers]

/-- A source that lays out spellings of well-formed expressions is read without a fault, and as
these expressions. -/
theorem readAll_of_laidOut {exprs : List Expr} {tokens : List Token} {text : Text}
    (wellFormed : Expr.AllWellFormed exprs) (spells : SpellsAll exprs tokens)
    (laidOut : LaidOut ending false tokens text) : readAll text = (exprs, none) := by
  obtain ⟨forms, read, same⟩ :=
    formsWithin_of_laidOut wellFormed spells laidOut (Nat.lt_succ_self text.length)
  simp only [readAll, read, same, Option.map_none]

/-- A quoted list directly behind the name of a definition, a digit of another script, brackets in
comments and in a string, and a comment that ends with the source. -/
theorem readAll_of_laidOut_definition :
    readAll [';', '(', '\n', '(', 'd', 'e', 'f', ' ', '-', 'x', '\'', '(', '٧', ';', '\n', '"', ')',
      '"', ')', ')', 'n', 'i', 'l', ';', ']'] =
      ([.binding "-x" (.list
        [.number (Number.ofDecimal false ⟨Text.ofDigits ([7] ++ []), 0 - 0⟩), .string ")"]), .nil],
        none) := by
  have isName : IsName "-x" := ⟨by decide, by decide, by decide, by decide⟩
  have isPayload : IsPayload ")".toList := .plain (by decide) (by decide) .empty
  have isDigit : DigitsText [7] ['٧'] := by
    rw [DigitsText]
    decide
  have spellsBinding := @Spells.binding "-x" _ _ (.quoted (.cons
    (.atom (.number (.decimal .none (.whole isDigit (by decide)) .none)))
    (.cons (.atom (@AtomText.string ")")) .nil)))
  have end₁ := @LaidOut.token [';', ']'] false (.word "nil".toList) [] [] _ .empty (by decide)
    (.finished (@FinalGap.comment [] [']'] .empty (by decide)))
  have end₂ := @LaidOut.token [';', ']'] true .closing _ [] _ .empty (by decide)
    (@LaidOut.token [';', ']'] false .closing _ [] _ .empty (by decide) end₁)
  have end₃ := @LaidOut.token [';', ']'] true (.word ['"', ')', '"']) _ [';', '\n'] _
    (@Gap.comment [] [] (by decide) .empty) (by decide) end₂
  have end₄ := @LaidOut.token [';', ']'] true .quoteOpening _ [] _ .empty (by decide)
    (@LaidOut.token [';', ']'] false (.word ['٧']) _ [] _ .empty (by decide) end₃)
  have end₅ := @LaidOut.token [';', ']'] false (.word "def".toList) _ [] _ .empty (by decide)
    (@LaidOut.token [';', ']'] true (.word "-x".toList) _ [' '] _ (.blank (by decide) .empty)
      (by decide) end₄)
  have laidOut := @LaidOut.token [';', ']'] false .opening _ [';', '(', '\n'] _
    (@Gap.comment ['('] [] (by decide) .empty) (by decide) end₅
  exact readAll_of_laidOut
    ⟨⟨isName, unmarked_ofDecimal _ _, isPayload, trivial⟩, trivial, trivial⟩
    (.cons spellsBinding (.cons (.atom .nil) .nil)) laidOut

end LazyLisp.Reader
