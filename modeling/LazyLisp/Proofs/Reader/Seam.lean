import LazyLisp.Proofs.Reader.Parting

/-!
# Seams

What stands behind a token may be exchanged for another text without changing how the token is read,
as long as no name and no numeral goes on in it. Only a sign looks further: it is an operator where
no numeral begins with it.
-/

set_option autoImplicit false

namespace LazyLisp.Reader

/-! ## Gaps in front of a token -/

theorem skipFrom_append_of_ne_nil {comment : Bool} {word : Text} (more : skipFrom comment word ≠ [])
    (text : Text) : skipFrom comment (word ++ text) = skipFrom comment word ++ text := by
  induction word generalizing comment with
  | nil => exact absurd rfl more
  | cons char word ih =>
      cases comment with
      | true =>
          simp only [skipFrom, if_true] at more ⊢
          exact ih more
      | false =>
          simp only [List.cons_append, skipFrom, Bool.false_eq_true, if_false] at more ⊢
          split at more
          next isBlank =>
            rw [if_pos isBlank, if_pos isBlank]
            exact ih more
          next noBlank =>
            rw [if_neg noBlank, if_neg noBlank]
            split at more
            next isComment =>
              rw [if_pos isComment, if_pos isComment]
              exact ih more
            next noComment => rw [if_neg noComment, if_neg noComment, List.cons_append]

/-- Behind a word that is more than a gap nothing is skipped. -/
theorem skipGap_append_of_ne_nil {word : Text} (more : skipGap word ≠ []) (text : Text) :
    skipGap (word ++ text) = skipGap word ++ text :=
  skipFrom_append_of_ne_nil more text

theorem length_pos_of_skipGap {word : Text} (more : skipGap word ≠ []) : 0 < word.length := by
  rw [List.length_pos_iff]
  rintro rfl
  exact more rfl

/-- What is skipped in front of a token is a gap, and inside a comment the end of that comment and a
gap. -/
theorem exists_gap_from (text : Text) :
    (skipGap text ≠ [] → ∃ gap, Gap gap ∧ text = gap ++ skipGap text) ∧
      (skipFrom true text ≠ [] → ∃ body gap, '\n' ∉ body ∧ Gap gap ∧
        text = body ++ '\n' :: gap ++ skipFrom true text) := by
  induction text with
  | nil => exact ⟨fun more => absurd rfl more, fun more => absurd rfl more⟩
  | cons char text ih =>
      obtain ⟨outside, inside⟩ := ih
      constructor
      · intro more
        by_cases isBlank : Text.isBlank char = true
        · have skipped := (Gap.blank isBlank .empty).skipGap_append text
          rw [List.singleton_append] at skipped
          rw [skipped] at more ⊢
          obtain ⟨gap, isGap, split⟩ := outside more
          exact ⟨char :: gap, .blank isBlank isGap, by rw [List.cons_append, ← split]⟩
        by_cases isComment : char = ';'
        · subst isComment
          rw [skipGap_semicolon] at more ⊢
          obtain ⟨body, gap, noLineFeed, isGap, split⟩ := inside more
          exact ⟨';' :: body ++ '\n' :: gap, .comment noLineFeed isGap,
            by rw [List.cons_append, List.cons_append, ← split]⟩
        · rw [skipGap_cons_of_not_startsGap text (by simp [startsGap, isBlank, isComment])]
          exact ⟨[], .empty, rfl⟩
      · intro more
        by_cases isEnd : char = '\n'
        · subst isEnd
          obtain ⟨gap, isGap, split⟩ := outside more
          exact ⟨[], gap, List.not_mem_nil, isGap, congrArg ('\n' :: ·) split⟩
        · have skipped : skipFrom true (char :: text) = skipFrom true text := by
            rw [skipFrom, if_pos rfl, bne_iff_ne.mpr isEnd]
          rw [skipped] at more ⊢
          obtain ⟨body, gap, noLineFeed, isGap, split⟩ := inside more
          refine ⟨char :: body, gap, ?_, isGap, by rw [List.cons_append, List.cons_append, ← split]⟩
          rw [List.mem_cons, not_or]
          exact ⟨Ne.symm isEnd, noLineFeed⟩

theorem exists_gap {text : Text} (more : skipGap text ≠ []) :
    ∃ gap, Gap gap ∧ text = gap ++ skipGap text :=
  (exists_gap_from text).1 more

/-! ## Texts that may be exchanged -/

/-- Behind a token the second text may stand in place of the first: no name and no numeral goes on
in it that does not go on in the first, and none begins with a sign in front of it that does not
begin so in front of the first. -/
structure Seam (rest rest' : Text) : Prop where
  name : AtNameEnd rest → AtNameEnd rest'
  numeral : AtNumeralEnd rest → AtNumeralEnd rest'
  signed {mark : Char} : mark = '-' ∨ mark = '+' →
    numeral? (mark :: rest) = none → numeral? (mark :: rest') = none

theorem Seam.refl (rest : Text) : Seam rest rest := ⟨id, id, fun _ => id⟩

/-- The end of a line may stand behind every token. -/
theorem Seam.of_lineEnd (rest : Text) {rest' : Text} (lineEnd : LineEnd rest') :
    Seam rest rest' where
  name _ := lineEnd.atTokenEnd.not_name
  numeral _ := lineEnd.atTokenEnd.not_numeral
  signed isSign _ := numeral?_sign isSign lineEnd.atTokenEnd

theorem Seam.append_lineEnd (rest : Text) {tail : Text} (lineEnd : LineEnd tail) :
    Seam rest (rest ++ tail) where
  name ends := by rwa [AtNameEnd, head?_any_append lineEnd.atTokenEnd.not_name]
  numeral ends := by rwa [AtNumeralEnd, head?_any_append lineEnd.atTokenEnd.not_numeral]
  signed _ noNumber := by
    rw [← List.cons_append, numeral?_local _ lineEnd.atTokenEnd, noNumber, Option.map_none]

/-- No numeral goes on with the character behind a sign. -/
def standsApart (char : Char) : Bool := !startsMantissa char && char != 'i' && char != 'n'

theorem standsApart_of_endsToken {char : Char} (ends : endsToken char = true) :
    standsApart char = true := by
  obtain ⟨noName, noNumeral⟩ := not_continues_of_endsToken ends
  have noMantissa : startsMantissa char = false := by
    simp only [continuesNumeral, Bool.or_eq_false_iff] at noNumeral
    simp [startsMantissa, noNumeral]
  have noLetter (letter : Char) (isName : isNameChar letter = true) : char ≠ letter := by
    rintro rfl
    rw [isName] at noName
    cases noName
  simp [standsApart, noMantissa, noLetter 'i' (by decide), noLetter 'n' (by decide)]

theorem sign_cons {mark : Char} (isSign : mark = '-' ∨ mark = '+') (rest : Text) :
    sign (mark :: rest) = (mark == '-', rest) := by
  rcases isSign with rfl | rfl <;> rfl

theorem exists_signText_of_sign {mark : Char} (isSign : mark = '-' ∨ mark = '+') :
    ∃ negative, SignText negative [mark] := by
  rcases isSign with rfl | rfl
  · exact ⟨true, .minus⟩
  · exact ⟨false, .plus⟩

/-- Behind the same word only signs can tell two texts apart. -/
theorem Seam.append {word rest rest' : Text} (nonempty : word ≠ [])
    (signed : ∀ mark, mark = '-' ∨ mark = '+' →
      numeral? (mark :: (word ++ rest)) = none → numeral? (mark :: (word ++ rest')) = none) :
    Seam (word ++ rest) (word ++ rest') := by
  cases word with
  | nil => exact absurd rfl nonempty
  | cons char word => exact ⟨id, id, fun isSign => signed _ isSign⟩

theorem Seam.cons {char : Char} (apart : standsApart char = true) (rest rest' : Text) :
    Seam (char :: rest) (char :: rest') := by
  refine @Seam.append [char] _ _ (List.cons_ne_nil _ _) fun mark isSign _ => ?_
  simp only [standsApart, Bool.and_eq_true, Bool.not_eq_true', bne_iff_ne] at apart
  obtain ⟨⟨noMantissa, noInfinite⟩, noNan⟩ := apart
  refine numeral?_eq_none (sign_cons isSign _) ?_ ?_ ?_
  · exact word?_eq_none_of_head (show "inf".toList = 'i' :: ['n', 'f'] from rfl)
      fun first member => by cases member; exact noInfinite
  · exact word?_eq_none_of_head (show "nan".toList = 'n' :: ['a', 'n'] from rfl)
      fun first member => by cases member; exact noNan
  · exact fun first member => by cases member; exact noMantissa

theorem Seam.gap_append {gap rest rest' : Text} (isGap : Gap gap) (seam : Seam rest rest') :
    Seam (gap ++ rest) (gap ++ rest') := by
  cases gap with
  | nil => exact seam
  | cons char gap =>
      have ends : endsToken char = true := by simp [endsToken, isGap.head_startsGap char rfl]
      exact .cons (standsApart_of_endsToken ends) _ _

/-- A name does not become a numeral by what stands behind it. -/
theorem Seam.name_append {name rest rest' : Text} (nonempty : name ≠ [])
    (chars : name.all isNameChar = true) (noDigit : name.head?.any Char.isDigit = false)
    (ends : AtNameEnd rest) (seam : Seam rest rest') : Seam (name ++ rest) (name ++ rest') := by
  by_cases startsMinus : name.head? = some '-'
  · rw [List.eq_cons_of_mem_head? startsMinus]
    exact .cons (by decide) _ _
  refine .append nonempty fun mark isSign noNumber => ?_
  obtain ⟨negative, signText⟩ := exists_signText_of_sign isSign
  -- The words of numbers that are not finite are numerals in front of both texts.
  have notInfinite : name ≠ "inf".toList := by
    rintro rfl
    cases (numeral?_infinite signText ends).symm.trans noNumber
  have notNan : name ≠ "nan".toList := by
    rintro rfl
    cases (numeral?_nan signText ends).symm.trans noNumber
  refine numeral?_eq_none (sign_cons isSign _) ?_ ?_ fun first member => ?_
  · rw [word?_append (by decide) chars (seam.name ends), if_neg notInfinite]
  · rw [word?_append (by decide) chars (seam.name ends), if_neg notNan]
  · cases name with
    | nil => exact absurd rfl nonempty
    | cons char letters =>
        cases member
        rw [List.all_cons, Bool.and_eq_true] at chars
        exact (name_char_table chars.1 noDigit fun same => startsMinus (congrArg some same)).1

/-! ## Words that are read in the same way -/

/-- The text is a word and the rest. Where another part stands behind the word, and then something
that may be left over, signs in front of the text see no difference, and the statement on reading
holds. -/
def Splits (part : Text) (may : Text → Prop) (reads : Text → Text → Prop) (text rest : Text) :
    Prop :=
  ∃ word, text = word ++ rest ∧ ∀ ⦃left : Text⦄, may left →
    Seam text (word ++ (part ++ left)) ∧ reads (word ++ (part ++ left)) left

/-- The same, where the word is more than a gap. -/
def Severs (part : Text) (may : Text → Prop) (reads : Text → Text → Prop) (text rest : Text) :
    Prop :=
  ∃ word, skipGap word ≠ [] ∧ text = word ++ rest ∧ ∀ ⦃left : Text⦄, may left →
    Seam text (word ++ (part ++ left)) ∧ reads (word ++ (part ++ left)) left

/-- The word is read in the same way in front of all that may stand in place of the rest. -/
abbrev Keeps (reads : Text → Text → Prop) (text rest : Text) : Prop :=
  Severs [] (Seam rest) reads text rest

section

variable {part text middle rest : Text} {may : Text → Prop} {reads reads' : Text → Text → Prop}

theorem Severs.splits (severs : Severs part may reads text rest) :
    Splits part may reads text rest := by
  obtain ⟨word, -, split, exchange⟩ := severs
  exact ⟨word, split, exchange⟩

theorem Keeps.self (keeps : Keeps reads text rest) : reads text rest := by
  obtain ⟨word, -, rfl, exchange⟩ := keeps
  exact (exchange (Seam.refl rest)).2

theorem Severs.imp (severs : Severs part may reads text rest)
    (implies : ∀ text' left, (skipGap text').head? = (skipGap text).head? →
      left.length < text'.length → reads text' left → reads' text' left) :
    Severs part may reads' text rest := by
  obtain ⟨word, more, rfl, exchange⟩ := severs
  refine ⟨word, more, rfl, fun left isLeft => ⟨(exchange isLeft).1, ?_⟩⟩
  refine implies _ _ ?_ ?_ (exchange isLeft).2
  · rw [skipGap_append_of_ne_nil more, skipGap_append_of_ne_nil more]
    cases skipped : skipGap word with
    | nil => exact absurd skipped more
    | cons => rfl
  · have positive := length_pos_of_skipGap more
    simp only [List.length_append]
    omega

theorem Severs.length_lt (severs : Severs part may reads text rest) :
    rest.length < text.length := by
  obtain ⟨word, more, rfl, -⟩ := severs
  have positive := length_pos_of_skipGap more
  rw [List.length_append]
  omega

/-- Reading goes on behind the word. -/
theorem Severs.trans (first : Keeps reads text middle)
    (second : Splits part may reads' middle rest) :
    Severs part may (fun text' left => ∃ middle', middle'.length < text'.length ∧
      left.length ≤ middle'.length ∧ reads text' middle' ∧ reads' middle' left) text rest := by
  obtain ⟨word, more, rfl, exchange⟩ := first
  obtain ⟨word', rfl, exchange'⟩ := second
  have more' : skipGap (word ++ word') ≠ [] := by
    rw [skipGap_append_of_ne_nil more]
    exact List.append_ne_nil_of_left_ne_nil more word'
  have positive := length_pos_of_skipGap more
  refine ⟨word ++ word', more', (List.append_assoc _ _ _).symm, fun left isLeft => ?_⟩
  obtain ⟨seam', read'⟩ := exchange' isLeft
  obtain ⟨seam, read⟩ := exchange seam'
  rw [List.append_assoc word word' (part ++ left)]
  refine ⟨seam, word' ++ (part ++ left), ?_, ?_, read, read'⟩
  · simp only [List.length_append]
    omega
  · simp only [List.length_append]
    omega

/-- What is read behind a gap. -/
theorem Severs.of_skipGap (severs : Severs part may reads (skipGap text) rest) :
    Severs part may (fun text' left => reads (skipGap text') left) text rest := by
  obtain ⟨word, more, split, exchange⟩ := severs
  have notAtEnd : skipGap text ≠ [] := by
    rw [split]
    exact List.append_ne_nil_of_left_ne_nil (fun empty => more (by rw [empty]; rfl)) rest
  obtain ⟨gap, isGap, whole⟩ := exists_gap notAtEnd
  have skipped (behind : Text) : skipGap (gap ++ word ++ behind) = word ++ behind := by
    rw [List.append_assoc, isGap.skipGap_append]
    cases word with
    | nil => exact absurd rfl more
    | cons char word => exact skipGap_cons_of_not_startsGap _ (not_startsGap_of_skipGap split)
  refine ⟨gap ++ word, ?_, by rw [whole, split, List.append_assoc], fun left isLeft => ?_⟩
  · rwa [isGap.skipGap_append]
  · obtain ⟨seam, read⟩ := exchange isLeft
    dsimp only
    rw [skipped]
    refine ⟨?_, read⟩
    rw [whole, List.append_assoc]
    exact seam.gap_append isGap

end

/-! ## Tokens -/

section

variable {text rest : Text}

/-- A token behind a gap. -/
theorem keeps_token {token : Text} (skipped : skipGap text = token ++ rest) (nonempty : token ≠ [])
    (seams : ∀ left, Seam rest left → Seam (token ++ rest) (token ++ left)) :
    Keeps (fun text' left => skipGap text' = token ++ left ∧ Seam rest left) text rest := by
  suffices severs : Keeps (fun text' left => text' = token ++ left ∧ Seam rest left)
      (skipGap text) rest from severs.of_skipGap
  cases token with
  | nil => exact absurd rfl nonempty
  | cons char letters =>
      have noGap := not_startsGap_of_skipGap skipped
      refine ⟨char :: letters, ?_, skipped, fun left seam => ?_⟩
      · rw [skipGap_cons_of_not_startsGap _ noGap]
        exact List.cons_ne_nil _ _
      · rw [skipped]
        exact ⟨seams left seam, rfl, seam⟩

theorem keeps_char {char : Char} (skipped : skipGap text = char :: rest)
    (apart : standsApart char = true) :
    Keeps (fun text' left => skipGap text' = char :: left) text rest :=
  (keeps_token skipped (List.cons_ne_nil char []) fun _ _ => .cons apart _ _).imp
    fun _ _ _ _ read => read.1

theorem keeps_name {name : String} (found : name? (skipGap text) = some (name, rest)) :
    Keeps (fun text' left => name? (skipGap text') = some (name, left)) text rest := by
  have isName := isName_of_name? found
  have ends := not_name_of_name? found
  refine (keeps_token (append_eq_of_name? found).symm isName.nonempty fun left seam =>
    .name_append isName.nonempty isName.chars isName.noDigit ends seam).imp
      fun text' left _ _ read => ?_
  rw [read.1, name?_append isName (read.2.name ends)]

theorem keeps_word {word : String} (isPlain : IsPlainWord word)
    (skipped : skipGap text = word.toList ++ rest) (ends : AtNameEnd rest) :
    Keeps (fun text' left => skipGap text' = word.toList ++ left ∧ AtNameEnd left) text rest :=
  (keeps_token skipped isPlain.nonempty fun _ seam =>
    .name_append isPlain.nonempty isPlain.chars isPlain.noDigit ends seam).imp
      fun _ _ _ _ read => ⟨read.1, read.2.name ends⟩

/-! ## Atoms -/

/-- A numeral is read in front of all that may stand in place of what it stood in front of. -/
theorem keeps_numeral {number : Number}
    (found : numeral? (skipGap text) = some (number, rest)) :
    Keeps (fun text' left => numeral? (skipGap text') = some (number, left)) text rest := by
  obtain ⟨negative, signText, value, unsigned, ends, signed, unsignedText, isEnd, rfl, split⟩ :=
    exists_unsignedText found
  have isEnd' {left : Text} (seam : Seam rest left) : ends left := by
    cases unsignedText with
    | infinite | nan => exact seam.name isEnd
    | decimal => exact seam.numeral isEnd
  have nonempty : signText ++ unsigned ≠ [] := by
    cases unsignedText with
    | infinite | nan => exact List.append_ne_nil_of_right_ne_nil _ (List.cons_ne_nil _ _)
    | decimal mantissaText =>
        obtain ⟨char, letters, rfl, -⟩ := mantissaText.exists_cons
        exact List.append_ne_nil_of_right_ne_nil _ (List.cons_ne_nil _ _)
  refine (keeps_token (by rw [split, List.append_assoc]) nonempty fun left seam => ?_).imp
    fun text' left _ _ read => ?_
  · cases signed with
    | plus | minus => exact .cons (by decide) _ _
    | none =>
        refine .append nonempty fun mark isSign noNumber => ?_
        obtain ⟨negative, signText⟩ := exists_signText_of_sign isSign
        cases (unsignedText.numeral?_append isEnd signText).symm.trans noNumber
  · rw [read.1, List.append_assoc]
    exact unsignedText.numeral?_append (isEnd' read.2) signed

theorem word_of_boolean? {value : Bool} (found : boolean? text = some (value, rest)) :
    text = (if value then "true" else "false").toList ++ rest ∧ AtNameEnd rest := by
  unfold boolean? at found
  split at found
  next isTrue =>
    cases found
    exact word?_eq_some_iff.mp isTrue
  next =>
    obtain ⟨rest, isFalse, same⟩ := Option.map_eq_some_iff.mp found
    cases same
    exact word?_eq_some_iff.mp isFalse

theorem keeps_boolean {value : Bool} (found : boolean? (skipGap text) = some (value, rest)) :
    Keeps (fun text' left => atom? (skipGap text') = .ok (some (.boolean value, left)))
      text rest := by
  obtain ⟨split, ends⟩ := word_of_boolean? found
  have isPlain : IsPlainWord (if value then "true" else "false") := by
    cases value <;> exact ⟨by decide, by decide, by decide, by decide⟩
  refine (keeps_word isPlain split ends).imp fun text' left _ _ read => ?_
  rw [read.1, atom?_boolean value read.2]

/-- An operator is a character or a word that does not go on. -/
theorem operator?_cases {op : Operator} (found : operator? text = some (op, rest)) :
    (∃ char, Operator.ofChar? char = some op ∧ text = char :: rest) ∨
      op ∈ Operator.words ∧ text = op.token.toList ++ rest ∧ AtNameEnd rest := by
  cases text with
  | nil => cases found
  | cons char text =>
      simp only [operator?] at found
      split at found
      next isMark =>
        cases found
        exact .inl ⟨char, isMark, rfl⟩
      next =>
        obtain ⟨op, isWord, found⟩ := List.exists_of_findSome?_eq_some found
        obtain ⟨rest, found, same⟩ := Option.map_eq_some_iff.mp found
        cases same
        exact .inr ⟨isWord, word?_eq_some_iff.mp found⟩

theorem standsApart_of_ofChar? {char : Char} {op : Operator}
    (isMark : Operator.ofChar? char = some op) : standsApart char = true := by
  unfold Operator.ofChar? at isMark
  split at isMark <;> first | decide | cases isMark

theorem numeral?_operator_char {char : Char} {op : Operator}
    (isMark : Operator.ofChar? char = some op) {left : Text} (seam : Seam rest left)
    (noNumber : numeral? (char :: rest) = none) : numeral? (char :: left) = none := by
  unfold Operator.ofChar? at isMark
  split at isMark
  · exact seam.signed (.inr rfl) noNumber
  · exact seam.signed (.inl rfl) noNumber
  all_goals first | rfl | cases isMark

theorem keeps_operator {op : Operator} (noNumber : numeral? (skipGap text) = none)
    (found : operator? (skipGap text) = some (op, rest)) :
    Keeps (fun text' left => atom? (skipGap text') = .ok (some (.operator op, left)))
      text rest := by
  rcases operator?_cases found with ⟨char, isMark, split⟩ | ⟨isWord, split, ends⟩
  · rw [split] at noNumber
    refine (keeps_token split (List.cons_ne_nil char []) fun _ _ =>
      .cons (standsApart_of_ofChar? isMark) _ _).imp fun text' left _ _ read => ?_
    rw [read.1]
    exact atom?_operator_char isMark (numeral?_operator_char isMark read.2 noNumber)
  · refine (keeps_word (isPlainWord_of_mem_words isWord) split ends).imp
      fun text' left _ _ read => ?_
    rw [read.1, atom?_operator_word isWord read.2]

theorem keeps_committedAtom {expr : Expr} (noOperator : operator? (skipGap text) = none)
    (found : committedAtom? (skipGap text) = .ok (some (expr, rest))) :
    Keeps (fun text' left => atom? (skipGap text') = .ok (some (expr, left))) text rest := by
  unfold committedAtom? at found
  split at found
  next inner colon =>
    split at found
    next name _ isSymbol =>
      cases found
      have isName := isName_of_name? isSymbol
      have split : skipGap text = ':' :: name.toList ++ rest := by
        rw [colon, List.cons_append, append_eq_of_name? isSymbol]
      refine (keeps_token split (List.cons_ne_nil _ _) fun _ _ =>
        .cons (by decide) _ _).imp fun text' left _ _ read => ?_
      rw [read.1, atom?_symbol isName (read.2.name (not_name_of_name? isSymbol))]
    next => cases found
  next inner quote =>
    split at found
    next payload _ isString =>
      cases found
      have isPayload := isPayload_of_payload? isString
      rw [← String.toList_ofList (l := payload)] at isPayload
      have split : skipGap text = '"' :: (String.ofList payload).toList ++ ['"'] ++ rest := by
        rw [quote, append_eq_of_payload? isString, String.toList_ofList]
        simp
      refine (keeps_token split (List.cons_ne_nil _ _) fun _ _ =>
        .cons (by decide) _ _).imp fun text' left _ _ read => ?_
      rw [read.1, atom?_string isPayload]
    next => cases found
  next =>
    obtain ⟨⟨name, behind⟩, isName, same⟩ := Option.map_eq_some_iff.mp (Except.ok.inj found)
    cases same
    have isIdentifier := isIdentifier_of_name? noOperator isName
    refine (keeps_word isIdentifier.isPlainWord (append_eq_of_name? isName).symm
      (not_name_of_name? isName)).imp fun text' left _ _ read => ?_
    rw [read.1, atom?_identifier isIdentifier read.2]

/-- Every atom is read in front of all that may stand in place of what it stood in front of. -/
theorem keeps_atom {expr : Expr} (found : atom? (skipGap text) = .ok (some (expr, rest))) :
    Keeps (fun text' left => atom? (skipGap text') = .ok (some (expr, left))) text rest := by
  unfold atom? at found
  split at found
  next isNumber =>
    cases found
    refine (keeps_numeral isNumber).imp fun text' left _ _ read => ?_
    simp only [atom?, read]
  next noNumber =>
    split at found
    next isBoolean =>
      cases found
      exact keeps_boolean isBoolean
    next =>
      split at found
      next isOperator =>
        cases found
        exact keeps_operator noNumber isOperator
      next noOperator =>
        split at found
        next isNil =>
          cases found
          obtain ⟨split, ends⟩ := word?_eq_some_iff.mp isNil
          have isPlain : IsPlainWord "nil" := ⟨by decide, by decide, by decide, by decide⟩
          refine (keeps_word isPlain split ends).imp fun text' left _ _ read => ?_
          rw [read.1, atom?_nil read.2]
        next => exact keeps_committedAtom noOperator found

theorem keeps_functionName {head : Expr}
    (found : functionName? (skipGap text) = some (head, rest)) :
    Keeps (fun text' left => functionName? (skipGap text') = some (head, left)) text rest := by
  unfold functionName? at found
  split at found
  next op behind isOperator =>
    cases found
    rcases operator?_cases isOperator with ⟨char, isMark, split⟩ | ⟨isWord, split, ends⟩
    · refine (keeps_char split (standsApart_of_ofChar? isMark)).imp fun text' left _ _ read => ?_
      rw [read, functionName?, operator?, isMark]
    · refine (keeps_word (isPlainWord_of_mem_words isWord) split ends).imp
        fun text' left _ _ read => ?_
      rw [read.1, functionName?_operator op read.2]
  next noOperator =>
    obtain ⟨⟨name, behind⟩, isName, same⟩ := Option.map_eq_some_iff.mp found
    cases same
    have isIdentifier := isIdentifier_of_name? noOperator isName
    refine (keeps_word isIdentifier.isPlainWord (append_eq_of_name? isName).symm
      (not_name_of_name? isName)).imp fun text' left _ _ read => ?_
    rw [read.1, functionName?_identifier isIdentifier read.2]

/-- Where an atom fails to be read, nothing of it counts as read, or it is a symbol without its
name. -/
theorem severs_of_atom?_error {stop : Stop} (failed : atom? (skipGap text) = .error stop) :
    stop.rest = skipGap text ∨
      Severs ['x'] LineEnd
        (fun text' left => atom? (skipGap text') = .ok (some (.symbol "x", left)))
        text stop.rest := by
  have failed : committedAtom? (skipGap text) = .error stop := by
    unfold atom? at failed
    split at failed
    · cases failed
    · split at failed
      · cases failed
      · split at failed
        · cases failed
        · split at failed
          · cases failed
          · exact failed
  unfold committedAtom? at failed
  split at failed
  next inner colon =>
    split at failed
    next => cases failed
    next =>
      cases failed
      have isName : IsName "x" := ⟨by decide, by decide, by decide, by decide⟩
      refine .inr ((?_ : Severs ['x'] LineEnd (fun text' left =>
        atom? text' = .ok (some (.symbol "x", left))) (skipGap text) inner).of_skipGap)
      refine ⟨[':'], by decide, colon, fun left lineEnd => ?_⟩
      rw [colon]
      exact ⟨.cons (by decide) _ _, atom?_symbol isName lineEnd.atTokenEnd.not_name⟩
  next =>
    split at failed
    next => cases failed
    next =>
      cases failed
      exact .inl rfl
  next => cases failed

end

end LazyLisp.Reader
