import LazyLisp.Proofs.Reader.Token

/-!
# Tokens are read locally

What is read at the beginning of a text does not depend on what stands behind a character that ends
tokens. Only a string may go on behind such a character, but not behind a line feed if it has none.
-/

set_option autoImplicit false

namespace LazyLisp.Reader

variable {α : Type} {behind : Text}

/-- In front of a text where tokens end, the same is read, and that text is left over too. -/
def Local (read : Text → Option (α × Text)) : Prop :=
  ∀ text {behind : Text}, AtTokenEnd behind →
    read (text ++ behind) = (read text).map fun found => (found.1, found.2 ++ behind)

/-! ## Runs of characters -/

theorem head?_any_append {stops : Char → Bool} (noStop : behind.head?.any stops = false)
    (text : Text) : (text ++ behind).head?.any stops = text.head?.any stops := by
  cases text with
  | nil => simp [noStop]
  | cons char text => rfl

theorem takeWhile_append {chars : Char → Bool} (stops : behind.head?.any chars = false)
    (text : Text) : (text ++ behind).takeWhile chars = text.takeWhile chars ∧
      (text ++ behind).dropWhile chars = text.dropWhile chars ++ behind := by
  induction text with
  | nil => cases behind <;> simp_all
  | cons char text ih =>
      rw [List.cons_append, List.takeWhile_cons, List.dropWhile_cons, List.takeWhile_cons,
        List.dropWhile_cons, ih.1, ih.2]
      split <;> exact ⟨rfl, rfl⟩

theorem name?_local : Local name? := by
  intro text behind ends
  obtain ⟨taken, dropped⟩ := takeWhile_append ends.not_name text
  simp only [name?, taken, dropped]
  split <;> rfl

theorem word?_local {word : String} (chars : word.toList.all isNameChar = true) (text : Text)
    (ends : AtTokenEnd behind) :
    word? word (text ++ behind) = (word? word text).map (· ++ behind) := by
  ext rest
  rw [word?_eq_some_iff, Option.map_eq_some_iff]
  constructor
  · rintro ⟨split, stops⟩
    rcases List.append_eq_append_iff.mp split with ⟨more, same, rfl⟩ | ⟨left, rfl, rfl⟩
    · have letters : more.all isNameChar = true := by
        rw [same, List.all_append, Bool.and_eq_true] at chars
        exact chars.2
      cases more with
      | nil =>
          refine ⟨[], word?_eq_some_iff.mpr ⟨?_, rfl⟩, rfl⟩
          rw [same, List.append_nil, List.append_nil]
      | cons char more =>
          rw [List.all_cons, Bool.and_eq_true] at letters
          rw [(not_continues_of_endsToken (ends char rfl)).1] at letters
          cases letters.1
    · exact ⟨left, word?_eq_some_iff.mpr ⟨rfl, by rwa [head?_any_append ends.not_name] at stops⟩,
        rfl⟩
  · rintro ⟨left, found, rfl⟩
    obtain ⟨rfl, stops⟩ := word?_eq_some_iff.mp found
    rw [head?_any_append ends.not_name]
    exact ⟨List.append_assoc _ _ _, stops⟩

theorem boolean?_local : Local boolean? := by
  intro text behind ends
  have isTrue := word?_local (show "true".toList.all isNameChar = true by decide) text ends
  have isFalse := word?_local (show "false".toList.all isNameChar = true by decide) text ends
  simp only [boolean?, isTrue, isFalse]
  cases word? "true" text with
  | some rest => rfl
  | none => cases word? "false" text <;> rfl

theorem ofChar?_of_endsToken {char : Char} (ends : endsToken char = true) :
    Operator.ofChar? char = none := by
  unfold Operator.ofChar?
  split <;> first | rfl | exact absurd ends (by decide)

theorem operator?_local : Local operator? := by
  intro text behind ends
  have words (text : Text) (ops : List Operator) (areWords : ∀ op ∈ ops, op ∈ Operator.words) :
      (ops.findSome? fun op => (word? op.token (text ++ behind)).map fun rest => (op, rest)) =
        (ops.findSome? fun op => (word? op.token text).map fun rest => (op, rest)).map
          fun found => (found.1, found.2 ++ behind) := by
    induction ops with
    | nil => rfl
    | cons op ops ih =>
        rw [List.forall_mem_cons] at areWords
        rw [List.findSome?_cons, List.findSome?_cons,
          word?_local (isPlainWord_of_mem_words areWords.1).chars text ends]
        cases word? op.token text with
        | none => exact ih areWords.2
        | some rest => rfl
  cases text with
  | cons char text =>
      simp only [List.cons_append, operator?]
      cases Operator.ofChar? char with
      | some op => rfl
      | none => exact words (char :: text) _ fun _ isWord => isWord
  | nil =>
      cases behind with
      | nil => rfl
      | cons char rest =>
          simp only [List.nil_append, operator?, ofChar?_of_endsToken (ends char rfl)]
          exact words [] _ fun _ isWord => isWord

theorem functionName?_local : Local functionName? := by
  intro text behind ends
  simp only [functionName?, operator?_local text ends, name?_local text ends]
  cases operator? text with
  | some found => rfl
  | none => cases name? text <;> rfl

/-! ## Numerals -/

theorem AtTokenEnd.not_digit (ends : AtTokenEnd behind) :
    behind.head?.any Text.isDigit = false :=
  ends.not_numeral.not_digit

/-- A character that is no end of a token does not stand where tokens end. -/
theorem AtTokenEnd.ne_head (ends : AtTokenEnd behind) {other : Char}
    (inside : endsToken other = false) : ∀ char ∈ behind.head?, char ≠ other := by
  rintro char member rfl
  rw [ends char member] at inside
  cases inside

theorem digitRun_append (text : Text) (ends : AtTokenEnd behind) :
    Text.digitRun (text ++ behind) =
      ((Text.digitRun text).1, (Text.digitRun text).2 ++ behind) := by
  induction text with
  | nil => exact DigitsText.digitRun_append (show DigitsText [] [] from rfl) ends.not_digit
  | cons char text ih =>
      simp only [List.cons_append, Text.digitRun, ih]
      split <;> rfl

theorem sign_append (text : Text) (ends : AtTokenEnd behind) :
    sign (text ++ behind) = ((sign text).1, (sign text).2 ++ behind) := by
  cases text with
  | nil =>
      exact SignText.none.sign_append fun char member =>
        ⟨ends.ne_head (by decide) char member, ends.ne_head (by decide) char member⟩
  | cons char text =>
      rw [List.cons_append, sign.eq_def, sign.eq_def]
      split <;> simp_all

theorem mantissa?_of_not_point {text rest : Text} {whole : List Nat}
    (run : Text.digitRun text = (whole, rest)) (noPoint : ∀ char ∈ rest.head?, char ≠ '.') :
    mantissa? text = if whole.isEmpty then none else some (whole, [], rest) := by
  rw [mantissa?, run]
  split
  next same =>
    cases same
    exact absurd rfl (noPoint '.' rfl)
  next same =>
    cases same
    rfl

theorem mantissa?_append (text : Text) (ends : AtTokenEnd behind) :
    mantissa? (text ++ behind) =
      (mantissa? text).map fun found => (found.1, found.2.1, found.2.2 ++ behind) := by
  have run := digitRun_append text ends
  cases split : Text.digitRun text with
  | mk whole rest =>
      rw [split] at run
      by_cases isPoint : ∃ fraction, rest = '.' :: fraction
      · obtain ⟨fraction, rfl⟩ := isPoint
        rw [mantissa?, mantissa?, run, split]
        simp only [List.cons_append, digitRun_append fraction ends]
        split <;> rfl
      · have noPoint : ∀ char ∈ rest.head?, char ≠ '.' := by
          rintro char member rfl
          exact isPoint ⟨rest.tail, List.eq_cons_of_mem_head? member⟩
        rw [mantissa?_of_not_point split noPoint, mantissa?_of_not_point run]
        · split <;> rfl
        · cases rest with
          | nil => exact ends.ne_head (by decide)
          | cons first rest => exact noPoint

theorem exponent_append (text : Text) (ends : AtTokenEnd behind) :
    exponent (text ++ behind) = ((exponent text).1, (exponent text).2 ++ behind) := by
  cases text with
  | nil =>
      exact exponent_of_not_letter fun char member =>
        ⟨ends.ne_head (by decide) char member, ends.ne_head (by decide) char member⟩
  | cons char text =>
      simp only [List.cons_append, exponent, sign_append text ends, digitRun_append _ ends]
      split
      · generalize Text.digitRun (sign text).2 = run
        obtain ⟨digits, rest⟩ := run
        cases digits <;> rfl
      · rfl

theorem numeral?_local : Local numeral? := by
  intro text behind ends
  simp only [numeral?, sign_append text ends,
    word?_local (show "inf".toList.all isNameChar = true by decide) _ ends,
    word?_local (show "nan".toList.all isNameChar = true by decide) _ ends,
    mantissa?_append _ ends]
  cases word? "inf" (sign text).2 with
  | some rest => rfl
  | none =>
      cases word? "nan" (sign text).2 with
      | some rest => rfl
      | none =>
          cases mantissa? (sign text).2 with
          | none => rfl
          | some found =>
              simp only [Option.map_none, Option.map_some, Option.bind_eq_bind, Option.bind_some,
                exponent_append _ ends, head?_any_append ends.not_numeral]
              split <;> rfl

/-! ## What is read contains no end of a token -/

/-- Between the text and the rest of it no character ends a token. -/
def Passes (text rest : Text) : Prop :=
  ∃ word, (∀ char ∈ word, endsToken char = false) ∧ text = word ++ rest

namespace Passes

variable {text middle rest : Text}

theorem refl (text : Text) : Passes text text := ⟨[], nofun, rfl⟩

theorem cons {char : Char} (inside : endsToken char = false) (passes : Passes text rest) :
    Passes (char :: text) rest := by
  obtain ⟨word, chars, rfl⟩ := passes
  exact ⟨char :: word, List.forall_mem_cons.mpr ⟨inside, chars⟩, rfl⟩

theorem trans (passes : Passes text middle) (passes' : Passes middle rest) : Passes text rest := by
  obtain ⟨word, chars, rfl⟩ := passes
  obtain ⟨word', chars', rfl⟩ := passes'
  exact ⟨word ++ word', List.forall_mem_append.mpr ⟨chars, chars'⟩, (List.append_assoc _ _ _).symm⟩

theorem length_le (passes : Passes text rest) : rest.length ≤ text.length := by
  obtain ⟨word, -, rfl⟩ := passes
  simp

end Passes

/-- The same, where there is a character in between. -/
structure Consumes (text rest : Text) : Prop where
  passes : Passes text rest
  shorter : rest.length < text.length

variable {text rest : Text}

theorem Passes.consumes {char : Char} (passes : Passes text rest)
    (inside : endsToken char = false) : Consumes (char :: text) rest :=
  ⟨passes.cons inside, Nat.lt_succ_of_le passes.length_le⟩

/-- A word of name characters is passed over whole. -/
theorem Consumes.of_name_chars {word : Text} (nonempty : word ≠ [])
    (chars : word.all isNameChar = true) (rest : Text) : Consumes (word ++ rest) rest := by
  refine ⟨⟨word, fun char member => ?_, rfl⟩, ?_⟩
  · exact not_endsToken_of_isNameChar (List.all_eq_true.mp chars char member)
  · rw [List.length_append]
    have := List.length_pos_iff.mpr nonempty
    omega

theorem consumes_of_name? {name : String} (found : name? text = some (name, rest)) :
    Consumes text rest := by
  have isName := isName_of_name? found
  rw [← append_eq_of_name? found]
  exact .of_name_chars isName.nonempty isName.chars rest

theorem consumes_of_word? {word : String} (nonempty : word.toList ≠ [])
    (chars : word.toList.all isNameChar = true) (found : word? word text = some rest) :
    Consumes text rest := by
  obtain ⟨rfl, -⟩ := word?_eq_some_iff.mp found
  exact .of_name_chars nonempty chars rest

theorem consumes_of_boolean? {value : Bool} (found : boolean? text = some (value, rest)) :
    Consumes text rest := by
  unfold boolean? at found
  split at found
  next isTrue =>
    cases found
    exact consumes_of_word? (by decide) (by decide) isTrue
  next =>
    obtain ⟨rest, isFalse, same⟩ := Option.map_eq_some_iff.mp found
    cases same
    exact consumes_of_word? (by decide) (by decide) isFalse

theorem consumes_of_operator? {op : Operator} (found : operator? text = some (op, rest)) :
    Consumes text rest := by
  cases text with
  | nil => cases found
  | cons char text =>
      simp only [operator?] at found
      split at found
      next isMark =>
        cases found
        refine (Passes.refl rest).consumes ?_
        by_contra ends
        rw [Bool.not_eq_false] at ends
        rw [ofChar?_of_endsToken ends] at isMark
        cases isMark
      next =>
        obtain ⟨op, isWord, found⟩ := List.exists_of_findSome?_eq_some found
        obtain ⟨rest, found, same⟩ := Option.map_eq_some_iff.mp found
        cases same
        have plain := isPlainWord_of_mem_words isWord
        exact consumes_of_word? plain.nonempty plain.chars found

theorem consumes_of_functionName? {head : Expr} (found : functionName? text = some (head, rest)) :
    Consumes text rest := by
  unfold functionName? at found
  split at found
  next isOperator =>
    cases found
    exact consumes_of_operator? isOperator
  next =>
    obtain ⟨⟨name, behind⟩, isName, same⟩ := Option.map_eq_some_iff.mp found
    cases same
    exact consumes_of_name? isName

/-! ## Numerals -/

theorem not_endsToken_of_continuesNumeral {char : Char} (continues : continuesNumeral char = true) :
    endsToken char = false := by
  by_contra ends
  rw [Bool.not_eq_false] at ends
  rw [(not_continues_of_endsToken ends).2] at continues
  cases continues

theorem passes_digitRun (text : Text) : Passes text (Text.digitRun text).2 ∧
    ((Text.digitRun text).1 ≠ [] → (Text.digitRun text).2.length < text.length) := by
  induction text with
  | nil => exact ⟨.refl [], fun nonempty => absurd rfl nonempty⟩
  | cons char text ih =>
      rw [Text.digitRun]
      split
      next value isDigit =>
        have inside : endsToken char = false :=
          not_endsToken_of_continuesNumeral (by simp [continuesNumeral, Text.isDigit, isDigit])
        have shorter := ih.1.length_le
        exact ⟨ih.1.cons inside, fun _ => Nat.lt_succ_of_le shorter⟩
      next => exact ⟨.refl _, fun nonempty => absurd rfl nonempty⟩

theorem passes_sign (text : Text) : Passes text (sign text).2 := by
  unfold sign
  split
  · exact .cons (by decide) (.refl _)
  · exact .cons (by decide) (.refl _)
  · exact .refl _

theorem consumes_of_mantissa? {whole fraction : List Nat}
    (found : mantissa? text = some (whole, fraction, rest)) : Consumes text rest := by
  obtain ⟨passes, shorter⟩ := passes_digitRun text
  unfold mantissa? at found
  split at found
  next behind run =>
    rw [run] at passes
    have point : Consumes ('.' :: behind) (Text.digitRun behind).2 :=
      (passes_digitRun behind).1.consumes (by decide)
    dsimp only at found
    split at found
    · cases found
    · cases found
      exact ⟨passes.trans point.passes, Nat.lt_of_lt_of_le point.shorter passes.length_le⟩
  next run =>
    rw [run] at passes shorter
    split at found
    · cases found
    next nonempty =>
      cases found
      exact ⟨passes, shorter (by simpa using nonempty)⟩

theorem passes_exponent (text : Text) : Passes text (exponent text).2 := by
  cases text with
  | nil => exact .refl []
  | cons char text =>
      simp only [exponent]
      split
      next isLetter =>
        have inside : endsToken char = false := by
          simp only [Bool.or_eq_true, beq_iff_eq] at isLetter
          rcases isLetter with rfl | rfl <;> decide
        have passes := (passes_sign text).trans (passes_digitRun (sign text).2).1
        split
        · exact .refl _
        next run =>
          rw [run] at passes
          exact passes.cons inside
      next => exact .refl _

theorem consumes_of_numeral? {number : Number} (found : numeral? text = some (number, rest)) :
    Consumes text rest := by
  have signed := passes_sign text
  have behindSign (consumes : Consumes (sign text).2 rest) : Consumes text rest :=
    ⟨signed.trans consumes.passes, Nat.lt_of_lt_of_le consumes.shorter signed.length_le⟩
  refine behindSign ?_
  simp only [numeral?] at found
  split at found
  next isInfinite =>
    cases found
    exact consumes_of_word? (by decide) (by decide) isInfinite
  next =>
    split at found
    next isNan =>
      cases found
      exact consumes_of_word? (by decide) (by decide) isNan
    next =>
      simp only [Option.bind_eq_bind, Option.bind_eq_some_iff] at found
      obtain ⟨⟨whole, fraction, behind⟩, isMantissa, found⟩ := found
      have mantissa := consumes_of_mantissa? isMantissa
      have power := passes_exponent behind
      split at found
      · cases found
      · cases found
        exact ⟨mantissa.passes.trans power, Nat.lt_of_le_of_lt power.length_le mantissa.shorter⟩

end LazyLisp.Reader
