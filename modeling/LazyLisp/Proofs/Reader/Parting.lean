import LazyLisp.Proofs.Reader.Locality
import LazyLisp.Shell

/-!
# Texts that part at a line end

Two texts begin alike up to the end of a line and go on differently. The reader takes the same steps
in both until it comes to the line end. Where brackets are open there, it skips a gap, and the two
texts have to go on alike behind their gaps; where none is open, a form ends in front of it. How
many brackets are open is what the shell counts.
-/

set_option autoImplicit false

namespace LazyLisp

/-! ## Strings of one line -/

namespace Expr

mutual

/-- No string in the expression has a line feed. -/
def OneLine : Expr → Prop
  | .string payload => '\n' ∉ payload.toList
  | .application head arguments => OneLine head ∧ AllOneLine arguments
  | .ifThen condition consequent => OneLine condition ∧ OneLine consequent
  | .ifThenElse condition consequent alternative =>
    OneLine condition ∧ OneLine consequent ∧ OneLine alternative
  | .binding _ value => OneLine value
  | .lambda _ body => OneLine body
  | .cond clauses => AllOneLine clauses
  | .list elements => AllOneLine elements
  | .number _ | .boolean _ | .symbol _ | .identifier _ | .operator _ | .nil => True

def AllOneLine : List Expr → Prop
  | [] => True
  | expr :: exprs => OneLine expr ∧ AllOneLine exprs

end

theorem allOneLine_append {before behind : List Expr} :
    AllOneLine (before ++ behind) ↔ AllOneLine before ∧ AllOneLine behind := by
  induction before with
  | nil => simp [AllOneLine]
  | cons expr before ih => simp [AllOneLine, ih, and_assoc]

end Expr

/-! ## Counting brackets -/

/-- A character that does not end a token is no bracket and begins neither a string nor a
comment. -/
theorem ScanState.code_of_not_endsToken {char : Char} (inside : Reader.endsToken char = false) :
    ScanState.code.next char = .code ∧ ScanState.code.bracketChange char = 0 := by
  simp only [Reader.endsToken, Reader.startsGap, Bool.or_eq_false_iff, List.contains_eq_mem,
    decide_eq_false_iff_not, List.mem_cons, List.not_mem_nil, or_false, not_or,
    beq_eq_false_iff_ne] at inside
  simp [ScanState.next, ScanState.bracketChange, inside]

theorem ScanState.code_of_isBlank {char : Char} (blank : Text.isBlank char = true) :
    ScanState.code.next char = .code ∧ ScanState.code.bracketChange char = 0 := by
  have other {mark : Char} (visible : Text.isBlank mark = false) : char ≠ mark := by
    rintro rfl
    rw [blank] at visible
    cases visible
  simp [ScanState.next, ScanState.bracketChange, @other '"' (by decide), @other ';' (by decide),
    @other '(' (by decide), @other ')' (by decide), @other '[' (by decide),
    @other ']' (by decide)]

namespace Reader

theorem openDepth_cons {char : Char} (stays : ScanState.code.next char = .code) (text : Text) :
    openDepth (char :: text) = ScanState.code.bracketChange char + openDepth text := by
  simp only [openDepth, openDepthFrom, stays]

theorem Passes.openDepth_eq {text rest : Text} (passes : Passes text rest) :
    openDepth rest = openDepth text := by
  obtain ⟨word, chars, rfl⟩ := passes
  induction word with
  | nil => rfl
  | cons char word ih =>
      rw [List.forall_mem_cons] at chars
      obtain ⟨stays, change⟩ := ScanState.code_of_not_endsToken chars.1
      rw [List.cons_append, openDepth_cons stays, change, Int.zero_add]
      exact ih chars.2

/-- Brackets in gaps do not count. -/
theorem openDepth_skipGap (text : Text) : openDepth (skipGap text) = openDepth text := by
  suffices ∀ comment, openDepth (skipFrom comment text) =
      openDepthFrom (if comment then .comment else .code) text from this false
  induction text with
  | nil => exact fun comment => by cases comment <;> rfl
  | cons char text ih =>
      intro comment
      cases comment with
      | true =>
          rw [skipFrom, if_pos rfl, ih]
          by_cases ends : char = '\n' <;>
            simp [ends, openDepthFrom, ScanState.next, ScanState.bracketChange]
      | false =>
          simp only [skipFrom, Bool.false_eq_true, if_false]
          split
          next blank =>
            obtain ⟨stays, change⟩ := ScanState.code_of_isBlank blank
            rw [ih false, openDepthFrom, stays, change, Int.zero_add]
            rfl
          next =>
            split
            next begins =>
              cases eq_of_beq begins
              rw [ih true]
              simp [openDepthFrom, ScanState.next, ScanState.bracketChange]
            next => rfl

/-- Brackets in a string do not count. -/
theorem IsPayload.openDepthFrom_string {payload : Text} (isPayload : IsPayload payload)
    (rest : Text) : openDepthFrom .string (payload ++ '"' :: rest) = openDepth rest := by
  induction isPayload with
  | empty => simp [openDepthFrom, ScanState.next, ScanState.bracketChange, openDepth]
  | escaped _ ih => simpa [openDepthFrom, ScanState.next, ScanState.bracketChange] using ih
  | plain noQuote noBackslash _ ih =>
      simpa [openDepthFrom, ScanState.next, ScanState.bracketChange, noQuote, noBackslash] using ih

/-! ## Line ends -/

/-- The end of a text, or a text that begins with a line feed. -/
def LineEnd (text : Text) : Prop := ∀ char ∈ text.head?, char = '\n'

theorem LineEnd.nil : LineEnd [] := nofun

theorem LineEnd.lineFeed (text : Text) : LineEnd ('\n' :: text) :=
  fun _ member => (Option.some.inj member).symm

theorem LineEnd.atTokenEnd {text : Text} (lineEnd : LineEnd text) : AtTokenEnd text := by
  intro char member
  rw [lineEnd char member]
  decide

/-- What has no line feed and goes on with something else is inside of the line. -/
theorem LineEnd.inside {text word behind tail : Text} {char : Char} (lineEnd : LineEnd tail)
    (noLineFeed : '\n' ∉ word) (noEnd : char ≠ '\n')
    (whole : text ++ tail = word ++ char :: behind) :
    ∃ more, text = word ++ char :: more ∧ behind = more ++ tail := by
  induction word generalizing text with
  | nil =>
      cases text with
      | nil =>
          rw [List.nil_append] at whole
          exact absurd (lineEnd char (by rw [whole]; rfl)) noEnd
      | cons first more =>
          cases whole
          exact ⟨more, rfl, rfl⟩
  | cons letter word ih =>
      rw [List.mem_cons, not_or] at noLineFeed
      cases text with
      | nil =>
          rw [List.nil_append] at whole
          exact absurd (lineEnd letter (by rw [whole]; rfl)).symm noLineFeed.1
      | cons first text =>
          injection whole with same whole
          obtain ⟨more, rfl, split⟩ := ih noLineFeed.2 whole
          exact ⟨more, by rw [same, List.cons_append], split⟩

/-- A comment is over at the end of the line. -/
theorem LineEnd.skipFrom_eq {text : Text} (lineEnd : LineEnd text) (comment : Bool) :
    skipFrom comment text = skipGap text := by
  cases comment with
  | false => rfl
  | true =>
      cases text with
      | nil => rfl
      | cons char text =>
          cases lineEnd char rfl
          simp [skipGap, skipFrom, show Text.isBlank '\n' = true by decide]

theorem skipFrom_append (comment : Bool) (text : Text) {tail : Text} (lineEnd : LineEnd tail) :
    skipFrom comment (text ++ tail) =
      if skipFrom comment text = [] then skipGap tail else skipFrom comment text ++ tail := by
  induction text generalizing comment with
  | nil => simp [skipFrom, lineEnd.skipFrom_eq]
  | cons char text ih =>
      cases comment with
      | true =>
          simp only [List.cons_append, skipFrom, if_true]
          exact ih _
      | false =>
          simp only [List.cons_append, skipFrom, Bool.false_eq_true, if_false]
          split
          · exact ih _
          · split
            · exact ih _
            · simp

theorem skipGap_append (text : Text) {tail : Text} (lineEnd : LineEnd tail) :
    skipGap (text ++ tail) = if skipGap text = [] then skipGap tail else skipGap text ++ tail :=
  skipFrom_append false text lineEnd

/-! ## Texts that part -/

/-- What two texts go on with from the end of a line on, where so many brackets are open. If any
are, it is the same behind the gaps. -/
structure Parting (depth : Int) (tail tail' : Text) : Prop where
  lineEnd : LineEnd tail
  lineEnd' : LineEnd tail'
  same : 0 < depth → skipGap tail = skipGap tail'

/-- Two texts with brackets open in front of them: either they have not parted yet, and at the line
end there are as many open brackets as there should be, or they are the same again behind their
gaps. -/
inductive Beside (depth : Int) (tail tail' : Text) : Int → Text → Text → Prop where
  | before {opened : Int} {text : Text} :
      opened + openDepth text = depth →
      Beside depth tail tail' opened (text ++ tail) (text ++ tail')
  | behind {opened : Int} {text : Text} :
      0 < depth → skipGap tail ≠ [] → Beside depth tail tail' opened text text

variable {depth opened : Int} {tail tail' text text' rest : Text}

theorem Parting.symm (parting : Parting depth tail tail') : Parting depth tail' tail :=
  ⟨parting.lineEnd', parting.lineEnd, fun isOpen => (parting.same isOpen).symm⟩

namespace Beside

theorem symm (parting : Parting depth tail tail')
    (beside : Beside depth tail tail' opened text text') :
    Beside depth tail' tail opened text' text := by
  cases beside with
  | before opens => exact .before opens
  | behind isOpen more => exact .behind isOpen (parting.same isOpen ▸ more)

/-- Gaps between brackets are skipped in both texts, unless one is at its end. -/
theorem skip (parting : Parting depth tail tail')
    (beside : Beside depth tail tail' opened text text') (isOpen : 0 < opened)
    (more : skipGap text ≠ []) :
    Beside depth tail tail' opened (skipGap text) (skipGap text') := by
  cases beside with
  | @before text opens =>
      rw [skipGap_append text parting.lineEnd] at more ⊢
      rw [skipGap_append text parting.lineEnd']
      rw [← openDepth_skipGap] at opens
      split at more
      next atEnd =>
        rw [atEnd] at opens
        have crossing : 0 < depth := by
          rw [← opens]
          simpa [openDepth, openDepthFrom] using isOpen
        rw [if_pos atEnd, if_pos atEnd, parting.same crossing]
        exact .behind crossing (parting.same crossing ▸ more)
      next inside =>
        rw [if_neg inside, if_neg inside]
        exact .before opens
  | behind isOpen' more' => exact .behind isOpen' more'

/-- Both texts begin with the character unless it is the line end. -/
theorem head (parting : Parting depth tail tail') {char : Char}
    (beside : Beside depth tail tail' opened (char :: text) text') (noEnd : char ≠ '\n') :
    ∃ rest', text' = char :: rest' := by
  generalize whole : char :: text = text₀ at beside
  cases beside with
  | before =>
      obtain ⟨more, rfl, -⟩ := parting.lineEnd.inside List.not_mem_nil noEnd whole.symm
      exact ⟨more ++ tail', rfl⟩
  | behind => exact ⟨text, whole.symm⟩

/-- A character that is not the line end is read in both texts. -/
theorem uncons (parting : Parting depth tail tail') {char : Char}
    (beside : Beside depth tail tail' opened (char :: text) text')
    (stays : ScanState.code.next char = .code) (noEnd : char ≠ '\n') :
    ∃ rest', text' = char :: rest' ∧
      Beside depth tail tail' (opened + ScanState.code.bracketChange char) text rest' := by
  generalize whole : char :: text = text₀ at beside
  cases beside with
  | before opens =>
      obtain ⟨more, rfl, rfl⟩ := parting.lineEnd.inside List.not_mem_nil noEnd whole.symm
      refine ⟨more ++ tail', rfl, .before ?_⟩
      rw [List.nil_append, openDepth_cons stays] at opens
      omega
  | behind isOpen more =>
      cases whole
      exact ⟨text, rfl, .behind isOpen more⟩

end Beside

/-- How the beginning of a token is read: locally, and no further than the token. -/
structure IsToken {α : Type} (read : Text → Option (α × Text)) : Prop where
  isLocal : Local read
  consumes {text rest : Text} {value : α} : read text = some (value, rest) → Consumes text rest

section

variable {α : Type} {read : Text → Option (α × Text)} (isToken : IsToken read)
  (parting : Parting depth tail tail') (beside : Beside depth tail tail' opened text text')

include isToken parting beside

theorem IsToken.found {value : α} (found : read text = some (value, rest)) :
    ∃ rest', read text' = some (value, rest') ∧
      Beside depth tail tail' opened rest rest' ∧ rest'.length < text'.length := by
  cases beside with
  | @before text opens =>
      rw [isToken.isLocal text parting.lineEnd.atTokenEnd] at found
      obtain ⟨⟨value, inner⟩, inside, same⟩ := Option.map_eq_some_iff.mp found
      cases same
      have consumes := isToken.consumes inside
      refine ⟨inner ++ tail', ?_, .before ?_, ?_⟩
      · rw [isToken.isLocal text parting.lineEnd'.atTokenEnd, inside]
        rfl
      · rw [consumes.passes.openDepth_eq, opens]
      · simpa only [List.length_append, Nat.add_lt_add_iff_right] using consumes.shorter
  | behind isOpen more =>
      exact ⟨rest, found, .behind isOpen more, (isToken.consumes found).shorter⟩

theorem IsToken.missing (missing : read text = none) : read text' = none := by
  cases found : read text' with
  | none => rfl
  | some entry =>
      obtain ⟨_, found', -⟩ := isToken.found parting.symm (beside.symm parting) found
      rw [missing] at found'
      cases found'

end

theorem isToken_name? : IsToken name? := ⟨name?_local, consumes_of_name?⟩

theorem isToken_boolean? : IsToken boolean? := ⟨boolean?_local, consumes_of_boolean?⟩

theorem isToken_operator? : IsToken operator? := ⟨operator?_local, consumes_of_operator?⟩

theorem isToken_functionName? : IsToken functionName? :=
  ⟨functionName?_local, consumes_of_functionName?⟩

theorem isToken_numeral? : IsToken numeral? := ⟨numeral?_local, consumes_of_numeral?⟩

theorem isToken_word? {word : String} (nonempty : word.toList ≠ [])
    (chars : word.toList.all isNameChar = true) :
    IsToken fun text => (word? word text).map (Prod.mk ()) where
  isLocal text behind ends := by
    simp only [word?_local chars text ends, Option.map_map]
    rfl
  consumes found := by
    obtain ⟨rest, found, same⟩ := Option.map_eq_some_iff.mp found
    cases same
    exact consumes_of_word? nonempty chars found

section

variable {word : String} (nonempty : word.toList ≠ [])
  (chars : word.toList.all isNameChar = true) (parting : Parting depth tail tail')
  (beside : Beside depth tail tail' opened text text')

include nonempty chars parting beside

theorem Beside.word?_found (found : word? word text = some rest) :
    ∃ rest', word? word text' = some rest' ∧
      Beside depth tail tail' opened rest rest' ∧ rest'.length < text'.length := by
  obtain ⟨rest', found', beside'⟩ := (isToken_word? nonempty chars).found parting beside
    (Option.map_eq_some_iff.mpr ⟨rest, found, rfl⟩)
  obtain ⟨rest', found', same⟩ := Option.map_eq_some_iff.mp found'
  cases same
  exact ⟨rest', found', beside'⟩

theorem Beside.word?_missing (missing : word? word text = none) : word? word text' = none :=
  Option.map_eq_none_iff.mp ((isToken_word? nonempty chars).missing parting beside
    (Option.map_eq_none_iff.mpr missing))

end

/-! ## Atoms -/

theorem append_eq_of_payload? {payload : Text} (found : payload? text = some (payload, rest)) :
    text = payload ++ '"' :: rest := by
  fun_induction payload? text generalizing payload with
  | case1 => cases found
  | case2 text =>
      cases found
      rfl
  | case3 => cases found
  | case4 char text ih =>
      simp only [Option.map_eq_some_iff] at found
      obtain ⟨⟨payload', rest'⟩, inner, same⟩ := found
      cases same
      rw [ih inner]
      rfl
  | case5 char text _ _ _ ih =>
      simp only [Option.map_eq_some_iff] at found
      obtain ⟨⟨payload', rest'⟩, inner, same⟩ := found
      cases same
      rw [ih inner]
      rfl

/-- A string without a line feed is read in both texts. -/
theorem Beside.string (parting : Parting depth tail tail')
    (beside : Beside depth tail tail' opened ('"' :: text) text') {payload : Text}
    (found : payload? text = some (payload, rest)) (oneLine : '\n' ∉ payload) :
    ∃ inner rest', text' = '"' :: inner ∧ payload? inner = some (payload, rest') ∧
      Beside depth tail tail' opened rest rest' ∧ rest'.length < text'.length := by
  have isPayload := isPayload_of_payload? found
  have spelled := append_eq_of_payload? found
  generalize whole : '"' :: text = text₀ at beside
  cases beside with
  | behind isOpen more =>
      cases whole
      refine ⟨text, rest, rfl, found, .behind isOpen more, ?_⟩
      rw [spelled, List.length_cons, List.length_append, List.length_cons]
      omega
  | before opens =>
      have quoted : _ = ('"' :: payload) ++ '"' :: rest := whole.symm.trans (by rw [spelled]; rfl)
      obtain ⟨more, rfl, rfl⟩ := parting.lineEnd.inside (by simp [oneLine]) (by decide) quoted
      refine ⟨payload ++ '"' :: more ++ tail', more ++ tail', rfl, ?_, .before ?_, ?_⟩
      · rw [List.append_assoc, List.cons_append, payload?_append isPayload]
      · rw [← opens, ← isPayload.openDepthFrom_string more]
        simp [openDepth, openDepthFrom, ScanState.next, ScanState.bracketChange]
      · simp only [List.cons_append, List.length_cons, List.length_append]
        omega

section

variable (parting : Parting depth tail tail')
  (beside : Beside depth tail tail' opened text text') {expr : Expr}

include parting beside

theorem Beside.committedAtom? (found : Reader.committedAtom? text = .ok (some (expr, rest)))
    (oneLine : expr.OneLine) :
    ∃ rest', Reader.committedAtom? text' = .ok (some (expr, rest')) ∧
      Beside depth tail tail' opened rest rest' ∧ rest'.length < text'.length := by
  unfold Reader.committedAtom? at found
  split at found
  next inner =>
    split at found
    next isName =>
      cases found
      obtain ⟨inner', rfl, beside'⟩ := beside.uncons parting (by decide) (by decide)
      obtain ⟨rest', found', beside'', shorter⟩ := isToken_name?.found parting beside' isName
      refine ⟨rest', ?_, ?_, Nat.lt_succ_of_lt shorter⟩
      · simp only [Reader.committedAtom?, found']
      · rwa [show ScanState.code.bracketChange ':' = 0 by decide, Int.add_zero] at beside''
    next => cases found
  next inner =>
    split at found
    next isString =>
      cases found
      obtain ⟨inner', rest', rfl, found', beside', shorter⟩ :=
        beside.string parting isString (by simpa [Expr.OneLine] using oneLine)
      refine ⟨rest', ?_, beside', shorter⟩
      simp only [Reader.committedAtom?, found']
    next => cases found
  next =>
    obtain ⟨⟨name, behind⟩, isName, same⟩ := Option.map_eq_some_iff.mp (Except.ok.inj found)
    cases same
    obtain ⟨rest', found', beside'⟩ := isToken_name?.found parting beside isName
    refine ⟨rest', ?_, beside'⟩
    unfold Reader.committedAtom?
    split
    next => cases found'
    next => cases found'
    next => rw [found', Option.map_some]

theorem Beside.atom? (found : Reader.atom? text = .ok (some (expr, rest)))
    (oneLine : expr.OneLine) :
    ∃ rest', Reader.atom? text' = .ok (some (expr, rest')) ∧
      Beside depth tail tail' opened rest rest' ∧ rest'.length < text'.length := by
  unfold Reader.atom? at found ⊢
  split at found
  next isNumber =>
    cases found
    obtain ⟨rest', found', beside'⟩ := isToken_numeral?.found parting beside isNumber
    simp only [found']
    exact ⟨rest', rfl, beside'⟩
  next noNumber =>
    simp only [isToken_numeral?.missing parting beside noNumber]
    split at found
    next isBoolean =>
      cases found
      obtain ⟨rest', found', beside'⟩ := isToken_boolean?.found parting beside isBoolean
      simp only [found']
      exact ⟨rest', rfl, beside'⟩
    next noBoolean =>
      simp only [isToken_boolean?.missing parting beside noBoolean]
      split at found
      next isOperator =>
        cases found
        obtain ⟨rest', found', beside'⟩ := isToken_operator?.found parting beside isOperator
        simp only [found']
        exact ⟨rest', rfl, beside'⟩
      next noOperator =>
        simp only [isToken_operator?.missing parting beside noOperator]
        split at found
        next isNil =>
          cases found
          obtain ⟨rest', found', beside'⟩ :=
            beside.word?_found (by decide) (by decide) parting isNil
          simp only [found']
          exact ⟨rest', rfl, beside'⟩
        next notNil =>
          simp only [beside.word?_missing (by decide) (by decide) parting notNil]
          exact beside.committedAtom? parting found oneLine

end

end Reader

end LazyLisp
