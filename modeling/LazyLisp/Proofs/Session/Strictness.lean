import LazyLisp.Proofs.Reader.Faults

/-!
# Strict sessions

A strict session refuses whatever stands behind the first expression of a source, and another one
ignores it. So the strict one takes just the sources that hold one expression and nothing else.
-/

set_option autoImplicit false

namespace LazyLisp

namespace Reader

variable {source rest : Text} {expr : Expr}

/-- A source holds one expression and nothing else just if nothing is left behind the first one but
blanks and comments. -/
theorem readAll_eq_singleton_iff : readAll source = ([expr], none) ↔
    ∃ rest, readFirst source = .ok (expr, rest) ∧ skipGap rest = [] := by
  rw [readAll_eq_iff]
  constructor
  · intro reads
    cases reads with
    | form read behind =>
        cases behind with
        | finished atEnd =>
            exact ⟨_, readFirst_eq_ok_iff.mpr (readForm_skipGap_iff.mp read), atEnd⟩
  · intro ⟨rest, read, atEnd⟩
    exact .form (readForm_skipGap_iff.mpr (readFirst_eq_ok_iff.mp read)) (.finished atEnd)

theorem readOnly_eq_ok_iff : readOnly source = .ok expr ↔ readAll source = ([expr], none) := by
  rw [readAll_eq_singleton_iff, readOnly]
  cases readFirst source with
  | error error => exact ⟨nofun, fun ⟨_, read, _⟩ => nomatch read⟩
  | ok found =>
      obtain ⟨form, behind⟩ := found
      simp only [bind, Except.bind]
      split
      next atEnd =>
        constructor
        · rintro ⟨⟩
          exact ⟨behind, rfl, atEnd⟩
        · rintro ⟨rest, read, -⟩
          cases read
          rfl
      next more =>
        refine ⟨nofun, ?_⟩
        rintro ⟨rest, read, atEnd⟩
        cases read
        exact absurd atEnd more

/-- What is left behind a form begins, behind blanks and comments, with a character that is neither
a blank nor in a comment, and it stands in the source behind the form. -/
theorem exists_trailing (read : readFirst source = .ok (expr, rest)) (more : skipGap rest ≠ []) :
    ∃ form gap behind char, source = form ++ gap ++ char :: behind ∧ rest = gap ++ char :: behind ∧
      Gap gap ∧ startsGap char = false ∧ skipGap rest = char :: behind := by
  obtain ⟨gap, isGap, split⟩ := exists_gap more
  cases left : skipGap rest with
  | nil => exact absurd left more
  | cons char behind =>
      rw [left] at split
      obtain ⟨form, -, whole, -⟩ :=
        keeps_form (readForm_skipGap_iff.mpr (readFirst_eq_ok_iff.mp read))
      rw [split, ← List.append_assoc] at whole
      exact ⟨form, gap, behind, char, whole, split, isGap, not_startsGap_of_skipGap left, rfl⟩

end Reader

namespace Session

open Reader

variable {session : Session} {source : Text}

theorem parse_of_strict (strict : session.strict = true) :
    (session.parse source).1 = (readOnly source).mapError .unreadable := by
  rcases readOnly_cases source with ⟨error, first, only⟩ | ⟨expr, rest, first, -⟩
  · simp only [parse, first, only]
    rfl
  · simp only [parse, first, strict, if_true]

theorem parse_of_lenient (lenient : session.strict = false) :
    (session.parse source).1 = ((readFirst source).map Prod.fst).mapError .unreadable := by
  simp only [parse]
  split
  next failed => rw [failed]; rfl
  next read =>
    rw [read, lenient, if_neg Bool.false_ne_true]
    split <;> rfl

/-- Where an expression is read but not as the only one, the error is at the first character behind
it that is neither a blank nor in a comment. -/
theorem exists_refused {expr : Expr} {rest : Text} {error : SyntaxError}
    (first : readFirst source = .ok (expr, rest)) (refused : readOnly source = .error error) :
    ∃ form gap behind char, source = form ++ gap ++ char :: behind ∧ rest = gap ++ char :: behind ∧
      Gap gap ∧ startsGap char = false ∧
      error = ⟨.trailingInput, (form ++ gap).length, .ofOffset source (form ++ gap).length⟩ := by
  have more : skipGap rest ≠ [] := by
    intro atEnd
    have whole := readOnly_eq_ok_iff.mpr (readAll_eq_singleton_iff.mpr ⟨rest, first, atEnd⟩)
    rw [refused] at whole
    cases whole
  obtain ⟨form, gap, behind, char, whole, split, isGap, token, left⟩ := exists_trailing first more
  rcases readOnly_cases source with ⟨_, failed, -⟩ | ⟨_, _, read, only | only⟩
  · rw [first] at failed
    cases failed
  · rw [refused] at only
    cases only
  · rw [first] at read
    cases read
    rw [refused] at only
    cases only
    refine ⟨form, gap, behind, char, whole, split, isGap, token, ?_⟩
    have offset : source.length - (skipGap rest).length = (form ++ gap).length := by
      rw [left, whole, List.length_append]
      omega
    simp only [Stop.locate, offset]

/-- In a strict session reading for one expression succeeds just if reading all of the source gives
this expression and no fault. In another session it succeeds just if an expression is read from the
beginning of the source, and gives that expression or that fault, which is then the fault of the
strict session too. If only the strict session fails, then at the first character behind the
expression that is neither a blank nor in a comment. -/
theorem parse_strict_and_lenient (session : Session) (source : Text) :
    let strict := { session with strict := true }
    let lenient := { session with strict := false }
    (∀ expr, (strict.parse source).1 = .ok expr ↔ readAll source = ([expr], none)) ∧
    (lenient.parse source).1 = ((readFirst source).map Prod.fst).mapError .unreadable ∧
    (∀ failure, (lenient.parse source).1 = .error failure →
      (strict.parse source).1 = .error failure) ∧
    ∀ expr failure, (lenient.parse source).1 = .ok expr →
      (strict.parse source).1 = .error failure →
      ∃ form gap behind char, source = form ++ gap ++ char :: behind ∧
        readFirst source = .ok (expr, gap ++ char :: behind) ∧ Gap gap ∧ startsGap char = false ∧
        failure = .unreadable
          ⟨.trailingInput, (form ++ gap).length, .ofOffset source (form ++ gap).length⟩ := by
  intro strict lenient
  have parseStrict := @parse_of_strict strict source rfl
  have parseLenient := @parse_of_lenient lenient source rfl
  rw [parseStrict, parseLenient]
  refine ⟨fun expr => ?_, rfl, fun failure failed => ?_, fun expr failure parsed refused => ?_⟩
  · rw [← readOnly_eq_ok_iff]
    cases readOnly source <;> simp [Except.mapError]
  · rcases readOnly_cases source with ⟨error, first, only⟩ | ⟨expr, rest, first, -⟩
    · rw [only, ← failed, first]
      rfl
    · rw [first] at failed
      cases failed
  · cases first : readFirst source with
    | error error =>
        rw [first] at parsed
        cases parsed
    | ok found =>
        obtain ⟨form, rest⟩ := found
        rw [first] at parsed
        cases parsed
        cases only : readOnly source with
        | ok expr =>
            rw [only] at refused
            cases refused
        | error error =>
            rw [only] at refused
            cases refused
            obtain ⟨form, gap, behind, char, whole, rfl, isGap, token, rfl⟩ :=
              exists_refused first only
            exact ⟨form, gap, behind, char, whole, rfl, isGap, token, rfl⟩

/-- A bracket in a comment and one behind it: only the second is refused. -/
theorem parse_strict_and_lenient_closer :
    let source := "(f x) ; )\n ) y".toList
    let expr : Expr := .application (.identifier "f") [.identifier "x"]
    (({ strict := true } : Session).parse source).1 =
        .error (.unreadable ⟨.trailingInput, 11, ⟨1, 1⟩⟩) ∧
      ∃ form gap behind char, source = form ++ gap ++ char :: behind ∧
        readFirst source = .ok (expr, gap ++ char :: behind) ∧ Gap gap ∧ startsGap char = false ∧
        (form ++ gap).length = 11 := by
  intro source expr
  have parsed : (({ strict := false } : Session).parse source).1 = .ok expr := rfl
  have refused : (({ strict := true } : Session).parse source).1 =
      .error (.unreadable ⟨.trailingInput, 11, ⟨1, 1⟩⟩) := rfl
  obtain ⟨-, -, -, places⟩ := parse_strict_and_lenient { } source
  obtain ⟨form, gap, behind, char, whole, read, isGap, token, same⟩ := places expr _ parsed refused
  have offset : 11 = (form ++ gap).length := by
    simp only [Failure.unreadable.injEq, SyntaxError.mk.injEq] at same
    exact same.2.1
  exact ⟨refused, form, gap, behind, char, whole, read, isGap, token, offset.symm⟩

end Session

end LazyLisp
