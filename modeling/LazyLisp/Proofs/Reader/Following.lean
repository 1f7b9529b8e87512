import LazyLisp.Proofs.Reader.Parting

/-!
# Reading texts that part

Whatever is read at the beginning of the one text is read at the beginning of the other, as long as
no string goes on over the end of a line.
-/

set_option autoImplicit false

namespace LazyLisp.Reader

variable {depth opened : Int} {tail tail' text text' rest : Text}

/-- From the other text the same is read, with every budget that is not less than the number of
characters read. What is left over stands beside. -/
def Yields {α : Type} (depth : Int) (tail tail' : Text)
    (read : Nat → Text → Except Stop (α × Text)) (opened : Int) (text' : Text) (value : α)
    (rest : Text) : Prop :=
  ∃ rest', Beside depth tail tail' opened rest rest' ∧ rest'.length < text'.length ∧
    ∀ budget, text'.length ≤ budget + rest'.length → read budget text' = .ok (value, rest')

/-- Whatever form is read from the one text is read from the other. -/
def Follows (depth : Int) (tail tail' : Text) (read : Text → Except Stop (Expr × Text)) : Prop :=
  ∀ ⦃opened : Int⦄ ⦃text text' rest : Text⦄ ⦃expr : Expr⦄, 0 ≤ opened →
    Beside depth tail tail' opened text text' → skipGap text = text →
    read text = .ok (expr, rest) → expr.OneLine →
    Yields depth tail tail' readWithin opened text' expr rest

/-! ## Tokens behind gaps -/

/-- An opening bracket is read in both texts, and behind it one more is open. -/
theorem Beside.opening {char : Char} (opens : char = '(' ∨ char = '[')
    (parting : Parting depth tail tail')
    (beside : Beside depth tail tail' opened (char :: text) text') :
    ∃ inner', text' = char :: inner' ∧ Beside depth tail tail' (opened + 1) text inner' := by
  rcases opens with rfl | rfl <;> exact beside.uncons parting (by decide) (by decide)

section

variable (parting : Parting depth tail tail')
  (beside : Beside depth tail tail' opened text text') (isOpen : 0 < opened)

include parting beside isOpen

/-- Behind a gap between brackets both texts begin with the same character. -/
theorem Beside.atToken {char : Char} (skipped : skipGap text = char :: rest) :
    ∃ rest', skipGap text' = char :: rest' ∧
      Beside depth tail tail' opened (char :: rest) (char :: rest') := by
  have noGap := not_startsGap_of_skipGap skipped
  have noLineFeed : char ≠ '\n' := by
    rintro rfl
    exact absurd noGap (by decide)
  have besideSkipped := beside.skip parting isOpen (by rw [skipped]; exact List.cons_ne_nil _ _)
  rw [skipped] at besideSkipped
  obtain ⟨rest', skipped'⟩ := besideSkipped.head parting noLineFeed
  rw [skipped'] at besideSkipped
  exact ⟨rest', skipped', besideSkipped⟩

omit isOpen in
theorem Beside.closer_found {closer : Closer} (found : stripCloser? closer text = some rest) :
    ∃ rest', stripCloser? closer text' = some rest' ∧
      Beside depth tail tail' (opened - 1) rest rest' ∧ rest'.length < text'.length := by
  cases text with
  | nil => cases found
  | cons char text =>
      simp only [stripCloser?] at found
      split at found
      next isCloser =>
        cases found
        subst isCloser
        have closing : ScanState.code.next closer.char = .code ∧ closer.char ≠ '\n' ∧
            ScanState.code.bracketChange closer.char = -1 := by
          cases closer <;> decide
        obtain ⟨rest', rfl, beside'⟩ := beside.uncons parting closing.1 closing.2.1
        rw [closing.2.2] at beside'
        exact ⟨rest', if_pos rfl, beside', Nat.lt_succ_self _⟩
      next => cases found

theorem Beside.closer_skipGap {closer : Closer}
    (found : stripCloser? closer (skipGap text) = some rest) :
    ∃ rest', stripCloser? closer (skipGap text') = some rest' ∧
      Beside depth tail tail' (opened - 1) rest rest' ∧ rest'.length < text'.length := by
  cases skipped : skipGap text with
  | nil =>
      rw [skipped] at found
      cases found
  | cons char behind =>
      obtain ⟨behind', skipped', beside'⟩ := beside.atToken parting isOpen skipped
      rw [skipped] at found
      obtain ⟨rest', found', beside'', shorter⟩ := beside'.closer_found parting found
      rw [← skipped'] at found' shorter
      exact ⟨rest', found', beside'',
        Nat.lt_of_lt_of_le shorter (skipGap_suffix text').length_le⟩

theorem Beside.no_closer_skipGap {closer : Closer}
    (missing : stripCloser? closer (skipGap text) = none) :
    stripCloser? closer (skipGap text') = none := by
  cases found : stripCloser? closer (skipGap text') with
  | none => rfl
  | some behind =>
      obtain ⟨_, found', -⟩ :=
        (beside.symm parting).closer_skipGap parting.symm isOpen found
      rw [missing] at found'
      cases found'

theorem Beside.close_found {closer : Closer} (found : close closer text = .ok rest) :
    ∃ rest', close closer text' = .ok rest' ∧
      Beside depth tail tail' (opened - 1) rest rest' ∧ rest'.length < text'.length := by
  simp only [close] at found
  split at found
  next isCloser =>
    cases found
    obtain ⟨rest', isCloser', beside', shorter⟩ := beside.closer_skipGap parting isOpen isCloser
    exact ⟨rest', by simp only [close, isCloser'], beside', shorter⟩
  next => cases found

theorem Beside.name_skipGap {name : String} (found : name? (skipGap text) = some (name, rest)) :
    ∃ rest', name? (skipGap text') = some (name, rest') ∧
      Beside depth tail tail' opened rest rest' ∧ rest'.length < text'.length := by
  have nonempty : skipGap text ≠ [] := by
    intro empty
    rw [empty] at found
    cases found
  obtain ⟨rest', found', beside', shorter⟩ :=
    isToken_name?.found parting (beside.skip parting isOpen nonempty) found
  exact ⟨rest', found', beside', Nat.lt_of_lt_of_le shorter (skipGap_suffix text').length_le⟩

end

section

variable {read : Text → Except Stop (Expr × Text)}
  (follows : Follows depth tail tail' read) (parting : Parting depth tail tail')

include follows parting

/-- Where no bracket closes, an expression is read behind a gap in both texts. -/
theorem part_follows (beside : Beside depth tail tail' opened text text') (isOpen : 0 < opened)
    (noCloser : ¬ atCloser (skipGap text) = true) {expr : Expr}
    (found : read (skipGap text) = .ok (expr, rest)) (oneLine : expr.OneLine) :
    ¬ atCloser (skipGap text') = true ∧
      Yields depth tail tail' (fun budget text => readWithin budget (skipGap text)) opened text'
        expr rest := by
  cases skipped : skipGap text with
  | nil =>
      rw [skipped] at noCloser
      exact absurd rfl noCloser
  | cons char behind =>
      obtain ⟨behind', skipped', beside'⟩ := beside.atToken parting isOpen skipped
      have again : skipGap (char :: behind) = char :: behind := by rw [← skipped, skipGap_skipGap]
      rw [skipped] at found noCloser
      obtain ⟨rest', beside'', shorter, reads⟩ :=
        follows (Int.le_of_lt isOpen) beside' again found oneLine
      rw [← skipped'] at shorter reads
      have shrinks := (skipGap_suffix text').length_le
      refine ⟨?_, rest', beside'', by omega, fun budget enough => reads budget (by omega)⟩
      rw [skipped']
      exact noCloser

theorem required_follows (part : RequiredPart)
    (beside : Beside depth tail tail' opened text text') (isOpen : 0 < opened) {expr : Expr}
    (found : required read part text = .ok (expr, rest)) (oneLine : expr.OneLine) :
    Yields depth tail tail' (fun budget => required (readWithin budget) part) opened text' expr
      rest := by
  simp only [required] at found
  split at found
  next => cases found
  next noCloser =>
    obtain ⟨noCloser', rest', beside', shorter, reads⟩ :=
      part_follows follows parting beside isOpen noCloser found oneLine
    refine ⟨rest', beside', shorter, fun budget enough => ?_⟩
    simp only [required, if_neg noCloser', reads budget enough]

/-- In a sequence the number of its expressions is counted down by a budget of its own. -/
theorem sequence_follows {closer : Closer} {count : Nat} {exprs : List Expr}
    (beside : Beside depth tail tail' opened text text') (isOpen : 0 < opened)
    (found : sequence read closer count text = .ok (exprs, rest))
    (oneLine : Expr.AllOneLine exprs) :
    ∃ rest', Beside depth tail tail' (opened - 1) rest rest' ∧ rest'.length < text'.length ∧
      ∀ budget count, text'.length ≤ budget + rest'.length → text'.length ≤ count + rest'.length →
        sequence (readWithin budget) closer count text' = .ok (exprs, rest') := by
  induction count generalizing text text' exprs with
  | zero => cases found
  | succ count ih =>
      simp only [sequence] at found
      split at found
      next closed =>
        cases found
        obtain ⟨rest', closed', beside', shorter⟩ := beside.closer_skipGap parting isOpen closed
        refine ⟨rest', beside', shorter, fun budget count _ enough => ?_⟩
        cases count with
        | zero => omega
        | succ count => simp only [sequence, closed']
      next notClosed =>
        split at found
        next => cases found
        next noCloser =>
          obtain ⟨⟨expr, middle⟩, first, found⟩ := exists_of_bind_eq_ok found
          obtain ⟨⟨others, rest⟩, more, found⟩ := exists_of_bind_eq_ok found
          cases found
          obtain ⟨noCloser', middle', besideMiddle, shorter, reads⟩ :=
            part_follows follows parting beside isOpen noCloser first oneLine.1
          obtain ⟨rest', besideRest, shorter', readsMore⟩ := ih besideMiddle more oneLine.2
          have notClosed' := beside.no_closer_skipGap parting isOpen notClosed
          refine ⟨rest', besideRest, by omega, fun budget count enough enough' => ?_⟩
          cases count with
          | zero => omega
          | succ count =>
              simp only [sequence, notClosed', if_neg noCloser', reads budget (by omega), bind_ok,
                readsMore budget count (by omega) (by omega)]

/-! ## Forms behind an opening parenthesis -/

theorem conditional_follows (beside : Beside depth tail tail' opened text text')
    (isOpen : 0 < opened) {expr : Expr} (found : conditional read text = .ok (expr, rest))
    (oneLine : expr.OneLine) :
    Yields depth tail tail' (fun budget => conditional (readWithin budget)) (opened - 1) text'
      expr rest := by
  obtain ⟨⟨condition, text₁⟩, readCondition, found⟩ := exists_of_bind_eq_ok found
  obtain ⟨⟨consequent, text₂⟩, readConsequent, found⟩ := exists_of_bind_eq_ok found
  dsimp only at readConsequent found
  split at found
  next closed =>
    cases found
    obtain ⟨text₁', beside₁, consumed₁, reads₁⟩ :=
      required_follows follows parting _ beside isOpen readCondition oneLine.1
    obtain ⟨text₂', beside₂, consumed₂, reads₂⟩ :=
      required_follows follows parting _ beside₁ isOpen readConsequent oneLine.2
    obtain ⟨rest', closed', beside₃, consumed₃⟩ := beside₂.closer_skipGap parting isOpen closed
    refine ⟨rest', beside₃, by omega, fun budget enough => ?_⟩
    simp only [conditional, reads₁ budget (by omega), reads₂ budget (by omega), bind_ok, closed']
  next notClosed =>
    obtain ⟨⟨alternative, text₃⟩, readAlternative, found⟩ := exists_of_bind_eq_ok found
    obtain ⟨text₄, closed, found⟩ := exists_of_bind_eq_ok found
    cases found
    rw [required_skipGap] at readAlternative
    obtain ⟨text₁', beside₁, consumed₁, reads₁⟩ :=
      required_follows follows parting _ beside isOpen readCondition oneLine.1
    obtain ⟨text₂', beside₂, consumed₂, reads₂⟩ :=
      required_follows follows parting _ beside₁ isOpen readConsequent oneLine.2.1
    obtain ⟨text₃', beside₃, consumed₃, reads₃⟩ :=
      required_follows follows parting _ beside₂ isOpen readAlternative oneLine.2.2
    obtain ⟨rest', closed', beside₄, consumed₄⟩ := beside₃.close_found parting isOpen closed
    have notClosed' := beside₂.no_closer_skipGap parting isOpen notClosed
    refine ⟨rest', beside₄, by omega, fun budget enough => ?_⟩
    simp only [conditional, reads₁ budget (by omega), reads₂ budget (by omega), bind_ok, notClosed',
      required_skipGap, reads₃ budget (by omega), closed']

theorem binding_follows (beside : Beside depth tail tail' opened text text')
    (isOpen : 0 < opened) {expr : Expr} (found : binding read text = .ok (expr, rest))
    (oneLine : expr.OneLine) :
    Yields depth tail tail' (fun budget => binding (readWithin budget)) (opened - 1) text'
      expr rest := by
  simp only [binding] at found
  split at found
  next => cases found
  next name text₁ isName =>
    obtain ⟨⟨value, text₂⟩, readValue, found⟩ := exists_of_bind_eq_ok found
    obtain ⟨text₃, closed, found⟩ := exists_of_bind_eq_ok found
    cases found
    obtain ⟨text₁', isName', beside₁, consumed₁⟩ := beside.name_skipGap parting isOpen isName
    obtain ⟨text₂', beside₂, consumed₂, reads₂⟩ :=
      required_follows follows parting _ beside₁ isOpen readValue oneLine
    obtain ⟨rest', closed', beside₃, consumed₃⟩ := beside₂.close_found parting isOpen closed
    refine ⟨rest', beside₃, by omega, fun budget enough => ?_⟩
    simp only [binding, isName', reads₂ budget (by omega), bind_ok, closed']

omit follows in
theorem formals_follows {count : Nat} {names names' : List String}
    (beside : Beside depth tail tail' opened text text') (isOpen : 0 < opened)
    (found : formals count names text = .ok (names', rest)) :
    Yields depth tail tail' (fun budget => formals budget names) (opened - 1) text' names'
      rest := by
  induction count generalizing text text' names with
  | zero => cases found
  | succ count ih =>
      simp only [formals] at found
      split at found
      next closed =>
        cases found
        obtain ⟨rest', closed', beside', consumed⟩ := beside.closer_skipGap parting isOpen closed
        refine ⟨rest', beside', consumed, fun budget enough => ?_⟩
        cases budget with
        | zero => omega
        | succ budget => simp only [formals, closed']
      next notClosed =>
        split at found
        next => cases found
        next name behind isName =>
          split at found
          next => cases found
          next isNew =>
            obtain ⟨behind', isName', beside', consumed⟩ :=
              beside.name_skipGap parting isOpen isName
            obtain ⟨rest', beside'', consumed', reads⟩ := ih beside' found
            have notClosed' := beside.no_closer_skipGap parting isOpen notClosed
            refine ⟨rest', beside'', by omega, fun budget enough => ?_⟩
            cases budget with
            | zero => omega
            | succ budget =>
                simp only [formals, notClosed', isName', if_neg isNew, reads budget (by omega)]

theorem lambda_follows {count : Nat} (beside : Beside depth tail tail' opened text text')
    (isOpen : 0 < opened) {expr : Expr} (found : lambda read count text = .ok (expr, rest))
    (oneLine : expr.OneLine) :
    Yields depth tail tail' (fun budget => lambda (readWithin budget) budget) (opened - 1) text'
      expr rest := by
  simp only [lambda] at found
  split at found
  next text₁ bracket =>
    obtain ⟨⟨names, text₂⟩, readFormals, found⟩ := exists_of_bind_eq_ok found
    obtain ⟨⟨body, text₃⟩, readBody, found⟩ := exists_of_bind_eq_ok found
    obtain ⟨text₄, closed, found⟩ := exists_of_bind_eq_ok found
    cases found
    obtain ⟨_, bracket', besideBracket⟩ := beside.atToken parting isOpen bracket
    obtain ⟨text₁', same, beside₁⟩ := besideBracket.opening (.inr rfl) parting
    cases same
    have shrinks := (skipGap_suffix text').length_le
    rw [bracket', List.length_cons] at shrinks
    obtain ⟨text₂', beside₂, consumed₂, reads₂⟩ :=
      formals_follows parting beside₁ (by omega) readFormals
    rw [show opened + 1 - 1 = opened by omega] at beside₂
    obtain ⟨text₃', beside₃, consumed₃, reads₃⟩ :=
      required_follows follows parting _ beside₂ isOpen readBody oneLine
    obtain ⟨rest', closed', beside₄, consumed₄⟩ := beside₃.close_found parting isOpen closed
    refine ⟨rest', beside₄, by omega, fun budget enough => ?_⟩
    simp only [lambda, bracket', reads₂ budget (by omega), bind_ok, reads₃ budget (by omega),
      closed']
  next => cases found

theorem function_follows (beside : Beside depth tail tail' opened text text')
    (isOpen : 0 < opened) (skipped : skipGap text = text) {head : Expr}
    (found : function read text = .ok (head, rest)) (oneLine : head.OneLine) :
    Yields depth tail tail' (fun budget => function (readWithin budget)) opened text' head
      rest := by
  unfold function at found
  split at found
  next =>
    obtain ⟨rest', beside', consumed, reads⟩ :=
      follows (Int.le_of_lt isOpen) beside skipped found oneLine
    obtain ⟨inner', rfl⟩ := beside.head parting (by decide)
    exact ⟨rest', beside', consumed, fun budget enough => reads budget enough⟩
  next noParenthesis =>
    split at found
    next isName =>
      cases found
      obtain ⟨rest', isName', beside', shorter⟩ :=
        isToken_functionName?.found parting beside isName
      refine ⟨rest', beside', shorter, fun budget _ => ?_⟩
      change function (readWithin budget) text' = .ok (head, rest')
      unfold function
      split
      next => cases isName'
      next => simp only [isName']
    next => cases found

theorem application_follows {count : Nat} (beside : Beside depth tail tail' opened text text')
    (isOpen : 0 < opened) (skipped : skipGap text = text) {expr : Expr}
    (found : application read count text = .ok (expr, rest)) (oneLine : expr.OneLine) :
    Yields depth tail tail' (fun budget => application (readWithin budget) budget) (opened - 1)
      text' expr rest := by
  obtain ⟨⟨head, text₁⟩, readHead, found⟩ := exists_of_bind_eq_ok found
  obtain ⟨⟨arguments, text₂⟩, readArguments, found⟩ := exists_of_bind_eq_ok found
  cases found
  obtain ⟨text₁', beside₁, consumed₁, reads₁⟩ :=
    function_follows follows parting beside isOpen skipped readHead oneLine.1
  obtain ⟨rest', beside₂, consumed₂, reads₂⟩ :=
    sequence_follows follows parting beside₁ isOpen readArguments oneLine.2
  refine ⟨rest', beside₂, by omega, fun budget enough => ?_⟩
  simp only [application, reads₁ budget (by omega), bind_ok,
    reads₂ budget budget (by omega) (by omega)]

theorem parenthesized_follows {count : Nat} (beside : Beside depth tail tail' opened text text')
    (isOpen : 0 < opened) {expr : Expr} (found : parenthesized read count text = .ok (expr, rest))
    (oneLine : expr.OneLine) :
    Yields depth tail tail' (fun budget => parenthesized (readWithin budget) budget) (opened - 1)
      text' expr rest := by
  have nonempty : skipGap text ≠ [] := by
    intro empty
    simp only [parenthesized, empty] at found
    cases found
  have skipped := beside.skip parting isOpen nonempty
  have shrinks := (skipGap_suffix text').length_le
  simp only [parenthesized] at found
  split at found
  next isIf =>
    obtain ⟨_, isIf', beside', consumed⟩ :=
      skipped.word?_found (by decide) (by decide) parting isIf
    obtain ⟨rest', beside'', consumed', reads⟩ :=
      conditional_follows follows parting beside' isOpen found oneLine
    refine ⟨rest', beside'', by omega, fun budget enough => ?_⟩
    simp only [parenthesized, isIf', reads budget (by omega)]
  next noIf =>
    have noIf' := skipped.word?_missing (by decide) (by decide) parting noIf
    split at found
    next isDef =>
      obtain ⟨_, isDef', beside', consumed⟩ :=
        skipped.word?_found (by decide) (by decide) parting isDef
      obtain ⟨rest', beside'', consumed', reads⟩ :=
        binding_follows follows parting beside' isOpen found oneLine
      refine ⟨rest', beside'', by omega, fun budget enough => ?_⟩
      simp only [parenthesized, noIf', isDef', reads budget (by omega)]
    next noDef =>
      have noDef' := skipped.word?_missing (by decide) (by decide) parting noDef
      split at found
      next isFn =>
        obtain ⟨_, isFn', beside', consumed⟩ :=
          skipped.word?_found (by decide) (by decide) parting isFn
        obtain ⟨rest', beside'', consumed', reads⟩ :=
          lambda_follows follows parting beside' isOpen found oneLine
        refine ⟨rest', beside'', by omega, fun budget enough => ?_⟩
        simp only [parenthesized, noIf', noDef', isFn', reads budget (by omega)]
      next noFn =>
        have noFn' := skipped.word?_missing (by decide) (by decide) parting noFn
        split at found
        next isCond =>
          obtain ⟨⟨clauses, _⟩, readClauses, same⟩ := exists_of_bind_eq_ok found
          cases same
          obtain ⟨_, isCond', beside', consumed⟩ :=
            skipped.word?_found (by decide) (by decide) parting isCond
          obtain ⟨rest', beside'', consumed', reads⟩ :=
            sequence_follows follows parting beside' isOpen readClauses oneLine
          refine ⟨rest', beside'', by omega, fun budget enough => ?_⟩
          simp only [parenthesized, noIf', noDef', noFn', isCond', bind_ok,
            reads budget budget (by omega) (by omega)]
        next noCond =>
          have noCond' := skipped.word?_missing (by decide) (by decide) parting noCond
          obtain ⟨rest', beside', consumed, reads⟩ :=
            application_follows follows parting skipped isOpen (skipGap_skipGap text) found oneLine
          refine ⟨rest', beside', by omega, fun budget enough => ?_⟩
          simp only [parenthesized, noIf', noDef', noFn', noCond', reads budget (by omega)]

/-! ## Expressions -/

theorem compound_follows {count : Nat} (isOpen : 0 ≤ opened)
    (beside : Beside depth tail tail' opened text text') {expr : Expr}
    (found : compound read count text = .ok (expr, rest)) (oneLine : expr.OneLine) :
    ∃ rest', Beside depth tail tail' opened rest rest' ∧ rest'.length < text'.length ∧
      Reader.atom? text' = .ok none ∧ ∀ budget, text'.length ≤ budget + 1 + rest'.length →
        compound (readWithin budget) budget text' = .ok (expr, rest') := by
  have inside : 0 < opened + 1 := by omega
  have outside : opened + 1 - 1 = opened := by omega
  unfold compound at found
  split at found
  next =>
    obtain ⟨inner', rfl, beside'⟩ := beside.opening (.inl rfl) parting
    obtain ⟨rest', beside'', consumed, reads⟩ :=
      parenthesized_follows follows parting beside' inside found oneLine
    rw [outside] at beside''
    refine ⟨rest', beside'', Nat.lt_succ_of_lt consumed, atom?_opening (by decide) _,
      fun budget enough => ?_⟩
    rw [List.length_cons] at enough
    exact reads budget (by omega)
  next =>
    obtain ⟨⟨elements, _⟩, readElements, same⟩ := exists_of_bind_eq_ok found
    cases same
    obtain ⟨inner', rfl, beside'⟩ := beside.opening (.inr rfl) parting
    obtain ⟨rest', beside'', consumed, reads⟩ :=
      sequence_follows follows parting beside' inside readElements oneLine
    rw [outside] at beside''
    refine ⟨rest', beside'', Nat.lt_succ_of_lt consumed, atom?_opening (by decide) _,
      fun budget enough => ?_⟩
    rw [List.length_cons] at enough
    simp only [compound, reads budget budget (by omega) (by omega), bind_ok]
  next =>
    obtain ⟨⟨elements, _⟩, readElements, same⟩ := exists_of_bind_eq_ok found
    cases same
    obtain ⟨quoted', rfl, besideQuoted⟩ := beside.uncons parting (by decide) (by decide)
    obtain ⟨inner', rfl, beside'⟩ := besideQuoted.opening (.inl rfl) parting
    have noBracket : opened + ScanState.code.bracketChange '\'' = opened := by
      simp [ScanState.bracketChange]
    rw [noBracket] at beside'
    obtain ⟨rest', beside'', consumed, reads⟩ :=
      sequence_follows follows parting beside' inside readElements oneLine
    rw [outside] at beside''
    refine ⟨rest', beside'', by simp only [List.length_cons]; omega, atom?_opening (by decide) _,
      fun budget enough => ?_⟩
    simp only [List.length_cons] at enough
    simp only [compound, reads budget budget (by omega) (by omega), bind_ok]
  next => cases found

theorem expression_follows (count : Nat) :
    Follows depth tail tail' (expression read count) := by
  intro opened text text' rest expr isOpen beside skipped found oneLine
  obtain ⟨atom, readAtom, found⟩ := exists_of_bind_eq_ok found
  rw [skipped] at readAtom found
  have skipped' : skipGap text' = text' := by
    cases text with
    | nil => cases readAtom; cases found
    | cons char inner =>
        have noGap := not_startsGap_of_skipGap skipped
        obtain ⟨inner', rfl⟩ := beside.head parting (by rintro rfl; exact absurd noGap (by decide))
        exact skipGap_cons_of_not_startsGap inner' noGap
  -- An atom is read alike wherever it stands; a compound form opens the bracket its parts need.
  cases atom with
  | some atom =>
      cases found
      obtain ⟨rest', readAtom', beside', consumed⟩ := beside.atom? parting readAtom oneLine
      refine ⟨rest', beside', consumed, fun budget enough => ?_⟩
      cases budget with
      | zero => omega
      | succ budget => simp only [readWithin, expression, skipped', readAtom', bind_ok]
  | none =>
      obtain ⟨rest', beside', consumed, noAtom', reads⟩ :=
        compound_follows follows parting isOpen beside found oneLine
      refine ⟨rest', beside', consumed, fun budget enough => ?_⟩
      cases budget with
      | zero => omega
      | succ budget =>
          simp only [readWithin, expression, skipped', noAtom', bind_ok, reads budget (by omega)]

end

/-- Whatever the budget of the one reading, the other one follows it. -/
theorem readWithin_follows (parting : Parting depth tail tail') (budget : Nat) :
    Follows depth tail tail' (readWithin budget) := by
  induction budget with
  | zero =>
      intro opened text text' rest expr _ _ _ found
      cases found
  | succ budget ih => exact expression_follows ih parting budget

end LazyLisp.Reader
