import LazyLisp.Proofs.Reader.Viable

/-!
# What reading a form has read

The steps of the grammar one by one: tokens and brackets, then the parts and sequences given how an
expression is read, then expressions by induction on the budget.
-/

set_option autoImplicit false

namespace LazyLisp.Reader

/-! ## Closers and names -/

theorem skipGap_closer (closer : Closer) (text : Text) :
    skipGap (closer.char :: text) = closer.char :: text :=
  skipGap_cons_of_not_startsGap _ (by cases closer <;> decide)

theorem eq_of_stripCloser? {closer : Closer} {text rest : Text}
    (found : stripCloser? closer text = some rest) : text = closer.char :: rest := by
  cases text with
  | nil => cases found
  | cons char text =>
      simp only [stripCloser?] at found
      split at found
      next same =>
        cases found
        rw [same]
      next => cases found

theorem stripCloser?_cons (closer : Closer) (text : Text) :
    stripCloser? closer (closer.char :: text) = some text := by
  simp [stripCloser?]

theorem stripCloser?_eq_none_of_head? {closer : Closer} {text text' : Text}
    (same : text'.head? = text.head?) (noCloser : stripCloser? closer text = none) :
    stripCloser? closer text' = none := by
  cases text with
  | nil =>
      rw [List.head?_eq_none_iff.mp same]
      rfl
  | cons char text =>
      rw [List.eq_cons_of_mem_head? same]
      simp only [stripCloser?, ite_eq_right_iff, reduceCtorEq, imp_false] at noCloser ⊢
      exact noCloser

theorem keeps_closer {closer : Closer} {text rest : Text}
    (found : stripCloser? closer (skipGap text) = some rest) :
    Keeps (fun text' left => stripCloser? closer (skipGap text') = some left) text rest := by
  refine (keeps_char (eq_of_stripCloser? found) (by cases closer <;> decide)).imp
    fun text' left _ _ read => ?_
  rw [read, stripCloser?_cons]

/-- A step that the closing bracket ends has something to read. -/
theorem fills_closer {α : Type} {read : Nat → Text → Except Stop (α × Text)} {closer : Closer}
    {value : α} (closes : ∀ {text rest} budget, stripCloser? closer (skipGap text) = some rest →
      read (budget + 1) text = .ok (value, rest)) :
    ∃ more value, ∀ ⦃tail : Text⦄, LineEnd tail → Gives read value (more ++ tail) tail := by
  refine ⟨[closer.char], value, fun tail _ => ?_⟩
  refine .of_succ (Nat.lt_succ_self _) fun budget _ => closes budget ?_
  rw [List.singleton_append, skipGap_closer, stripCloser?_cons]

/-- Closing a form. -/
theorem viable_close (expr : Expr) :
    Viable (fun text => close .parenthesis text >>= fun rest => .ok (expr, rest))
      (fun _ text => close .parenthesis text >>= fun rest => .ok (expr, rest)) := by
  have closes {text rest : Text} (found : stripCloser? .parenthesis (skipGap text) = some rest) :
      (close .parenthesis text >>= fun rest => Except.ok (expr, rest)) = .ok (expr, rest) := by
    simp only [close, found, bind_ok]
  refine ⟨fun budget text => ?_, fills_closer fun _ => closes, fun text => ?_⟩
  · simp only [close, skipGap_skipGap]
  · cases found : stripCloser? .parenthesis (skipGap text) with
    | some rest =>
        rw [closes found]
        exact .ok ((keeps_closer found).gives fun _ => closes)
    | none =>
        simp only [close, found]
        exact .error (.inr rfl)

/-- The name that a definition binds. -/
def boundName (text : Text) : Except Stop (String × Text) :=
  match name? (skipGap text) with
  | none => .error ⟨.expectedIdentifier, skipGap text⟩
  | some found => .ok found

theorem viable_boundName : Viable boundName fun _ => boundName where
  skips budget text := by simp only [boundName, skipGap_skipGap]
  fills := by
    refine ⟨['x'], "x", fun tail lineEnd budget _ => ?_⟩
    have isName : IsName "x" := ⟨by decide, by decide, by decide, by decide⟩
    have skipped : skipGap (['x'] ++ tail) = "x".toList ++ tail :=
      skipGap_cons_of_not_startsGap _ (by decide)
    simp only [boundName, skipped, name?_append isName lineEnd.atTokenEnd.not_name]
  completable text := by
    unfold boundName
    split
    next => exact .error (.inr rfl)
    next found =>
      refine .ok ((keeps_name found).gives fun _ read => ?_)
      simp only [read]

theorem binding_eq (read : Text → Except Stop (Expr × Text)) :
    binding read = fun text => boundName text >>= fun found =>
      required read .value found.2 >>= fun found' =>
        close .parenthesis found'.2 >>= fun rest => .ok (.binding found.1 found'.1, rest) := by
  funext text
  cases found : name? (skipGap text) <;> simp only [binding, boundName, found] <;> rfl

/-! ## Parts and sequences -/

theorem le_pred_succ (budget : Nat) : budget ≤ budget.pred + 1 :=
  Nat.le_succ_of_pred_le (Nat.le_refl budget.pred)

theorem atCloser_congr {text text' : Text} (same : text'.head? = text.head?) :
    atCloser text' = atCloser text := by
  rw [atCloser, same, atCloser]

/-- What does not begin with a closing bracket. -/
theorem Completable.unless_closer {α : Type} {fault : Fault} {text : Text}
    {read other : Nat → Text → Except Stop (α × Text)} {result : Except Stop (α × Text)}
    (completable : Completable other (skipGap text) result)
    (agrees : ∀ {text'} budget, atCloser (skipGap text') = false →
      (skipGap text').head? = (skipGap text).head? →
      read (budget + 1) text' = other (budget + 1) (skipGap text')) :
    Completable read text
      (if atCloser (skipGap text) then .error ⟨fault, skipGap text⟩ else result) := by
  split
  next => exact .error (.inr rfl)
  next noCloser =>
    refine completable.of_skipGap fun budget same => agrees budget ?_ same
    rw [atCloser_congr same]
    simpa using noCloser

theorem sequence_of_closer {read : Text → Except Stop (Expr × Text)} {closer : Closer}
    {text rest : Text} (budget : Nat) (found : stripCloser? closer (skipGap text) = some rest) :
    sequence read closer (budget + 1) text = .ok ([], rest) := by
  simp only [sequence, found]

theorem sequence_skipGap {read : Text → Except Stop (Expr × Text)} {closer : Closer}
    (budget : Nat) (text : Text) :
    sequence read closer (budget + 1) (skipGap text) = sequence read closer (budget + 1) text := by
  simp only [sequence, skipGap_skipGap]

section

variable {step : Text → Except Stop (Expr × Text)} {read : Nat → Text → Except Stop (Expr × Text)}
  (viable : Viable step read)
  (readsNil : ∀ ⦃tail : Text⦄, LineEnd tail → Gives read .nil ("nil".toList ++ tail) tail)

include viable readsNil

theorem viable_required (part : RequiredPart) :
    Viable (required step part) fun budget => required (read budget) part where
  skips budget := required_skipGap _ part
  fills := by
    refine ⟨"nil".toList, .nil, fun tail lineEnd budget enough => ?_⟩
    have skipped : skipGap ("nil".toList ++ tail) = "nil".toList ++ tail :=
      skipGap_cons_of_not_startsGap _ (by decide)
    simp only [required, skipped]
    exact readsNil lineEnd budget enough
  completable text := by
    refine Completable.unless_closer (viable.completable _) fun budget noCloser _ => ?_
    simp only [required, noCloser]
    rfl

omit readsNil

theorem viable_sequence (closer : Closer) (count : Nat) :
    Viable (sequence step closer count) fun budget => sequence (read budget) closer budget := by
  -- The elements behind the first one are counted by one less, but read as before.
  induction count generalizing read with
  | zero =>
      exact ⟨fun budget => sequence_skipGap budget,
        fills_closer fun budget => sequence_of_closer budget, fun text => .error (.inl rfl)⟩
  | succ count ih =>
      refine ⟨fun budget => sequence_skipGap budget,
        fills_closer fun budget => sequence_of_closer budget, fun text => ?_⟩
      cases found : stripCloser? closer (skipGap text) with
      | some rest =>
          rw [sequence_of_closer count found]
          exact .ok ((keeps_closer found).gives fun budget => sequence_of_closer budget)
      | none =>
          have element := viable.andThen le_pred_succ fun expr => (ih viable.more).map (expr :: ·)
          simp only [sequence, found]
          refine Completable.unless_closer (element.completable _) fun budget noCloser same => ?_
          simp only [sequence, stripCloser?_eq_none_of_head? same found, noCloser]
          rfl

/-! ## Forms -/

/-- Reads what stands behind the consequent of a conditional. -/
def branch (read : Text → Except Stop (Expr × Text)) (condition consequent : Expr) (text : Text) :
    Except Stop (Expr × Text) :=
  match stripCloser? .parenthesis (skipGap text) with
  | some rest => .ok (.ifThen condition consequent, rest)
  | none => required read .alternative (skipGap text) >>= fun found =>
      close .parenthesis found.2 >>= fun rest =>
        .ok (.ifThenElse condition consequent found.1, rest)

include readsNil

theorem viable_branch (condition consequent : Expr) :
    Viable (branch step condition consequent)
      fun budget => branch (read budget) condition consequent := by
  refine ⟨fun budget text => by simp only [branch, skipGap_skipGap], ?_, fun text => ?_⟩
  · refine @fills_closer _ _ .parenthesis (.ifThen condition consequent) fun budget found => ?_
    simp only [branch, found]
  · have alternative := (viable_required viable readsNil .alternative).andThen Nat.le_succ
      fun alternative => viable_close (.ifThenElse condition consequent alternative)
    unfold branch
    split
    next found =>
      refine .ok ((keeps_closer found).gives fun _ found => ?_)
      simp only [found]
    next missing =>
      refine (alternative.completable _).of_skipGap fun budget same => ?_
      simp only [stripCloser?_eq_none_of_head? same missing]

theorem viable_conditional : Viable (conditional step) fun budget => conditional (read budget) :=
  (viable_required viable readsNil .condition).andThen Nat.le_succ fun condition =>
    (viable_required viable readsNil .consequent).andThen Nat.le_succ fun consequent =>
      viable_branch viable readsNil condition consequent

theorem viable_binding : Viable (binding step) fun budget => binding (read budget) := by
  simp only [binding_eq]
  exact viable_boundName.andThen Nat.le_succ fun name =>
    (viable_required viable readsNil .value).andThen Nat.le_succ fun value =>
      viable_close (.binding name value)

end

/-! ## Formal parameters -/

theorem stripCloser?_of_name? {closer : Closer} {text rest : Text} {name : String}
    (found : name? text = some (name, rest)) : stripCloser? closer text = none := by
  cases stripped : stripCloser? closer text with
  | none => rfl
  | some rest =>
      rw [eq_of_stripCloser? stripped] at found
      cases closer <;> cases found

theorem formals_of_closer {names : List String} {text rest : Text} (budget : Nat)
    (found : stripCloser? .bracket (skipGap text) = some rest) :
    formals (budget + 1) names text = .ok (names, rest) := by
  simp only [formals, found]

theorem formals_skipGap {names : List String} (budget : Nat) (text : Text) :
    formals (budget + 1) names (skipGap text) = formals (budget + 1) names text := by
  simp only [formals, skipGap_skipGap]

theorem viable_formals (count : Nat) (names : List String) :
    Viable (formals count names) fun budget => formals budget names := by
  induction count generalizing names with
  | zero => exact ⟨formals_skipGap, fills_closer formals_of_closer, fun text => .error (.inl rfl)⟩
  | succ count ih =>
      refine ⟨formals_skipGap, fills_closer formals_of_closer, fun text => ?_⟩
      simp only [formals]
      split
      next found => exact .ok ((keeps_closer found).gives formals_of_closer)
      next =>
        split
        next => exact .error (.inr rfl)
        next name rest named =>
          split
          next => exact .error (.inr rfl)
          next isNew =>
            refine .behind le_pred_succ (keeps_name named) (ih (names ++ [name]))
              fun budget named' read => ?_
            simp only [formals, stripCloser?_of_name? named', named', isNew]
            exact read

/-! ## Functions and keywords -/

theorem functionName?_keyword {keyword : String} (isKeyword : keyword ∈ keywords) {rest : Text}
    (ends : AtNameEnd rest) : functionName? (keyword.toList ++ rest) = none := by
  have isPlain := isPlainWord_of_mem_keywords isKeyword
  have noOperator : operator? (keyword.toList ++ rest) = none := by
    have table : ∀ keyword ∈ keywords,
        (Operator.words.find? fun op => op.token == keyword) = none := by decide
    rw [operator?_plain isPlain ends, table keyword isKeyword]
    rfl
  have noName : name? (keyword.toList ++ rest) = none := by
    have table : ∀ keyword ∈ keywords, reservedWords.contains keyword = true := by decide
    simp only [name?, (takeWhile_append_of_atNameEnd isPlain.chars ends).1, String.ofList_toList,
      table keyword isKeyword, Bool.or_true, if_true]
  simp only [functionName?, noOperator, noName, Option.map_none]

/-- Where an application is read no keyword stands. -/
theorem parenthesized_of_application {read : Text → Except Stop (Expr × Text)} {budget : Nat}
    {text : Text} {found : Expr × Text}
    (applied : application read budget (skipGap text) = .ok found) :
    parenthesized read budget text = .ok found := by
  obtain ⟨head, function, -⟩ := exists_of_bind_eq_ok applied
  have noKeyword (keyword : String) (isKeyword : keyword ∈ keywords) :
      word? keyword (skipGap text) = none := by
    cases isWord : word? keyword (skipGap text) with
    | none => rfl
    | some rest =>
        obtain ⟨split, ends⟩ := word?_eq_some_iff.mp isWord
        obtain ⟨char, letters, spelled, isName, -⟩ :=
          (isPlainWord_of_mem_keywords isKeyword).exists_cons
        rw [split, Reader.function] at function
        · simp only [functionName?_keyword isKeyword ends] at function
          cases function
        · rintro rest' same
          rw [spelled, List.cons_append] at same
          cases (List.cons.inj same).1
          revert isName
          decide
  simp only [parenthesized, noKeyword "if" (by decide), noKeyword "def" (by decide),
    noKeyword "fn" (by decide), noKeyword "cond" (by decide), applied]

section

variable {step : Text → Except Stop (Expr × Text)} {read : Nat → Text → Except Stop (Expr × Text)}
  (viable : Viable step read)
  (readsNil : ∀ ⦃tail : Text⦄, LineEnd tail → Gives read .nil ("nil".toList ++ tail) tail)

include viable

theorem viable_function : Viable (fun text => function step (skipGap text))
    fun budget text => function (read budget) (skipGap text) where
  skips budget text := by simp only [skipGap_skipGap]
  fills := by
    refine ⟨['+'], .operator .plus, fun tail _ budget _ => ?_⟩
    have skipped : skipGap (['+'] ++ tail) = '+' :: tail :=
      skipGap_cons_of_not_startsGap _ (by decide)
    simp only [skipped]
    rfl
  completable text := by
    unfold function
    split
    next rest skipped =>
      refine (viable.completable _).of_skipGap fun budget same => ?_
      rw [skipped, List.head?_cons] at same
      rw [List.eq_cons_of_mem_head? same]
      rfl
    next =>
      split
      next found =>
        exact .ok ((keeps_functionName found).gives fun _ => function_of_functionName?)
      next => exact .error (.inr rfl)

theorem viable_application (count : Nat) :
    Viable (fun text => application step count (skipGap text))
      fun budget text => application (read budget) budget (skipGap text) :=
  (viable_function viable).andThen Nat.le_succ fun head =>
    (viable_sequence viable .parenthesis count).map (Expr.application head)

include readsNil

theorem viable_lambda (count : Nat) :
    Viable (lambda step count) fun budget => lambda (read budget) budget := by
  have inner := (viable_formals count []).andThen Nat.le_succ fun names =>
    (viable_required viable readsNil .body).andThen Nat.le_succ fun body =>
      viable_close (.lambda names body)
  refine ⟨fun budget text => by simp only [lambda, skipGap_skipGap], ?_, fun text => ?_⟩
  · obtain ⟨more, value, fills⟩ := inner.fills
    refine ⟨'[' :: more, value, fun tail lineEnd budget enough => ?_⟩
    have skipped : skipGap ('[' :: more ++ tail) = '[' :: (more ++ tail) :=
      skipGap_cons_of_not_startsGap _ (by decide)
    simp only [lambda, skipped]
    rw [List.cons_append, List.length_cons] at enough
    exact fills lineEnd budget (by omega)
  · unfold lambda
    split
    next rest skipped =>
      refine .behind Nat.le_succ (keeps_char skipped (by decide)) inner
        fun budget skipped' read => ?_
      simp only [skipped']
      exact read
    next => exact .error (.inr rfl)

theorem viable_parenthesized (count : Nat) :
    Viable (parenthesized step count) fun budget => parenthesized (read budget) budget := by
  have application := viable_application viable count
  refine ⟨fun budget text => by simp only [parenthesized, skipGap_skipGap], ?_, fun text => ?_⟩
  · obtain ⟨more, value, fills⟩ := application.fills
    exact ⟨more, value, fun tail lineEnd budget enough =>
      parenthesized_of_application (fills lineEnd budget enough)⟩
  have keyword {keyword : String} (isKeyword : keyword ∈ keywords) {rest : Text}
      (found : word? keyword (skipGap text) = some rest) :
      Keeps (fun text' left => skipGap text' = keyword.toList ++ left ∧ AtNameEnd left)
        text rest := by
    obtain ⟨split, ends⟩ := word?_eq_some_iff.mp found
    exact keeps_word (isPlainWord_of_mem_keywords isKeyword) split ends
  simp only [parenthesized]
  split
  next isIf =>
    refine .behind Nat.le_succ (keyword (by decide) isIf) (viable_conditional viable readsNil)
      fun budget isIf' read => ?_
    rw [parenthesized_if isIf'.2 isIf'.1, read]
  next =>
    split
    next isDef =>
      refine .behind Nat.le_succ (keyword (by decide) isDef) (viable_binding viable readsNil)
        fun budget isDef' read => ?_
      rw [parenthesized_def isDef'.2 isDef'.1, read]
    next =>
      split
      next isFn =>
        refine .behind Nat.le_succ (keyword (by decide) isFn) (viable_lambda viable readsNil count)
          fun budget isFn' read => ?_
        rw [parenthesized_fn isFn'.2 isFn'.1, read]
      next =>
        split
        next isCond =>
          refine .behind Nat.le_succ (keyword (by decide) isCond)
            ((viable_sequence viable .parenthesis count).map Expr.cond)
            fun budget isCond' read => ?_
          rw [parenthesized_cond isCond'.2 isCond'.1, read]
        next =>
          exact (application.completable text).imp fun gives budget enough =>
            parenthesized_of_application (gives budget enough)

end

/-! ## Expressions -/

theorem readWithin_skipGap (budget : Nat) (text : Text) :
    readWithin (budget + 1) (skipGap text) = readWithin (budget + 1) text := by
  simp only [readWithin, expression, skipGap_skipGap]

theorem readWithin_of_atom? {text rest : Text} {expr : Expr} (budget : Nat)
    (atom : atom? (skipGap text) = .ok (some (expr, rest))) :
    readWithin (budget + 1) text = .ok (expr, rest) := by
  simp only [readWithin, expression, atom]
  rfl

theorem readWithin_gives_nil {tail : Text} (lineEnd : LineEnd tail) :
    Gives readWithin .nil ("nil".toList ++ tail) tail := by
  have shorter : tail.length < ("nil".toList ++ tail).length := by
    rw [List.length_append]
    exact Nat.lt_add_of_pos_left (by decide)
  refine .of_succ shorter fun budget _ => readWithin_of_atom? budget ?_
  have skipped : skipGap ("nil".toList ++ tail) = "nil".toList ++ tail :=
    skipGap_cons_of_not_startsGap _ (by decide)
  rw [skipped, atom?_nil lineEnd.atTokenEnd.not_name]

theorem completable_compound {count : Nat} (viable : Viable (readWithin count) readWithin)
    (text : Text) :
    Completable readWithin text (compound (readWithin count) count (skipGap text)) := by
  have readsNil ⦃tail : Text⦄ (lineEnd : LineEnd tail) := readWithin_gives_nil lineEnd
  unfold compound
  split
  next inner skipped =>
    refine .behind le_pred_succ (keeps_char skipped (by decide))
      (viable_parenthesized viable readsNil count) fun budget skipped' read => ?_
    rw [readWithin_eq_compound (by decide) skipped']
    exact read
  next inner skipped =>
    refine .behind le_pred_succ (keeps_char skipped (by decide))
      ((viable_sequence viable .bracket count).map Expr.list) fun budget skipped' read => ?_
    rw [readWithin_eq_compound (by decide) skipped']
    exact read
  next inner skipped =>
    have token : Keeps (fun text' left => skipGap text' = '\'' :: '(' :: left) text inner :=
      (keeps_token skipped (List.cons_ne_nil '\'' ['(']) fun _ _ => .cons (by decide) _ _).imp
        fun _ _ _ _ read => read.1
    refine .behind le_pred_succ token
      ((viable_sequence viable .parenthesis count).map Expr.list) fun budget skipped' read => ?_
    rw [readWithin_eq_compound (by decide) skipped']
    exact read
  next => exact .error (.inr rfl)

/-- Reading an expression is viable. -/
theorem viable_readWithin (count : Nat) : Viable (readWithin count) readWithin := by
  have fills : ∃ more value, ∀ ⦃tail : Text⦄, LineEnd tail →
      Gives readWithin value (more ++ tail) tail :=
    ⟨"nil".toList, .nil, fun _ => readWithin_gives_nil⟩
  induction count with
  | zero => exact ⟨readWithin_skipGap, fills, fun text => .error (.inl rfl)⟩
  | succ count ih =>
      refine ⟨readWithin_skipGap, fills, fun text => ?_⟩
      simp only [readWithin, expression]
      cases atom : atom? (skipGap text) with
      | error stop =>
          rcases severs_of_atom?_error atom with atStart | severs
          · exact .error (.inr atStart)
          · exact .unfinished (severs.gives readWithin_of_atom?)
      | ok found =>
          cases found with
          | none => exact completable_compound ih text
          | some found => exact .ok ((keeps_atom atom).gives readWithin_of_atom?)

end LazyLisp.Reader
