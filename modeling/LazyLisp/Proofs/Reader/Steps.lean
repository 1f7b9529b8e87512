import LazyLisp.Proofs.Reader.WellFormed

/-!
# The steps of the reader

What the reader does for one expression: it reads an atom, or a form of the grammar with its parts
one after another.
-/

set_option autoImplicit false

namespace LazyLisp.Reader

/-- The text begins with the name, and that begins with a name character. -/
theorem exists_cons_of_name? {text rest : Text} {name : String}
    (found : name? text = some (name, rest)) :
    ∃ char letters behind, name.toList = char :: letters ∧ text = char :: behind ∧
      isNameChar char = true := by
  have isName := isName_of_name? found
  cases spelled : name.toList with
  | nil => exact absurd spelled isName.nonempty
  | cons char letters =>
      have chars := isName.chars
      have whole := append_eq_of_name? found
      rw [spelled, List.all_cons, Bool.and_eq_true] at chars
      rw [spelled] at whole
      exact ⟨char, letters, letters ++ rest, rfl, whole.symm, chars.1⟩

/-- The function of an application that is no form is an operator or an identifier. -/
theorem functionName?_cases {text rest : Text} {head : Expr}
    (found : functionName? text = some (head, rest)) :
    (∃ op, head = .operator op) ∨
      ∃ name, head = .identifier name ∧ name? text = some (name, rest) := by
  unfold functionName? at found
  split at found
  next op _ _ =>
    cases found
    exact .inl ⟨op, rfl⟩
  · rw [Option.map_eq_some_iff] at found
    obtain ⟨⟨name, behind⟩, isName, same⟩ := found
    cases same
    exact .inr ⟨name, rfl, isName⟩

theorem isAtom_of_committedAtom? {text rest : Text} {expr : Expr}
    (found : committedAtom? text = .ok (some (expr, rest))) : expr.isAtom = true := by
  unfold committedAtom? at found
  split at found
  · split at found
    · cases found
      rfl
    · cases found
  · split at found
    · cases found
      rfl
    · cases found
  · simp only [Except.ok.injEq, Option.map_eq_some_iff] at found
    obtain ⟨⟨name, behind⟩, -, same⟩ := found
    cases same
    rfl

theorem isAtom_of_atom? {text rest : Text} {expr : Expr}
    (found : atom? text = .ok (some (expr, rest))) : expr.isAtom = true := by
  unfold atom? at found
  split at found
  · cases found
    rfl
  · split at found
    · cases found
      rfl
    · split at found
      · cases found
        rfl
      · split at found
        · cases found
          rfl
        · exact isAtom_of_committedAtom? found

theorem name?_of_atom? {text rest : Text} {name : String}
    (found : atom? text = .ok (some (.identifier name, rest))) :
    name? text = some (name, rest) := by
  unfold atom? at found
  split at found
  · cases found
  · split at found
    · cases found
    · split at found
      · cases found
      · split at found
        · cases found
        · unfold committedAtom? at found
          split at found
          · split at found <;> cases found
          · split at found <;> cases found
          · simp only [Except.ok.injEq, Option.map_eq_some_iff] at found
            obtain ⟨⟨name', behind⟩, isName, same⟩ := found
            cases same
            exact isName

section

variable (read : Text → Except Stop (Expr × Text)) (budget : Nat)

/-- The text begins with an expression, and this is the rest. The parts are read so. -/
inductive Parses : Text → Expr → Text → Prop where
  | atom {text rest : Text} {expr : Expr} :
      atom? text = .ok (some (expr, rest)) → Parses text expr rest
  | ifThen {inner text text' text'' rest : Text} {condition consequent : Expr} :
      word? "if" (skipGap inner) = some text →
      required read .condition text = .ok (condition, text') →
      required read .consequent text' = .ok (consequent, text'') →
      stripCloser? .parenthesis (skipGap text'') = some rest →
      Parses ('(' :: inner) (.ifThen condition consequent) rest
  | ifThenElse {inner text text' text'' text''' rest : Text}
      {condition consequent alternative : Expr} :
      word? "if" (skipGap inner) = some text →
      required read .condition text = .ok (condition, text') →
      required read .consequent text' = .ok (consequent, text'') →
      stripCloser? .parenthesis (skipGap text'') = none →
      required read .alternative (skipGap text'') = .ok (alternative, text''') →
      close .parenthesis text''' = .ok rest →
      Parses ('(' :: inner) (.ifThenElse condition consequent alternative) rest
  | binding {inner text text' text'' rest : Text} {name : String} {value : Expr} :
      word? "if" (skipGap inner) = none → word? "def" (skipGap inner) = some text →
      name? (skipGap text) = some (name, text') →
      required read .value text' = .ok (value, text'') → close .parenthesis text'' = .ok rest →
      Parses ('(' :: inner) (.binding name value) rest
  | lambda {inner text names text' text'' rest : Text} {formals : List String} {body : Expr} :
      word? "if" (skipGap inner) = none → word? "def" (skipGap inner) = none →
      word? "fn" (skipGap inner) = some text → skipGap text = '[' :: names →
      Reader.formals budget [] names = .ok (formals, text') →
      required read .body text' = .ok (body, text'') → close .parenthesis text'' = .ok rest →
      Parses ('(' :: inner) (.lambda formals body) rest
  | cond {inner text rest : Text} {clauses : List Expr} :
      word? "if" (skipGap inner) = none → word? "def" (skipGap inner) = none →
      word? "fn" (skipGap inner) = none → word? "cond" (skipGap inner) = some text →
      sequence read .parenthesis budget text = .ok (clauses, rest) →
      Parses ('(' :: inner) (.cond clauses) rest
  | application {inner text rest : Text} {head : Expr} {arguments : List Expr} :
      word? "if" (skipGap inner) = none → word? "def" (skipGap inner) = none →
      word? "fn" (skipGap inner) = none → word? "cond" (skipGap inner) = none →
      function read (skipGap inner) = .ok (head, text) →
      sequence read .parenthesis budget text = .ok (arguments, rest) →
      Parses ('(' :: inner) (.application head arguments) rest
  | list {inner rest : Text} {elements : List Expr} :
      sequence read .bracket budget inner = .ok (elements, rest) →
      Parses ('[' :: inner) (.list elements) rest
  | quoted {inner rest : Text} {elements : List Expr} :
      sequence read .parenthesis budget inner = .ok (elements, rest) →
      Parses ('\'' :: '(' :: inner) (.list elements) rest

variable {read budget} {text rest : Text} {expr : Expr}

theorem parses_of_conditional {inner : Text} (isIf : word? "if" (skipGap inner) = some text)
    (found : conditional read text = .ok (expr, rest)) :
    Parses read budget ('(' :: inner) expr rest := by
  obtain ⟨⟨condition, text'⟩, readCondition, found⟩ := exists_of_bind_eq_ok found
  obtain ⟨⟨consequent, text''⟩, readConsequent, found⟩ := exists_of_bind_eq_ok found
  dsimp only at found
  split at found
  next closed =>
    cases found
    exact .ifThen isIf readCondition readConsequent closed
  next more =>
    obtain ⟨⟨alternative, text'''⟩, readAlternative, found⟩ := exists_of_bind_eq_ok found
    obtain ⟨behind, closed, found⟩ := exists_of_bind_eq_ok found
    cases found
    exact .ifThenElse isIf readCondition readConsequent more readAlternative closed

theorem parses_of_parenthesized {inner : Text}
    (found : parenthesized read budget inner = .ok (expr, rest)) :
    Parses read budget ('(' :: inner) expr rest := by
  simp only [parenthesized] at found
  split at found
  next isIf => exact parses_of_conditional isIf found
  next noIf =>
    split at found
    next isDef =>
      simp only [binding] at found
      split at found
      · cases found
      next isName =>
        obtain ⟨⟨value, text''⟩, readValue, found⟩ := exists_of_bind_eq_ok found
        obtain ⟨behind, closed, found⟩ := exists_of_bind_eq_ok found
        cases found
        exact .binding noIf isDef isName readValue closed
    next noDef =>
      split at found
      next isFn =>
        simp only [lambda] at found
        split at found
        next opened =>
          obtain ⟨⟨formals, text'⟩, readFormals, found⟩ := exists_of_bind_eq_ok found
          obtain ⟨⟨body, text''⟩, readBody, found⟩ := exists_of_bind_eq_ok found
          obtain ⟨behind, closed, found⟩ := exists_of_bind_eq_ok found
          cases found
          exact .lambda noIf noDef isFn opened readFormals readBody closed
        · cases found
      next noFn =>
        split at found
        next isCond =>
          obtain ⟨⟨clauses, behind⟩, readClauses, found⟩ := exists_of_bind_eq_ok found
          cases found
          exact .cond noIf noDef noFn isCond readClauses
        next noCond =>
          obtain ⟨⟨head, text'⟩, readHead, found⟩ := exists_of_bind_eq_ok found
          obtain ⟨⟨arguments, behind⟩, readArguments, found⟩ := exists_of_bind_eq_ok found
          cases found
          exact .application noIf noDef noFn noCond readHead readArguments

theorem parses_of_compound (found : compound read budget text = .ok (expr, rest)) :
    Parses read budget text expr rest := by
  unfold compound at found
  split at found
  · exact parses_of_parenthesized found
  · obtain ⟨⟨elements, behind⟩, readElements, found⟩ := exists_of_bind_eq_ok found
    cases found
    exact .list readElements
  · obtain ⟨⟨elements, behind⟩, readElements, found⟩ := exists_of_bind_eq_ok found
    cases found
    exact .quoted readElements
  · cases found

theorem parses_of_expression (found : expression read budget text = .ok (expr, rest)) :
    Parses read budget (skipGap text) expr rest := by
  obtain ⟨atom, readAtom, found⟩ := exists_of_bind_eq_ok found
  cases atom with
  | some atom =>
      cases found
      exact .atom readAtom
  | none => exact parses_of_compound found

end

end LazyLisp.Reader
