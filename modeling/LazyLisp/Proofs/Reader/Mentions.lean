import LazyLisp.Proofs.Reader.Forms
import LazyLisp.Proofs.Reader.Steps

/-!
# Mentions

The identifiers that the reader reads in a text, in the order of the text, each with the text that
begins with it. They follow the reader from part to part, and are those of the tree that it gives.
-/

set_option autoImplicit false

namespace LazyLisp

namespace Expr

mutual

/-- The identifiers of an expression in the order of its text, with the names of definitions and the
formals. -/
def identifiers : Expr → List String
  | .identifier name => [name]
  | .application head arguments => identifiers head ++ identifiersAll arguments
  | .ifThen condition consequent => identifiers condition ++ identifiers consequent
  | .ifThenElse condition consequent alternative =>
    identifiers condition ++ (identifiers consequent ++ identifiers alternative)
  | .binding name value => name :: identifiers value
  | .lambda formals body => formals ++ identifiers body
  | .cond clauses => identifiersAll clauses
  | .list elements => identifiersAll elements
  | .number _ | .boolean _ | .string _ | .symbol _ | .operator _ | .nil => []

def identifiersAll : List Expr → List String
  | [] => []
  | expr :: exprs => identifiers expr ++ identifiersAll exprs

end

end Expr

namespace Reader

/-- An identifier that is read, and the text from it on. -/
abbrev Mention := String × Text

section

variable (read : Text → Except Stop (Expr × Text)) (mentions : Text → List Mention)

/-- The mentions in the expression that the text begins with, and in what is read behind it. -/
def mentionsThen (text : Text) (next : Text → List Mention) : List Mention :=
  mentions text ++
    match read text with
    | .ok (_, rest) => next rest
    | .error _ => []

def rowMentions (closer : Closer) : Nat → Text → List Mention
  | 0, _ => []
  | budget + 1, text =>
    match stripCloser? closer (skipGap text) with
    | some _ => []
    | none => mentionsThen read mentions (skipGap text) (rowMentions closer budget)

def conditionalMentions (text : Text) : List Mention :=
  mentionsThen read mentions (skipGap text) fun text =>
    mentionsThen read mentions (skipGap text) fun text =>
      match stripCloser? .parenthesis (skipGap text) with
      | some _ => []
      | none => mentions (skipGap text)

def bindingMentions (text : Text) : List Mention :=
  match name? (skipGap text) with
  | some (name, rest) => (name, skipGap text) :: mentions (skipGap rest)
  | none => []

def formalMentions : Nat → Text → List Mention
  | 0, _ => []
  | budget + 1, text =>
    match stripCloser? .bracket (skipGap text) with
    | some _ => []
    | none =>
      match name? (skipGap text) with
      | some (name, rest) => (name, skipGap text) :: formalMentions budget rest
      | none => []

def lambdaMentions (budget : Nat) (text : Text) : List Mention :=
  match skipGap text with
  | '[' :: names =>
    formalMentions budget names ++
      match formals budget [] names with
      | .ok (_, rest) => mentions (skipGap rest)
      | .error _ => []
  | _ => []

def headMentions (text : Text) : List Mention :=
  match functionName? text with
  | some (.identifier name, _) => [(name, text)]
  | some _ => []
  | none => mentions text

def applicationMentions (budget : Nat) (text : Text) : List Mention :=
  headMentions mentions text ++
    match function read text with
    | .ok (_, rest) => rowMentions read mentions .parenthesis budget rest
    | .error _ => []

def parenthesizedMentions (budget : Nat) (text : Text) : List Mention :=
  match word? "if" (skipGap text) with
  | some rest => conditionalMentions read mentions rest
  | none =>
    match word? "def" (skipGap text) with
    | some rest => bindingMentions mentions rest
    | none =>
      match word? "fn" (skipGap text) with
      | some rest => lambdaMentions mentions budget rest
      | none =>
        match word? "cond" (skipGap text) with
        | some rest => rowMentions read mentions .parenthesis budget rest
        | none => applicationMentions read mentions budget (skipGap text)

def compoundMentions (budget : Nat) : Text → List Mention
  | '(' :: inner => parenthesizedMentions read mentions budget inner
  | '[' :: inner => rowMentions read mentions .bracket budget inner
  | '\'' :: '(' :: inner => rowMentions read mentions .parenthesis budget inner
  | _ => []

def expressionMentions (budget : Nat) (text : Text) : List Mention :=
  match atom? (skipGap text) with
  | .ok (some (.identifier name, _)) => [(name, skipGap text)]
  | .ok none => compoundMentions read mentions budget (skipGap text)
  | _ => []

end

/-- The mentions in the expression that the text begins with. -/
def mentionsWithin : Nat → Text → List Mention
  | 0, _ => []
  | budget + 1, text => expressionMentions (readWithin budget) (mentionsWithin budget) budget text

/-- The mentions in the forms of a source. -/
def mentionsOf (source : Text) : List Mention :=
  (sourceForms source).flatMap fun form => mentionsWithin (form.2.length + 1) form.2

/-! ## They are the identifiers of the tree -/

section

variable {read : Text → Except Stop (Expr × Text)} {mentions : Text → List Mention}
  {budget : Nat} {text rest : Text} {expr : Expr}

theorem exists_read_of_required {part : RequiredPart}
    (found : required read part text = .ok (expr, rest)) :
    read (skipGap text) = .ok (expr, rest) := by
  simp only [required] at found
  split at found
  · cases found
  · exact found

theorem map_formalMentions {names names' : List String}
    (found : formals budget names text = .ok (names', rest)) :
    names ++ (formalMentions budget text).map Prod.fst = names' := by
  induction budget generalizing names text with
  | zero => cases found
  | succ budget ih =>
      simp only [formals] at found
      split at found
      next closed =>
        cases found
        simp only [formalMentions, closed, List.map_nil, List.append_nil]
      next more =>
        split at found
        · cases found
        next name behind isName =>
          split at found
          · cases found
          · simp only [formalMentions, more, isName, List.map_cons]
            rw [← ih found, List.append_assoc, List.singleton_append]

variable (names : ∀ text rest expr, read text = .ok (expr, rest) →
  (mentions text).map Prod.fst = expr.identifiers)

include names

theorem map_mentionsThen (found : read text = .ok (expr, rest)) (next : Text → List Mention) :
    (mentionsThen read mentions text next).map Prod.fst =
      expr.identifiers ++ (next rest).map Prod.fst := by
  simp only [mentionsThen, found, List.map_append, names _ _ _ found]

theorem map_rowMentions {closer : Closer} {exprs : List Expr} {count : Nat}
    (found : sequence read closer count text = .ok (exprs, rest)) :
    (rowMentions read mentions closer count text).map Prod.fst = Expr.identifiersAll exprs := by
  induction count generalizing text exprs with
  | zero => cases found
  | succ count ih =>
      simp only [sequence] at found
      split at found
      next closed =>
        cases found
        simp only [rowMentions, closed, List.map_nil, Expr.identifiersAll]
      next more =>
        split at found
        · cases found
        · obtain ⟨⟨first, behind⟩, readFirst, found⟩ := exists_of_bind_eq_ok found
          obtain ⟨⟨others, behind'⟩, readOthers, found⟩ := exists_of_bind_eq_ok found
          cases found
          have others := ih readOthers
          simp only [rowMentions, more]
          rw [map_mentionsThen names readFirst, others, Expr.identifiersAll]

theorem map_headMentions (found : function read text = .ok (expr, rest)) :
    (headMentions mentions text).map Prod.fst = expr.identifiers := by
  unfold function at found
  split at found
  next inner =>
    have noName : functionName? ('(' :: inner) = none := rfl
    simp only [headMentions, noName]
    exact names _ _ _ found
  next =>
    split at found
    next readName =>
      cases found
      simp only [headMentions, readName]
      rcases functionName?_cases readName with ⟨op, rfl⟩ | ⟨name, rfl, -⟩
      · rfl
      · rfl
    next => cases found

theorem map_compoundMentions (parses : Parses read budget text expr rest)
    (noAtom : atom? text = .ok none) :
    (compoundMentions read mentions budget text).map Prod.fst = expr.identifiers := by
  cases parses with
  | atom isAtom => cases noAtom.symm.trans isAtom
  | ifThen isIf readCondition readConsequent closed =>
      have readCondition := exists_read_of_required readCondition
      have readConsequent := exists_read_of_required readConsequent
      simp only [compoundMentions, parenthesizedMentions, isIf, conditionalMentions]
      rw [map_mentionsThen names readCondition, map_mentionsThen names readConsequent]
      simp only [closed, List.map_nil, List.append_nil, Expr.identifiers]
  | ifThenElse isIf readCondition readConsequent more readAlternative =>
      have readCondition := exists_read_of_required readCondition
      have readConsequent := exists_read_of_required readConsequent
      have readAlternative := exists_read_of_required readAlternative
      rw [skipGap_skipGap] at readAlternative
      simp only [compoundMentions, parenthesizedMentions, isIf, conditionalMentions]
      rw [map_mentionsThen names readCondition, map_mentionsThen names readConsequent]
      simp only [more, names _ _ _ readAlternative, Expr.identifiers]
  | binding noIf isDef isName readValue =>
      have readValue := exists_read_of_required readValue
      simp only [compoundMentions, parenthesizedMentions, noIf, isDef, bindingMentions, isName,
        List.map_cons, names _ _ _ readValue, Expr.identifiers]
  | lambda noIf noDef isFn opened readFormals readBody =>
      have readBody := exists_read_of_required readBody
      have areFormals := map_formalMentions readFormals
      rw [List.nil_append] at areFormals
      simp only [compoundMentions, parenthesizedMentions, noIf, noDef, isFn, lambdaMentions, opened,
        readFormals, List.map_append, areFormals, names _ _ _ readBody, Expr.identifiers]
  | cond noIf noDef noFn isCond readClauses =>
      simp only [compoundMentions, parenthesizedMentions, noIf, noDef, noFn, isCond,
        map_rowMentions names readClauses, Expr.identifiers]
  | application noIf noDef noFn noCond readHead readArguments =>
      simp only [compoundMentions, parenthesizedMentions, noIf, noDef, noFn, noCond,
        applicationMentions, readHead, List.map_append, map_headMentions names readHead,
        map_rowMentions names readArguments, Expr.identifiers]
  | list readElements => exact map_rowMentions names readElements
  | quoted readElements => exact map_rowMentions names readElements

theorem map_expressionMentions (found : expression read budget text = .ok (expr, rest)) :
    (expressionMentions read mentions budget text).map Prod.fst = expr.identifiers := by
  have parses := parses_of_expression found
  obtain ⟨atom, readAtom, found⟩ := exists_of_bind_eq_ok found
  cases atom with
  | none =>
      simp only [expressionMentions, readAtom]
      exact map_compoundMentions names parses readAtom
  | some atom =>
      cases found
      have isAtom := isAtom_of_atom? readAtom
      simp only [expressionMentions, readAtom]
      cases expr with
      | number | boolean | string | symbol | identifier | operator | nil => rfl
      | application | ifThen | ifThenElse | binding | lambda | cond | list => cases isAtom

end

/-- The mentions in what is read are the identifiers of the expression, in their order. -/
theorem map_mentionsWithin {budget : Nat} {text rest : Text} {expr : Expr}
    (found : readWithin budget text = .ok (expr, rest)) :
    (mentionsWithin budget text).map Prod.fst = expr.identifiers := by
  induction budget generalizing text rest expr with
  | zero => cases found
  | succ budget ih => exact map_expressionMentions (fun _ _ _ => ih) found

theorem map_mentionsOf (source : Text) :
    (mentionsOf source).map Prod.fst = Expr.identifiersAll (readAll source).1 := by
  rw [← map_fst_sourceForms, mentionsOf]
  have reads : ∀ form ∈ sourceForms source, ∃ rest, readForm form.2 = .ok (form.1, rest) :=
    fun form member => (read_of_mem_formsWithin member).2.2
  generalize sourceForms source = forms at reads
  induction forms with
  | nil => rfl
  | cons form forms ih =>
      rw [List.forall_mem_cons] at reads
      obtain ⟨⟨rest, read⟩, reads⟩ := reads
      rw [List.flatMap_cons, List.map_append, List.map_cons, Expr.identifiersAll, ih reads,
        map_mentionsWithin read]

/-! ## Where they stand -/

/-- The mentions stand in the text, each where its name is read. -/
def StandIn (text : Text) (mentions : List Mention) : Prop :=
  ∀ mention ∈ mentions, mention.2 <:+ text ∧ ∃ rest, name? mention.2 = some (mention.1, rest)

namespace StandIn

variable {text part rest : Text} {mentions mentions' : List Mention} {name : String}

theorem nil (text : Text) : StandIn text [] := nofun

theorem append (stand : StandIn text mentions) (stand' : StandIn text mentions') :
    StandIn text (mentions ++ mentions') :=
  List.forall_mem_append.mpr ⟨stand, stand'⟩

theorem cons (isPart : part <:+ text) (isName : name? part = some (name, rest))
    (stand : StandIn text mentions) : StandIn text ((name, part) :: mentions) :=
  List.forall_mem_cons.mpr ⟨⟨isPart, rest, isName⟩, stand⟩

theorem mono (stand : StandIn part mentions) (isPart : part <:+ text) : StandIn text mentions :=
  fun mention member => (stand mention member).imp_left fun inside => inside.trans isPart

end StandIn

theorem suffix_of_stripCloser? {closer : Closer} {text rest : Text}
    (closed : stripCloser? closer text = some rest) : rest <:+ text := by
  cases text with
  | nil => cases closed
  | cons char text =>
      simp only [stripCloser?] at closed
      split at closed
      · cases closed
        exact List.suffix_cons char rest
      · cases closed

theorem suffix_of_word? {word : String} {text rest : Text} (found : word? word text = some rest) :
    rest <:+ text :=
  ⟨word.toList, (word?_eq_some_iff.mp found).1.symm⟩

theorem suffix_of_name? {name : String} {text rest : Text}
    (found : name? text = some (name, rest)) : rest <:+ text :=
  ⟨name.toList, append_eq_of_name? found⟩

theorem suffix_of_formals {budget : Nat} {names names' : List String} {text rest : Text}
    (found : formals budget names text = .ok (names', rest)) : rest <:+ text := by
  induction budget generalizing names text with
  | zero => cases found
  | succ budget ih =>
      simp only [formals] at found
      apply List.IsSuffix.trans _ (skipGap_suffix text)
      split at found
      next closed =>
        cases found
        exact suffix_of_stripCloser? closed
      next =>
        split at found
        · cases found
        next isName =>
          split at found
          · cases found
          · exact (ih found).trans (suffix_of_name? isName)

theorem standIn_formalMentions (budget : Nat) (text : Text) :
    StandIn text (formalMentions budget text) := by
  induction budget generalizing text with
  | zero => exact .nil text
  | succ budget ih =>
      rw [formalMentions]
      split
      · exact .nil text
      · split
        next isName =>
          have inside := skipGap_suffix text
          exact .cons inside isName ((ih _).mono ((suffix_of_name? isName).trans inside))
        · exact .nil text

section

variable {read : Text → Except Stop (Expr × Text)} {mentions : Text → List Mention}
  (suffixes : ∀ text expr rest, read text = .ok (expr, rest) → rest <:+ text)
  (stand : ∀ text, StandIn text (mentions text))

include suffixes in
theorem suffix_of_function {text rest : Text} {expr : Expr}
    (found : function read text = .ok (expr, rest)) : rest <:+ text := by
  unfold function at found
  split at found
  · exact suffixes _ _ _ found
  · split at found
    next isFunction =>
      cases found
      obtain ⟨word, -, split⟩ := (consumes_of_functionName? isFunction).passes
      exact ⟨word, split.symm⟩
    · cases found

include stand

theorem standIn_headMentions (text : Text) : StandIn text (headMentions mentions text) := by
  unfold headMentions
  split
  next name behind isFunction =>
    rcases functionName?_cases isFunction with ⟨op, same⟩ | ⟨name', same, isName⟩
    · cases same
    · cases same
      exact .cons (List.suffix_refl _) isName (.nil _)
  · exact .nil text
  · exact stand text

theorem standIn_bindingMentions (text : Text) : StandIn text (bindingMentions mentions text) := by
  have inside := skipGap_suffix text
  unfold bindingMentions
  split
  next isName =>
    apply StandIn.cons inside isName
    apply (stand _).mono
    exact ((skipGap_suffix _).trans (suffix_of_name? isName)).trans inside
  · exact .nil text

theorem standIn_lambdaMentions (budget : Nat) (text : Text) :
    StandIn text (lambdaMentions mentions budget text) := by
  unfold lambdaMentions
  split
  next names opened =>
    have inside : names <:+ text := by
      apply List.IsSuffix.trans _ (skipGap_suffix text)
      rw [opened]
      exact List.suffix_cons '[' names
    apply ((standIn_formalMentions budget names).mono inside).append
    split
    next readFormals =>
      exact (stand _).mono (((skipGap_suffix _).trans (suffix_of_formals readFormals)).trans inside)
    · exact .nil text
  · exact .nil text

include suffixes

theorem standIn_mentionsThen {next : Text → List Mention}
    (follows : ∀ text, StandIn text (next text)) (text : Text) :
    StandIn text (mentionsThen read mentions text next) := by
  apply (stand text).append
  split
  next readFirst => exact (follows _).mono (suffixes _ _ _ readFirst)
  · exact .nil text

theorem standIn_rowMentions (closer : Closer) (count : Nat) (text : Text) :
    StandIn text (rowMentions read mentions closer count text) := by
  induction count generalizing text with
  | zero => exact .nil text
  | succ count ih =>
      rw [rowMentions]
      split
      · exact .nil text
      · exact (standIn_mentionsThen suffixes stand ih _).mono (skipGap_suffix text)

theorem standIn_conditionalMentions (text : Text) :
    StandIn text (conditionalMentions read mentions text) := by
  apply (standIn_mentionsThen suffixes stand (fun text => ?_) _).mono (skipGap_suffix text)
  apply (standIn_mentionsThen suffixes stand (fun text => ?_) _).mono (skipGap_suffix text)
  split
  · exact .nil text
  · exact (stand _).mono (skipGap_suffix text)

theorem standIn_parenthesizedMentions (budget : Nat) (text : Text) :
    StandIn text (parenthesizedMentions read mentions budget text) := by
  apply StandIn.mono _ (skipGap_suffix text)
  unfold parenthesizedMentions
  split
  next isIf =>
    exact (standIn_conditionalMentions suffixes stand _).mono (suffix_of_word? isIf)
  · split
    next isDef => exact (standIn_bindingMentions stand _).mono (suffix_of_word? isDef)
    · split
      next isFn => exact (standIn_lambdaMentions stand budget _).mono (suffix_of_word? isFn)
      · split
        next isCond =>
          exact (standIn_rowMentions suffixes stand _ _ _).mono (suffix_of_word? isCond)
        · apply (standIn_headMentions stand _).append
          split
          next readHead =>
            have inside := suffix_of_function suffixes readHead
            exact (standIn_rowMentions suffixes stand _ _ _).mono inside
          · exact .nil _

theorem standIn_compoundMentions (budget : Nat) (text : Text) :
    StandIn text (compoundMentions read mentions budget text) := by
  unfold compoundMentions
  split
  next inner =>
    exact (standIn_parenthesizedMentions suffixes stand budget inner).mono
      (List.suffix_cons '(' inner)
  next inner =>
    exact (standIn_rowMentions suffixes stand _ _ inner).mono (List.suffix_cons '[' inner)
  next inner =>
    exact (standIn_rowMentions suffixes stand _ _ inner).mono
      (List.suffix_append ['\'', '('] inner)
  · exact .nil _

theorem standIn_expressionMentions (budget : Nat) (text : Text) :
    StandIn text (expressionMentions read mentions budget text) := by
  apply StandIn.mono _ (skipGap_suffix text)
  unfold expressionMentions
  split
  next isAtom => exact .cons (List.suffix_refl _) (name?_of_atom? isAtom) (.nil _)
  · exact standIn_compoundMentions suffixes stand budget _
  · exact .nil _

end

theorem suffix_of_readWithin {budget : Nat} {text rest : Text} {expr : Expr}
    (found : readWithin budget text = .ok (expr, rest)) : rest <:+ text := by
  obtain ⟨word, -, split, -⟩ := ((viable_readWithin budget).completable text).keeps found
  exact ⟨word, split.symm⟩

/-- By induction on the budget: each part is read from the rest behind the parts before it. -/
theorem standIn_mentionsWithin (budget : Nat) (text : Text) :
    StandIn text (mentionsWithin budget text) := by
  induction budget generalizing text with
  | zero => exact .nil text
  | succ budget ih => exact standIn_expressionMentions (fun _ _ _ => suffix_of_readWithin) ih _ _

theorem standIn_mentionsOf (source : Text) : StandIn source (mentionsOf source) := by
  intro mention member
  obtain ⟨form, isForm, member⟩ := List.mem_flatMap.mp member
  exact (standIn_mentionsWithin _ form.2).mono (read_of_mem_formsWithin isForm).1 mention member

end Reader

end LazyLisp
