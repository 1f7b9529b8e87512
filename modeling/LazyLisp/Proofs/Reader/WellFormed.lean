import LazyLisp.Proofs.Expr.Unmarked
import LazyLisp.Proofs.Reader.Atom
import LazyLisp.Reader.Source

/-!
# Well-formed expressions

The expressions that have a spelling. All that is read from a source is well-formed.
-/

set_option autoImplicit false

namespace LazyLisp

namespace Expr

/-- What the function of an application may be: an operator, an identifier or a form in
parentheses. -/
def isHead : Expr → Bool
  | .operator _ | .identifier _ | .application _ _ | .ifThen _ _ | .ifThenElse _ _ _
  | .binding _ _ | .lambda _ _ | .cond _ => true
  | _ => false

mutual

/-- Names are names, payloads are payloads, the formals of a lambda are distinct, a head is a head
and no `nan` is marked. -/
def WellFormed : Expr → Prop
  | .number value => value.unmarked = value
  | .string payload => Reader.IsPayload payload.toList
  | .symbol name => Reader.IsName name
  | .identifier name => Reader.IsIdentifier name
  | .application head arguments => head.isHead = true ∧ WellFormed head ∧ AllWellFormed arguments
  | .ifThen condition consequent => WellFormed condition ∧ WellFormed consequent
  | .ifThenElse condition consequent alternative =>
    WellFormed condition ∧ WellFormed consequent ∧ WellFormed alternative
  | .binding name value => Reader.IsName name ∧ WellFormed value
  | .lambda formals body =>
    formals.Nodup ∧ (∀ formal ∈ formals, Reader.IsName formal) ∧ WellFormed body
  | .cond clauses => AllWellFormed clauses
  | .list elements => AllWellFormed elements
  | .boolean _ | .operator _ | .nil => True

def AllWellFormed : List Expr → Prop
  | [] => True
  | expr :: exprs => WellFormed expr ∧ AllWellFormed exprs

end

theorem allWellFormed_iff {exprs : List Expr} :
    AllWellFormed exprs ↔ ∀ expr ∈ exprs, expr.WellFormed := by
  induction exprs with
  | nil => simp [AllWellFormed]
  | cons expr exprs ih => simp only [AllWellFormed, ih, List.forall_mem_cons]

mutual

theorem WellFormed.unmarked_eq : {expr : Expr} → expr.WellFormed → expr.unmarked = expr
  | .number _, wellFormed => congrArg Expr.number wellFormed
  | .application _ _, wellFormed => by
      simp only [unmarked, wellFormed.2.1.unmarked_eq, wellFormed.2.2.unmarkedAll_eq]
  | .ifThen _ _, wellFormed => by
      simp only [unmarked, wellFormed.1.unmarked_eq, wellFormed.2.unmarked_eq]
  | .ifThenElse _ _ _, wellFormed => by
      simp only [unmarked, wellFormed.1.unmarked_eq, wellFormed.2.1.unmarked_eq,
        wellFormed.2.2.unmarked_eq]
  | .binding _ _, wellFormed => by simp only [unmarked, wellFormed.2.unmarked_eq]
  | .lambda _ _, wellFormed => by simp only [unmarked, wellFormed.2.2.unmarked_eq]
  | .cond clauses, wellFormed => by
      have allWellFormed : AllWellFormed clauses := wellFormed
      simp only [unmarked, allWellFormed.unmarkedAll_eq]
  | .list elements, wellFormed => by
      have allWellFormed : AllWellFormed elements := wellFormed
      simp only [unmarked, allWellFormed.unmarkedAll_eq]
  | .boolean _, _ | .string _, _ | .symbol _, _ | .identifier _, _ | .operator _, _ | .nil, _ => rfl

theorem AllWellFormed.unmarkedAll_eq : {exprs : List Expr} → AllWellFormed exprs →
    unmarkedAll exprs = exprs
  | [], _ => rfl
  | _ :: _, wellFormed => by
      simp only [unmarkedAll, wellFormed.1.unmarked_eq, wellFormed.2.unmarkedAll_eq]

end

end Expr

namespace Reader

/-! ## Atoms -/

theorem unmarked_ofDecimal (negative : Bool) (decimal : Number.Decimal) :
    (Number.ofDecimal negative decimal).unmarked = Number.ofDecimal negative decimal := by
  rw [Number.ofDecimal_eq_ofRank, Number.ofRank]
  split <;> rfl

theorem unmarked_of_numeral? {text rest : Text} {number : Number}
    (found : numeral? text = some (number, rest)) : number.unmarked = number := by
  simp only [numeral?] at found
  split at found
  · cases found
    rfl
  · split at found
    · cases found
      rfl
    · simp only [Option.bind_eq_bind, Option.bind_eq_some_iff] at found
      obtain ⟨⟨whole, fraction, behind⟩, -, found⟩ := found
      dsimp only at found
      split at found
      · cases found
      · cases found
        exact unmarked_ofDecimal _ _

theorem isIdentifier_of_name? {text rest : Text} {name : String}
    (noOperator : operator? text = none) (found : name? text = some (name, rest)) :
    IsIdentifier name where
  toIsName := isName_of_name? found
  noMinus := by
    intro startsMinus
    have split := append_eq_of_name? found
    cases spelled : name.toList with
    | nil =>
        rw [spelled] at startsMinus
        cases startsMinus
    | cons char letters =>
        rw [spelled] at startsMinus split
        cases startsMinus
        rw [← split] at noOperator
        cases noOperator
  notOperator := by
    rintro op isWord rfl
    have read : word? op.token text = some rest :=
      word?_eq_some_iff.mpr ⟨(append_eq_of_name? found).symm, not_name_of_name? found⟩
    cases text with
    | nil => cases found
    | cons char text =>
        simp only [operator?] at noOperator
        split at noOperator
        · cases noOperator
        · rw [List.findSome?_eq_none_iff] at noOperator
          have none := noOperator op isWord
          rw [read] at none
          cases none

theorem wellFormed_of_committedAtom? {text rest : Text} {expr : Expr}
    (noOperator : operator? text = none)
    (found : committedAtom? text = .ok (some (expr, rest))) : expr.WellFormed := by
  unfold committedAtom? at found
  split at found
  · split at found
    next read =>
      cases found
      exact isName_of_name? read
    next => cases found
  · split at found
    next payload _ read =>
      cases found
      have isPayload := isPayload_of_payload? read
      rwa [← String.toList_ofList (l := payload)] at isPayload
    next => cases found
  · simp only [Except.ok.injEq, Option.map_eq_some_iff] at found
    obtain ⟨⟨name, behind⟩, read, same⟩ := found
    cases same
    exact isIdentifier_of_name? noOperator read

theorem wellFormed_of_atom? {text rest : Text} {expr : Expr}
    (found : atom? text = .ok (some (expr, rest))) : expr.WellFormed := by
  unfold atom? at found
  split at found
  next read =>
    cases found
    exact unmarked_of_numeral? read
  next =>
    split at found
    next =>
      cases found
      trivial
    next =>
      split at found
      next =>
        cases found
        trivial
      next noOperator =>
        split at found
        next =>
          cases found
          trivial
        next => exact wellFormed_of_committedAtom? noOperator found

/-! ## Forms -/

@[simp]
theorem bind_ok {α β : Type} (value : α) (next : α → Except Stop β) :
    (Except.ok value >>= next) = next value := rfl

theorem required_skipGap (read : Text → Except Stop (Expr × Text)) (part : RequiredPart)
    (text : Text) : required read part (skipGap text) = required read part text := by
  simp only [required, skipGap_skipGap]

theorem exists_of_bind_eq_ok {ε α β : Type} {first : Except ε α} {next : α → Except ε β}
    {result : β} (found : first >>= next = .ok result) :
    ∃ value, first = .ok value ∧ next value = .ok result := by
  cases first with
  | error stop => cases found
  | ok value => exact ⟨value, rfl, found⟩

/-- Everything that a reading step gives is well-formed. -/
def Sound (read : Text → Except Stop (Expr × Text)) : Prop :=
  ∀ ⦃text rest : Text⦄ ⦃expr : Expr⦄, read text = .ok (expr, rest) → expr.WellFormed

section

variable {read : Text → Except Stop (Expr × Text)} (sound : Sound read)

include sound

theorem required_sound (part : RequiredPart) : Sound (required read part) := by
  intro text rest expr found
  simp only [required] at found
  split at found
  · cases found
  · exact sound found

theorem sequence_sound {closer : Closer} {budget : Nat} {text rest : Text} {exprs : List Expr}
    (found : sequence read closer budget text = .ok (exprs, rest)) :
    Expr.AllWellFormed exprs := by
  induction budget generalizing text exprs with
  | zero => cases found
  | succ budget ih =>
      simp only [sequence] at found
      split at found
      · cases found
        trivial
      · split at found
        · cases found
        · obtain ⟨⟨expr, behind⟩, first, found⟩ := exists_of_bind_eq_ok found
          obtain ⟨⟨others, behind⟩, more, found⟩ := exists_of_bind_eq_ok found
          cases found
          exact ⟨sound first, ih more⟩

theorem conditional_sound : Sound (conditional read) := by
  intro text rest expr found
  obtain ⟨⟨condition, behind⟩, readCondition, found⟩ := exists_of_bind_eq_ok found
  obtain ⟨⟨consequent, behind⟩, readConsequent, found⟩ := exists_of_bind_eq_ok found
  have conditionWellFormed := required_sound sound _ readCondition
  have consequentWellFormed := required_sound sound _ readConsequent
  dsimp only at found
  split at found
  · cases found
    exact ⟨conditionWellFormed, consequentWellFormed⟩
  · obtain ⟨⟨alternative, behind⟩, readAlternative, found⟩ := exists_of_bind_eq_ok found
    obtain ⟨behind, -, found⟩ := exists_of_bind_eq_ok found
    cases found
    exact ⟨conditionWellFormed, consequentWellFormed, required_sound sound _ readAlternative⟩

theorem binding_sound : Sound (binding read) := by
  intro text rest expr found
  simp only [binding] at found
  split at found
  · cases found
  next readName =>
    obtain ⟨⟨value, behind⟩, readValue, found⟩ := exists_of_bind_eq_ok found
    obtain ⟨behind, -, found⟩ := exists_of_bind_eq_ok found
    cases found
    exact ⟨isName_of_name? readName, required_sound sound _ readValue⟩

omit sound in
theorem formals_sound {budget : Nat} {names names' : List String} {text rest : Text}
    (distinct : names.Nodup) (areNames : ∀ name ∈ names, IsName name)
    (found : formals budget names text = .ok (names', rest)) :
    names'.Nodup ∧ ∀ name ∈ names', IsName name := by
  induction budget generalizing names text with
  | zero => cases found
  | succ budget ih =>
      simp only [formals] at found
      split at found
      · cases found
        exact ⟨distinct, areNames⟩
      · split at found
        · cases found
        next name behind readName =>
          split at found
          · cases found
          next isNew =>
            rw [List.contains_iff_mem] at isNew
            refine ih ?_ ?_ found
            · rw [List.nodup_append]
              refine ⟨distinct, List.nodup_singleton name, fun other member last isLast => ?_⟩
              rw [List.mem_singleton.mp isLast]
              rintro rfl
              exact isNew member
            · intro other member
              rcases List.mem_append.mp member with member | member
              · exact areNames other member
              · rw [List.mem_singleton.mp member]
                exact isName_of_name? readName

theorem lambda_sound (budget : Nat) : Sound (lambda read budget) := by
  intro text rest expr found
  simp only [lambda] at found
  split at found
  · obtain ⟨⟨names, behind⟩, readNames, found⟩ := exists_of_bind_eq_ok found
    obtain ⟨⟨body, behind⟩, readBody, found⟩ := exists_of_bind_eq_ok found
    obtain ⟨behind, -, found⟩ := exists_of_bind_eq_ok found
    cases found
    obtain ⟨distinct, areNames⟩ := formals_sound List.nodup_nil (by simp) readNames
    exact ⟨distinct, areNames, required_sound sound _ readBody⟩
  · cases found

theorem function_sound : Sound (function read) := by
  intro text rest expr found
  simp only [function] at found
  split at found
  · exact sound found
  · split at found
    next readName =>
      cases found
      simp only [functionName?] at readName
      split at readName
      · cases readName
        trivial
      next noOperator =>
        simp only [Option.map_eq_some_iff] at readName
        obtain ⟨⟨name, behind⟩, readName, same⟩ := readName
        cases same
        exact isIdentifier_of_name? noOperator readName
    · cases found

end

/-- What a reading step gives for an opening parenthesis may be a head. -/
def ReadsHeads (read : Text → Except Stop (Expr × Text)) : Prop :=
  ∀ ⦃text rest : Text⦄ ⦃expr : Expr⦄, read ('(' :: text) = .ok (expr, rest) → expr.isHead = true

section

variable {read : Text → Except Stop (Expr × Text)}

theorem function_isHead (heads : ReadsHeads read) {text rest : Text} {expr : Expr}
    (found : function read text = .ok (expr, rest)) : expr.isHead = true := by
  simp only [function] at found
  split at found
  · exact heads found
  · split at found
    next readName =>
      cases found
      simp only [functionName?] at readName
      split at readName
      · cases readName
        rfl
      · simp only [Option.map_eq_some_iff] at readName
        obtain ⟨⟨name, behind⟩, -, same⟩ := readName
        cases same
        rfl
    · cases found

theorem parenthesized_isHead {budget : Nat} {text rest : Text} {expr : Expr}
    (found : parenthesized read budget text = .ok (expr, rest)) : expr.isHead = true := by
  simp only [parenthesized] at found
  split at found
  · obtain ⟨⟨_, _⟩, -, found⟩ := exists_of_bind_eq_ok found
    obtain ⟨⟨_, _⟩, -, found⟩ := exists_of_bind_eq_ok found
    dsimp only at found
    split at found
    · cases found
      rfl
    · obtain ⟨⟨_, _⟩, -, found⟩ := exists_of_bind_eq_ok found
      obtain ⟨_, -, found⟩ := exists_of_bind_eq_ok found
      cases found
      rfl
  · split at found
    · simp only [binding] at found
      split at found
      · cases found
      · obtain ⟨⟨_, _⟩, -, found⟩ := exists_of_bind_eq_ok found
        obtain ⟨_, -, found⟩ := exists_of_bind_eq_ok found
        cases found
        rfl
    · split at found
      · simp only [lambda] at found
        split at found
        · obtain ⟨⟨_, _⟩, -, found⟩ := exists_of_bind_eq_ok found
          obtain ⟨⟨_, _⟩, -, found⟩ := exists_of_bind_eq_ok found
          obtain ⟨_, -, found⟩ := exists_of_bind_eq_ok found
          cases found
          rfl
        · cases found
      · split at found
        · obtain ⟨⟨_, _⟩, -, found⟩ := exists_of_bind_eq_ok found
          cases found
          rfl
        · obtain ⟨⟨_, _⟩, -, found⟩ := exists_of_bind_eq_ok found
          obtain ⟨⟨_, _⟩, -, found⟩ := exists_of_bind_eq_ok found
          cases found
          rfl

theorem parenthesized_sound (sound : Sound read) (heads : ReadsHeads read) (budget : Nat) :
    Sound (parenthesized read budget) := by
  intro text rest expr found
  simp only [parenthesized] at found
  split at found
  · exact conditional_sound sound found
  · split at found
    · exact binding_sound sound found
    · split at found
      · exact lambda_sound sound budget found
      · split at found
        · obtain ⟨⟨clauses, behind⟩, readClauses, found⟩ := exists_of_bind_eq_ok found
          cases found
          exact sequence_sound sound readClauses
        · obtain ⟨⟨head, behind⟩, readHead, found⟩ := exists_of_bind_eq_ok found
          obtain ⟨⟨arguments, behind⟩, readArguments, found⟩ := exists_of_bind_eq_ok found
          cases found
          exact ⟨function_isHead heads readHead, function_sound sound readHead,
            sequence_sound sound readArguments⟩

theorem compound_sound (sound : Sound read) (heads : ReadsHeads read) (budget : Nat) :
    Sound (compound read budget) := by
  intro text rest expr found
  unfold compound at found
  split at found
  · exact parenthesized_sound sound heads budget found
  · obtain ⟨⟨elements, behind⟩, readElements, found⟩ := exists_of_bind_eq_ok found
    cases found
    exact sequence_sound sound readElements
  · obtain ⟨⟨elements, behind⟩, readElements, found⟩ := exists_of_bind_eq_ok found
    cases found
    exact sequence_sound sound readElements
  · cases found

theorem expression_sound (sound : Sound read) (heads : ReadsHeads read) (budget : Nat) :
    Sound (expression read budget) := by
  intro text rest expr found
  obtain ⟨atom, readAtom, found⟩ := exists_of_bind_eq_ok found
  cases atom with
  | some atom =>
      cases found
      exact wellFormed_of_atom? readAtom
  | none => exact compound_sound sound heads budget found

end

theorem atom?_opening {char : Char} (opening : char ∈ ['(', '[', '\'']) (text : Text) :
    atom? (char :: text) = .ok none := by
  simp only [List.mem_cons, List.not_mem_nil, or_false] at opening
  rcases opening with rfl | rfl | rfl <;> rfl

theorem expression_readsHeads (read : Text → Except Stop (Expr × Text)) (budget : Nat) :
    ReadsHeads (expression read budget) := by
  intro text rest expr found
  have stays : skipGap ('(' :: text) = '(' :: text :=
    skipGap_cons_of_not_startsGap text (by decide)
  simp only [expression, stays, atom?_opening (by decide : '(' ∈ ['(', '[', '\''])] at found
  exact parenthesized_isHead found

/-- Every expression that is read is well-formed, whatever the budget. -/
theorem readWithin_sound (budget : Nat) : Sound (readWithin budget) := by
  induction budget with
  | zero =>
      intro text rest expr found
      cases found
  | succ budget ih =>
      refine expression_sound ih ?_ budget
      cases budget with
      | zero =>
          intro text rest expr found
          cases found
      | succ budget => exact expression_readsHeads _ budget

theorem readFirst_eq_ok_iff {text rest : Text} {expr : Expr} :
    readFirst text = .ok (expr, rest) ↔ readForm text = .ok (expr, rest) := by
  rw [readFirst]
  cases readForm text with
  | error stop => constructor <;> intro read <;> cases read
  | ok found =>
      constructor <;> intro read
      · exact congrArg _ (Except.ok.inj read)
      · rw [Except.ok.inj read]
        rfl

theorem wellFormed_of_readFirst {source rest : Text} {expr : Expr}
    (found : readFirst source = .ok (expr, rest)) : expr.WellFormed :=
  readWithin_sound _ (readFirst_eq_ok_iff.mp found)

end Reader

end LazyLisp
