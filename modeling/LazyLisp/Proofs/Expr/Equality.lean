import LazyLisp.Proofs.Expr.Unmarked

/-!
# Equality as an equivalence

Two values are equal if they are the same up to the signs of the zeros in them, unless they are
`nan`. So equality is symmetric and transitive, and every value but `nan` is equal to itself, also a
list or a lambda with `nan`s in it. Whether parts are first compared as nodes makes no difference.
-/

set_option autoImplicit false

namespace LazyLisp

/-! ## Zeros without a sign -/

namespace Number

/-- The number with zero taken as positive. -/
def unsignedZero : Number → Number
  | .finite negative rank => .finite (negative && rank.val != 0) rank
  | number => number

theorem unsignedZero_eq_nan_iff {number : Number} {origin : NanOrigin} :
    number.unsignedZero = .nan origin ↔ number = .nan origin := by
  cases number <;> simp [unsignedZero]

theorem equals_iff {left right : Number} :
    left.equals right = true ↔
      left.unsignedZero = right.unsignedZero ∧ ∀ origin, left ≠ .nan origin := by
  cases left with
  | nan origin => simp [equals]
  | infinite negative => cases right <;> simp [equals, unsignedZero]
  | finite negative rank =>
      cases right with
      | nan | infinite => simp [equals, unsignedZero]
      | finite negative' rank' =>
          by_cases same : rank = rank'
          · subst same
            by_cases isZero : rank.val = 0
            · simp [equals, unsignedZero, isZero]
            · simp [equals, unsignedZero, isZero, bne_iff_ne.mpr isZero]
          · simp [equals, unsignedZero, same]

/-- A `nan` that is a part is equal to the very same `nan`. -/
theorem equals_or_beq_iff {left right : Number} :
    (left.equals right || left == right) = true ↔ left.unsignedZero = right.unsignedZero := by
  rw [Bool.or_eq_true, beq_iff_eq, equals_iff]
  constructor
  · intro equal
    rcases equal with ⟨same, -⟩ | rfl
    · exact same
    · rfl
  · intro same
    by_cases isNan : ∃ origin, left = .nan origin
    · obtain ⟨origin, rfl⟩ := isNan
      exact .inr (unsignedZero_eq_nan_iff.mp same.symm).symm
    · exact .inl ⟨same, not_exists.mp isNan⟩

end Number

namespace Expr

mutual

/-- The expression with every zero in it taken as positive. -/
def unsignedZeros : Expr → Expr
  | .number value => .number value.unsignedZero
  | .application head arguments => .application head.unsignedZeros (unsignedZerosAll arguments)
  | .ifThen condition consequent => .ifThen condition.unsignedZeros consequent.unsignedZeros
  | .ifThenElse condition consequent alternative =>
    .ifThenElse condition.unsignedZeros consequent.unsignedZeros alternative.unsignedZeros
  | .binding name value => .binding name value.unsignedZeros
  | .lambda formals body => .lambda formals body.unsignedZeros
  | .cond clauses => .cond (unsignedZerosAll clauses)
  | .list elements => .list (unsignedZerosAll elements)
  | atom => atom

def unsignedZerosAll : List Expr → List Expr
  | [] => []
  | expr :: exprs => expr.unsignedZeros :: unsignedZerosAll exprs

end

mutual

theorem equalsPart_iff : (left right : Expr) →
    (left.equalsPart right = true ↔ left.unsignedZeros = right.unsignedZeros)
  | .number left, right => by
      cases right <;> simp [equalsPart, unsignedZeros, ← Number.equals_or_beq_iff]
  | .application head arguments, right => by
      cases right <;>
        simp [equalsPart, unsignedZeros, equalsPart_iff head, equalsParts_iff arguments]
  | .ifThen condition consequent, right => by
      cases right <;> simp [equalsPart, unsignedZeros, equalsPart_iff condition,
        equalsPart_iff consequent]
  | .ifThenElse condition consequent alternative, right => by
      cases right <;> simp [equalsPart, unsignedZeros, equalsPart_iff condition,
        equalsPart_iff consequent, equalsPart_iff alternative, and_assoc]
  | .binding name value, right => by
      cases right <;> simp [equalsPart, unsignedZeros, equalsPart_iff value]
  | .lambda formals body, right => by
      cases right <;> simp [equalsPart, unsignedZeros, equalsPart_iff body]
  | .cond clauses, right => by
      cases right <;> simp [equalsPart, unsignedZeros, equalsParts_iff clauses]
  | .list elements, right => by
      cases right <;> simp [equalsPart, unsignedZeros, equalsParts_iff elements]
  | .boolean _, right | .string _, right | .symbol _, right | .identifier _, right
  | .operator _, right | .nil, right => by
      cases right <;> simp [equalsPart, unsignedZeros]

theorem equalsParts_iff : (lefts rights : List Expr) →
    (equalsParts lefts rights = true ↔ unsignedZerosAll lefts = unsignedZerosAll rights)
  | [], rights => by cases rights <;> simp [equalsParts, unsignedZerosAll]
  | left :: lefts, rights => by
      cases rights <;>
        simp [equalsParts, unsignedZerosAll, equalsPart_iff left, equalsParts_iff lefts]

end

/-! ## Equality of values -/

theorem unsignedZeros_eq_nan_iff {expr : Expr} {origin : NanOrigin} :
    expr.unsignedZeros = .number (.nan origin) ↔ expr = .number (.nan origin) := by
  cases expr with
  | number value => simp [unsignedZeros, Number.unsignedZero_eq_nan_iff]
  | _ => simp [unsignedZeros]

/-- Values are equal if they are the same but for the signs of zeros, and not `nan`. -/
theorem equals_iff {left right : Expr} :
    left.equals right = true ↔
      left.unsignedZeros = right.unsignedZeros ∧ ∀ origin, left ≠ .number (.nan origin) := by
  cases left with
  | number value => cases right <;> simp [equals, equalsPart, unsignedZeros, Number.equals_iff]
  | _ => simp [equals, equalsPart_iff, unsignedZeros]

theorem equals_self_iff {expr : Expr} :
    expr.equals expr = true ↔ ∀ origin, expr ≠ .number (.nan origin) := by
  rw [equals_iff]
  exact and_iff_right rfl

theorem equals_symm {left right : Expr} (equal : left.equals right = true) :
    right.equals left = true := by
  obtain ⟨same, notNan⟩ := equals_iff.mp equal
  refine equals_iff.mpr ⟨same.symm, ?_⟩
  intro origin isNan
  rw [← unsignedZeros_eq_nan_iff, ← same, unsignedZeros_eq_nan_iff] at isNan
  exact notNan origin isNan

theorem equals_trans {left middle right : Expr} (equal : left.equals middle = true)
    (equal' : middle.equals right = true) : left.equals right = true := by
  obtain ⟨same, notNan⟩ := equals_iff.mp equal
  exact equals_iff.mpr ⟨same.trans (equals_iff.mp equal').1, notNan⟩

/-! ## The same node -/

/-- The test tells of two parts that they are one node: only parts that are the same are, and a
`nan` that was written once is. -/
structure TellsNodes (oneNode : Expr → Expr → Bool) : Prop where
  eq {left right : Expr} : oneNode left right = true → left = right
  nan (origin : NanOrigin) : oneNode (.number (.nan origin)) (.number (.nan origin)) = true

mutual

/-- Equality of parts where one node is equal to itself without a look at its parts. -/
def equalsAsNode (oneNode : Expr → Expr → Bool) (left right : Expr) : Bool :=
  oneNode left right ||
    match left, right with
    | .number value, .number value' => value.equals value'
    | .boolean value, .boolean value' => value == value'
    | .string payload, .string payload' => payload == payload'
    | .symbol name, .symbol name' => name == name'
    | .identifier name, .identifier name' => name == name'
    | .operator op, .operator op' => op == op'
    | .nil, .nil => true
    | .application head arguments, .application head' arguments' =>
      equalsAsNode oneNode head head' && equalsAsNodes oneNode arguments arguments'
    | .ifThen condition consequent, .ifThen condition' consequent' =>
      equalsAsNode oneNode condition condition' && equalsAsNode oneNode consequent consequent'
    | .ifThenElse condition consequent alternative,
        .ifThenElse condition' consequent' alternative' =>
      equalsAsNode oneNode condition condition' && equalsAsNode oneNode consequent consequent' &&
        equalsAsNode oneNode alternative alternative'
    | .binding name value, .binding name' value' =>
      name == name' && equalsAsNode oneNode value value'
    | .lambda formals body, .lambda formals' body' =>
      formals == formals' && equalsAsNode oneNode body body'
    | .cond clauses, .cond clauses' => equalsAsNodes oneNode clauses clauses'
    | .list elements, .list elements' => equalsAsNodes oneNode elements elements'
    | _, _ => false

def equalsAsNodes (oneNode : Expr → Expr → Bool) : List Expr → List Expr → Bool
  | [], [] => true
  | left :: lefts, right :: rights =>
    equalsAsNode oneNode left right && equalsAsNodes oneNode lefts rights
  | _, _ => false

end

section

variable {oneNode : Expr → Expr → Bool}

theorem TellsNodes.or_iff (tells : TellsNodes oneNode) {left right : Expr}
    {equal : Prop} (parts : equal ↔ left.unsignedZeros = right.unsignedZeros) :
    oneNode left right = true ∨ equal ↔ left.unsignedZeros = right.unsignedZeros := by
  rw [parts]
  refine or_iff_right_of_imp ?_
  intro same
  rw [tells.eq same]

theorem TellsNodes.number_iff (tells : TellsNodes oneNode) {left right : Number} :
    oneNode (.number left) (.number right) = true ∨ left.equals right = true ↔
      left.unsignedZero = right.unsignedZero := by
  rw [← Number.equals_or_beq_iff, Bool.or_eq_true, beq_iff_eq, or_comm]
  constructor
  · intro equal
    refine equal.imp_right ?_
    intro same
    exact Expr.number.inj (tells.eq same)
  · intro equal
    rcases equal with equal | rfl
    · exact .inl equal
    · cases left with
      | nan origin => exact .inr (tells.nan origin)
      | _ => exact .inl (Number.equals_self_iff.mpr nofun)

mutual

theorem equalsAsNode_iff (tells : TellsNodes oneNode) : (left right : Expr) →
    (equalsAsNode oneNode left right = true ↔ left.unsignedZeros = right.unsignedZeros)
  | .number left, right => by
      rw [equalsAsNode.eq_def, Bool.or_eq_true]
      cases right with
      | number right => simpa [unsignedZeros] using tells.number_iff
      | _ => exact tells.or_iff (by simp [unsignedZeros])
  | .application head arguments, right => by
      rw [equalsAsNode.eq_def, Bool.or_eq_true]
      refine tells.or_iff ?_
      cases right <;>
        simp [unsignedZeros, equalsAsNode_iff tells head, equalsAsNodes_iff tells arguments]
  | .ifThen condition consequent, right => by
      rw [equalsAsNode.eq_def, Bool.or_eq_true]
      refine tells.or_iff ?_
      cases right <;>
        simp [unsignedZeros, equalsAsNode_iff tells condition, equalsAsNode_iff tells consequent]
  | .ifThenElse condition consequent alternative, right => by
      rw [equalsAsNode.eq_def, Bool.or_eq_true]
      refine tells.or_iff ?_
      cases right <;>
        simp [unsignedZeros, equalsAsNode_iff tells condition, equalsAsNode_iff tells consequent,
          equalsAsNode_iff tells alternative, and_assoc]
  | .binding name value, right => by
      rw [equalsAsNode.eq_def, Bool.or_eq_true]
      refine tells.or_iff ?_
      cases right <;> simp [unsignedZeros, equalsAsNode_iff tells value]
  | .lambda formals body, right => by
      rw [equalsAsNode.eq_def, Bool.or_eq_true]
      refine tells.or_iff ?_
      cases right <;> simp [unsignedZeros, equalsAsNode_iff tells body]
  | .cond clauses, right => by
      rw [equalsAsNode.eq_def, Bool.or_eq_true]
      refine tells.or_iff ?_
      cases right <;> simp [unsignedZeros, equalsAsNodes_iff tells clauses]
  | .list elements, right => by
      rw [equalsAsNode.eq_def, Bool.or_eq_true]
      refine tells.or_iff ?_
      cases right <;> simp [unsignedZeros, equalsAsNodes_iff tells elements]
  | .boolean _, right | .string _, right | .symbol _, right | .identifier _, right
  | .operator _, right | .nil, right => by
      rw [equalsAsNode.eq_def, Bool.or_eq_true]
      refine tells.or_iff ?_
      cases right <;> simp [unsignedZeros]

theorem equalsAsNodes_iff (tells : TellsNodes oneNode) : (lefts rights : List Expr) →
    (equalsAsNodes oneNode lefts rights = true ↔
      unsignedZerosAll lefts = unsignedZerosAll rights)
  | [], rights => by cases rights <;> simp [equalsAsNodes, unsignedZerosAll]
  | left :: lefts, rights => by
      cases rights <;>
        simp [equalsAsNodes, unsignedZerosAll, equalsAsNode_iff tells left,
          equalsAsNodes_iff tells lefts]

end

/-- Of all nodes, only the same `nan` has to be told. -/
def oneNan : Expr → Expr → Bool
  | .number (.nan origin), .number (.nan origin') => origin == origin'
  | _, _ => false

theorem tellsNodes_oneNan : TellsNodes oneNan where
  eq {left right} one := by
    unfold oneNan at one
    split at one
    · rw [eq_of_beq one]
    · cases one
  nan _ := beq_self_eq_true _

/-- To compare one node only by its parts gives the same answer. -/
theorem equalsAsNode_eq (tells : TellsNodes oneNode) (left right : Expr) :
    equalsAsNode oneNode left right = left.equalsPart right := by
  rw [Bool.eq_iff_iff, equalsAsNode_iff tells, equalsPart_iff]

end

end Expr

end LazyLisp
