import LazyLisp.Number.Arithmetic
import LazyLisp.Proofs.Expr.Unmarked

/-!
# Other marks for the written nans

The marks of the written `nan`s only tell which of them are the same one. Another mark for each,
with different ones for different ones, changes no comparison and no result of arithmetic.
-/

set_option autoImplicit false

namespace LazyLisp

/-- Another mark for each written `nan`. Different ones stay different, and a computed `nan` stays a
computed one. -/
structure Relabeling where
  apply : NanOrigin → NanOrigin
  injective : Function.Injective apply
  computed : apply .computed = .computed

/-- Every mark as it is. -/
def Relabeling.refl : Relabeling where
  apply := id
  injective := Function.injective_id
  computed := rfl

variable (relabeling : Relabeling)

/-- The relabeling takes the marks that are given out from one serial number on to those that are
given out in another way, for so many `nan`s. -/
def Relabeling.Takes (origin origin' : Nat → NanOrigin) (serial serial' count : Nat) : Prop :=
  ∀ offset < count, relabeling.apply (origin (serial + offset)) = origin' (serial' + offset)

namespace Relabeling.Takes

variable {relabeling : Relabeling} {origin origin' : Nat → NanOrigin}
  {serial serial' count more : Nat}

theorem left (takes : relabeling.Takes origin origin' serial serial' (count + more)) :
    relabeling.Takes origin origin' serial serial' count :=
  fun offset inside => takes offset (Nat.lt_add_right more inside)

theorem right (takes : relabeling.Takes origin origin' serial serial' (count + more)) :
    relabeling.Takes origin origin' (serial + count) (serial' + count) more := by
  intro offset inside
  have taken := takes (count + offset) (Nat.add_lt_add_left inside count)
  rwa [← Nat.add_assoc, ← Nat.add_assoc] at taken

end Relabeling.Takes

/-! ## Numbers -/

namespace Number

def relabeled : Number → Number
  | .nan origin => .nan (relabeling.apply origin)
  | .infinite negative => .infinite negative
  | .finite negative rank => .finite negative rank

@[simp] theorem relabeled_nan (origin : NanOrigin) :
    (nan origin).relabeled relabeling = nan (relabeling.apply origin) := rfl

@[simp] theorem relabeled_infinite (negative : Bool) :
    (infinite negative).relabeled relabeling = infinite negative := rfl

@[simp] theorem relabeled_finite (negative : Bool) (rank : Fin magnitudes) :
    (finite negative rank).relabeled relabeling = finite negative rank := rfl

@[simp] theorem relabeled_undefined : undefined.relabeled relabeling = undefined := by
  rw [undefined, relabeled_nan, relabeling.computed]

@[simp] theorem relabeled_ofRank (negative : Bool) (rank : Nat) :
    (ofRank negative rank).relabeled relabeling = ofRank negative rank := by
  unfold ofRank
  split <;> rfl

@[simp] theorem relabeled_zero (negative : Bool) :
    (zero negative).relabeled relabeling = zero negative :=
  relabeled_ofRank relabeling negative 0

@[simp] theorem relabeled_ofQuotient (negative : Bool) (numerator denominator : Nat) :
    (ofQuotient negative numerator denominator).relabeled relabeling =
      ofQuotient negative numerator denominator :=
  relabeled_ofRank relabeling negative _

theorem relabeled_refl (number : Number) : number.relabeled .refl = number := by
  cases number <;> rfl

theorem relabeled_injective : Function.Injective (relabeled relabeling) := by
  intro left right same
  cases left <;> cases right <;> simp_all [relabeling.injective.eq_iff]

theorem equals_relabeled (left right : Number) :
    (left.relabeled relabeling).equals (right.relabeled relabeling) = left.equals right := by
  cases left <;> cases right <;> rfl

/-- To the operation every `nan` is like any other, and it gives no written one. -/
def IgnoresMarks (combine : Number → Number → Number) : Prop :=
  ∀ relabeling left right, combine (relabeled relabeling left) (relabeled relabeling right) =
    (combine left right).relabeled relabeling

theorem add_ignoresMarks : IgnoresMarks add := by
  intro relabeling left right
  cases left <;> cases right <;> simp only [relabeled_nan, relabeled_infinite, relabeled_finite,
    add, relabeled_undefined]
  · split <;> simp
  · split <;> simp

theorem negate_relabeled (number : Number) :
    (number.relabeled relabeling).negate = number.negate.relabeled relabeling := by
  cases number <;> rfl

theorem subtract_ignoresMarks : IgnoresMarks subtract := by
  intro relabeling left right
  simp only [subtract, negate_relabeled, add_ignoresMarks relabeling]

theorem multiply_ignoresMarks : IgnoresMarks multiply := by
  intro relabeling left right
  cases left <;> cases right <;> simp only [relabeled_nan, relabeled_infinite, relabeled_finite,
    multiply, relabeled_undefined, relabeled_ofQuotient]
  · split <;> simp
  · split <;> simp

theorem divide_ignoresMarks : IgnoresMarks divide := by
  intro relabeling left right
  cases left <;> cases right <;> simp only [relabeled_nan, relabeled_infinite, relabeled_finite,
    divide, relabeled_undefined, relabeled_zero]
  split
  · split <;> simp
  · simp

theorem remainder_ignoresMarks : IgnoresMarks remainder := by
  intro relabeling left right
  cases left <;> cases right <;> simp only [relabeled_nan, relabeled_infinite, relabeled_finite,
    remainder, relabeled_undefined]
  split <;> simp

end Number

/-! ## Expressions -/

namespace Expr

mutual

def relabeled : Expr → Expr
  | .number value => .number (value.relabeled relabeling)
  | .application head arguments => .application (relabeled head) (relabeledAll arguments)
  | .ifThen condition consequent => .ifThen (relabeled condition) (relabeled consequent)
  | .ifThenElse condition consequent alternative =>
    .ifThenElse (relabeled condition) (relabeled consequent) (relabeled alternative)
  | .binding name value => .binding name (relabeled value)
  | .lambda formals body => .lambda formals (relabeled body)
  | .cond clauses => .cond (relabeledAll clauses)
  | .list elements => .list (relabeledAll elements)
  | .boolean value => .boolean value
  | .string payload => .string payload
  | .symbol name => .symbol name
  | .identifier name => .identifier name
  | .operator op => .operator op
  | .nil => .nil

def relabeledAll : List Expr → List Expr
  | [] => []
  | expr :: exprs => relabeled expr :: relabeledAll exprs

end

theorem relabeledAll_eq_map (exprs : List Expr) :
    relabeledAll relabeling exprs = exprs.map (relabeled relabeling) := by
  induction exprs with
  | nil => rfl
  | cons expr exprs ih => rw [relabeledAll, ih, List.map_cons]

theorem length_relabeledAll (exprs : List Expr) :
    (relabeledAll relabeling exprs).length = exprs.length := by
  rw [relabeledAll_eq_map, List.length_map]

theorem isTrue_relabeled (expr : Expr) : (expr.relabeled relabeling).isTrue = expr.isTrue := by
  cases expr <;> rfl

mutual

theorem relabeled_refl : (expr : Expr) → expr.relabeled .refl = expr
  | .number value => by rw [relabeled, Number.relabeled_refl]
  | .application head arguments => by
      rw [relabeled, relabeled_refl head, relabeledAll_refl arguments]
  | .ifThen condition consequent => by
      rw [relabeled, relabeled_refl condition, relabeled_refl consequent]
  | .ifThenElse condition consequent alternative => by
      rw [relabeled, relabeled_refl condition, relabeled_refl consequent,
        relabeled_refl alternative]
  | .binding name value => by rw [relabeled, relabeled_refl value]
  | .lambda formals body => by rw [relabeled, relabeled_refl body]
  | .cond clauses => by rw [relabeled, relabeledAll_refl clauses]
  | .list elements => by rw [relabeled, relabeledAll_refl elements]
  | .boolean _ | .string _ | .symbol _ | .identifier _ | .operator _ | .nil => rfl

theorem relabeledAll_refl : (exprs : List Expr) → relabeledAll .refl exprs = exprs
  | [] => rfl
  | expr :: exprs => by rw [relabeledAll, relabeled_refl expr, relabeledAll_refl exprs]

end

/-! ## Equality -/

mutual

theorem equalsPart_relabeled : (left right : Expr) →
    (left.relabeled relabeling).equalsPart (right.relabeled relabeling) = left.equalsPart right
  | .number left, right => by
      cases right with
      | number right =>
          have same := (Number.relabeled_injective relabeling).beq_eq (a := left) (b := right)
          simp only [relabeled, equalsPart, Number.equals_relabeled, same]
      | _ => rfl
  | .application head arguments, right => by
      cases right with
      | application head' arguments' =>
          simp only [relabeled, equalsPart, equalsPart_relabeled head,
            equalsParts_relabeled arguments]
      | _ => rfl
  | .ifThen condition consequent, right => by
      cases right with
      | ifThen condition' consequent' =>
          simp only [relabeled, equalsPart, equalsPart_relabeled condition,
            equalsPart_relabeled consequent]
      | _ => rfl
  | .ifThenElse condition consequent alternative, right => by
      cases right with
      | ifThenElse condition' consequent' alternative' =>
          simp only [relabeled, equalsPart, equalsPart_relabeled condition,
            equalsPart_relabeled consequent, equalsPart_relabeled alternative]
      | _ => rfl
  | .binding name value, right => by
      cases right with
      | binding name' value' => simp only [relabeled, equalsPart, equalsPart_relabeled value]
      | _ => rfl
  | .lambda formals body, right => by
      cases right with
      | lambda formals' body' => simp only [relabeled, equalsPart, equalsPart_relabeled body]
      | _ => rfl
  | .cond clauses, right => by
      cases right with
      | cond clauses' => simp only [relabeled, equalsPart, equalsParts_relabeled clauses]
      | _ => rfl
  | .list elements, right => by
      cases right with
      | list elements' => simp only [relabeled, equalsPart, equalsParts_relabeled elements]
      | _ => rfl
  | .boolean _, right | .string _, right | .symbol _, right | .identifier _, right
  | .operator _, right | .nil, right => by
      cases right <;> rfl

theorem equalsParts_relabeled : (lefts rights : List Expr) →
    equalsParts (relabeledAll relabeling lefts) (relabeledAll relabeling rights) =
      equalsParts lefts rights
  | [], [] | [], _ :: _ | _ :: _, [] => rfl
  | left :: lefts, right :: rights => by
      simp only [relabeledAll, equalsParts, equalsPart_relabeled left, equalsParts_relabeled lefts]

end

theorem equals_relabeled (left right : Expr) :
    (left.relabeled relabeling).equals (right.relabeled relabeling) = left.equals right := by
  have parts := equalsPart_relabeled relabeling left right
  cases left with
  | number left =>
      cases right with
      | number right => exact Number.equals_relabeled relabeling left right
      | _ => exact parts
  | _ => exact parts

/-! ## Marking -/

mutual

/-- Marking counts the `nan`s that are written in the expression. -/
theorem markNans_snd (origin : Nat → NanOrigin) : (expr : Expr) → (serial : Nat) →
    (expr.markNans origin serial).2 = serial + expr.countNans
  | .number (.nan _), serial => rfl
  | .application head arguments, serial => by
      simp only [markNans, countNans, markNans_snd origin head,
        markAllNans_snd origin arguments, Nat.add_assoc]
  | .ifThen condition consequent, serial => by
      simp only [markNans, countNans, markNans_snd origin condition,
        markNans_snd origin consequent, Nat.add_assoc]
  | .ifThenElse condition consequent alternative, serial => by
      simp only [markNans, countNans, markNans_snd origin condition,
        markNans_snd origin consequent, markNans_snd origin alternative, Nat.add_assoc]
  | .binding name value, serial => by
      simp only [markNans, countNans, markNans_snd origin value]
  | .lambda formals body, serial => by
      simp only [markNans, countNans, markNans_snd origin body]
  | .cond clauses, serial => by
      simp only [markNans, countNans, markAllNans_snd origin clauses]
  | .list elements, serial => by
      simp only [markNans, countNans, markAllNans_snd origin elements]
  | .number (.infinite _), _ | .number (.finite _ _), _ | .boolean _, _ | .string _, _
  | .symbol _, _ | .identifier _, _ | .operator _, _ | .nil, _ => rfl

theorem markAllNans_snd (origin : Nat → NanOrigin) : (exprs : List Expr) → (serial : Nat) →
    (markAllNans origin exprs serial).2 = serial + countAllNans exprs
  | [], _ => rfl
  | expr :: exprs, serial => by
      simp only [markAllNans, countAllNans, markNans_snd origin expr,
        markAllNans_snd origin exprs, Nat.add_assoc]

end

mutual

/-- Relabeling what is marked in one way is marking in the other way. -/
theorem relabeled_markNans {origin origin' : Nat → NanOrigin} : (expr : Expr) →
    {serial serial' : Nat} → relabeling.Takes origin origin' serial serial' expr.countNans →
    (expr.markNans origin serial).1.relabeled relabeling = (expr.markNans origin' serial').1
  | .number (.nan _), _, _, takes => by
      have taken := takes 0 Nat.zero_lt_one
      simp only [Nat.add_zero] at taken
      simp only [markNans, relabeled, Number.relabeled, taken]
  | .application head arguments, _, _, takes => by
      simp only [markNans, relabeled, markNans_snd, relabeled_markNans head takes.left,
        relabeledAll_markAllNans arguments takes.right]
  | .ifThen condition consequent, _, _, takes => by
      simp only [markNans, relabeled, markNans_snd, relabeled_markNans condition takes.left,
        relabeled_markNans consequent takes.right]
  | .ifThenElse condition consequent alternative, _, _, takes => by
      simp only [countNans] at takes
      simp only [markNans, relabeled, markNans_snd, relabeled_markNans condition takes.left.left,
        relabeled_markNans consequent takes.left.right, Nat.add_assoc,
        relabeled_markNans alternative takes.right]
  | .binding name value, _, _, takes => by
      simp only [markNans, relabeled, relabeled_markNans value takes]
  | .lambda formals body, _, _, takes => by
      simp only [markNans, relabeled, relabeled_markNans body takes]
  | .cond clauses, _, _, takes => by
      simp only [markNans, relabeled, relabeledAll_markAllNans clauses takes]
  | .list elements, _, _, takes => by
      simp only [markNans, relabeled, relabeledAll_markAllNans elements takes]
  | .number (.infinite _), _, _, _ | .number (.finite _ _), _, _, _ | .boolean _, _, _, _
  | .string _, _, _, _ | .symbol _, _, _, _ | .identifier _, _, _, _ | .operator _, _, _, _
  | .nil, _, _, _ => rfl

theorem relabeledAll_markAllNans {origin origin' : Nat → NanOrigin} : (exprs : List Expr) →
    {serial serial' : Nat} → relabeling.Takes origin origin' serial serial' (countAllNans exprs) →
    relabeledAll relabeling (markAllNans origin exprs serial).1 =
      (markAllNans origin' exprs serial').1
  | [], _, _, _ => rfl
  | expr :: exprs, _, _, takes => by
      simp only [markAllNans, relabeledAll, markNans_snd, relabeled_markNans expr takes.left,
        relabeledAll_markAllNans exprs takes.right]

end

end Expr

end LazyLisp
