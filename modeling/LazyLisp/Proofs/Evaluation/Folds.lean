import LazyLisp.Proofs.Evaluation.Depth

/-!
# Arithmetic from the left

An arithmetic operator with three or more arguments does what it does with the last argument and
the form of the others in front of it, whichever of them define names, fail or are no numbers.
-/

set_option autoImplicit false

namespace LazyLisp.Evaluation

section

variable {σ : Type} (evaluate : Expr → Action σ Expr) (combine : Number → Number → Number)

theorem combineAll_append (result : Number) (arguments others : List Expr) :
    combineAll evaluate combine result (arguments ++ others) =
      combineAll evaluate combine result arguments >>= fun middle =>
        combineAll evaluate combine middle others := by
  induction arguments generalizing result with
  | nil => rfl
  | cons argument arguments ih => simp only [List.cons_append, combineAll, ih, bind_assoc]

/-- Combines what must be a number with one more argument. -/
def combineLast (last value : Expr) : Action σ Expr :=
  expectNumber value >>= fun first =>
    evaluateNumber evaluate last >>= fun second => pure (.number (combine first second))

theorem arithmetic_pair (neutral : Number) (argument last : Expr) :
    arithmetic evaluate combine neutral [argument, last] =
      evaluate argument >>= combineLast evaluate combine last := by
  simp only [arithmetic, combineAll, evaluateNumber, bind_assoc, pure_bind]
  congr 1
  funext value
  simp only [combineLast, evaluateNumber, bind_assoc]

/-- Two arguments in front are needed: a single one is combined with the neutral number. -/
theorem arithmetic_append (neutral : Number) {arguments : List Expr}
    (several : 2 ≤ arguments.length) (last : Expr) :
    arithmetic evaluate combine neutral (arguments ++ [last]) =
      arithmetic evaluate combine neutral arguments >>= combineLast evaluate combine last := by
  match arguments with
  | argument :: second :: arguments =>
      have appended := fun result =>
        combineAll_append evaluate combine result (second :: arguments) [last]
      simp only [List.cons_append] at appended
      simp only [List.cons_append, arithmetic, appended, bind_assoc, pure_bind]
      congr 1
      funext first
      congr 1
      funext result
      simp only [combineAll, bind_assoc, pure_bind]
      rfl

end

section

variable {watched : Expr → Bool} {environment : Environment}
  {result : EStateM.Result Failure Environment Expr}

theorem steady_evaluateNumber (argument : Expr) :
    Steady fun bound => evaluateNumber (watchedWithin watched bound) argument :=
  (steady_watchedWithin argument).bind fun value => steady_const (expectNumber value)

theorem steady_combineLast (combine : Number → Number → Number) (last value : Expr) :
    Steady fun bound => combineLast (watchedWithin watched bound) combine last value := by
  apply (steady_const _).bind
  intro first
  apply (steady_evaluateNumber last).bind
  intro second
  exact steady_const _

theorem endsWith_nested_iff {op : Operator} {combine : Number → Number → Number}
    {neutral : Number} (applies : ∀ evaluate : Expr → Action Environment Expr,
      applyOperator evaluate op = arithmetic evaluate combine neutral)
    {arguments : List Expr} (several : 2 ≤ arguments.length) (last : Expr) :
    let inner : Expr := .application (.operator op) arguments
    EndsWith (formWithin watched (.application (.operator op) [inner, last])) environment result ↔
      EndsWith (formWithin watched (.application (.operator op) (arguments ++ [last])))
        (noting watched inner environment) result := by
  intro inner
  have nested : formWithin watched (.application (.operator op) [inner, last]) = fun bound =>
      watchedWithin watched bound inner >>=
        combineLast (watchedWithin watched bound) combine last := by
    funext bound
    exact (congrFun (applies _) _).trans (arithmetic_pair _ combine neutral inner last)
  have whole : formWithin watched (.application (.operator op) (arguments ++ [last])) =
      fun bound => formWithin watched inner bound >>=
        combineLast (watchedWithin watched bound) combine last := by
    funext bound
    have applied : formWithin watched inner bound =
        arithmetic (watchedWithin watched bound) combine neutral arguments :=
      congrFun (applies _) arguments
    rw [applied]
    exact (congrFun (applies _) _).trans (arithmetic_append _ combine neutral several last)
  rw [nested, whole]
  exact endsWith_bind_form (steady_combineLast combine last)

end

/-- With three or more arguments an arithmetic form ends as the form of the last one and the form of
the others does: with the same number or failure in the same environment. With the inner form noted
first, where it is watched, the same watched expressions are evaluated in the same order. -/
theorem arithmetic_unfolds {op : Operator} (combines : op ∈ [.plus, .minus, .times, .divide])
    {arguments : List Expr} (several : 2 ≤ arguments.length) (last : Expr)
    (environment : Environment) (result : EStateM.Result Failure Environment Expr) :
    let inner : Expr := .application (.operator op) arguments
    let nested : Expr := .application (.operator op) [inner, last]
    let whole : Expr := .application (.operator op) (arguments ++ [last])
    (EndsWith (evaluateWithin · nested) environment result ↔
        EndsWith (evaluateWithin · whole) environment result) ∧
      ∀ watched : Expr → Bool,
        EndsWith (formWithin watched nested) environment result ↔
          EndsWith (formWithin watched whole) (noting watched inner environment) result := by
  intro inner nested whole
  have same : ∀ watched : Expr → Bool,
      EndsWith (formWithin watched nested) environment result ↔
        EndsWith (formWithin watched whole) (noting watched inner environment) result := by
    intro watched
    simp only [List.mem_cons, List.not_mem_nil, or_false] at combines
    rcases combines with rfl | rfl | rfl | rfl <;>
      exact endsWith_nested_iff (fun _ => rfl) several last
  constructor
  · rw [← evaluates_nothing_iff, ← evaluates_nothing_iff, evaluates_iff_of_unwatched rfl,
      evaluates_iff_of_unwatched rfl]
    exact same fun _ => false
  · exact same

/-- The first argument defines the name that is the second one, and the last one is no number. -/
theorem arithmetic_unfolds_definition :
    let one := Expr.number (.ofNat 1)
    let define := Expr.binding "x" one
    let name := Expr.identifier "x"
    let yes := Expr.boolean true
    let inner := Expr.application (.operator .plus) [define, name]
    let nested := Expr.application (.operator .plus) [inner, yes]
    let after : Environment := {
      table := [("x", .expr one)]
      events := #[.evaluating inner, .evaluating define, .evaluating one, .evaluating name,
        .evaluating yes] }
    EndsWith (formWithin (fun _ => true) nested) { }
      (.error (.typeMismatch .number .boolean) after) := by
  intro one define name yes inner nested after
  let whole := Expr.application (.operator .plus) [define, name, yes]
  have combines : Operator.plus ∈ [.plus, .minus, .times, .divide] := List.mem_cons_self
  have several : 2 ≤ [define, name].length := Nat.le_refl 2
  have ended : EndsWith (formWithin (fun _ => true) whole) (noting (fun _ => true) inner { })
      (.error (.typeMismatch .number .boolean) after) := ⟨nofun, 3, rfl⟩
  exact ((arithmetic_unfolds combines several yes { } _).2 fun _ => true).mpr ended

end LazyLisp.Evaluation
