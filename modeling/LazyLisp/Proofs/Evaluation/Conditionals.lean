import LazyLisp.Proofs.Evaluation.Depth

/-!
# Conditionals

A `cond` does what `if`s inside each other do: the forms end with the same value or failure in the
same environment, and what is evaluated on the way is the same in the same order. Only the
conditional forms themselves differ, so these are not watched. The inner `if`s are evaluated deeper
than the clauses of a `cond`.
-/

set_option autoImplicit false

namespace LazyLisp

theorem Expr.isTrue_iff {expr : Expr} : expr.isTrue = true ↔ expr = .boolean true := by
  cases expr <;> simp [isTrue]

/-- The `if`s inside each other that a `cond` with these clauses unfolds into. -/
def nestedIfs : List Expr → Expr
  | [] => .nil
  | [default] => default
  | [condition, result] => .ifThen condition result
  | condition :: result :: next :: rest => .ifThenElse condition result (nestedIfs (next :: rest))

/-- A `cond` with these clauses and the forms that it unfolds into. -/
def conditionalForms : List Expr → List Expr
  | [] => [.cond [], .nil]
  | [default] => [.cond [default]]
  | [condition, result] =>
    [.cond [condition, result], .ifThenElse condition result (.cond []), .cond [],
      .ifThen condition result]
  | condition :: result :: next :: rest =>
    .cond (condition :: result :: next :: rest) ::
      .ifThenElse condition result (.cond (next :: rest)) ::
      .ifThenElse condition result (nestedIfs (next :: rest)) :: conditionalForms (next :: rest)

theorem cond_mem_conditionalForms (parts : List Expr) : .cond parts ∈ conditionalForms parts := by
  match parts with
  | [] | [_] | [_, _] | _ :: _ :: _ :: _ => exact List.mem_cons_self

theorem step_mem_conditionalForms (condition result : Expr) (rest : List Expr) :
    .ifThenElse condition result (.cond rest) ∈ conditionalForms (condition :: result :: rest) ∧
      .cond rest ∈ conditionalForms (condition :: result :: rest) := by
  cases rest with
  | nil => simp [conditionalForms]
  | cons next rest => simp [conditionalForms, cond_mem_conditionalForms]

namespace Evaluation

variable {watched : Expr → Bool} {environment : Environment}
  {result : EStateM.Result Failure Environment Expr}

/-! ## Branches -/

/-- The evaluation of a conditional to each depth, with what is done if the condition does not
hold. -/
def branch (watched : Expr → Bool) (condition consequent : Expr)
    (otherwise : Nat → Action Environment Expr) (bound : Nat) : Action Environment Expr := do
  if (← watchedWithin watched bound condition).isTrue then watchedWithin watched bound consequent
  else otherwise bound

theorem steady_choice (consequent : Expr) {otherwise : Nat → Action Environment Expr}
    (steady : Steady otherwise) (value : Expr) :
    Steady fun bound => if value.isTrue then watchedWithin watched bound consequent
      else otherwise bound := by
  cases value.isTrue with
  | true => exact steady_watchedWithin consequent
  | false => exact steady

theorem endsWith_branch_congr {condition consequent : Expr}
    {otherwise otherwise' : Nat → Action Environment Expr} (steady : Steady otherwise)
    (steady' : Steady otherwise')
    (alike : ∀ middle result,
      EndsWith otherwise middle result ↔ EndsWith otherwise' middle result) :
    EndsWith (branch watched condition consequent otherwise) environment result ↔
      EndsWith (branch watched condition consequent otherwise') environment result := by
  apply endsWith_bind_congr (steady_watchedWithin condition) (steady_choice consequent steady)
    (steady_choice consequent steady')
  intro value middle result
  cases value.isTrue with
  | true => exact Iff.rfl
  | false => exact alike middle result

theorem endsWith_branch_of_ok {condition consequent value : Expr} {after : Environment}
    {otherwise : Nat → Action Environment Expr} (steady : Steady otherwise)
    (evaluates : Evaluates watched environment condition (.ok value after)) :
    EndsWith (branch watched condition consequent otherwise) environment result ↔
      if value.isTrue then Evaluates watched after consequent result
      else EndsWith otherwise after result := by
  apply (endsWith_bind_of_ok (steady_watchedWithin condition) (steady_choice consequent steady)
    evaluates).trans
  cases value.isTrue <;> exact Iff.rfl

/-! ## Clauses -/

theorem evaluates_cond_nil (isUnwatched : watched (.cond []) = false) :
    Evaluates watched environment (.cond []) result ↔ result = .ok .nil environment :=
  (evaluates_iff_of_unwatched isUnwatched).trans
    (@endsWith_const _ environment (pure Expr.nil) result trivial)

theorem evaluates_cond_default {default : Expr} (isUnwatched : watched (.cond [default]) = false) :
    Evaluates watched environment (.cond [default]) result ↔
      Evaluates watched environment default result :=
  evaluates_iff_of_unwatched isUnwatched

theorem evaluates_cond_cons {condition consequent : Expr} {rest : List Expr}
    (isUnwatched : watched (.cond (condition :: consequent :: rest)) = false) :
    Evaluates watched environment (.cond (condition :: consequent :: rest)) result ↔
      EndsWith (branch watched condition consequent (formWithin watched (.cond rest)))
        environment result :=
  evaluates_iff_of_unwatched isUnwatched

theorem evaluates_ifThen {condition consequent : Expr}
    (isUnwatched : watched (.ifThen condition consequent) = false) :
    Evaluates watched environment (.ifThen condition consequent) result ↔
      EndsWith (branch watched condition consequent (formWithin watched (.cond [])))
        environment result :=
  evaluates_iff_of_unwatched isUnwatched

theorem evaluates_ifThenElse {condition consequent alternative : Expr}
    (isUnwatched : watched (.ifThenElse condition consequent alternative) = false) :
    Evaluates watched environment (.ifThenElse condition consequent alternative) result ↔
      EndsWith (branch watched condition consequent (watchedWithin watched · alternative))
        environment result :=
  evaluates_iff_of_unwatched isUnwatched

/-- The rest of the clauses may be evaluated in the place of the alternative, or whatever does the
same there. -/
theorem evaluates_cond_iff_ifThenElse {condition consequent alternative : Expr} {rest : List Expr}
    (isUnwatched : watched (.cond (condition :: consequent :: rest)) = false)
    (isUnwatched' : watched (.ifThenElse condition consequent alternative) = false)
    (restUnwatched : watched (.cond rest) = false)
    (alike : ∀ middle result, Evaluates watched middle (.cond rest) result ↔
      Evaluates watched middle alternative result) :
    Evaluates watched environment (.cond (condition :: consequent :: rest)) result ↔
      Evaluates watched environment (.ifThenElse condition consequent alternative) result := by
  rw [evaluates_cond_cons isUnwatched, evaluates_ifThenElse isUnwatched']
  apply endsWith_branch_congr (steady_formWithin _) (steady_watchedWithin _)
  intro middle result
  rw [← evaluates_iff_of_unwatched restUnwatched]
  exact alike middle result

theorem evaluates_cond_iff_nestedIfs {parts : List Expr}
    (unwatched : ∀ form ∈ conditionalForms parts, watched form = false) :
    Evaluates watched environment (.cond parts) result ↔
      Evaluates watched environment (nestedIfs parts) result := by
  induction parts using nestedIfs.induct generalizing environment result with
  | case1 =>
      simp only [conditionalForms, List.forall_mem_cons] at unwatched
      exact (evaluates_iff_of_unwatched unwatched.1).trans
        (evaluates_iff_of_unwatched unwatched.2.1).symm
  | case2 default => exact evaluates_cond_default (unwatched _ List.mem_cons_self)
  | case3 condition consequent =>
      simp only [conditionalForms, List.forall_mem_cons] at unwatched
      rw [nestedIfs, evaluates_cond_cons unwatched.1, evaluates_ifThen unwatched.2.2.2.1]
  | case4 condition consequent next rest ih =>
      simp only [conditionalForms, List.forall_mem_cons] at unwatched
      obtain ⟨whole, -, unfolded, others⟩ := unwatched
      exact evaluates_cond_iff_ifThenElse whole unfolded
        (others _ (cond_mem_conditionalForms _)) fun _ _ => ih others

/-- A `cond` ends as the `if`s inside each other that it unfolds into, clause by clause or all at
once: in every environment with the same value or failure, the same environment afterwards and the
same watched expressions evaluated in the same order. A condition that is anything but the boolean
`true` does not hold. -/
theorem cond_unfolds {parts : List Expr}
    (unwatched : ∀ form ∈ conditionalForms parts, watched form = false)
    (environment : Environment) (result : EStateM.Result Failure Environment Expr) :
    (Evaluates watched environment (.cond parts) result ↔
      Evaluates watched environment (nestedIfs parts) result) ∧
      match parts with
      | [] => Evaluates watched environment (.cond []) result ↔ result = .ok .nil environment
      | [default] =>
        Evaluates watched environment (.cond [default]) result ↔
          Evaluates watched environment default result
      | condition :: consequent :: rest =>
        (Evaluates watched environment (.cond (condition :: consequent :: rest)) result ↔
          Evaluates watched environment (.ifThenElse condition consequent (.cond rest)) result) ∧
        (∀ after, Evaluates watched environment condition (.ok (.boolean true) after) →
          (Evaluates watched environment (.cond (condition :: consequent :: rest)) result ↔
            Evaluates watched after consequent result)) ∧
        ∀ value after, value ≠ .boolean true →
          Evaluates watched environment condition (.ok value after) →
          (Evaluates watched environment (.cond (condition :: consequent :: rest)) result ↔
            Evaluates watched after (.cond rest) result) := by
  refine ⟨evaluates_cond_iff_nestedIfs unwatched, ?_⟩
  match parts with
  | [] => exact evaluates_cond_nil (unwatched _ (cond_mem_conditionalForms _))
  | [default] => exact evaluates_cond_default (unwatched _ (cond_mem_conditionalForms _))
  | condition :: consequent :: rest =>
      have whole := unwatched _ (cond_mem_conditionalForms _)
      obtain ⟨step, restForm⟩ := step_mem_conditionalForms condition consequent rest
      refine ⟨evaluates_cond_iff_ifThenElse whole (unwatched _ step) (unwatched _ restForm)
        fun _ _ => Iff.rfl, ?_, ?_⟩
      · intro after evaluates
        rw [evaluates_cond_cons whole, endsWith_branch_of_ok (steady_formWithin _) evaluates]
        exact Iff.rfl
      · intro value after notTrue evaluates
        have isFalse : value.isTrue = false := by
          rw [Bool.eq_false_iff, Ne, Expr.isTrue_iff]
          exact notTrue
        rw [evaluates_cond_cons whole, endsWith_branch_of_ok (steady_formWithin _) evaluates,
          isFalse, evaluates_iff_of_unwatched (unwatched _ restForm)]
        exact Iff.rfl

/-- The first condition defines a name and is no boolean, the second one holds, and the last clause
is not evaluated. Everything but the conditional forms is watched. -/
theorem cond_unfolds_definition :
    let five := Expr.number (.ofNat 5)
    let define := Expr.binding "x" five
    let first := Expr.symbol "first"
    let yes := Expr.boolean true
    let name := Expr.identifier "x"
    let watched : Expr → Bool
      | .cond _ | .ifThen _ _ | .ifThenElse _ _ _ => false
      | _ => true
    let ifs := Expr.ifThenElse define first (.ifThenElse yes name (.identifier "never"))
    let after : Environment := {
      table := [("x", .expr five)]
      events := #[.evaluating define, .evaluating five, .evaluating yes, .evaluating name] }
    Evaluates watched { } ifs (.ok five after) := by
  intro five define first yes name watched ifs after
  let parts := [define, first, yes, name, .identifier "never"]
  have evaluated : Evaluates watched { } (.cond parts) (.ok five after) := ⟨trivial, 3, rfl⟩
  have unwatched : ∀ form ∈ conditionalForms parts, watched form = false := by
    simp [parts, conditionalForms, nestedIfs, watched]
  exact (cond_unfolds unwatched { } _).1.mp evaluated

end Evaluation

end LazyLisp
