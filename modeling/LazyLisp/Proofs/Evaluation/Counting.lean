import LazyLisp.Proofs.Evaluation.Folds
import LazyLisp.Proofs.Number.Whole

/-!
# Counting

Counting the elements that a lambda gives `true` for evaluates its calls one after another. So a
list may be counted in parts, and where calls do not depend on each other also in another order.
-/

set_option autoImplicit false

namespace LazyLisp

/-- The form that counts the elements of a list literal. -/
def Expr.counting (predicate : Expr) (elements : List Expr) : Expr :=
  .application (.operator .count) [predicate, .list elements]

def Expr.calls (predicate : Expr) (elements : List Expr) : List Expr :=
  elements.map fun element => .application predicate [element]

namespace Evaluation

section

variable {σ α : Type} (evaluate : Expr → Action σ Expr) (formals : List String) (body : Expr)

/-- The calls are evaluated one after another. -/
theorem countTrue_eq (elements : List Expr) :
    countTrue evaluate formals body elements =
      evaluateAll evaluate (Expr.calls (.lambda formals body) elements) >>= fun values =>
        pure (values.countP Expr.isTrue) := by
  induction elements with
  | nil => rfl
  | cons element elements ih =>
      simp only [countTrue, Expr.calls, List.map_cons, evaluateAll, bind_assoc, pure_bind,
        List.countP_cons] at ih ⊢
      simp only [ih, bind_assoc, pure_bind]
      congr 1
      funext value
      cases value.isTrue <;> rfl

theorem countTrue_append (elements others : List Expr) :
    countTrue evaluate formals body (elements ++ others) =
      countTrue evaluate formals body elements >>= fun first =>
        countTrue evaluate formals body others >>= fun second => pure (first + second) := by
  induction elements with
  | nil =>
      simp only [List.nil_append, countTrue, pure_bind, Nat.zero_add]
      exact (bind_pure _).symm
  | cons element elements ih =>
      simp only [List.cons_append, countTrue, ih, bind_assoc, pure_bind]
      congr 1
      funext value
      congr 1
      funext first
      congr 1
      funext second
      split
      · rw [Nat.add_right_comm]
      · rfl

/-- A count is never greater than the number of elements. -/
theorem countTrue_bind_congr {elements : List Expr} {next next' : Nat → Action σ α}
    (same : ∀ total ≤ elements.length, next total = next' total) :
    countTrue evaluate formals body elements >>= next =
      countTrue evaluate formals body elements >>= next' := by
  induction elements generalizing next next' with
  | nil => exact same 0 (Nat.le_refl 0)
  | cons element elements ih =>
      simp only [countTrue, bind_assoc, pure_bind]
      congr 1
      funext value
      apply ih
      intro total le
      apply same
      rw [List.length_cons]
      split <;> omega

end

/-! ## Independent calls -/

section

variable {evaluate : Expr → Action Unit Expr} {formals : List String} {body : Expr}

theorem countTrue_cons_eq_ok {element : Expr} {elements : List Expr} {total : Nat} :
    countTrue evaluate formals body (element :: elements) () = .ok total () ↔
      ∃ value others, evaluate (.application (.lambda formals body) [element]) () = .ok value () ∧
        countTrue evaluate formals body elements () = .ok others () ∧
        total = if value.isTrue then others + 1 else others := by
  constructor
  · intro counted
    obtain ⟨value, _, called, rest⟩ := Action.exists_of_bind_eq_ok counted
    obtain ⟨others, _, counted', last⟩ := Action.exists_of_bind_eq_ok rest
    cases last
    exact ⟨value, others, called, counted', rfl⟩
  · rintro ⟨value, others, called, counted, rfl⟩
    exact (Action.bind_of_ok called _).trans (Action.bind_of_ok counted _)

/-- Without a state the calls do not depend on each other. -/
theorem countTrue_perm {elements permuted : List Expr} (perm : elements.Perm permuted)
    {total : Nat} (counted : countTrue evaluate formals body elements () = .ok total ()) :
    countTrue evaluate formals body permuted () = .ok total () := by
  induction perm generalizing total with
  | nil => exact counted
  | cons element _ ih =>
      obtain ⟨value, others, called, rest, rfl⟩ := countTrue_cons_eq_ok.mp counted
      exact countTrue_cons_eq_ok.mpr ⟨value, others, called, ih rest, rfl⟩
  | swap first second elements =>
      obtain ⟨value, others, called, rest, rfl⟩ := countTrue_cons_eq_ok.mp counted
      obtain ⟨value', others', called', rest', rfl⟩ := countTrue_cons_eq_ok.mp rest
      refine countTrue_cons_eq_ok.mpr ⟨value', _, called', countTrue_cons_eq_ok.mpr
        ⟨value, others', called, rest', rfl⟩, ?_⟩
      cases value.isTrue <;> cases value'.isTrue <;> rfl
  | trans _ _ ih ih' => exact ih' (ih counted)

end

/-! ## Forms -/

section

variable {formal : String} {body : Expr} {elements : List Expr}

theorem count_of_literals {σ : Type} {evaluate : Expr → Action σ Expr} {first second third : σ}
    (lambdaDone : evaluate (.lambda [formal] body) first = .ok (.lambda [formal] body) second)
    (listDone : evaluate (.list elements) second = .ok (.list elements) third) :
    count evaluate [.lambda [formal] body, .list elements] first =
      (countTrue evaluate [formal] body elements >>= fun total =>
        pure (.number (.ofNat total))) third := by
  refine (Action.bind_of_ok lambdaDone _).trans ?_
  exact Action.bind_of_ok listDone fun list => expectList list >>= fun elements =>
    requireExactArity 1 1 >>= fun _ => countTrue evaluate [formal] body elements >>= fun total =>
      pure (Expr.number (.ofNat total))

/-- Counting first evaluates the literals, which only the watch notices, and then the calls. -/
theorem watchedWithin_counting (watched : Expr → Bool) (bound : Nat) (environment : Environment) :
    watchedWithin watched (bound + 2) (.counting (.lambda [formal] body) elements) environment =
      (evaluateAll (watchedWithin watched (bound + 1))
          (Expr.calls (.lambda [formal] body) elements) >>= fun values =>
        pure (.number (.ofNat (values.countP Expr.isTrue))))
        (noting watched (.list elements) (noting watched (.lambda [formal] body)
          (noting watched (.counting (.lambda [formal] body) elements) environment))) := by
  rw [watchedWithin_succ]
  refine (count_of_literals (watchedWithin_succ _ _ _) (watchedWithin_succ _ _ _)).trans ?_
  simp only [countTrue_eq, bind_assoc, pure_bind]

theorem evaluateWithin_counting (bound : Nat) (elements : List Expr) :
    evaluateWithin (bound + 2) (.counting (.lambda [formal] body) elements) =
      countTrue (evaluateWithin (bound + 1)) [formal] body elements >>= fun total =>
        pure (.number (.ofNat total)) := by
  funext environment
  exact count_of_literals rfl rfl

/-- A list may be counted in two parts, as long as the numbers are exact. -/
theorem evaluateWithin_counting_append {others : List Expr}
    (small : elements.length + others.length ≤ 2 ^ 53) (bound : Nat) :
    evaluateWithin (bound + 3) (.application (.operator .plus)
        [.counting (.lambda [formal] body) elements, .counting (.lambda [formal] body) others]) =
      evaluateWithin (bound + 2) (.counting (.lambda [formal] body) (elements ++ others)) := by
  have counted := fun elements => @evaluateWithin_counting formal body bound elements
  refine (arithmetic_pair (evaluateWithin (bound + 2)) Number.add (Number.zero false) _ _).trans ?_
  rw [counted, counted, countTrue_append, bind_assoc, bind_assoc]
  apply countTrue_bind_congr
  intro first isFirst
  simp only [combineLast, evaluateNumber, counted, bind_assoc, pure_bind, expectNumber]
  apply countTrue_bind_congr
  intro second isSecond
  rw [Number.add_ofNat (by omega)]

end

end Evaluation

end LazyLisp
