import LazyLisp.Proofs.Evaluation.Values
import LazyLisp.Proofs.Reader.RoundTrip
import LazyLisp.Proofs.Session.Invariant

/-!
# Texts in sessions

Every form that a session reads and every value that it gives has a text that reads back.
-/

set_option autoImplicit false

namespace LazyLisp

/-! ## Well-formed parts -/

namespace Expr

theorem allWellFormed_unmarkedAll_iff {exprs : List Expr} :
    AllWellFormed (unmarkedAll exprs) ↔ ∀ expr ∈ exprs, expr.unmarked.WellFormed := by
  induction exprs with
  | nil => simp [unmarkedAll, AllWellFormed]
  | cons expr exprs ih => simp only [unmarkedAll, AllWellFormed, ih, List.forall_mem_cons]

/-- What evaluation makes of well-formed forms is well-formed but for its marks. -/
theorem hereditary_wellFormed : Evaluation.Hereditary fun expr => expr.unmarked.WellFormed where
  number value := by cases value <;> rfl
  boolean _ := trivial
  nil := trivial
  head wellFormed := wellFormed.2.1
  argument wellFormed member := allWellFormed_unmarkedAll_iff.mp wellFormed.2.2 _ member
  ifThen wellFormed := wellFormed
  ifThenElse wellFormed := wellFormed
  binding wellFormed := wellFormed.2
  body wellFormed := wellFormed.2.2
  clause wellFormed member := allWellFormed_unmarkedAll_iff.mp wellFormed _ member
  element lambda list member :=
    ⟨rfl, lambda, allWellFormed_unmarkedAll_iff.mp list _ member, trivial⟩

end Expr

/-! ## Sessions -/

/-- The environments of sessions: at first nothing is bound, and then forms that are read from
sources are evaluated, to any depth, or events are traced. -/
inductive Environment.Reached : Environment → Prop where
  | empty : Reached .empty
  | recorded {environment : Environment} {event : Event} :
      Reached environment → Reached (environment.record event)
  | evaluated {environment start : Environment} {source rest : Text} {expr marked : Expr}
      {bound : Nat} :
      Reached environment → Reader.readForm source = .ok (expr, rest) →
      environment.Adopts expr (marked, start) →
      Reached (Evaluation.afterwards (Evaluation.evaluateWithin bound marked start))

open Reader Evaluation

theorem Environment.Adopts.unmarked_eq {environment start : Environment} {expr marked : Expr}
    (adopts : environment.Adopts expr (marked, start)) : marked.unmarked = expr.unmarked := by
  cases adopts <;> exact Expr.unmarked_markNans _ expr _

theorem Environment.Adopts.only {property : Expr → Prop} {environment start : Environment}
    {expr marked : Expr} (adopts : environment.Adopts expr (marked, start))
    (only : environment.Only property) : start.Only property := by
  cases adopts <;> exact ⟨only.table, only.scopes, only.waiting, only.cells⟩

theorem IsRead.wellFormed {expr : Expr} (read : IsRead expr) : expr.WellFormed := by
  obtain ⟨source, rest, found⟩ := read
  exact readWithin_sound _ found

/-- A session only holds expressions that are well-formed but for their marks. -/
theorem Environment.Reached.only {environment : Environment} (reached : environment.Reached) :
    environment.Only fun expr => expr.unmarked.WellFormed := by
  induction reached with
  | empty => exact .empty
  | recorded _ ih => exact ih.record _
  | @evaluated environment start source rest expr marked bound _ read adopts ih =>
      have wellFormed : marked.unmarked.WellFormed := by
        rw [adopts.unmarked_eq, (readWithin_sound _ read).unmarked_eq]
        exact readWithin_sound _ read
      have outcome := evaluateWithin_upholdsOnly Expr.hereditary_wellFormed bound wellFormed start
        (adopts.only ih)
      unfold afterwards
      split
      next same =>
        rw [same] at outcome
        exact outcome.1
      next same =>
        rw [same] at outcome
        exact outcome.1

/-! ## What sessions reach -/

/-- Evaluating a form that is read, in a program or in a prelude, is a step of a session. -/
theorem Environment.Reached.evaluate {environment start : Environment}
    (reached : environment.Reached) {expr marked : Expr} (read : IsRead expr)
    (adopts : environment.Adopts expr (marked, start)) : (start.evaluate marked).2.Reached := by
  obtain ⟨source, rest, found⟩ := read
  rw [Environment.evaluate_snd]
  exact reached.evaluated found adopts

/-- The environments of all sessions are reached, whatever sources they have run. -/
theorem Session.reached : Session.Invariant Environment.Reached where
  empty := .empty
  record _ reached := reached.recorded
  evaluate reached read adopts := reached.evaluate read adopts

/-! ## Texts that read back -/

/-- Whether an expression is equal to what its text reads as, if each is marked as a form of its
own. -/
def Expr.reparsesEqual (expr : Expr) : Bool :=
  match readFirst expr.render with
  | .error _ => false
  | .ok (reread, _) =>
    let (expr, environment) := Environment.empty.adopt expr
    expr.equals (environment.adopt reread).1

/-- The text of a form that is read is read whole and as the same form, which is equal to it unless
it holds a `nan`. The text of a value that evaluating the form gives, at any time of a session, is
read whole and as the same value but for the marks of its `nan`s, and the text of that is the
same. -/
theorem readFirst_render_of_read {source rest : Text} {expr : Expr}
    (read : readFirst source = .ok (expr, rest)) :
    readFirst expr.render = .ok (expr, []) ∧
      (expr.countNans = 0 → expr.reparsesEqual = true) ∧
      ∀ {environment start after : Environment} {marked value : Expr} {bound : Nat},
        environment.Reached → environment.Adopts expr (marked, start) →
        evaluateWithin bound marked start = .ok value after →
        readFirst value.render = .ok (value.unmarked, []) ∧
          value.unmarked.render = value.render := by
  have wellFormed := wellFormed_of_readFirst read
  have reread : readFirst expr.render = .ok (expr, []) := by
    have found := @readFirst_render expr (by rwa [wellFormed.unmarked_eq])
    rwa [wellFormed.unmarked_eq] at found
  refine ⟨reread, fun noNan => ?_, fun {environment start after marked value bound} reached adopts
    evaluated => ?_⟩
  · have unchanged (environment : Environment) : environment.adopt expr = (expr, environment) := by
      simp only [Environment.adopt, Expr.markNans_of_countNans _ expr _ noNan]
    simp only [Expr.reparsesEqual, reread, unchanged]
    exact Expr.equals_self_of_countNans noNan
  · have marksWellFormed : marked.unmarked.WellFormed := by
      rwa [adopts.unmarked_eq, wellFormed.unmarked_eq]
    have outcome := evaluateWithin_upholdsOnly Expr.hereditary_wellFormed bound marksWellFormed
      start (adopts.only reached.only)
    rw [evaluated] at outcome
    exact ⟨readFirst_render outcome.2, Expr.render_unmarked value⟩

/-- A call whose value is a list, in front of a text that is not read. -/
theorem readFirst_render_of_read_call :
    let list := Expr.list [.number (.infinite true), .identifier "x"]
    let call := Expr.application (.lambda ["x"] list) [.nil]
    readFirst call.render = .ok (call, []) ∧ call.reparsesEqual = true ∧
      readFirst list.render = .ok (list, []) := by
  intro list call
  have read : readFirst "((fn[x]'(-inf x))nil))".toList = .ok (call, [')']) := rfl
  obtain ⟨reread, equal, values⟩ := readFirst_render_of_read read
  have evaluated : evaluateWithin 2 call { } = .ok list
      (afterwards (evaluateWithin 2 call { })) := rfl
  exact ⟨reread, equal rfl, (values .empty .program evaluated).1⟩

end LazyLisp
