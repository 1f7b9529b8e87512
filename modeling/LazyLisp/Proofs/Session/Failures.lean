import LazyLisp.Proofs.Failure
import LazyLisp.Proofs.Session
import LazyLisp.Settings

/-!
# Failures of sessions

Whatever a session has run, the names in its failures are names that the reader has read.
-/

set_option autoImplicit false

namespace LazyLisp

open Reader Evaluation

/-! ## Evaluating -/

/-- Where only well-formed expressions are held, only names can be unknown. -/
theorem Environment.named_of_evaluate {environment : Environment} {expr : Expr}
    (only : environment.Only fun expr => expr.unmarked.WellFormed)
    (wellFormed : expr.unmarked.WellFormed) {failure : Failure}
    (failed : (environment.evaluate expr).1 = .error failure) : failure.Named := by
  have leaves := @evaluateWithin_preserves _ _ _ Environment.invariant_only
    Expr.hereditary_wellFormed Failure.Named (fun _ check => by cases check <;> trivial)
    (fun _ identifier => identifier.toIsName) trivial depthBound expr wellFormed environment only
  unfold evaluate at failed
  split at failed
  next => cases failed
  next ended =>
    cases failed
    rw [ended] at leaves
    exact leaves.2.2

theorem isRead_of_readFirst {source rest : Text} {expr : Expr}
    (read : readFirst source = .ok (expr, rest)) : IsRead expr :=
  ⟨source, rest, readFirst_eq_ok_iff.mp read⟩

namespace Session

theorem named_of_evaluate {session : Session} (reached : session.environment.Reached) {expr : Expr}
    (read : IsRead expr) {failure : Failure} (failed : (session.evaluate expr).1 = .error failure) :
    failure.Named := by
  have adopts : session.environment.Adopts expr (session.environment.adopt expr) := .program
  refine Environment.named_of_evaluate (adopts.only reached.only) ?_ failed
  rw [adopts.unmarked_eq, read.wellFormed.unmarked_eq]
  exact read.wellFormed

/-- What is said of the failures of each step is said of the failure that ends a source. -/
theorem performAll_fails {holds : Environment → Prop} {allowed : Failure → Prop} {α : Type}
    {step : Session → Expr → Except Failure α × Session}
    (keeps : ∀ session expr, holds session.environment → IsRead expr →
      holds (step session expr).2.environment)
    (fails : ∀ session expr failure, holds session.environment → IsRead expr →
      (step session expr).1 = .error failure → allowed failure)
    {exprs : List Expr} (read : ∀ expr ∈ exprs, IsRead expr) {session : Session}
    (kept : holds session.environment) {failure : Failure}
    (failed : (performAll step exprs session).2.1 = some failure) : allowed failure := by
  induction exprs generalizing session with
  | nil => cases failed
  | cons expr exprs ih =>
      rw [List.forall_mem_cons] at read
      have keptNext := keeps session expr kept read.1
      have stepFails := fails session expr failure kept read.1
      rw [performAll] at failed
      split at failed
      next stepped =>
        cases failed
        exact stepFails (by rw [stepped])
      next stepped =>
        rw [stepped] at keptNext
        exact ih read.2 keptNext failed

/-- What holds of the faults of the source and of the failures of the steps holds of the failure. -/
theorem performSource_fails {holds : Environment → Prop} {allowed : Failure → Prop} {α : Type}
    {step : Session → Expr → Except Failure α × Session}
    (keeps : ∀ session expr, holds session.environment → IsRead expr →
      holds (step session expr).2.environment)
    (fails : ∀ session expr failure, holds session.environment → IsRead expr →
      (step session expr).1 = .error failure → allowed failure)
    {source : Text} (unreadable : ∀ error, (readAll source).2 = some error →
      allowed (.unreadable error)) {session : Session} (kept : holds session.environment)
    {failure : Failure} (failed : (performSource step session source).2.1 = some failure) :
    allowed failure := by
  simp only [performSource] at failed
  cases performed : (performAll step (readAll source).1 session).2.1 with
  | some first =>
      rw [performed] at failed
      cases failed
      exact performAll_fails keeps fails isRead_of_readAll kept performed
  | none =>
      rw [performed] at failed
      obtain ⟨error, read, rfl⟩ := Option.map_eq_some_iff.mp failed
      exact unreadable error read

/-! ## Sources -/

theorem parse_of_reached {session : Session} (reached : session.environment.Reached)
    (source : Text) : (session.parse source).2.environment.Reached := by
  unfold parse
  split
  · exact reached
  · split
    · exact reached
    · split
      · exact reached
      · exact reached.recorded

theorem named_of_parse {session : Session} {source : Text} {failure : Failure}
    (failed : (session.parse source).1 = .error failure) : failure.Named := by
  rcases readOnly_cases source with ⟨error, first, only⟩ | ⟨expr, rest, first, only⟩
  · simp only [parse, first] at failed
    cases failed
    exact named_of_readFirst first
  · simp only [parse, first] at failed
    split at failed
    · rcases only with only | only
      · rw [only] at failed
        cases failed
      · rw [only] at failed
        cases failed
        trivial
    · split at failed <;> cases failed

theorem isRead_of_parse {session : Session} {source : Text} {expr : Expr}
    (parsed : (session.parse source).1 = .ok expr) : IsRead expr := by
  rcases readOnly_cases source with ⟨error, first, only⟩ | ⟨form, rest, first, only⟩
  · simp only [parse, first] at parsed
    cases parsed
  · have isRead : IsRead form := isRead_of_readFirst first
    simp only [parse, first] at parsed
    split at parsed
    · rcases only with only | only
      · rw [only] at parsed
        cases parsed
        exact isRead
      · rw [only] at parsed
        cases parsed
    · split at parsed <;> cases parsed <;> exact isRead

end Session

end LazyLisp
