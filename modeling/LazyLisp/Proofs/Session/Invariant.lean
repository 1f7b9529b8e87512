import LazyLisp.Proofs.Evaluation.Comparison
import LazyLisp.Session

/-!
# Invariants of sessions

A session changes its environment by evaluating the forms that it reads, each with its `nan`s marked
as those of a program or of a prelude, and by writing lines to the log. What both keep holds in
every session, whatever sources it has run and however they ended.
-/

set_option autoImplicit false

namespace LazyLisp

open Reader Evaluation

/-- A form as a session evaluates it, with the environment it is evaluated in: as a form of a
program or of a prelude. -/
inductive Environment.Adopts (environment : Environment) (expr : Expr) : Expr × Environment → Prop
    where
  | program : Adopts environment expr (environment.adopt expr)
  | prelude : Adopts environment expr (environment.adoptPrelude expr)

/-! ## Forms that are read -/

def IsRead (expr : Expr) : Prop := ∃ source rest, readForm source = .ok (expr, rest)

theorem isRead_of_readAll {source : Text} : ∀ expr ∈ (readAll source).1, IsRead expr := by
  have ofForms (budget : Nat) (text : Text) :
      ∀ entry ∈ (formsWithin budget text).1, IsRead entry.1 := by
    induction budget generalizing text with
    | zero => exact fun _ member => absurd member List.not_mem_nil
    | succ budget ih =>
        rw [formsWithin]
        split
        · exact fun _ member => absurd member List.not_mem_nil
        · split
          · exact fun _ member => absurd member List.not_mem_nil
          next found =>
            rw [List.forall_mem_cons]
            exact ⟨⟨_, _, found⟩, ih _⟩
  intro expr member
  obtain ⟨entry, inForms, rfl⟩ := List.mem_map.mp member
  exact ofForms (source.length + 1) source entry inForms

theorem Environment.evaluate_snd (environment : Environment) (expr : Expr) :
    (environment.evaluate expr).2 = afterwards (evaluateWithin depthBound expr environment) := by
  unfold Environment.evaluate
  cases evaluateWithin depthBound expr environment <;> rfl

/-! ## Sessions -/

namespace Session

/-- The session after it has run sources, each up to its first failure. -/
def runAll (session : Session) (sources : List Text) : Session :=
  sources.foldl (fun session source => (session.run source).2.2) session

/-- A property of environments that holds of the empty one and that lines of the log and the
evaluation of forms that are read keep. -/
structure Invariant (holds : Environment → Prop) : Prop where
  empty : holds .empty
  record {environment : Environment} {event : Event} :
    event.line?.isSome = true → holds environment → holds (environment.record event)
  evaluate {environment start : Environment} {expr marked : Expr} :
    holds environment → IsRead expr → environment.Adopts expr (marked, start) →
    holds (start.evaluate marked).2

/-- What each step keeps, performing the steps for forms that are read keeps. -/
theorem performAll_keeps {holds : Environment → Prop} {α : Type}
    {step : Session → Expr → Except Failure α × Session}
    (keeps : ∀ session expr, holds session.environment → IsRead expr →
      holds (step session expr).2.environment)
    {exprs : List Expr} (read : ∀ expr ∈ exprs, IsRead expr) {session : Session}
    (kept : holds session.environment) :
    holds (performAll step exprs session).2.2.environment := by
  induction exprs generalizing session with
  | nil => exact kept
  | cons expr exprs ih =>
      rw [List.forall_mem_cons] at read
      have keptNext := keeps session expr kept read.1
      rw [performAll]
      split
      next failed =>
        rw [failed] at keptNext
        exact keptNext
      next succeeded =>
        rw [succeeded] at keptNext
        exact ih read.2 keptNext

/-- What holds at first and is kept while a prelude is loaded holds in a session that has been
started, with a prelude or without. -/
theorem start_keeps {holds : Environment → Prop} (empty : holds .empty)
    (record : ∀ environment count, holds environment →
      holds (environment.record (.preludeLoaded count)))
    (keeps : ∀ session expr, holds session.environment → IsRead expr →
      holds (evaluatePrelude session expr).2.environment)
    {strict : Bool} {prelude : Option Text} {session : Session}
    (started : start strict prelude = .ok session) : holds session.environment := by
  unfold start at started
  cases prelude with
  | none =>
      cases started
      exact empty
  | some source =>
      have performed := @performAll_keeps _ _ _ keeps _ (@isRead_of_readAll source) { strict } empty
      change holds (performSource evaluatePrelude { strict } source).2.2.environment at performed
      simp only [loadPrelude] at started
      generalize performSource evaluatePrelude { strict } source = loading at started performed
      obtain ⟨values, failure | _, loaded⟩ := loading
      · cases started
        exact record _ _ performed
      · cases started

namespace Invariant

variable {holds : Environment → Prop} (invariant : Invariant holds)

include invariant

theorem run {session : Session} (kept : holds session.environment) (source : Text) :
    holds (session.run source).2.2.environment :=
  performAll_keeps
    (fun _ _ kept read => invariant.evaluate (invariant.record rfl kept) read .program)
    isRead_of_readAll kept

theorem runAll {session : Session} (kept : holds session.environment) (sources : List Text) :
    holds (session.runAll sources).environment := by
  induction sources generalizing session with
  | nil => exact kept
  | cons source sources ih => exact ih (invariant.run kept source)

/-- It holds in a session that has been started. -/
theorem start {strict : Bool} {prelude : Option Text} {session : Session}
    (started : start strict prelude = .ok session) : holds session.environment :=
  start_keeps invariant.empty (fun _ _ => invariant.record rfl)
    (fun _ _ kept read => invariant.evaluate kept read .prelude) started

end Invariant

end Session

end LazyLisp
