import LazyLisp.Proofs.Evaluation.Relabeling
import LazyLisp.Proofs.Session

/-!
# The marks that sessions give out

A session counts the `nan`s that are written in its forms, those in preludes apart from those in
programs, and marks each with its number. So it holds no mark that it has still to give out, and
another choice of these makes no difference to it.
-/

set_option autoImplicit false

namespace LazyLisp

open Evaluation

namespace Environment

/-- The relabeling changes no mark that has been given out. -/
structure Spares (environment : Environment) (relabeling : Relabeling) : Prop where
  prelude (serial : Nat) : serial < environment.preludeNans →
    relabeling.apply (.prelude serial) = .prelude serial
  program (serial : Nat) : serial < environment.programNans →
    relabeling.apply (.program serial) = .program serial

/-- No mark is held that has still to be given out. -/
def Counted (environment : Environment) : Prop :=
  ∀ ⦃relabeling : Relabeling⦄, environment.Spares relabeling →
    environment.Relabels relabeling environment

variable {environment start : Environment} {relabeling : Relabeling} {expr marked : Expr}

/-- Relabelings that spare what is marked with an expression change none of its marks. -/
theorem Adopts.relabeled_eq (adopts : environment.Adopts expr (marked, start))
    (spares : start.Spares relabeling) : marked.relabeled relabeling = marked := by
  cases adopts with
  | program =>
      refine Expr.relabeled_markNans relabeling expr fun offset inside => spares.program _ ?_
      simp only [Expr.markNans_snd]
      omega
  | prelude =>
      refine Expr.relabeled_markNans relabeling expr fun offset inside => spares.prelude _ ?_
      simp only [Expr.markNans_snd]
      omega

theorem Adopts.spares (adopts : environment.Adopts expr (marked, start))
    (spares : start.Spares relabeling) : environment.Spares relabeling := by
  cases adopts with
  | program =>
      refine ⟨spares.prelude, fun serial inside => spares.program serial ?_⟩
      simp only [Expr.markNans_snd]
      omega
  | prelude =>
      refine ⟨fun serial inside => spares.prelude serial ?_, spares.program⟩
      simp only [Expr.markNans_snd]
      omega

theorem Adopts.relabels (adopts : environment.Adopts expr (marked, start))
    (relabels : environment.Relabels relabeling environment) :
    start.Relabels relabeling start := by
  cases adopts <;> exact relabels.recounted _ _ _ _ _ _

/-- Sessions only hold marks that they have given out. -/
theorem Reached.counted (reached : environment.Reached) : environment.Counted := by
  induction reached with
  | empty => exact fun _ _ => .empty
  | recorded _ ih => exact fun _ spares => (ih ⟨spares.prelude, spares.program⟩).record _ _
  | @evaluated environment start source rest expr marked bound _ _ adopts ih =>
      intro relabeling spares
      have counts := nanCounts_afterwards bound marked start
      simp only [nanCounts, Prod.mk.injEq] at counts
      have sparesStart : start.Spares relabeling :=
        ⟨counts.1 ▸ spares.prelude, counts.2 ▸ spares.program⟩
      have relabels := adopts.relabels (ih (adopts.spares sparesStart))
      have outcome := evaluateWithin_carries bound marked relabels
      rw [adopts.relabeled_eq sparesStart] at outcome
      exact outcome.afterwards

theorem nanCounts_evaluate (environment : Environment) (expr : Expr) :
    (environment.evaluate expr).2.nanCounts = environment.nanCounts := by
  rw [evaluate_snd]
  exact nanCounts_afterwards depthBound expr environment

end Environment

/-! ## A program as a prelude -/

/-- The marks of preludes and those of programs, exchanged from these numbers on. -/
def NanOrigin.exchange (preludes programs : Nat) : NanOrigin → NanOrigin
  | .computed => .computed
  | .prelude serial =>
    if serial < preludes then .prelude serial else .program (programs + (serial - preludes))
  | .program serial =>
    if serial < programs then .program serial else .prelude (preludes + (serial - programs))

theorem NanOrigin.exchange_involutive (preludes programs : Nat) :
    Function.Involutive (exchange preludes programs) := by
  intro origin
  cases origin with
  | computed => rfl
  | prelude serial =>
      by_cases given : serial < preludes
      · simp only [exchange, if_pos given]
      · simp only [exchange, if_neg given, Nat.not_lt.mpr (Nat.le_add_right _ _), if_false,
          Nat.add_sub_cancel_left, Nat.add_sub_cancel' (Nat.not_lt.mp given)]
  | program serial =>
      by_cases given : serial < programs
      · simp only [exchange, if_pos given]
      · simp only [exchange, if_neg given, Nat.not_lt.mpr (Nat.le_add_right _ _), if_false,
          Nat.add_sub_cancel_left, Nat.add_sub_cancel' (Nat.not_lt.mp given)]

/-- Gives a form of a program the marks that it gets as a form of a prelude. -/
def Relabeling.exchange (preludes programs : Nat) : Relabeling where
  apply := NanOrigin.exchange preludes programs
  injective := (NanOrigin.exchange_involutive preludes programs).injective
  computed := rfl

namespace Session

theorem programNans_evaluate (session : Session) (expr : Expr) :
    (session.evaluate expr).2.environment.programNans =
      session.environment.programNans + expr.countNans :=
  (congrArg Prod.snd (Environment.nanCounts_evaluate _ _)).trans
    (Expr.markNans_snd .program expr session.environment.programNans)

theorem preludeNans_evaluatePrelude (session : Session) (expr : Expr) :
    (session.evaluatePrelude expr).2.environment.preludeNans =
      session.environment.preludeNans + expr.countNans :=
  (congrArg Prod.fst (Environment.nanCounts_evaluate _ _)).trans
    (Expr.markNans_snd .prelude expr session.environment.preludeNans)

/-- The other session has given out as many marks of preludes as this one has given out marks of
programs, from these numbers on, and is the same with these marks instead. -/
structure Exchanged (preludes programs : Nat) (session other : Session) : Prop where
  environment : session.environment.Relabels (.exchange preludes programs) other.environment
  given : ∃ count, session.environment.programNans = programs + count ∧
    other.environment.preludeNans = preludes + count

theorem Exchanged.record {preludes programs : Nat} {session other : Session}
    (exchanged : session.Exchanged preludes programs other) (event : Event) :
    (session.record event).Exchanged preludes programs other :=
  ⟨exchanged.environment.recounted _ _ _ _ _ _, exchanged.given⟩

theorem exchanged_of_reached {session : Session} (reached : session.environment.Reached) :
    session.Exchanged session.environment.preludeNans session.environment.programNans session := by
  refine ⟨reached.counted ⟨fun serial given => ?_, fun serial given => ?_⟩, 0, rfl, rfl⟩
  · exact if_pos given
  · exact if_pos given

/-- A form is evaluated as a form of a prelude as it is evaluated as a form of a program. -/
theorem Exchanged.evaluate {preludes programs : Nat} {session other : Session}
    (exchanged : session.Exchanged preludes programs other) (expr : Expr) :
    (other.evaluatePrelude expr).1 =
        (session.evaluate expr).1.map (Expr.relabeled (.exchange preludes programs)) ∧
      (session.evaluate expr).2.Exchanged preludes programs (other.evaluatePrelude expr).2 := by
  obtain ⟨relabels, count, given, given'⟩ := exchanged
  have takes : (Relabeling.exchange preludes programs).Takes .program .prelude
      session.environment.programNans other.environment.preludeNans expr.countNans := by
    intro offset _
    rw [given, given', Nat.add_assoc, Nat.add_assoc]
    change (if programs + (count + offset) < programs then _ else _) = _
    rw [if_neg (by omega), Nat.add_sub_cancel_left]
  have marked : (session.environment.adopt expr).1.relabeled (.exchange preludes programs) =
      (other.environment.adoptPrelude expr).1 := Expr.relabeled_markNans _ expr takes
  have adopted : (session.environment.adopt expr).2.Relabels (.exchange preludes programs)
      (other.environment.adoptPrelude expr).2 :=
    relabels.recounted _ _ _ _ _ _
  obtain ⟨sameOutcome, relabels'⟩ := adopted.evaluate (session.environment.adopt expr).1
  rw [marked] at sameOutcome relabels'
  refine ⟨sameOutcome, relabels', count + expr.countNans, ?_, ?_⟩
  · rw [programNans_evaluate, given, Nat.add_assoc]
  · rw [preludeNans_evaluatePrelude, given', Nat.add_assoc]

end Session

end LazyLisp
