import LazyLisp.Proofs.Evaluation.Invariant
import LazyLisp.Proofs.Reader.Forms
import LazyLisp.Session

/-!
# One source behind another

A source that is read to its end, a line feed and any text behind it: the text is read and run as
on its own, only the places of its errors move.
-/

set_option autoImplicit false

namespace LazyLisp

/-- The same error where the text stands behind a source and a line feed: it lies as many characters
and lines further on, in the same column. -/
def SyntaxError.behind (source : Text) (error : SyntaxError) : SyntaxError where
  fault := error.fault
  offset := source.length + 1 + error.offset
  place := ⟨source.count '\n' + 1 + error.place.line, error.place.column⟩

/-- The same failure where the text stands behind a source and a line feed. -/
def Failure.behind (source : Text) : Failure → Failure
  | .unreadable error => .unreadable (error.behind source)
  | failure => failure

/-! ## Reading -/

namespace Reader

variable {source text : Text} {exprs exprs' : List Expr} {ended : Option Stop}

/-- A text stops behind a source where it stops on its own. By induction on the forms of the source:
each of them is read in front of the line feed too. -/
theorem ReadsAs.append_line (reads : ReadsAs source exprs) (reads' : ReadsUpTo text exprs' ended) :
    ReadsUpTo (source ++ '\n' :: text) (exprs ++ exprs') ended := by
  have lineEnd := LineEnd.lineFeed text
  induction reads with
  | @finished source atEnd =>
      refine reads'.congr ?_
      rw [skipGap_append source lineEnd, if_pos atEnd, skipGap_lineFeed]
  | form read _ ih =>
      obtain ⟨word, -, rfl, exchange⟩ := keeps_form read
      obtain ⟨-, read'⟩ := exchange (Seam.append_lineEnd _ lineEnd)
      rw [List.append_assoc]
      exact .form read' ih

/-- What a text stops at is the end of it. -/
theorem ReadsUpTo.rest_suffix {stop : Stop} (reads : ReadsUpTo text exprs ended)
    (same : ended = some stop) : stop.rest <:+ text := by
  induction reads with
  | finished => cases same
  | failed _ failed =>
      cases same
      obtain ⟨word, _, _, split, -⟩ := exists_form failed
      exact ⟨word, split.symm⟩
  | form read _ ih =>
      obtain ⟨word, -, rfl, -⟩ := keeps_form read
      exact (ih same).trans (List.suffix_append word _)

end Reader

/-! ## Places -/

theorem Text.Place.ofOffset_behind (source text : Text) (offset : Nat) :
    ofOffset (source ++ '\n' :: text) (source.length + 1 + offset) =
      ⟨source.count '\n' + 1 + (ofOffset text offset).line, (ofOffset text offset).column⟩ := by
  have taken : (source ++ '\n' :: text).take (source.length + 1 + offset) =
      source ++ '\n' :: text.take offset := by
    rw [Nat.add_assoc, List.take_length_add_append, Nat.add_comm 1, List.take_succ_cons]
  have lastLine : ((text.take offset).reverse ++ '\n' :: source.reverse).takeWhile (· != '\n') =
      (text.take offset).reverse.takeWhile (· != '\n') := (Reader.takeWhile_append rfl _).1
  simp only [ofOffset, taken, List.count_append, List.count_cons_self, List.reverse_append,
    List.reverse_cons, List.append_assoc, List.singleton_append, lastLine, Place.mk.injEq, and_true]
  omega

namespace Reader

variable {source text : Text} {exprs : List Expr}

theorem Stop.locate_behind {stop : Stop} (isRest : stop.rest <:+ text) :
    stop.locate (source ++ '\n' :: text) = (stop.locate text).behind source := by
  have shrinks := isRest.length_le
  have offset : (source ++ '\n' :: text).length - stop.rest.length =
      source.length + 1 + (text.length - stop.rest.length) := by
    simp only [List.length_append, List.length_cons]
    omega
  simp only [Stop.locate, SyntaxError.behind, offset, Text.Place.ofOffset_behind]

/-- Behind a source that is read to its end and a line feed a text is read as on its own. -/
theorem readAll_append (read : readAll source = (exprs, none)) (text : Text) :
    readAll (source ++ '\n' :: text) =
      (exprs ++ (readAll text).1, (readAll text).2.map (·.behind source)) := by
  obtain ⟨ended, reads, located⟩ :=
    readAll_eq_iff_readsUpTo.mp (Prod.eta (readAll text)).symm
  refine readAll_eq_iff_readsUpTo.mpr ⟨ended, (readAll_eq_iff.mp read).append_line reads, ?_⟩
  rw [located]
  cases ended with
  | none => rfl
  | some stop => simp only [Option.map_some, Stop.locate_behind (reads.rest_suffix rfl)]

end Reader

/-! ## Running -/

open Evaluation

/-- Evaluation does not fail at a place in a source. -/
theorem Environment.behind_of_evaluate {environment after : Environment} {expr : Expr}
    {failure : Failure} (failed : environment.evaluate expr = (.error failure, after))
    (source : Text) : failure.behind source = failure := by
  have leaves := @evaluateWithin_preserves _ _ _ invariant_true hereditary_true
    (fun failure => failure.behind source = failure) (fun _ check => by cases check <;> rfl)
    (fun _ _ => rfl) rfl depthBound expr trivial environment trivial
  unfold evaluate at failed
  split at failed
  next => cases failed
  next ended =>
    cases failed
    rw [ended] at leaves
    exact leaves.2.2

namespace Session

theorem behind_of_evaluate {session after : Session} {expr : Expr} {failure : Failure}
    (failed : session.evaluate expr = (.error failure, after)) (source : Text) :
    failure.behind source = failure := by
  have outcome := congrArg Prod.fst failed
  exact Environment.behind_of_evaluate (Prod.ext outcome rfl) source

variable {α : Type} {step : Session → Expr → Except Failure α × Session}

/-- Unless the first expressions fail, the others are performed in the session after them. -/
theorem performAll_append (before behind : List Expr) (session : Session) :
    performAll step (before ++ behind) session =
      match performAll step before session with
      | (earlier, some failure, middle) => (earlier, some failure, middle)
      | (earlier, none, middle) =>
        (earlier ++ (performAll step behind middle).1, (performAll step behind middle).2) := by
  induction before generalizing session with
  | nil => rfl
  | cons expr before ih =>
      rw [List.cons_append, performAll, performAll]
      cases step session expr with
      | mk outcome next =>
          cases outcome with
          | error failure => rfl
          | ok result =>
              simp only [ih]
              obtain ⟨earlier, failure, middle⟩ := performAll step before next
              cases failure <;> rfl

/-- A run without a failure falls into two wherever the expressions do. -/
theorem exists_of_performAll_append {before behind : List Expr} {session after : Session}
    {results : List α}
    (performed : performAll step (before ++ behind) session = (results, none, after)) :
    ∃ earlier later middle, results = earlier ++ later ∧
      performAll step before session = (earlier, none, middle) ∧
      performAll step behind middle = (later, none, after) := by
  rw [performAll_append] at performed
  split at performed
  next => cases performed
  next earlier middle performedBefore =>
    obtain ⟨rfl, performedBehind⟩ := Prod.mk.inj performed
    exact ⟨earlier, _, middle, rfl, performedBefore, Prod.ext rfl performedBehind⟩

/-- The failure of a step is the failure of performing all. -/
theorem performAll_failure {allowed : Failure → Prop}
    (allows : ∀ {session expr failure after}, step session expr = (.error failure, after) →
      allowed failure) {exprs : List Expr} {session : Session} :
    ∀ failure ∈ (performAll step exprs session).2.1, allowed failure := by
  induction exprs generalizing session with
  | nil => nofun
  | cons expr exprs ih =>
      rw [performAll]
      split
      next failed =>
        rintro failure ⟨⟩
        exact allows failed
      next => exact ih

/-- A source is performed without a failure if it is read to its end and its expressions are. -/
theorem performSource_eq_iff {session after : Session} {source : Text} {results : List α} :
    session.performSource step source = (results, none, after) ↔
      (Reader.readAll source).2 = none ∧
        performAll step (Reader.readAll source).1 session = (results, none, after) := by
  simp only [performSource]
  generalize Reader.readAll source = forms
  generalize performAll step forms.1 session = performed
  obtain ⟨results, failure, last⟩ := performed
  cases failure <;> cases forms.2 <;> simp

/-- Reading and running a source, a line feed and any text behind it. If the source is read to its
end, then its expressions are read and those of the text, with the same error; if it is run without
a failure, then the results, the session and the failure are those of running the source and then
the text. Only the places of errors move. -/
theorem run_append (source text : Text) :
    (∀ {exprs : List Expr}, Reader.readAll source = (exprs, none) →
      Reader.readAll (source ++ '\n' :: text) = (exprs ++ (Reader.readAll text).1,
        (Reader.readAll text).2.map (·.behind source))) ∧
      ∀ {session middle : Session} {results : List Expr},
        session.run source = (results, none, middle) →
        session.run (source ++ '\n' :: text) = (results ++ (middle.run text).1,
          (middle.run text).2.1.map (·.behind source), (middle.run text).2.2) := by
  refine ⟨fun read => Reader.readAll_append read text, fun {session middle results} ran => ?_⟩
  obtain ⟨complete, performed⟩ := performSource_eq_iff.mp ran
  have read : Reader.readAll source = ((Reader.readAll source).1, none) := by rw [← complete]
  have notPlaced : ∀ failure ∈ (performAll (fun session expr =>
      (session.record (.evaluating expr)).evaluate expr) (Reader.readAll text).1 middle).2.1,
      failure.behind source = failure :=
    performAll_failure fun failed => behind_of_evaluate failed source
  simp only [run, performSource, Reader.readAll_append read text, performAll_append, performed]
  generalize performAll _ (Reader.readAll text).1 middle = performed' at notPlaced ⊢
  obtain ⟨results', failure, after⟩ := performed'
  cases failure with
  | some failure => simp [notPlaced failure rfl]
  | none => cases (Reader.readAll text).2 <;> simp [Failure.behind]

/-- A definition and a comment that ends with the source, in front of a call that is not closed. -/
theorem run_append_definition :
    let source := "(def x '(:a)) ; (".toList
    let text := "x\n(count x".toList
    let ran := ({ } : Session).run source
    Reader.readAll (source ++ '\n' :: text) =
        ([.binding "x" (.list [.symbol "a"]), .identifier "x"],
          some ⟨.expectedCloser .parenthesis, 28, ⟨2, 8⟩⟩) ∧
      ran.2.1 = none ∧
      ({ } : Session).run (source ++ '\n' :: text) = (ran.1 ++ (ran.2.2.run text).1,
        (ran.2.2.run text).2.1.map (·.behind source), (ran.2.2.run text).2.2) := by
  intro source text ran
  obtain ⟨reads, runs⟩ := run_append source text
  have complete : ran.2.1 = none := Option.isNone_iff_eq_none.mp (by decide +kernel)
  refine ⟨?_, complete, runs ?_⟩
  · exact reads rfl
  · rw [← complete]

end Session

end LazyLisp
