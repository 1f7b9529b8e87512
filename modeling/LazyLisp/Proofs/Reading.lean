import LazyLisp.Proofs.Concatenation
import LazyLisp.Proofs.Outline
import LazyLisp.Proofs.Reader.Budgets
import LazyLisp.Proofs.Session.Strictness
import LazyLisp.Proofs.Text.Places

/-!
# How reading ends

A source is read for an atom, for an identifier, for one expression, for all of them or for its
outline. Each of these ends: no step takes more rounds or deeper calls than the text has characters,
and one more. If it ends with a syntax error, then the error names the place where reading stopped.
-/

set_option autoImplicit false

namespace LazyLisp

namespace Outline

variable {source text : Text} {budget budget' : Nat} {outline : Outline}

theorem addWithin_eq (enough : text.length < budget) (enough' : text.length < budget') :
    addWithin source outline budget text = addWithin source outline budget' text := by
  refine Reader.budgets_induction (motive := fun budget budget' text => ∀ outline,
    addWithin source outline budget text = addWithin source outline budget' text)
    (fun budget budget' text _ _ ih outline => ?_) enough enough' outline
  have shrinks := (Reader.skipGap_suffix text).length_le
  rw [addWithin, addWithin]
  split
  next => rfl
  next =>
    split
    next => rfl
    next read =>
      have shorter := Reader.readForm_shorter read
      exact ih _ (by omega) _

end Outline

namespace Reader

variable {source text rest : Text} {expr : Expr} {error : SyntaxError}

/-! ## Syntax errors -/

/-- Reading the source ends with the error. -/
inductive Refuses (source : Text) (error : SyntaxError) : Prop where
  | atom : readAtom source = .error error → Refuses source error
  | identifier : readIdentifier source = .error error → Refuses source error
  | first : readFirst source = .error error → Refuses source error
  | all : (readAll source).2 = some error → Refuses source error
  | session {session : Session} :
      (session.parse source).1 = .error (.unreadable error) → Refuses source error
  | outline : (Outline.ofSource source).error = some error → Refuses source error

/-- The error is a fault at which reading stops within the source. -/
def StopsAt (source : Text) (error : SyntaxError) : Prop :=
  ∃ stop : Stop, stop.rest <:+ source ∧ stop.fault ≠ .exhausted ∧ error = stop.locate source

theorem ReadsUpTo.stopsAt {exprs : List Expr} {ended : Option Stop}
    (reads : ReadsUpTo source exprs ended) (same : ended.map (·.locate source) = some error) :
    StopsAt source error := by
  obtain ⟨stop, isStop, rfl⟩ := Option.map_eq_some_iff.mp same
  exact ⟨stop, reads.rest_suffix isStop, reads.fault_ne isStop, rfl⟩

theorem stopsAt_of_readFirst (failed : readFirst source = .error error) :
    StopsAt source error := by
  unfold readFirst at failed
  cases read : readForm source with
  | ok found =>
      rw [read] at failed
      cases failed
  | error stop =>
      rw [read] at failed
      cases failed
      obtain ⟨isRest, other⟩ := stop_of_readForm read
      exact ⟨stop, isRest, other, rfl⟩

theorem stopsAt_of_readOnly (failed : readOnly source = .error error) : StopsAt source error := by
  rcases readOnly_cases source with ⟨_, first, only⟩ | ⟨_, rest, first, only | only⟩
  · rw [failed] at only
    cases only
    exact stopsAt_of_readFirst first
  · rw [failed] at only
    cases only
  · rw [failed] at only
    cases only
    have isRest := suffix_of_readWithin (readFirst_eq_ok_iff.mp first)
    exact ⟨⟨.trailingInput, skipGap rest⟩, (skipGap_suffix rest).trans isRest, nofun, rfl⟩

theorem stopsAt_of_readAtom (failed : readAtom source = .error error) : StopsAt source error := by
  unfold readAtom at failed
  split at failed
  · cases failed
  · cases failed
    exact ⟨⟨.expectedAtom, source⟩, List.suffix_refl source, nofun, rfl⟩
  next stop stopped =>
    cases failed
    obtain ⟨isRest, other⟩ := stop_of_atom? stopped
    exact ⟨stop, isRest, other, rfl⟩

theorem stopsAt_of_parse {session : Session}
    (failed : (session.parse source).1 = .error (.unreadable error)) : StopsAt source error := by
  cases mode : session.strict with
  | true =>
      rw [Session.parse_of_strict mode] at failed
      cases only : readOnly source with
      | ok => rw [only] at failed; cases failed
      | error =>
          rw [only] at failed
          cases failed
          exact stopsAt_of_readOnly only
  | false =>
      rw [Session.parse_of_lenient mode] at failed
      cases first : readFirst source with
      | ok => rw [first] at failed; cases failed
      | error =>
          rw [first] at failed
          cases failed
          exact stopsAt_of_readFirst first

theorem Refuses.stopsAt (refused : Refuses source error) : StopsAt source error := by
  cases refused with
  | atom failed => exact stopsAt_of_readAtom failed
  | identifier failed =>
      unfold readIdentifier at failed
      split at failed
      · cases failed
      · cases failed
        exact ⟨⟨.expectedIdentifier, source⟩, List.suffix_refl source, nofun, rfl⟩
  | first failed => exact stopsAt_of_readFirst failed
  | all failed =>
      obtain ⟨ended, reads, located⟩ := readAll_eq_iff_readsUpTo.mp (Prod.eta (readAll source)).symm
      exact reads.stopsAt (located.symm.trans failed)
  | session failed => exact stopsAt_of_parse failed
  | outline failed =>
      obtain ⟨ended, reads, -⟩ := readAll_eq_iff_readsUpTo.mp (Prod.eta (readAll source)).symm
      have sameError : (Outline.ofSource source).error = ended.map (·.locate source) :=
        (Outline.summarizes_nil.addWithin reads rfl (Nat.lt_succ_self source.length)).2
      exact reads.stopsAt (sameError.symm.trans failed)

/-- The place of a syntax error is exact: its offset lies within the source, and skipping its lines
and then the columns of the last one leads there. The two ways to compute a place, from one and from
zero, agree at every offset, and give the place of the error and those of definitions. -/
theorem place_of_refusal (refused : Refuses source error) :
    error.offset ≤ source.length ∧
      error.place.seek source = some (source.drop error.offset) ∧
      (error.place.line + 1, error.place.column + 1) = Text.lineAndColumn source error.offset ∧
      (∀ offset, Text.lineAndColumn source offset =
        ((Text.Place.behindLineFeed source offset).line + 1,
          (Text.Place.behindLineFeed source offset).column + 1)) ∧
      ∀ offset ≤ source.length,
        Text.Place.ofOffset source offset = Text.Place.behindLineFeed source offset := by
  obtain ⟨stop, -, -, rfl⟩ := refused.stopsAt
  have inside : (stop.locate source).offset ≤ source.length := Nat.sub_le _ _
  refine ⟨inside, Text.Place.seek_ofOffset inside, ?_, Text.lineAndColumn_eq source,
    fun offset within => (Text.Place.behindLineFeed_eq within).symm⟩
  rw [Text.lineAndColumn_eq, Text.Place.behindLineFeed_eq inside]
  rfl

/-- The second expression of a source that should hold one, on the second line. -/
theorem place_of_refusal_second_line :
    let source := "a\n b".toList
    let error : SyntaxError := ⟨.trailingInput, 3, ⟨1, 1⟩⟩
    Refuses source error ∧ error.place.seek source = some ['b'] ∧
      Text.lineAndColumn source 3 = (2, 2) := by
  intro source error
  have refused : Refuses source error :=
    .session (show (({ strict := true } : Session).parse source).1 = _ from rfl)
  obtain ⟨-, found, place, -⟩ := place_of_refusal refused
  exact ⟨refused, found, place.symm⟩

/-! ## Rounds -/

/-- Every budget from the limit on leads to the same end, which is not that the budget is used
up. -/
def EndsWithin {α : Type} (fault? : α → Option Fault) (limit : Nat) (run : Nat → α) : Prop :=
  ∃ result, fault? result ≠ some .exhausted ∧ ∀ budget, limit ≤ budget → run budget = result

/-- The fault of a step that failed. -/
def faultOf? {α : Type} : Except Stop α → Option Fault
  | .ok _ => none
  | .error stop => some stop.fault

theorem SameEnd.endsWithin {α : Type} {run : Nat → Except Stop (α × Text)} {limit : Nat}
    (ends : ∀ budget, limit ≤ budget → SameEnd text (run limit) (run budget)) :
    EndsWithin faultOf? limit run := by
  refine ⟨run limit, fun exhausted => ?_, fun budget enough => (ends budget enough).eq.symm⟩
  have ended := ends limit (Nat.le_refl limit)
  cases failed : run limit with
  | ok =>
      rw [failed] at exhausted
      cases exhausted
  | error stop =>
      rw [failed] at exhausted
      exact ended.fault_ne failed (Option.some.inj exhausted)

theorem endsWithin_formsWithin (text : Text) :
    EndsWithin (fun forms => forms.2.map Stop.fault) (text.length + 1)
      fun rounds => formsWithin rounds text := by
  have enough := Nat.lt_succ_self text.length
  refine ⟨formsWithin (text.length + 1) text, fun exhausted => ?_,
    fun rounds enough' => formsWithin_eq enough' enough⟩
  obtain ⟨stop, isStop, fault⟩ := Option.map_eq_some_iff.mp exhausted
  exact (readsUpTo_formsWithin enough).fault_ne isStop fault

theorem endsWithin_addWithin (source text : Text) :
    EndsWithin (fun outline => outline.error.map SyntaxError.fault) (text.length + 1)
      fun rounds => Outline.addWithin source { } rounds text := by
  have enough := Nat.lt_succ_self text.length
  refine ⟨Outline.addWithin source { } (text.length + 1) text, fun exhausted => ?_,
    fun rounds enough' => Outline.addWithin_eq enough' enough⟩
  have reads := readsUpTo_formsWithin enough
  have sameError : (Outline.addWithin source { } (text.length + 1) text).error = _ :=
    (Outline.summarizes_nil.addWithin reads rfl enough).2
  dsimp only at exhausted
  rw [sameError, Option.map_map] at exhausted
  obtain ⟨stop, isStop, fault⟩ := Option.map_eq_some_iff.mp exhausted
  exact reads.fault_ne isStop fault

/-- Reading ends. From any point of the source on, an expression that is read leaves a shorter rest.
So calls for expressions nest no deeper than there are characters left, and one more, and no
sequence of expressions, of formal parameters or of forms takes more rounds than that: every larger
budget leads to the same end. Each end is a value or a syntax error. -/
theorem reading_ends (source : Text) :
    (∀ text, text <:+ source →
      (∀ budget expr rest, readWithin budget text = .ok (expr, rest) →
        rest <:+ text ∧ rest.length < text.length) ∧
      EndsWithin faultOf? (text.length + 1) (fun nesting => readWithin nesting text) ∧
      (∀ closer nesting, text.length < nesting → EndsWithin faultOf? (text.length + 1)
        fun rounds => sequence (readWithin nesting) closer rounds text) ∧
      (∀ names, EndsWithin faultOf? (text.length + 1) fun rounds => formals rounds names text) ∧
      EndsWithin (fun forms => forms.2.map Stop.fault) (text.length + 1)
        (fun rounds => formsWithin rounds text) ∧
      EndsWithin (fun outline => outline.error.map SyntaxError.fault) (text.length + 1)
        fun rounds => Outline.addWithin source { } rounds text) ∧
    ∀ error, Refuses source error → error.fault ≠ .exhausted := by
  refine ⟨fun text _ => ⟨fun budget expr rest read => ?_, ?_, fun closer nesting below => ?_,
    fun names => ?_, endsWithin_formsWithin text, endsWithin_addWithin source text⟩,
    fun error refused => ?_⟩
  · have kept := ((viable_readWithin budget).completable text).keeps read
    exact ⟨suffix_of_readWithin read, kept.length_lt⟩
  · exact SameEnd.endsWithin fun _ => sameEnd_readWithin (Nat.lt_succ_self _)
  · have ends (part : Text) (inside : part.length < nesting) :=
      sameEnd_readWithin inside inside
    exact SameEnd.endsWithin fun _ =>
      sameEnd_sequence ends closer below (Nat.lt_succ_self _)
  · exact SameEnd.endsWithin fun _ => sameEnd_formals (Nat.lt_succ_self _)
  · obtain ⟨stop, -, other, rfl⟩ := refused.stopsAt
    exact other

/-- A list without its closing bracket. -/
theorem reading_ends_unclosed :
    let source := "(f [x".toList
    ∀ budget, 6 ≤ budget →
      readWithin budget source = .error ⟨.expectedCloser .bracket, []⟩ := by
  intro source budget enough
  obtain ⟨everywhere, -⟩ := reading_ends source
  obtain ⟨-, ⟨result, -, same⟩, -⟩ := everywhere source (List.suffix_refl source)
  have six : readWithin 6 source = .error ⟨.expectedCloser .bracket, []⟩ := rfl
  rw [← six]
  exact (same budget enough).trans (same 6 (Nat.le_refl 6)).symm

end Reader

end LazyLisp
