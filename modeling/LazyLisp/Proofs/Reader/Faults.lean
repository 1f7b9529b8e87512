import LazyLisp.Proofs.Reader.Forms
import LazyLisp.Proofs.Reader.WellFormed

/-!
# What faults name

The only text that a fault of the reader takes from the source is a formal parameter, which is a
name.
-/

set_option autoImplicit false

namespace LazyLisp

/-- What the fault takes from the source is a name. -/
def Fault.Named : Fault → Prop
  | .duplicateFormal name => Reader.IsName name
  | _ => True

namespace Reader

/-! ## Reading steps -/

/-- If the step failed, what its fault takes from the source is a name. -/
def Blames {α : Type} (result : Except Stop α) : Prop :=
  ∀ stop, result = .error stop → stop.fault.Named

namespace Blames

variable {α β : Type}

theorem ok (value : α) : Blames (.ok value) := nofun

theorem error {fault : Fault} {text : Text} (named : fault.Named) :
    Blames (.error ⟨fault, text⟩ : Except Stop α) := by
  rintro _ ⟨⟩
  exact named

theorem bind {first : Except Stop α} {next : α → Except Stop β} (blames : Blames first)
    (blames' : ∀ value, Blames (next value)) : Blames (first >>= next) := by
  cases first with
  | error stop =>
      rintro _ ⟨⟩
      exact blames stop rfl
  | ok value => exact blames' value

end Blames

theorem blames_atom? (text : Text) : Blames (atom? text) := by
  have committed : Blames (committedAtom? text) := by
    unfold committedAtom?
    split
    · split
      · exact .ok _
      · exact .error trivial
    · split
      · exact .ok _
      · exact .error trivial
    · exact .ok _
  unfold atom?
  split
  · exact .ok _
  · split
    · exact .ok _
    · split
      · exact .ok _
      · split
        · exact .ok _
        · exact committed

theorem blames_close (closer : Closer) (text : Text) : Blames (close closer text) := by
  unfold close
  dsimp only
  split
  · exact .ok _
  · exact .error trivial

theorem blames_formals (budget : Nat) (names : List String) (text : Text) :
    Blames (formals budget names text) := by
  induction budget generalizing names text with
  | zero => exact .error trivial
  | succ budget ih =>
      rw [formals]
      split
      · exact .ok _
      · split
        · exact .error trivial
        next name rest found =>
          split
          · exact .error (isName_of_name? found)
          · exact ih _ _

section

variable {read : Text → Except Stop (Expr × Text)} (blames : ∀ text, Blames (read text))

include blames

theorem blames_required (part : RequiredPart) (text : Text) : Blames (required read part text) := by
  unfold required
  dsimp only
  split
  · exact .error trivial
  · exact blames _

theorem blames_sequence (closer : Closer) (budget : Nat) (text : Text) :
    Blames (sequence read closer budget text) := by
  induction budget generalizing text with
  | zero => exact .error trivial
  | succ budget ih =>
      rw [sequence]
      dsimp only
      split
      · exact .ok _
      · split
        · exact .error trivial
        · exact (blames _).bind fun _ => (ih _).bind fun _ => .ok _

theorem blames_conditional (text : Text) : Blames (conditional read text) := by
  refine (blames_required blames _ _).bind fun _ => (blames_required blames _ _).bind fun _ => ?_
  dsimp only
  split
  · exact .ok _
  · exact (blames_required blames _ _).bind fun _ => (blames_close _ _).bind fun _ => .ok _

theorem blames_binding (text : Text) : Blames (binding read text) := by
  unfold binding
  dsimp only
  split
  · exact .error trivial
  · exact (blames_required blames _ _).bind fun _ => (blames_close _ _).bind fun _ => .ok _

theorem blames_lambda (budget : Nat) (text : Text) : Blames (lambda read budget text) := by
  unfold lambda
  split
  · exact (blames_formals _ _ _).bind fun _ => (blames_required blames _ _).bind fun _ =>
      (blames_close _ _).bind fun _ => .ok _
  · exact .error trivial

theorem blames_application (budget : Nat) (text : Text) :
    Blames (application read budget text) := by
  have function : Blames (Reader.function read text) := by
    unfold Reader.function
    split
    · exact blames _
    · split
      · exact .ok _
      · exact .error trivial
  exact function.bind fun _ => (blames_sequence blames _ _ _).bind fun _ => .ok _

theorem blames_parenthesized (budget : Nat) (text : Text) :
    Blames (parenthesized read budget text) := by
  unfold parenthesized
  dsimp only
  split
  · exact blames_conditional blames _
  · split
    · exact blames_binding blames _
    · split
      · exact blames_lambda blames _ _
      · split
        · exact (blames_sequence blames _ _ _).bind fun _ => .ok _
        · exact blames_application blames _ _

theorem blames_expression (budget : Nat) (text : Text) : Blames (expression read budget text) := by
  refine (blames_atom? _).bind fun atom => ?_
  split
  · exact .ok _
  · unfold compound
    split
    · exact blames_parenthesized blames _ _
    · exact (blames_sequence blames _ _ _).bind fun _ => .ok _
    · exact (blames_sequence blames _ _ _).bind fun _ => .ok _
    · exact .error trivial

end

theorem blames_readWithin (budget : Nat) (text : Text) : Blames (readWithin budget text) := by
  induction budget generalizing text with
  | zero => exact .error trivial
  | succ budget ih => exact blames_expression ih _ _

/-! ## Sources -/

theorem named_of_readFirst {source : Text} {error : SyntaxError}
    (failed : readFirst source = .error error) : error.fault.Named := by
  unfold readFirst at failed
  cases read : readForm source with
  | ok found =>
      rw [read] at failed
      cases failed
  | error stop =>
      rw [read] at failed
      cases failed
      exact blames_readWithin _ _ stop read

theorem ReadsUpTo.named {text : Text} {exprs : List Expr} {stop : Option Stop}
    (reads : ReadsUpTo text exprs stop) : ∀ last, stop = some last → last.fault.Named := by
  induction reads with
  | finished => exact nofun
  | failed _ failed =>
      rintro _ ⟨⟩
      exact blames_readWithin _ _ _ failed
  | form _ _ ih => exact ih

theorem named_of_readAll {source : Text} {error : SyntaxError}
    (failed : (readAll source).2 = some error) : error.fault.Named := by
  obtain ⟨stop, reads, located⟩ := readAll_eq_iff_readsUpTo.mp (Prod.eta (readAll source)).symm
  rw [failed] at located
  obtain ⟨last, rfl, rfl⟩ := Option.map_eq_some_iff.mp located.symm
  exact reads.named last rfl

/-- Reading a source for its only expression is reading its first one and looking behind it. -/
theorem readOnly_cases (source : Text) :
    (∃ error, readFirst source = .error error ∧ readOnly source = .error error) ∨
      ∃ expr rest, readFirst source = .ok (expr, rest) ∧ (readOnly source = .ok expr ∨
        readOnly source = .error (Stop.locate source ⟨.trailingInput, skipGap rest⟩)) := by
  unfold readOnly
  cases readFirst source with
  | error error => exact .inl ⟨error, rfl, rfl⟩
  | ok found =>
      refine .inr ⟨found.1, found.2, rfl, ?_⟩
      simp only [bind, Except.bind]
      split
      · exact .inl rfl
      · exact .inr rfl

end Reader

end LazyLisp
