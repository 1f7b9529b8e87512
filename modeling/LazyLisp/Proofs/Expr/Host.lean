import LazyLisp.Expr.Host
import LazyLisp.Proofs.Expr.Equality
import LazyLisp.Proofs.Number.Reread
import LazyLisp.Proofs.Reader.Forms
import LazyLisp.Proofs.Reader.RoundTrip
import LazyLisp.Proofs.Reader.Steps

/-!
# Texts of atoms from host values

A number, a boolean or nothing from a host program has a text that reads back as an equal atom. A
text becomes the payload of a string unchanged, so it has to be written as a payload: a quote stands
behind a backslash, and a backslash in front of some character.
-/

set_option autoImplicit false

namespace LazyLisp

open Reader

/-- Reading the text of the expression so leaves nothing and gives an equal expression. -/
def Expr.RereadsBy (read : Text → Except SyntaxError (Expr × Text)) (expr : Expr) : Prop :=
  ∃ reread, read expr.render = .ok (reread, []) ∧ expr.equals reread = true

/-- The atom of the value can be written so that it is read: a text must be written as a payload. -/
def HostValue.HasSpelling : HostValue → Prop
  | .float value => ∀ origin, value ≠ .nan origin
  | .text value => IsPayload value.toList
  | _ => True

/-! ## Reading back -/

theorem Number.ofInt_ne_nan (value : Int) (origin : NanOrigin) : ofInt value ≠ .nan origin := by
  rw [ofInt, ofQuotient]
  exact ofRank_ne_nan _ _ origin

theorem Number.unmarked_of_ne_nan {number : Number} (notNan : ∀ origin, number ≠ .nan origin) :
    number.unmarked = number := by
  cases number with
  | nan origin => exact absurd rfl (notNan origin)
  | infinite | finite => rfl

theorem Reader.AtomText.readAtom {expr : Expr} {text : Text} (spelling : AtomText expr text)
    (wellFormed : expr.WellFormed) : readAtom text = .ok (expr, []) := by
  have read := @AtomText.atom?_append expr text [] spelling wellFormed nofun
  rw [List.append_nil] at read
  simp only [Reader.readAtom, read]

/-- A well-formed atom other than `nan` reads back, as an atom and as an expression. -/
theorem Expr.WellFormed.rereads {expr : Expr} (wellFormed : expr.WellFormed)
    (spelling : AtomText expr expr.render) (notNan : ∀ origin, expr ≠ .number (.nan origin)) :
    expr.RereadsBy readAtom ∧ expr.RereadsBy readFirst := by
  have equal := Expr.equals_self_iff.mpr notNan
  refine ⟨⟨expr, spelling.readAtom wellFormed, equal⟩, expr, ?_, equal⟩
  have read := @readFirst_render expr (by rwa [wellFormed.unmarked_eq])
  rwa [wellFormed.unmarked_eq] at read

theorem Expr.rereads_number {value : Number} (notNan : ∀ origin, value ≠ .nan origin) :
    (Expr.number value).RereadsBy readAtom ∧ (Expr.number value).RereadsBy readFirst := by
  have unmarked := Number.unmarked_of_ne_nan notNan
  have literal := Number.literal_render value
  rw [unmarked] at literal
  refine Expr.WellFormed.rereads unmarked (.number literal) ?_
  rintro origin ⟨⟩
  exact notNan origin rfl

theorem Expr.rereads_ofNearest {nearest : Number} (notNan : ∀ origin, nearest ≠ .nan origin)
    {atom : Expr} (built : ofNearest nearest = .ok atom) :
    atom.RereadsBy readAtom ∧ atom.RereadsBy readFirst := by
  cases nearest with
  | nan origin => exact absurd rfl (notNan origin)
  | infinite => cases built
  | finite =>
      cases built
      exact rereads_number notNan

/-- A text between quotes is read whole just if it is a payload, as an atom and as an expression. -/
theorem isPayload_of_readAtom {text : Text} {expr : Expr}
    (read : readAtom ('"' :: text ++ ['"']) = .ok (expr, [])) : IsPayload text := by
  rw [readAtom, List.cons_append, atom?_punctuation (by decide)] at read
  simp only [committedAtom?] at read
  cases found : payload? (text ++ ['"']) with
  | none =>
      rw [found] at read
      cases read
  | some payload =>
      rw [found] at read
      obtain ⟨payload, rest⟩ := payload
      cases read
      have whole : text = payload := List.append_cancel_right (append_eq_of_payload? found)
      rw [whole]
      exact isPayload_of_payload? found

/-- Where a quote stands, an expression is an atom. -/
theorem readAtom_of_readFirst {text rest : Text} {expr : Expr}
    (read : readFirst ('"' :: text) = .ok (expr, rest)) :
    readAtom ('"' :: text) = .ok (expr, rest) := by
  have stays : skipGap ('"' :: text) = '"' :: text := skipGap_cons_of_not_startsGap text (by decide)
  have parses := parses_of_expression (readFirst_eq_ok_iff.mp read)
  rw [stays] at parses
  cases parses with
  | atom found => simp only [readAtom, found]

theorem rereads_string_iff {value : String} :
    ((Expr.string value).RereadsBy readAtom ↔ IsPayload value.toList) ∧
      ((Expr.string value).RereadsBy readFirst ↔ IsPayload value.toList) := by
  have rereads (isPayload : IsPayload value.toList) :=
    @Expr.WellFormed.rereads (.string value) isPayload .string nofun
  refine ⟨⟨?_, fun isPayload => (rereads isPayload).1⟩, ?_, fun isPayload => (rereads isPayload).2⟩
  · intro ⟨_, read, _⟩
    exact isPayload_of_readAtom read
  · intro ⟨_, read, _⟩
    exact isPayload_of_readAtom (readAtom_of_readFirst read)

/-- A `nan` is read as a `nan`, but equal to nothing. -/
theorem not_rereads_nan (read : Text → Except SyntaxError (Expr × Text)) (origin : NanOrigin) :
    ¬ (Expr.number (.nan origin)).RereadsBy read :=
  fun ⟨_, _, equal⟩ => (Expr.equals_iff.mp equal).2 origin rfl

/-! ## Atoms of host values -/

/-- The text of the atom of a host value reads back as an equal atom, and nothing is left behind it,
for nothing, a boolean, an integer with a finite nearest number and a number other than `nan`. For a
text it does just if the text is written as a payload: each backslash takes the character behind it,
and no quote is left that none takes. -/
theorem ofHost_rereads_iff {value : HostValue} {atom : Expr}
    (built : Expr.ofHost value = .ok atom) :
    (atom.RereadsBy readAtom ↔ value.HasSpelling) ∧
      (atom.RereadsBy readFirst ↔ value.HasSpelling) := by
  have both (rereads : atom.RereadsBy readAtom ∧ atom.RereadsBy readFirst)
      (spelled : value.HasSpelling) : (atom.RereadsBy readAtom ↔ value.HasSpelling) ∧
      (atom.RereadsBy readFirst ↔ value.HasSpelling) :=
    ⟨iff_of_true rereads.1 spelled, iff_of_true rereads.2 spelled⟩
  cases value with
  | null =>
      cases built
      exact both (Expr.WellFormed.rereads trivial .nil nofun) trivial
  | boolean value =>
      cases built
      refine both (Expr.WellFormed.rereads trivial ?_ nofun) trivial
      cases value <;> exact .boolean
  | integer value =>
      exact both (Expr.rereads_ofNearest (Number.ofInt_ne_nan value) built) trivial
  | float value =>
      cases built
      by_cases isNan : ∃ origin, value = .nan origin
      · obtain ⟨origin, rfl⟩ := isNan
        have noSpelling : ¬ (HostValue.float (.nan origin)).HasSpelling :=
          fun spelled => spelled origin rfl
        exact ⟨iff_of_false (not_rereads_nan _ origin) noSpelling,
          iff_of_false (not_rereads_nan _ origin) noSpelling⟩
      · have notNan : ∀ origin, value ≠ .nan origin := fun origin same => isNan ⟨origin, same⟩
        exact both (Expr.rereads_number notNan) notNan
  | text value =>
      cases built
      exact rereads_string_iff
  | sequence | mapping => cases built

/-- The two characters of an escaped quote stay as they are in the payload. -/
theorem ofHost_rereads_iff_escaped :
    ∃ atom, Expr.ofHost (.text "a\\\"b") = .ok atom ∧ atom.render = "\"a\\\"b\"".toList ∧
      atom.RereadsBy readAtom ∧ atom.RereadsBy readFirst := by
  have built : Expr.ofHost (.text "a\\\"b") = .ok (.string "a\\\"b") := rfl
  have spelled : (HostValue.text "a\\\"b").HasSpelling :=
    .plain (by decide) (by decide) (.escaped (.plain (by decide) (by decide) .empty))
  obtain ⟨asAtom, asExpression⟩ := ofHost_rereads_iff built
  exact ⟨_, built, rfl, asAtom.mpr spelled, asExpression.mpr spelled⟩

/-- A quote in the text ends the string early, and a backslash at the end of the text takes away the
closing quote. -/
theorem ofHost_bare_quote :
    (∃ atom, Expr.ofHost (.text "a\"b") = .ok atom ∧
      readFirst atom.render = .ok (.string "a", "b\"".toList) ∧
      ¬ atom.RereadsBy readAtom ∧ ¬ atom.RereadsBy readFirst) ∧
    ∃ atom, Expr.ofHost (.text "a\\") = .ok atom ∧
      readFirst atom.render = .error ⟨.unterminatedString, 0, ⟨0, 0⟩⟩ ∧
      ¬ atom.RereadsBy readAtom ∧ ¬ atom.RereadsBy readFirst := by
  refine ⟨⟨.string "a\"b", rfl, rfl, ?_, ?_⟩, .string "a\\", rfl, rfl, ?_, ?_⟩
  all_goals
    rintro ⟨reread, read, -⟩
    cases read

end LazyLisp
