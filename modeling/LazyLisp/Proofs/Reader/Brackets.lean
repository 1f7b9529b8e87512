import LazyLisp.Proofs.Reader.Forms
import LazyLisp.Proofs.Reader.OpenForms

/-!
# Open brackets and open forms

The scanner of the shell counts brackets, and the reader opens a form or a list of formals at each
bracket that the scanner counts. Whatever a reading step reads, it reads in the longer text too that
goes on behind the end of a line. So if a text can be completed behind a line end, it is read whole
or it ends inside of open forms, unless it ends in a string.
-/

set_option autoImplicit false

namespace LazyLisp.OpenForms

open Reader

/-- How a counting step ends on a text, and the reader on the text with more behind it. If the step
reads something, it also reads so many brackets that close a form around it. -/
inductive Scans {α : Type} (tail : Text) (least : Nat) (closers : Int) (text : Text) :
    Except OpenStop (α × Text) → Except Stop (α × Text) → Prop where
  /-- The same is read from the longer text. -/
  | reads {value : α} {rest : Text} :
      openDepth text = openDepth rest - closers → rest.length < text.length →
      Scans tail least closers text (.ok (value, rest)) (.ok (value, rest ++ tail))
  /-- The longer text has the same fault. -/
  | fails {fault : Fault} {rest : Text} {opened : Nat} :
      openDepth text = opened + openDepth rest →
      Scans tail least closers text (.error ⟨⟨fault, rest⟩, opened⟩) (.error ⟨fault, rest ++ tail⟩)
  /-- The text ends with at least so many open forms. -/
  | ended {fault : Fault} {opened : Nat} {longer : Except Stop (α × Text)} :
      openDepth text = opened → least ≤ opened →
      Scans tail least closers text (.error ⟨⟨fault, []⟩, opened⟩) longer
  /-- The text ends in a string. -/
  | inString {rest : Text} {opened : Nat} {longer : Except Stop (α × Text)} :
      openDepth text = opened + openDepth rest →
      Scans tail least closers text (.error ⟨⟨.unterminatedString, rest⟩, opened⟩) longer

namespace Scans

variable {α β : Type} {tail text text' : Text} {least : Nat} {closers : Int}
  {counted : Except OpenStop (α × Text)} {longer : Except Stop (α × Text)}

theorem more {least' : Nat} (scans : Scans tail least closers text counted longer)
    (le : least' ≤ least) : Scans tail least' closers text counted longer := by
  cases scans with
  | reads depth shorter => exact .reads depth shorter
  | fails depth => exact .fails depth
  | ended depth enough => exact .ended depth (Nat.le_trans le enough)
  | inString depth => exact .inString depth

/-- Text in front without brackets changes nothing. -/
theorem behind (scans : Scans tail least closers text counted longer)
    (same : openDepth text' = openDepth text) (le : text.length ≤ text'.length) :
    Scans tail least closers text' counted longer := by
  cases scans with
  | reads depth shorter => exact .reads (same.trans depth) (Nat.lt_of_lt_of_le shorter le)
  | fails depth => exact .fails (same.trans depth)
  | ended depth enough => exact .ended (same.trans depth) enough
  | inString depth => exact .inString (same.trans depth)

theorem behindToken (scans : Scans tail least closers text counted longer)
    (consumes : Consumes text' text) : Scans tail least closers text' counted longer :=
  scans.behind consumes.passes.openDepth_eq.symm (Nat.le_of_lt consumes.shorter)

theorem bind {next : α × Text → Except OpenStop (β × Text)}
    {next' : α × Text → Except Stop (β × Text)} (scans : Scans tail least 0 text counted longer)
    (scans' : ∀ value rest, rest.length < text.length →
      Scans tail least closers rest (next (value, rest)) (next' (value, rest ++ tail))) :
    Scans tail least closers text (counted >>= next) (longer >>= next') := by
  cases scans with
  | @reads value rest depth shorter =>
      rw [Int.sub_zero] at depth
      exact (scans' value rest shorter).behind depth (Nat.le_of_lt shorter)
  | fails depth => exact .fails depth
  | ended depth enough => exact .ended depth enough
  | inString depth => exact .inString depth

theorem map (scans : Scans tail least closers text counted longer) (make : α → β) :
    Scans tail least closers text (counted >>= fun found => .ok (make found.1, found.2))
      (longer >>= fun found => .ok (make found.1, found.2)) := by
  cases scans with
  | reads depth shorter => exact .reads depth shorter
  | fails depth => exact .fails depth
  | ended depth enough => exact .ended depth enough
  | inString depth => exact .inString depth

/-- Behind an opening bracket one more form is open, and it is closed by one of the closing
brackets. -/
theorem opening {char : Char} (opens : char = '(' ∨ char = '[')
    (scans : Scans tail least closers text counted longer) :
    Scans tail (least + 1) (closers - 1) (char :: text) (inside counted) longer := by
  have first : openDepth (char :: text) = 1 + openDepth text := by
    rcases opens with rfl | rfl <;> exact openDepth_cons (by decide) text
  cases scans with
  | @reads value rest depth shorter =>
      exact .reads (by omega) (Nat.lt_succ_of_lt shorter)
  | @fails fault rest opened depth => exact .fails (by push_cast; omega)
  | ended depth enough => exact .ended (by push_cast; omega) (Nat.succ_le_succ enough)
  | @inString rest opened _ depth => exact .inString (by push_cast; omega)

/-- A step that skips the gap in front and fails at the end of the text, as the text goes on behind
the gap. -/
theorem behindGap (lineEnd : LineEnd tail) (step : Text → Except OpenStop (α × Text))
    (step' : Text → Except Stop (α × Text)) (skips : ∀ text, step (skipGap text) = step text)
    (skips' : ∀ text, step' (skipGap text) = step' text)
    (atEnd : ∃ fault, step [] = .error ⟨⟨fault, []⟩, 0⟩)
    (scans : ∀ {char inner}, (char :: inner).length ≤ text.length →
      skipGap (char :: inner) = char :: inner →
      skipGap (char :: inner ++ tail) = char :: inner ++ tail →
      Scans tail 0 closers (char :: inner) (step (char :: inner))
        (step' (char :: inner ++ tail))) :
    Scans tail 0 closers text (step text) (step' (text ++ tail)) := by
  rw [← skips, ← skips', skipGap_append text lineEnd]
  cases skipped : skipGap text with
  | nil =>
      obtain ⟨fault, failed⟩ := atEnd
      rw [failed]
      refine .ended ?_ (Nat.le_refl 0)
      rw [← openDepth_skipGap, skipped]
      rfl
  | cons char inner =>
      have shrinks := (skipGap_suffix text).length_le
      rw [skipped] at shrinks
      rw [if_neg (List.cons_ne_nil _ _)]
      have noGap := not_startsGap_of_skipGap skipped
      exact (scans shrinks (skipGap_cons_of_not_startsGap _ noGap)
        (skipGap_cons_of_not_startsGap _ noGap)).behind
          (by rw [← openDepth_skipGap, skipped]) shrinks

end Scans

/-! ## Tokens -/

section

variable {α : Type} {tail text rest : Text} {least : Nat}

theorem token_scans (consumes : Consumes text rest) (value : α) :
    Scans tail least 0 text (.ok (value, rest)) (.ok (value, rest ++ tail)) :=
  .reads (by rw [consumes.passes.openDepth_eq, Int.sub_zero]) consumes.shorter

theorem closer_scans {closer : Closer} (found : stripCloser? closer text = some rest) (value : α) :
    Scans tail least 1 text (.ok (value, rest)) (.ok (value, rest ++ tail)) := by
  rw [eq_of_stripCloser? found]
  have stays : ScanState.code.next closer.char = .code := by cases closer <;> decide
  have change : ScanState.code.bracketChange closer.char = -1 := by cases closer <;> decide
  refine .reads ?_ (Nat.lt_succ_self _)
  rw [openDepth_cons stays, change]
  omega

theorem stripCloser?_append {closer : Closer} {char : Char} {inner : Text} :
    stripCloser? closer (char :: inner ++ tail) =
      (stripCloser? closer (char :: inner)).map (· ++ tail) := by
  simp only [List.cons_append, stripCloser?]
  split <;> rfl

theorem atCloser_append {char : Char} {inner : Text} :
    atCloser (char :: inner ++ tail) = atCloser (char :: inner) := rfl

variable (lineEnd : LineEnd tail)

include lineEnd

theorem close_scans (closer : Closer) (text : Text) (value : α) :
    Scans tail 0 1 text (plain (close closer text) >>= fun rest => .ok (value, rest))
      (close closer (text ++ tail) >>= fun rest => .ok (value, rest)) := by
  refine Scans.behindGap lineEnd
    (fun text => plain (close closer text) >>= fun rest => .ok (value, rest))
    (fun text => close closer text >>= fun rest => .ok (value, rest))
    (fun _ => by simp only [close, skipGap_skipGap])
    (fun _ => by simp only [close, skipGap_skipGap])
    ⟨_, rfl⟩ fun {char inner} _ noGap noGap' => ?_
  simp only [close, noGap, noGap', stripCloser?_append]
  cases found : stripCloser? closer (char :: inner) with
  | some rest => exact closer_scans found value
  | none => exact .fails (Int.zero_add _).symm

theorem formals_scans {count count' : Nat} (le : count ≤ count') {text : Text}
    (enough : text.length < count) (names : List String) :
    Scans tail 0 1 text (plain (formals count names text))
      (formals count' names (text ++ tail)) := by
  induction count generalizing count' text names with
  | zero => omega
  | succ count ih =>
      cases count' with
      | zero => omega
      | succ count' =>
          refine Scans.behindGap lineEnd (fun text => plain (formals (count + 1) names text))
            (formals (count' + 1) names) (fun _ => by rw [formals_skipGap])
            (formals_skipGap _) ⟨_, rfl⟩ fun {char inner} shrinks noGap noGap' => ?_
          simp only [formals, noGap, noGap', stripCloser?_append,
            name?_local _ lineEnd.atTokenEnd]
          cases closed : stripCloser? .bracket (char :: inner) with
          | some rest => exact closer_scans closed names
          | none =>
              cases found : name? (char :: inner) with
              | none => exact .fails (Int.zero_add _).symm
              | some entry =>
                  obtain ⟨name, rest⟩ := entry
                  have consumes := consumes_of_name? found
                  simp only [Option.map_none, Option.map_some]
                  split
                  · exact .fails (Int.zero_add _).symm
                  · have shorter := consumes.shorter
                    exact (ih (by omega) (by omega) _).behindToken consumes

end

/-! ## Atoms -/

section

variable {tail inner : Text} {least : Nat} {char : Char} (lineEnd : LineEnd tail)
  {other : Except OpenStop (Expr × Text)} {other' : Except Stop (Expr × Text)}
  (scans : Scans tail least 0 (char :: inner) other other')

include lineEnd scans

/-- A symbol, a string or an identifier, or else what may stand in its place. -/
theorem committedAtom_scans :
    Scans tail least 0 (char :: inner)
      (plain (committedAtom? (char :: inner)) >>= fun found? => found?.elim other .ok)
      (committedAtom? (char :: inner ++ tail) >>= fun found? => found?.elim other' .ok) := by
  by_cases colon : char = ':'
  · subst colon
    simp only [List.cons_append, committedAtom?, name?_local _ lineEnd.atTokenEnd]
    have depth : openDepth (':' :: inner) = openDepth inner :=
      (openDepth_cons (by decide) inner).trans (Int.zero_add _)
    cases found : name? inner with
    | none => exact .fails (depth.trans (Int.zero_add _).symm)
    | some entry =>
        have symbol : Scans tail least 0 inner _ _ :=
          token_scans (consumes_of_name? found) (Expr.symbol entry.1)
        exact symbol.behind depth (Nat.le_succ _)
  by_cases quote : char = '"'
  · subst quote
    cases found : payload? inner with
    | none =>
        simp only [committedAtom?, found]
        exact .inString (Int.zero_add _).symm
    | some entry =>
        obtain ⟨payload, rest⟩ := entry
        have isPayload := isPayload_of_payload? found
        obtain rfl := append_eq_of_payload? found
        rw [List.cons_append, List.append_assoc, List.cons_append]
        simp only [committedAtom?, payload?_append isPayload]
        refine .reads ?_ ?_
        · rw [Int.sub_zero, ← isPayload.openDepthFrom_string rest]
          simp [openDepth, openDepthFrom, ScanState.next, ScanState.bracketChange]
        · rw [List.length_cons, List.length_append, List.length_cons]
          omega
  · have plainly (inner : Text) : committedAtom? (char :: inner) =
        .ok ((name? (char :: inner)).map fun found => (.identifier found.1, found.2)) := by
      rw [committedAtom?]
      · exact fun _ same => colon (List.cons.inj same).1
      · exact fun _ same => quote (List.cons.inj same).1
    rw [List.cons_append, plainly, plainly, ← List.cons_append, name?_local _ lineEnd.atTokenEnd]
    cases found : name? (char :: inner) with
    | none => exact scans
    | some entry => exact token_scans (consumes_of_name? found) (Expr.identifier entry.1)

theorem atom_scans :
    Scans tail least 0 (char :: inner)
      (plain (atom? (char :: inner)) >>= fun found? => found?.elim other .ok)
      (atom? (char :: inner ++ tail) >>= fun found? => found?.elim other' .ok) := by
  have ends := lineEnd.atTokenEnd
  simp only [atom?, numeral?_local _ ends, boolean?_local _ ends, operator?_local _ ends,
    word?_local (show "nil".toList.all isNameChar = true by decide) _ ends]
  cases isNumber : numeral? (char :: inner) with
  | some entry => exact token_scans (consumes_of_numeral? isNumber) (Expr.number entry.1)
  | none =>
      cases isBoolean : boolean? (char :: inner) with
      | some entry => exact token_scans (consumes_of_boolean? isBoolean) (Expr.boolean entry.1)
      | none =>
          cases isOperator : operator? (char :: inner) with
          | some entry =>
              exact token_scans (consumes_of_operator? isOperator) (Expr.operator entry.1)
          | none =>
              cases isNil : word? "nil" (char :: inner) with
              | some rest =>
                  exact token_scans (consumes_of_word? (by decide) (by decide) isNil) Expr.nil
              | none => exact committedAtom_scans lineEnd scans

end

/-! ## Forms -/

section

variable {tail : Text} {budget : Nat} {read : Text → Except OpenStop (Expr × Text)}
  {read' : Text → Except Stop (Expr × Text)}
  (scans : ∀ {text}, text.length < budget → skipGap text ≠ [] →
    Scans tail 1 0 text (read text) (read' (text ++ tail)))

include scans

/-- A part may be at the end of the text, behind which no form of its own is open. -/
theorem part_scans {char : Char} {inner : Text} (noGap : skipGap (char :: inner) = char :: inner)
    (enough : (char :: inner).length < budget) :
    Scans tail 0 0 (char :: inner) (read (char :: inner)) (read' (char :: inner ++ tail)) :=
  (scans enough (by rw [noGap]; exact List.cons_ne_nil _ _)).more (Nat.zero_le 1)

variable (lineEnd : LineEnd tail)

include lineEnd

theorem required_scans (part : RequiredPart) {text : Text} (enough : text.length < budget) :
    Scans tail 0 0 text (required read part text)
      (Reader.required read' part (text ++ tail)) := by
  refine Scans.behindGap lineEnd (required read part) (Reader.required read' part)
    (fun _ => by simp only [required, skipGap_skipGap]) (required_skipGap read' part)
    ⟨_, rfl⟩ fun {char inner} shrinks noGap noGap' => ?_
  simp only [required, Reader.required, noGap, noGap', atCloser_append]
  split
  · exact .fails (Int.zero_add _).symm
  · exact part_scans scans noGap (by omega)

theorem sequence_scans (closer : Closer) {count count' : Nat} (le : count ≤ count') {text : Text}
    (enough : text.length < budget) (enough' : text.length < count) :
    Scans tail 0 1 text (sequence read closer count text)
      (Reader.sequence read' closer count' (text ++ tail)) := by
  induction count generalizing count' text with
  | zero => omega
  | succ count ih =>
      cases count' with
      | zero => omega
      | succ count' =>
          refine Scans.behindGap lineEnd (sequence read closer (count + 1))
            (Reader.sequence read' closer (count' + 1))
            (fun _ => by simp only [sequence, skipGap_skipGap]) (sequence_skipGap _)
            ⟨_, rfl⟩ fun {char inner} shrinks noGap noGap' => ?_
          simp only [sequence, Reader.sequence, noGap, noGap', stripCloser?_append, atCloser_append]
          cases closed : stripCloser? closer (char :: inner) with
          | some rest => exact closer_scans closed []
          | none =>
              simp only [Option.map_none]
              split
              · exact .fails (Int.zero_add _).symm
              · refine (part_scans scans noGap (by omega)).bind fun expr rest shorter => ?_
                exact (ih (by omega) (by omega) (by omega)).map (expr :: ·)

theorem branch_scans (condition consequent : Expr) {text : Text} (enough : text.length < budget) :
    Scans tail 0 1 text (branch read condition consequent text)
      (Reader.branch read' condition consequent (text ++ tail)) := by
  refine Scans.behindGap lineEnd (branch read condition consequent)
    (Reader.branch read' condition consequent) (fun _ => by simp only [branch, skipGap_skipGap])
    (fun _ => by simp only [Reader.branch, skipGap_skipGap])
    ⟨_, rfl⟩ fun {char inner} shrinks noGap noGap' => ?_
  simp only [branch, Reader.branch, noGap, noGap', stripCloser?_append]
  cases closed : stripCloser? .parenthesis (char :: inner) with
  | some rest => exact closer_scans closed _
  | none =>
      refine (required_scans scans lineEnd .alternative (by omega)).bind
        fun alternative rest _ => ?_
      exact close_scans lineEnd .parenthesis rest (Expr.ifThenElse condition consequent alternative)

theorem conditional_scans {text : Text} (enough : text.length < budget) :
    Scans tail 0 1 text (conditional read text) (Reader.conditional read' (text ++ tail)) :=
  (required_scans scans lineEnd .condition enough).bind fun condition _ shorter =>
    (required_scans scans lineEnd .consequent (by omega)).bind fun consequent _ shorter' =>
      branch_scans scans lineEnd condition consequent (by omega)

theorem binding_scans {text : Text} (enough : text.length < budget) :
    Scans tail 0 1 text (binding read text) (Reader.binding read' (text ++ tail)) := by
  refine Scans.behindGap lineEnd (binding read) (Reader.binding read')
    (fun _ => by simp only [binding, skipGap_skipGap])
    (fun _ => by simp only [Reader.binding, skipGap_skipGap])
    ⟨_, rfl⟩ fun {char inner} shrinks noGap noGap' => ?_
  simp only [binding, Reader.binding, noGap, noGap', name?_local _ lineEnd.atTokenEnd]
  cases found : name? (char :: inner) with
  | none => exact .fails (Int.zero_add _).symm
  | some entry =>
      obtain ⟨name, rest⟩ := entry
      have consumes := consumes_of_name? found
      have shorter := consumes.shorter
      refine Scans.behindToken ?_ consumes
      refine (required_scans scans lineEnd .value (by omega)).bind fun value rest' _ => ?_
      exact close_scans lineEnd .parenthesis rest' (Expr.binding name value)

theorem lambda_scans {count count' : Nat} (le : count ≤ count') {text : Text}
    (enough : text.length < budget) (enough' : text.length < count) :
    Scans tail 0 1 text (lambda read count text) (Reader.lambda read' count' (text ++ tail)) := by
  refine Scans.behindGap lineEnd (lambda read count) (Reader.lambda read' count')
    (fun _ => by simp only [lambda, skipGap_skipGap])
    (fun _ => by simp only [Reader.lambda, skipGap_skipGap])
    ⟨_, rfl⟩ fun {char inner} shrinks noGap noGap' => ?_
  rw [List.length_cons] at shrinks
  unfold lambda Reader.lambda
  rw [noGap, noGap']
  by_cases bracket : char = '['
  · subst bracket
    have names := (formals_scans lineEnd le (show inner.length < count by omega) []).opening
      (.inr rfl)
    refine (names.more (Nat.zero_le 1)).bind fun names rest shorter => ?_
    refine (required_scans scans lineEnd .body ?_).bind fun body rest' _ => ?_
    · rw [List.length_cons] at shorter
      omega
    · exact close_scans lineEnd .parenthesis rest' (Expr.lambda names body)
  · split
    next same => exact absurd (List.cons.inj same).1 bracket
    next =>
      split
      next same => exact absurd (List.cons.inj same).1 bracket
      next => exact .fails (Int.zero_add _).symm

theorem function_scans {char : Char} {inner : Text}
    (noGap : skipGap (char :: inner) = char :: inner) (enough : (char :: inner).length < budget) :
    Scans tail 0 0 (char :: inner) (function read (char :: inner))
      (Reader.function read' (char :: inner ++ tail)) := by
  by_cases parenthesis : char = '('
  · subst parenthesis
    exact part_scans scans noGap enough
  · have other (inner : Text) : ∀ rest, char :: inner = '(' :: rest → False :=
      fun _ same => parenthesis (List.cons.inj same).1
    rw [function, Reader.function, functionName?_local _ lineEnd.atTokenEnd]
    · cases found : functionName? (char :: inner) with
      | none => exact .fails (Int.zero_add _).symm
      | some entry => exact token_scans (consumes_of_functionName? found) entry.1
    · exact other _
    · exact other _

theorem application_scans {count count' : Nat} (le : count ≤ count') {char : Char} {inner : Text}
    (noGap : skipGap (char :: inner) = char :: inner) (enough : (char :: inner).length < budget)
    (enough' : (char :: inner).length < count) :
    Scans tail 0 1 (char :: inner) (application read count (char :: inner))
      (Reader.application read' count' (char :: inner ++ tail)) := by
  refine (function_scans scans lineEnd noGap enough).bind fun head rest shorter => ?_
  exact (sequence_scans scans lineEnd .parenthesis le (by omega) (by omega)).map
    (Expr.application head)

theorem parenthesized_scans {count count' : Nat} (le : count ≤ count') {text : Text}
    (enough : text.length < budget) (enough' : text.length < count) :
    Scans tail 0 1 text (parenthesized read count text)
      (Reader.parenthesized read' count' (text ++ tail)) := by
  refine Scans.behindGap lineEnd (parenthesized read count) (Reader.parenthesized read' count')
    (fun _ => by simp only [parenthesized, skipGap_skipGap])
    (fun _ => by simp only [Reader.parenthesized, skipGap_skipGap])
    ⟨_, rfl⟩ fun {char inner} shrinks noGap noGap' => ?_
  simp only [parenthesized, Reader.parenthesized, noGap, noGap',
    word?_local (show "if".toList.all isNameChar = true by decide) _ lineEnd.atTokenEnd,
    word?_local (show "def".toList.all isNameChar = true by decide) _ lineEnd.atTokenEnd,
    word?_local (show "fn".toList.all isNameChar = true by decide) _ lineEnd.atTokenEnd,
    word?_local (show "cond".toList.all isNameChar = true by decide) _ lineEnd.atTokenEnd]
  cases isIf : word? "if" (char :: inner) with
  | some rest =>
      have consumes := consumes_of_word? (by decide) (by decide) isIf
      have shorter := consumes.shorter
      exact (conditional_scans scans lineEnd (by omega)).behindToken consumes
  | none =>
      cases isDef : word? "def" (char :: inner) with
      | some rest =>
          have consumes := consumes_of_word? (by decide) (by decide) isDef
          have shorter := consumes.shorter
          exact (binding_scans scans lineEnd (by omega)).behindToken consumes
      | none =>
          cases isFn : word? "fn" (char :: inner) with
          | some rest =>
              have consumes := consumes_of_word? (by decide) (by decide) isFn
              have shorter := consumes.shorter
              exact (lambda_scans scans lineEnd le (by omega) (by omega)).behindToken consumes
          | none =>
              cases isCond : word? "cond" (char :: inner) with
              | some rest =>
                  have consumes := consumes_of_word? (by decide) (by decide) isCond
                  have shorter := consumes.shorter
                  have clauses := sequence_scans scans lineEnd .parenthesis le
                    (show rest.length < budget by omega) (by omega)
                  exact (clauses.map Expr.cond).behindToken consumes
              | none => exact application_scans scans lineEnd le noGap (by omega) (by omega)

/-- A form that is not an atom is still open where the text ends inside of it. -/
theorem compound_scans {count count' : Nat} (le : count ≤ count') {char : Char} {inner : Text}
    (enough : inner.length < budget) (enough' : inner.length < count) :
    Scans tail 1 0 (char :: inner) (compound read count (char :: inner))
      (Reader.compound read' count' (char :: inner ++ tail)) := by
  unfold compound
  split
  next inner' same =>
    cases same
    exact (parenthesized_scans scans lineEnd le enough enough').opening (.inl rfl)
  next inner' same =>
    cases same
    have elements := sequence_scans scans lineEnd .bracket le enough enough'
    exact (elements.map Expr.list).opening (.inr rfl)
  next inner' same =>
    cases same
    rw [List.length_cons] at enough enough'
    have elements := sequence_scans scans lineEnd .parenthesis le
      (show inner'.length < budget by omega) (by omega)
    exact ((elements.map Expr.list).opening (.inl rfl)).behind
      ((openDepth_cons (by decide) _).trans (Int.zero_add _)) (Nat.le_succ _)
  next noForm noList noQuote =>
    rw [Reader.compound]
    · exact .fails (Int.zero_add _).symm
    · exact fun _ same => noForm _ (congrArg (· :: inner) (List.cons.inj same).1)
    · exact fun _ same => noList _ (congrArg (· :: inner) (List.cons.inj same).1)
    · rintro rest same
      obtain ⟨rfl, behind⟩ := List.cons.inj same
      cases inner with
      | nil =>
          rw [List.append_eq, List.nil_append] at behind
          subst behind
          exact absurd (lineEnd '(' rfl) (by decide)
      | cons next inner =>
          exact noQuote _ (congrArg (['\'', ·] ++ inner) (List.cons.inj behind).1)

theorem expression_scans {count count' : Nat} (le : count ≤ count') {text : Text}
    (nonempty : skipGap text ≠ []) (enough : text.length ≤ budget) (enough' : text.length ≤ count) :
    Scans tail 1 0 text (expression read count text)
      (Reader.expression read' count' (text ++ tail)) := by
  obtain ⟨char, inner, skipped⟩ := List.exists_cons_of_ne_nil nonempty
  have shrinks := (skipGap_suffix text).length_le
  rw [skipped, List.length_cons] at shrinks
  have form : Scans tail 1 0 (char :: inner) _ _ :=
    compound_scans scans lineEnd le (by omega) (by omega)
  have whole : Scans tail 1 0 text _ _ :=
    (atom_scans lineEnd form).behind (by rw [← skipped, openDepth_skipGap]) shrinks
  simp only [expression, Reader.expression, skipGap_append text lineEnd, if_neg nonempty]
  rw [skipped]
  convert whole using 2 <;> (funext found?; cases found? <;> rfl)

end

/-- The reader and the text with more behind it. -/
theorem readWithin_scans {tail : Text} (lineEnd : LineEnd tail) {budget budget' : Nat}
    (le : budget ≤ budget') {text : Text} (enough : text.length < budget)
    (nonempty : skipGap text ≠ []) :
    Scans tail 1 0 text (readWithin budget text) (Reader.readWithin budget' (text ++ tail)) := by
  induction budget generalizing budget' text with
  | zero => omega
  | succ budget ih =>
      cases budget' with
      | zero => omega
      | succ budget' =>
          have le : budget ≤ budget' := by omega
          exact expression_scans (fun enough nonempty => ih le enough nonempty) lineEnd le nonempty
            (by omega) (by omega)

end LazyLisp.OpenForms
