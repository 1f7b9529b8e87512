import LazyLisp.Failure
import LazyLisp.Files
import LazyLisp.Proofs.Reader.Faults

/-!
# Messages on a single line

A message takes names, numbers and quoted paths from what it is about, and none of these holds the
end of a line.
-/

set_option autoImplicit false

namespace LazyLisp

/-- The message does not go on in another line. -/
def SingleLine (message : String) : Prop := '\n' ∉ message.toList

instance (message : String) : Decidable (SingleLine message) :=
  inferInstanceAs (Decidable (¬ _))

namespace SingleLine

theorem append {message message' : String} (single : SingleLine message)
    (single' : SingleLine message') : SingleLine (message ++ message') := by
  rw [SingleLine, String.toList_append, List.mem_append, not_or]
  exact ⟨single, single'⟩

theorem nat (number : Nat) : SingleLine (toString number) := by
  intro member
  rw [Nat.toString_eq_repr, Nat.toList_repr] at member
  exact absurd (Nat.isDigit_of_mem_toDigits (by decide) (by decide) member) (by decide)

theorem int (number : Int) : SingleLine (toString number) := by
  cases number with
  | ofNat number => exact nat number
  | negSucc number => exact append (show SingleLine "-" by decide) (nat (number + 1))

theorem name {name : String} (isName : Reader.IsName name) : SingleLine name :=
  fun member => absurd (List.all_eq_true.mp isName.chars _ member) (by decide)

end SingleLine

/-! ## Failures -/

theorem Fault.singleLine_message {fault : Fault} (named : fault.Named) :
    SingleLine fault.message := by
  cases fault with
  | expectedPart part => cases part <;> decide +kernel
  | expectedCloser closer => cases closer <;> decide +kernel
  | duplicateFormal name =>
      have start : SingleLine "duplicate formal parameter '" := by decide +kernel
      exact (start.append (.name named)).append (show SingleLine "'" by decide)
  | _ => decide +kernel

theorem SyntaxError.singleLine_message {error : SyntaxError} (named : error.fault.Named) :
    SingleLine error.message := by
  have start : SingleLine "Parsing error: " := by decide +kernel
  have line : SingleLine " (line " := by decide
  have column : SingleLine ", column " := by decide +kernel
  exact (((((start.append (error.fault.singleLine_message named)).append line).append
    (.nat _)).append column).append (.nat _)).append (show SingleLine ")" by decide)

theorem Kind.singleLine_label (kind : Kind) : SingleLine kind.label := by
  cases kind with
  | operator op => cases op <;> decide +kernel
  | _ => decide +kernel

/-- What the failure takes from a source is a name. -/
def Failure.Named : Failure → Prop
  | .unreadable error => error.fault.Named
  | .unknownSymbol name => Reader.IsName name
  | _ => True

theorem Failure.singleLine_message {failure : Failure} (named : failure.Named) :
    SingleLine failure.message := by
  have expected : SingleLine "Expected " := by decide +kernel
  have received : SingleLine " arguments, received " := by decide +kernel
  cases failure with
  | unreadable error => exact error.singleLine_message named
  | unknownSymbol name =>
      exact (show SingleLine "Unknown symbol: " by decide +kernel).append (.name named)
  | typeMismatch kind kind' =>
      have start : SingleLine "Type error: Expected " := by decide +kernel
      have behind : SingleLine ", received " := by decide +kernel
      exact ((start.append kind.singleLine_label).append behind).append kind'.singleLine_label
  | exactArity count count' =>
      exact ((expected.append (.int count)).append received).append (.int count')
  | minimumArity least count =>
      have atLeast : SingleLine "Expected at least " := by decide +kernel
      exact ((atLeast.append (.int least)).append received).append (.int count)
  | noScope | tooDeep => decide +kernel

/-! ## Files -/

namespace Text

theorem not_mem_toDigits (number : Nat) : '\n' ∉ Nat.toDigits 16 number := by
  induction number using Nat.strongRecOn with
  | _ number ih =>
      have digit : ∀ value < 16, '\n' ≠ Nat.digitChar value := by decide
      by_cases small : number < 16
      · rw [Nat.toDigits_of_lt_base small, List.mem_singleton]
        exact digit number small
      · rw [Nat.toDigits_of_base_le (by decide) (Nat.le_of_not_lt small), List.mem_append, not_or,
          List.mem_singleton]
        exact ⟨ih _ (by omega), digit _ (Nat.mod_lt _ (by decide))⟩

theorem not_mem_hexadecimal (width number : Nat) : '\n' ∉ hexadecimal width number := by
  simp only [hexadecimal, List.mem_append, List.mem_replicate, not_or, not_and]
  exact ⟨fun _ => by decide, not_mem_toDigits number⟩

theorem not_mem_escape {quote : Char} (quoting : '\n' ≠ quote) (char : Char) :
    '\n' ∉ escape quote char := by
  have behind (kind : Char) (other : '\n' ≠ kind) (width number : Nat) :
      '\n' ∉ '\\' :: kind :: hexadecimal width number := by
    simp only [List.mem_cons, not_or]
    exact ⟨by decide, other, not_mem_hexadecimal width number⟩
  unfold escape
  split
  next escaped =>
    simp only [Bool.or_eq_true, decide_eq_true_eq] at escaped
    rcases escaped with rfl | rfl
    · simp [quoting]
    · decide
  · split
    · decide
    next notLineFeed =>
      split
      · decide
      · split
        · decide
        · split
          · simpa using Ne.symm notLineFeed
          · split
            · exact behind 'x' (by decide) _ _
            · split
              · exact behind 'u' (by decide) _ _
              · exact behind 'U' (by decide) _ _

theorem not_mem_quoted (text : Text) : '\n' ∉ quoted text := by
  have quoting : '\n' ≠ if text.contains '\'' && !text.contains '"' then '"' else '\'' := by
    split <;> decide
  simp only [quoted, List.mem_cons, List.mem_append, List.mem_flatMap, List.not_mem_nil, or_false,
    not_or, not_exists, not_and]
  exact ⟨⟨quoting, fun char _ => not_mem_escape quoting char⟩, quoting⟩

end Text

theorem Entry.singleLine_refusal {entry : Entry} {path : Text} {message : String}
    (refused : entry.refusal? path = some message) : SingleLine message := by
  have refusal (number : Nat) {reason : String} (single : SingleLine reason) :
      SingleLine ("[Errno " ++ toString number ++ "] " ++ reason ++ ": " ++
        String.ofList (Text.quoted path)) := by
    have quoted : SingleLine (String.ofList (Text.quoted path)) := by
      rw [SingleLine, String.toList_ofList]
      exact Text.not_mem_quoted path
    exact (((((show SingleLine "[Errno " by decide).append (.nat number)).append
      (show SingleLine "] " by decide)).append single).append
      (show SingleLine ": " by decide)).append quoted
  cases entry with
  | file content => cases refused
  | missing | directory | insideFile | nameTooLong =>
      cases refused
      exact refusal _ (by decide +kernel)

end LazyLisp
