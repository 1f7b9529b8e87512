import LazyLisp.Text.Basic

/-!
# Operators

The built-in operators. Six are written with one character and four with a word.
-/

set_option autoImplicit false

namespace LazyLisp

inductive Operator where
  | plus
  | minus
  | times
  | divide
  | remainder
  | equal
  | not
  | and
  | or
  | count
  deriving DecidableEq, Repr

namespace Operator

def token : Operator → String
  | .plus => "+"
  | .minus => "-"
  | .times => "*"
  | .divide => "/"
  | .remainder => "%"
  | .equal => "="
  | .not => "not"
  | .and => "and"
  | .or => "or"
  | .count => "count"

def ofChar? : Char → Option Operator
  | '+' => some .plus
  | '-' => some .minus
  | '*' => some .times
  | '/' => some .divide
  | '%' => some .remainder
  | '=' => some .equal
  | _ => none

/-- The operators that are written as words. -/
def words : List Operator := [.not, .and, .or, .count]

theorem token_of_ofChar? {char : Char} {op : Operator} (found : ofChar? char = some op) :
    op.token.toList = [char] := by
  unfold ofChar? at found
  split at found <;> cases found <;> rfl

/-- Every operator is written either as a word or as a character. -/
theorem mem_words_or_ofChar? (op : Operator) :
    op ∈ words ∨ ∃ char, ofChar? char = some op := by
  cases op with
  | plus => exact .inr ⟨'+', rfl⟩
  | minus => exact .inr ⟨'-', rfl⟩
  | times => exact .inr ⟨'*', rfl⟩
  | divide => exact .inr ⟨'/', rfl⟩
  | remainder => exact .inr ⟨'%', rfl⟩
  | equal => exact .inr ⟨'=', rfl⟩
  | not | and | or | count => exact .inl (by decide)

end Operator

end LazyLisp
