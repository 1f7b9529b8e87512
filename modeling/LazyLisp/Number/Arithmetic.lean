import LazyLisp.Number.Rounding

/-!
# Arithmetic

The four operations and the remainder. Each is the exact result rounded once; the operations that
have no exact result give an infinity or `nan`.
-/

set_option autoImplicit false

namespace LazyLisp.Number

/-- The `nan` that a computation without a result gives. -/
def undefined : Number := .nan .computed

def negate : Number → Number
  | .nan origin => .nan origin
  | .infinite negative => .infinite !negative
  | .finite negative rank => .finite (!negative) rank

/-- A finite magnitude with its sign, in quanta. -/
def signedQuanta (negative : Bool) (rank : Nat) : Int :=
  if negative then -(quanta rank : Int) else quanta rank

/-- The sum. A sum of zero is positive unless both operands are negative. -/
def add : Number → Number → Number
  | .finite negative rank, .finite negative' rank' =>
    let sum := signedQuanta negative rank + signedQuanta negative' rank'
    if sum = 0 then zero (negative && negative')
    else ofQuotient (decide (sum < 0)) sum.natAbs 1
  | .infinite negative, .infinite negative' =>
    if negative = negative' then .infinite negative else undefined
  | .infinite negative, .finite _ _ => .infinite negative
  | .finite _ _, .infinite negative => .infinite negative
  | .nan _, _ => undefined
  | _, .nan _ => undefined

/-- The difference: the sum with the second operand's sign turned. -/
def subtract (left right : Number) : Number := add left (negate right)

/-- The product. Zero times infinity is `nan`. -/
def multiply : Number → Number → Number
  | .finite negative rank, .finite negative' rank' =>
    ofQuotient (negative != negative') (quanta rank * quanta rank') quantaOfOne
  | .infinite negative, .infinite negative' => .infinite (negative != negative')
  | .infinite negative, .finite negative' rank =>
    if rank.val = 0 then undefined else .infinite (negative != negative')
  | .finite negative rank, .infinite negative' =>
    if rank.val = 0 then undefined else .infinite (negative != negative')
  | .nan _, _ => undefined
  | _, .nan _ => undefined

/-- The quotient. A nonzero number divided by zero is infinite, and zero by zero is `nan`. -/
def divide : Number → Number → Number
  | .finite negative rank, .finite negative' rank' =>
    if rank'.val = 0 then
      if rank.val = 0 then undefined else .infinite (negative != negative')
    else ofQuotient (negative != negative') (quanta rank * quantaOfOne) (quanta rank')
  | .infinite _, .infinite _ => undefined
  | .infinite negative, .finite negative' _ => .infinite (negative != negative')
  | .finite negative _, .infinite negative' => zero (negative != negative')
  | .nan _, _ => undefined
  | _, .nan _ => undefined

/-- The remainder of the division that rounds toward zero; it has the sign of the dividend. There
is none of an infinite dividend nor for a zero divisor. -/
def remainder : Number → Number → Number
  | .finite negative rank, .finite _ rank' =>
    if rank'.val = 0 then undefined
    else ofQuotient negative (quanta rank % quanta rank') 1
  | .finite negative rank, .infinite _ => .finite negative rank
  | .infinite _, _ => undefined
  | .nan _, _ => undefined
  | _, .nan _ => undefined

end LazyLisp.Number
