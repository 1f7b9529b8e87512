import LazyLisp.Number.Rounding

/-!
# Decimals

Reading a decimal gives the number nearest to it. Writing a number finds the decimal of the fewest
digits that reads back as the number, and of those the one nearest to it.
-/

set_option autoImplicit false

namespace LazyLisp.Number

/-- The decimal `digits * 10 ^ exponent`. -/
structure Decimal where
  digits : Nat
  exponent : Int
  deriving DecidableEq, Repr

/-- The number nearest to a decimal with a sign. Exponents that put every nonzero decimal of the
given digits beyond the largest magnitude, or below half of the least one, are decided without
raising ten to them. -/
def ofDecimal (negative : Bool) (decimal : Decimal) : Number :=
  if decimal.digits = 0 then zero negative
  else if 309 < decimal.exponent then .infinite negative
  else if decimal.exponent + Nat.log2 decimal.digits + 400 < 0 then zero negative
  else
    match decimal.exponent with
    | .ofNat exponent => ofQuotient negative (decimal.digits * Nat.pow 10 exponent * quantaOfOne) 1
    | .negSucc exponent =>
      ofQuotient negative (decimal.digits * quantaOfOne) (Nat.pow 10 (exponent + 1))

/-- The exact decimal of a finite magnitude. -/
def exactDecimal (rank : Nat) : Decimal := ⟨quanta rank * Nat.pow 5 1074, -1074⟩

/-- The two decimals around a decimal that leave out its last `cut` digits, the nearer one first;
halfway between them the one with the even last digit comes first. -/
def Decimal.shortened (decimal : Decimal) (cut : Nat) : List Decimal :=
  let unit := Nat.pow 10 cut
  let below := decimal.digits / unit
  let rest := decimal.digits % unit
  let lower : Decimal := ⟨below, decimal.exponent + cut⟩
  let upper : Decimal := ⟨below + 1, decimal.exponent + cut⟩
  if 2 * rest < unit || (2 * rest == unit && below % 2 == 0) then [lower, upper]
  else [upper, lower]

/-- The decimal of the fewest digits that reads back as the finite magnitude of the given rank.
Seventeen digits are always enough; the exact decimal reads back in any case. -/
def shortestDecimal (rank : Nat) : Decimal :=
  let exact := exactDecimal rank
  let length := (Nat.toDigits 10 exact.digits).length
  let candidates := (List.range 17).flatMap fun kept => exact.shortened (length - (kept + 1))
  (candidates.find? fun decimal => ofDecimal false decimal == ofRank false rank).getD exact

end LazyLisp.Number
