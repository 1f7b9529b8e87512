import LazyLisp.Number.Basic

/-!
# Rounding to a number

A quotient of natural numbers is rounded to the nearest finite magnitude, a tie to the one of even
rank, and to infinity from half a step above the largest magnitude on.
-/

set_option autoImplicit false

namespace LazyLisp.Number

/-- The whole number nearest to a quotient; halfway between two it is the even one. -/
def nearestWhole (numerator denominator : Nat) : Nat :=
  let below := numerator / denominator
  let rest := numerator % denominator
  if denominator < 2 * rest || (2 * rest == denominator && below % 2 == 1) then below + 1 else below

/-- The rank of the magnitude nearest to a quotient of quanta. From `2 ^ 53` quanta on, the
magnitudes around the quotient are `2 ^ shift` quanta apart, where the shift leaves 53 bits of the
whole part; the ranks of that run are the multiples of the distance, offset by the length of a run
for each bit of the shift. -/
def nearestRank (numerator denominator : Nat) : Nat :=
  let shift := Nat.log2 (numerator / denominator) - 52
  shift * runLength + nearestWhole numerator (denominator * Nat.pow 2 shift)

/-- The number nearest to a quotient of quanta with a sign. -/
def ofQuotient (negative : Bool) (numerator denominator : Nat) : Number :=
  ofRank negative (nearestRank numerator denominator)

def ofNat (number : Nat) : Number := ofQuotient false (number * quantaOfOne) 1

/-- The number nearest to an integer. Zero is positive. -/
def ofInt (number : Int) : Number :=
  ofQuotient (decide (number < 0)) (number.natAbs * quantaOfOne) 1

end LazyLisp.Number
