import LazyLisp.Text.Basic
import LazyLisp.Number.Decimal

/-!
# The text of a number

A whole number is written with all its digits and without a point, except that negative zero is
`-0.0`. Any other finite number is written with the fewest digits that read back, and with an
exponent only below one ten-thousandth. The others are `inf`, `-inf` and `nan`.
-/

set_option autoImplicit false

namespace LazyLisp.Number

def withSign (negative : Bool) (text : Text) : Text :=
  if negative then '-' :: text else text

/-- The text of a decimal that is not whole. The exponent has at least two digits. -/
def Decimal.render (decimal : Decimal) : Text :=
  let digits := Nat.toDigits 10 decimal.digits
  let point := digits.length + decimal.exponent
  let kept := (digits.reverse.dropWhile (· == '0')).reverse
  if point < -3 then
    let exponent := Nat.toDigits 10 (1 - point).toNat
    kept.take 1 ++ (if kept.length ≤ 1 then [] else '.' :: kept.drop 1) ++
      'e' :: '-' :: (List.replicate (2 - exponent.length) '0' ++ exponent)
  else if point ≤ 0 then
    '0' :: '.' :: (List.replicate (-point).toNat '0' ++ kept)
  else
    kept.take point.toNat ++ '.' :: kept.drop point.toNat

def renderFinite (negative : Bool) (rank : Nat) : Text :=
  if rank = 0 then
    if negative then ['-', '0', '.', '0'] else ['0']
  else if quanta rank % quantaOfOne = 0 then
    withSign negative (Nat.toDigits 10 (quanta rank / quantaOfOne))
  else
    withSign negative (shortestDecimal rank).render

/-- The text of a number, which reads back as the same number. -/
def render : Number → Text
  | .nan _ => ['n', 'a', 'n']
  | .infinite negative => withSign negative ['i', 'n', 'f']
  | .finite negative rank => renderFinite negative rank.val

end LazyLisp.Number
