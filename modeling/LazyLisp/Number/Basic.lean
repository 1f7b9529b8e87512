/-!
# Numbers

A number is a binary floating-point datum of 64 bits: a finite magnitude with a sign, an infinity
with a sign, or `nan`. The finite magnitudes are numbered from zero in increasing order, and each
is a whole number of quanta, the quantum being the least positive magnitude.

A `nan` remembers where it was written. Numbers are compared without regard to it; it only tells
whether two lists hold the same written `nan`.
-/

set_option autoImplicit false

namespace LazyLisp

/-- Where a `nan` comes from: from a computation, or from one of those written in a prelude or in
a program, each counted from zero in the order they were read. -/
inductive NanOrigin where
  | computed
  | prelude (serial : Nat)
  | program (serial : Nat)
  deriving DecidableEq, Repr

namespace Number

/-- How many magnitudes share an exponent; these lie at equal distances. -/
def runLength : Nat := Nat.pow 2 52

/-- How many finite magnitudes there are: a run for each of 2047 exponents. -/
def magnitudes : Nat := 2047 * runLength

/-- How many quanta make one. -/
def quantaOfOne : Nat := Nat.pow 2 1074

/-- The finite magnitude of a rank, in quanta. In the first two runs the magnitudes lie one quantum
apart, and the distance doubles from each later run to the next. -/
def quanta (rank : Nat) : Nat :=
  if rank < runLength then rank
  else (runLength + rank % runLength) * Nat.pow 2 (rank / runLength - 1)

end Number

/-- A floating-point number of 64 bits. -/
inductive Number where
  | nan (origin : NanOrigin)
  | infinite (negative : Bool)
  | finite (negative : Bool) (rank : Fin Number.magnitudes)
  deriving DecidableEq, Repr

namespace Number

/-- The magnitude of the given rank with a sign; a rank beyond the finite ones is infinite. -/
def ofRank (negative : Bool) (rank : Nat) : Number :=
  if finite : rank < magnitudes then .finite negative ⟨rank, finite⟩ else .infinite negative

def zero (negative : Bool) : Number := ofRank negative 0

/-- The bit of a 64-bit word that tells the sign. -/
def signBit : Nat := Nat.pow 2 63

/-- The 64-bit word that encodes a number, with one word for every `nan`. -/
def word : Number → Nat
  | .nan _ => 0x7FF8000000000000
  | .infinite negative => (if negative then signBit else 0) + magnitudes
  | .finite negative rank => (if negative then signBit else 0) + rank.val

/-- The number that a 64-bit word encodes. -/
def ofWord (word : Nat) : Number :=
  let negative := decide (signBit ≤ word)
  let rank := word % signBit
  if rank ≤ magnitudes then ofRank negative rank else .nan .computed

/-- Equality of numbers: `nan` differs from everything, and the two zeros are equal. -/
def equals : Number → Number → Bool
  | .infinite negative, .infinite negative' => negative == negative'
  | .finite negative rank, .finite negative' rank' =>
    rank == rank' && (rank.val == 0 || negative == negative')
  | _, _ => false

theorem equals_comm (left right : Number) : left.equals right = right.equals left := by
  cases left with
  | nan => cases right <;> rfl
  | infinite negative =>
      cases right with
      | infinite negative' => exact Bool.beq_comm
      | nan | finite => rfl
  | finite negative rank =>
      cases right with
      | finite negative' rank' =>
          simp only [equals]
          rw [Bool.beq_comm (a := negative), BEq.comm (a := rank)]
          by_cases same : rank' = rank
          · rw [same]
          · simp only [beq_eq_false_iff_ne.mpr same, Bool.false_and]
      | nan | infinite => rfl

theorem equals_self_iff {number : Number} :
    number.equals number = true ↔ ∀ origin, number ≠ .nan origin := by
  cases number <;> simp [equals]

end Number

end LazyLisp
