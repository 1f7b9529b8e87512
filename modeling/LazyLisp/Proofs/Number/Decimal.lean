import LazyLisp.Number.Decimal
import LazyLisp.Proofs.Number.Nearest

/-!
# Reading back decimals

Reading a decimal depends on its value only: digits moved into the exponent change nothing. The
decimal that writes a finite magnitude reads back as that magnitude.
-/

set_option autoImplicit false

namespace LazyLisp.Number

/-! ## The value of a decimal -/

/-- The rank that a decimal rounds to. -/
def Decimal.rank (decimal : Decimal) : Nat :=
  nearestRank (decimal.digits * 10 ^ decimal.exponent.toNat * quantaOfOne)
    (10 ^ (-decimal.exponent).toNat)

theorem Decimal.rank_mul_pow (digits cut : Nat) (exponent : Int) :
    Decimal.rank ⟨digits * 10 ^ cut, exponent⟩ = Decimal.rank ⟨digits, exponent + cut⟩ := by
  refine nearestRank_congr (Nat.pow_pos (by decide)) (Nat.pow_pos (by decide)) ?_
  have powers : cut + exponent.toNat + (-(exponent + cut)).toNat =
      (exponent + cut).toNat + (-exponent).toNat := by omega
  calc digits * 10 ^ cut * 10 ^ exponent.toNat * quantaOfOne * 10 ^ (-(exponent + cut)).toNat
      = digits * quantaOfOne * 10 ^ (cut + exponent.toNat + (-(exponent + cut)).toNat) := by
        rw [Nat.pow_add, Nat.pow_add]; ring
    _ = digits * quantaOfOne * 10 ^ ((exponent + cut).toNat + (-exponent).toNat) := by rw [powers]
    _ = digits * 10 ^ (exponent + cut).toNat * quantaOfOne * 10 ^ (-exponent).toNat := by
        rw [Nat.pow_add]; ring

theorem Decimal.rank_of_digits_eq_zero {decimal : Decimal} (zero : decimal.digits = 0) :
    decimal.rank = 0 := by
  refine nearestRank_of_two_mul_lt ?_
  simp [zero]

/-- A decimal without digits after its point rounds to a whole number. -/
theorem Decimal.dvd_quanta_rank {decimal : Decimal} (whole : 0 ≤ decimal.exponent) :
    quantaOfOne ∣ quanta decimal.rank := by
  have exponent : (-decimal.exponent).toNat = 0 := by omega
  rw [Decimal.rank, exponent, Nat.pow_zero]
  exact quantaOfOne_dvd_quanta_nearestRank _

/-- Each 28 digits hold more than 93 bits. -/
theorem two_pow_le_ten_pow (count : Nat) : 2 ^ (93 * count) ≤ 10 ^ (28 * count) := by
  rw [Nat.pow_mul, Nat.pow_mul]
  exact Nat.pow_le_pow_left (by decide) count

/-- A decimal with a large exponent is beyond the finite magnitudes. -/
theorem Decimal.magnitudes_le_rank {decimal : Decimal} (nonzero : decimal.digits ≠ 0)
    (large : 309 < decimal.exponent) : magnitudes ≤ decimal.rank := by
  -- The numbers are variables so that no step computes the powers.
  obtain ⟨shift, least⟩ : ∃ shift, shift = 1074 := ⟨_, rfl⟩
  obtain ⟨count, eleven⟩ : ∃ count, count = 11 := ⟨_, rfl⟩
  obtain ⟨power, next⟩ : ∃ power, decimal.exponent.toNat = 28 * count + power :=
    ⟨decimal.exponent.toNat - 28 * count, by omega⟩
  have atLeast : 2 ^ (93 * count + power + shift) ≤
      decimal.digits * 10 ^ decimal.exponent.toNat * quantaOfOne :=
    calc 2 ^ (93 * count + power + shift) = 2 ^ (93 * count) * 2 ^ power * 2 ^ shift := by
          rw [Nat.pow_add, Nat.pow_add]
      _ ≤ 10 ^ (28 * count) * 10 ^ power * 2 ^ shift :=
          Nat.mul_le_mul_right _ (Nat.mul_le_mul (two_pow_le_ten_pow count)
            (Nat.pow_le_pow_left (by decide) power))
      _ = 10 ^ decimal.exponent.toNat * quantaOfOne := by
          rw [next, Nat.pow_add, quantaOfOne_eq least]
      _ ≤ decimal.digits * 10 ^ decimal.exponent.toNat * quantaOfOne :=
          Nat.mul_le_mul_right _ (Nat.le_mul_of_pos_left _ (Nat.pos_of_ne_zero nonzero))
  have positive := Nat.lt_of_lt_of_le (Nat.two_pow_pos _) atLeast
  have whole : (-decimal.exponent).toNat = 0 := by omega
  rw [Decimal.rank, whole, Nat.pow_zero]
  refine magnitudes_le_nearestRank positive.ne' ?_
  have log := (Nat.le_log2 positive.ne').mpr atLeast
  omega

/-- A decimal far below half of the least magnitude rounds to zero. -/
theorem Decimal.rank_eq_zero {decimal : Decimal}
    (small : decimal.exponent + Nat.log2 decimal.digits + 400 < 0) : decimal.rank = 0 := by
  obtain ⟨shift, least⟩ : ∃ shift, shift = 1074 := ⟨_, rfl⟩
  obtain ⟨count, fourteen⟩ : ∃ count, count = 14 := ⟨_, rfl⟩
  obtain ⟨power, next⟩ : ∃ power,
      (-decimal.exponent).toNat = Nat.log2 decimal.digits + 28 * count + power :=
    ⟨(-decimal.exponent).toNat - (Nat.log2 decimal.digits + 28 * count), by omega⟩
  have whole : decimal.exponent.toNat = 0 := by omega
  rw [Decimal.rank, whole, Nat.pow_zero, Nat.mul_one]
  refine nearestRank_of_two_mul_lt ?_
  calc 2 * (decimal.digits * quantaOfOne) = decimal.digits * 2 ^ (shift + 1) := by
        rw [quantaOfOne_eq least, Nat.pow_succ]; ring
    _ < 2 ^ (Nat.log2 decimal.digits + 1) * 2 ^ (shift + 1) :=
        Nat.mul_lt_mul_of_pos_right Nat.lt_log2_self (Nat.two_pow_pos _)
    _ = 2 ^ (Nat.log2 decimal.digits + (shift + 2)) := by rw [← Nat.pow_add]; congr 1; ring
    _ ≤ 2 ^ (Nat.log2 decimal.digits + 93 * count + power) :=
        Nat.pow_le_pow_right (by decide) (by omega)
    _ = 2 ^ Nat.log2 decimal.digits * 2 ^ (93 * count) * 2 ^ power := by
        rw [Nat.pow_add, Nat.pow_add]
    _ ≤ 10 ^ Nat.log2 decimal.digits * 10 ^ (28 * count) * 10 ^ power :=
        Nat.mul_le_mul (Nat.mul_le_mul (Nat.pow_le_pow_left (by decide) _)
          (two_pow_le_ten_pow count)) (Nat.pow_le_pow_left (by decide) power)
    _ = 10 ^ (-decimal.exponent).toNat := by rw [next, Nat.pow_add, Nat.pow_add]

/-- Reading a decimal rounds its value, also where that is decided by the exponent alone. -/
theorem ofDecimal_eq_ofRank (negative : Bool) (decimal : Decimal) :
    ofDecimal negative decimal = ofRank negative decimal.rank := by
  obtain ⟨digits, exponent⟩ := decimal
  simp only [ofDecimal]
  split
  next zero => rw [Decimal.rank_of_digits_eq_zero zero, Number.zero]
  next nonzero =>
    split
    next large =>
      have beyond := @Decimal.magnitudes_le_rank ⟨digits, exponent⟩ nonzero large
      rw [ofRank, dif_neg (Nat.not_lt.mpr beyond)]
    next =>
      split
      next small => rw [Decimal.rank_eq_zero small, Number.zero]
      next =>
        cases exponent with
        | ofNat power => simp [ofQuotient, Decimal.rank]
        | negSucc power => simp [ofQuotient, Decimal.rank]

/-! ## The decimal that writes a magnitude -/

theorem ofRank_injective {negative : Bool} {rank rank' : Nat} (finite : rank < magnitudes)
    (same : ofRank negative rank' = ofRank negative rank) : rank' = rank := by
  simp only [ofRank, finite, dif_pos] at same
  split at same
  · injection same with _ ranks
    exact congrArg Fin.val ranks
  · cases same

/-- The exact decimal of a magnitude has its rank. -/
theorem rank_exactDecimal (rank : Nat) : (exactDecimal rank).rank = rank := by
  obtain ⟨power, value⟩ : ∃ power, power = 1074 := ⟨_, rfl⟩
  have exponent : (exactDecimal rank).exponent = -(power : Int) := by rw [value]; rfl
  have digits : (exactDecimal rank).digits = quanta rank * 5 ^ power := by
    simp only [exactDecimal]
    rw [← value, Nat.pow_eq]
  have scale : 5 ^ power * 2 ^ power = 10 ^ power := (Nat.mul_pow 5 2 power).symm
  rw [Decimal.rank, exponent, digits, quantaOfOne_eq value]
  calc nearestRank (quanta rank * 5 ^ power * 10 ^ (-(power : Int)).toNat * 2 ^ power)
        (10 ^ (- -(power : Int)).toNat)
      = nearestRank (quanta rank * 10 ^ power) (1 * 10 ^ power) := by
        rw [Int.neg_neg, Int.toNat_natCast, ← scale]
        simp [Nat.mul_assoc]
    _ = rank := by rw [nearestRank_scale (Nat.pow_pos (by decide)), nearestRank_quanta]

/-- The decimal that writes a finite magnitude reads back. -/
theorem rank_shortestDecimal {rank : Nat} (finite : rank < magnitudes) :
    (shortestDecimal rank).rank = rank := by
  simp only [shortestDecimal]
  cases found : List.find? (fun decimal => ofDecimal false decimal == ofRank false rank) _ with
  | none => exact rank_exactDecimal rank
  | some decimal =>
      have same := List.find?_some found
      rw [beq_iff_eq, ofDecimal_eq_ofRank] at same
      exact ofRank_injective finite same

end LazyLisp.Number
