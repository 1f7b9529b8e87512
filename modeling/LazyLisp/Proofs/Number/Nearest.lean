import LazyLisp.Number.Rounding
import Mathlib.Tactic.Positivity
import Mathlib.Tactic.Ring

/-!
# Nearest magnitudes

Rounding a quotient depends on its value only, gives a magnitude back unchanged, and rounds a whole
number to a whole number. Beyond both ends of the finite magnitudes it gives infinity and zero.
-/

set_option autoImplicit false

namespace LazyLisp.Number

theorem runLength_eq : runLength = 2 ^ 52 := rfl

theorem quantaOfOne_eq {power : Nat} (value : power = 1074) : quantaOfOne = 2 ^ power := by
  unfold quantaOfOne
  rw [← value, Nat.pow_eq]

theorem runLength_le_quantaOfOne : runLength ≤ quantaOfOne := by
  -- The exponent is a variable so that no step computes the power.
  obtain ⟨power, value⟩ : ∃ power, power = 1074 := ⟨_, rfl⟩
  rw [runLength_eq, quantaOfOne_eq value]
  exact Nat.pow_le_pow_right (by decide) (by omega)

theorem quantaOfOne_eq_mul {shift : Nat} (fine : shift ≤ 1074) :
    quantaOfOne = 2 ^ (1074 - shift) * 2 ^ shift := by
  rw [quantaOfOne_eq (Nat.sub_add_cancel fine), Nat.pow_add]

theorem quantaOfOne_dvd_two_pow {shift : Nat} (coarse : 1074 ≤ shift) :
    quantaOfOne ∣ 2 ^ shift := by
  obtain ⟨power, value⟩ : ∃ power, power = 1074 := ⟨_, rfl⟩
  rw [quantaOfOne_eq value]
  exact Nat.pow_dvd_pow 2 (value ▸ coarse)

/-! ## Runs of magnitudes -/

theorem quanta_of_lt {rank : Nat} (low : rank < runLength) : quanta rank = rank := if_pos low

/-- A significand of 53 bits stands at the distance of its run; the next power of two, which
rounding up may give, is the first of the next run. -/
theorem quanta_of_significand {shift significand : Nat} (low : runLength ≤ significand)
    (high : significand ≤ 2 * runLength) :
    quanta (shift * runLength + significand) = significand * 2 ^ shift := by
  have positive : 0 < runLength := Nat.two_pow_pos 52
  have notFirst : ¬ shift * runLength + significand < runLength :=
    Nat.not_lt.mpr (Nat.le_trans low (Nat.le_add_left ..))
  rw [quanta, if_neg notFirst]
  rcases Nat.lt_or_eq_of_le high with inside | rfl
  · obtain ⟨rest, rfl⟩ := Nat.exists_eq_add_of_le low
    have small : rest < runLength := by omega
    have split : shift * runLength + (runLength + rest) = rest + (shift + 1) * runLength := by ring
    rw [split, Nat.add_mul_mod_self_right, Nat.add_mul_div_right _ _ positive,
      Nat.mod_eq_of_lt small, Nat.div_eq_of_lt small, Nat.zero_add, Nat.add_sub_cancel]
    rfl
  · have split : shift * runLength + 2 * runLength = 0 + (shift + 2) * runLength := by ring
    rw [split, Nat.add_mul_mod_self_right, Nat.add_mul_div_right _ _ positive, Nat.zero_mod,
      Nat.zero_div, Nat.zero_add, show shift + 2 - 1 = shift + 1 from rfl, Nat.add_zero]
    change runLength * 2 ^ (shift + 1) = _
    ring

/-- A rank beyond the first run is that of a significand of 53 bits. -/
theorem exists_significand {rank : Nat} (high : runLength ≤ rank) :
    ∃ shift significand, rank = shift * runLength + significand ∧ runLength ≤ significand ∧
      significand < 2 * runLength := by
  have positive : 0 < runLength := Nat.two_pow_pos 52
  have below : rank % runLength < runLength := Nat.mod_lt _ positive
  have whole : runLength * (rank / runLength) + rank % runLength = rank := Nat.div_add_mod ..
  have one : 1 ≤ rank / runLength := (Nat.one_le_div_iff positive).mpr high
  obtain ⟨shift, next⟩ := Nat.exists_eq_add_of_le one
  refine ⟨shift, runLength + rank % runLength, ?_, Nat.le_add_right .., by omega⟩
  calc rank = runLength * (1 + shift) + rank % runLength := by rw [← next, whole]
    _ = shift * runLength + (runLength + rank % runLength) := by ring

/-! ## Rounding -/

theorem nearestWhole_mul {denominator : Nat} (positive : 0 < denominator) (whole : Nat) :
    nearestWhole (whole * denominator) denominator = whole := by
  have nonzero : ¬ 0 = denominator := by omega
  simp [nearestWhole, Nat.mul_div_cancel _ positive, nonzero]

theorem le_nearestWhole {numerator denominator bound : Nat} (positive : 0 < denominator)
    (low : bound * denominator ≤ numerator) : bound ≤ nearestWhole numerator denominator := by
  have below : bound ≤ numerator / denominator := (Nat.le_div_iff_mul_le positive).mpr low
  simp only [nearestWhole]
  split
  · exact Nat.le_succ_of_le below
  · exact below

theorem nearestWhole_le {numerator denominator bound : Nat}
    (high : numerator < bound * denominator) : nearestWhole numerator denominator ≤ bound := by
  have below : numerator / denominator < bound := Nat.div_lt_of_lt_mul (by rwa [Nat.mul_comm])
  simp only [nearestWhole]
  split <;> omega

theorem nearestWhole_scale {factor : Nat} (positive : 0 < factor) (numerator denominator : Nat) :
    nearestWhole (numerator * factor) (denominator * factor) =
      nearestWhole numerator denominator := by
  have double :
      2 * (numerator % denominator * factor) = 2 * (numerator % denominator) * factor := by
    ring
  simp only [nearestWhole, Nat.mul_div_mul_right _ _ positive, Nat.mul_mod_mul_right, double,
    Nat.mul_lt_mul_right positive]
  congr 4
  exact Bool.eq_iff_iff.mpr (by simp [Nat.mul_left_inj positive.ne'])

theorem nearestRank_scale {factor : Nat} (positive : 0 < factor) (numerator denominator : Nat) :
    nearestRank (numerator * factor) (denominator * factor) =
      nearestRank numerator denominator := by
  have scaled : ∀ power, denominator * factor * power = denominator * power * factor := by
    intro power; ring
  simp only [nearestRank, Nat.mul_div_mul_right _ _ positive, scaled,
    nearestWhole_scale positive]

theorem nearestRank_congr {numerator denominator numerator' denominator' : Nat}
    (positive : 0 < denominator) (positive' : 0 < denominator')
    (same : numerator * denominator' = numerator' * denominator) :
    nearestRank numerator denominator = nearestRank numerator' denominator' := by
  rw [← nearestRank_scale positive', ← nearestRank_scale positive numerator', same,
    Nat.mul_comm denominator]

/-- A magnitude is nearest to itself. -/
theorem nearestRank_quanta (rank : Nat) : nearestRank (quanta rank) 1 = rank := by
  rcases Nat.lt_or_ge rank runLength with low | high
  · have shift : Nat.log2 rank - 52 = 0 := by
      by_cases zero : rank = 0
      · simp [zero]
      · have := (Nat.log2_lt zero).mpr (runLength_eq ▸ low)
        omega
    have whole : nearestWhole rank 1 = rank := by
      simpa using nearestWhole_mul Nat.one_pos rank
    simp [nearestRank, quanta_of_lt low, shift, whole]
  · obtain ⟨shift, significand, rfl, least, most⟩ := exists_significand high
    have power : 0 < 2 ^ shift := Nat.two_pow_pos shift
    have log : Nat.log2 (significand * 2 ^ shift) = 52 + shift := by
      rw [runLength_eq] at least most
      refine (Nat.log2_eq_iff (by positivity)).mpr ⟨?_, ?_⟩
      · calc 2 ^ (52 + shift) = 2 ^ 52 * 2 ^ shift := Nat.pow_add ..
          _ ≤ significand * 2 ^ shift := Nat.mul_le_mul_right _ least
      · calc significand * 2 ^ shift < 2 * 2 ^ 52 * 2 ^ shift :=
              Nat.mul_lt_mul_of_pos_right most power
          _ = 2 ^ (52 + shift + 1) := by ring
    simp only [nearestRank, quanta_of_significand least most.le, Nat.div_one, log,
      Nat.add_sub_cancel_left, Nat.one_mul]
    rw [show Nat.pow 2 shift = 2 ^ shift from rfl, nearestWhole_mul power]

/-- What rounds to a rank beyond the first run is a significand of 53 bits or the power of two after
those. -/
theorem nearestRank_eq_significand {numerator : Nat} (high : runLength ≤ numerator) :
    ∃ significand, nearestRank numerator 1 =
        (Nat.log2 numerator - 52) * runLength + significand ∧
      significand = nearestWhole numerator (2 ^ (Nat.log2 numerator - 52)) ∧
      runLength ≤ significand ∧ significand ≤ 2 * runLength := by
  have nonzero : numerator ≠ 0 := by
    rintro rfl
    exact absurd high (by decide)
  rw [runLength_eq] at high ⊢
  have log : 52 ≤ Nat.log2 numerator := (Nat.le_log2 nonzero).mpr high
  refine ⟨nearestWhole numerator (2 ^ (Nat.log2 numerator - 52)), ?_, rfl, ?_, ?_⟩
  · simp only [nearestRank, Nat.div_one, Nat.one_mul]
    rfl
  · refine le_nearestWhole (Nat.two_pow_pos _) ?_
    rw [← Nat.pow_add, Nat.add_sub_cancel' log]
    exact Nat.log2_self_le nonzero
  · refine nearestWhole_le ?_
    rw [← Nat.pow_succ', ← Nat.pow_add, show 52 + 1 + (Nat.log2 numerator - 52) =
      Nat.log2 numerator + 1 by omega]
    exact Nat.lt_log2_self

/-- The magnitude nearest to a whole number is a whole number. -/
theorem quantaOfOne_dvd_quanta_nearestRank (number : Nat) :
    quantaOfOne ∣ quanta (nearestRank (number * quantaOfOne) 1) := by
  rcases Nat.eq_zero_or_pos number with rfl | positive
  · rw [Nat.zero_mul, show nearestRank 0 1 = 0 from rfl, quanta_of_lt (Nat.two_pow_pos 52)]
    exact Nat.dvd_zero _
  · have high : runLength ≤ number * quantaOfOne :=
      calc runLength ≤ quantaOfOne := runLength_le_quantaOfOne
        _ ≤ number * quantaOfOne := Nat.le_mul_of_pos_left _ positive
    obtain ⟨significand, rank, rounded, least, most⟩ := nearestRank_eq_significand high
    rw [rank, quanta_of_significand least most, rounded]
    generalize Nat.log2 (number * quantaOfOne) - 52 = shift
    rcases Nat.le_total 1074 shift with coarse | fine
    · exact Dvd.dvd.mul_left (quantaOfOne_dvd_two_pow coarse) _
    -- Below that distance the whole number is itself a multiple of the distance.
    · have exact : number * quantaOfOne = number * 2 ^ (1074 - shift) * 2 ^ shift := by
        rw [Nat.mul_assoc, ← quantaOfOne_eq_mul fine]
      rw [exact, nearestWhole_mul (Nat.two_pow_pos shift), ← exact]
      exact Nat.dvd_mul_left ..

/-! ## Beyond the finite magnitudes -/

/-- From the 2098th power of two on, a number of quanta rounds to infinity. -/
theorem magnitudes_le_nearestRank {numerator : Nat} (nonzero : numerator ≠ 0)
    (log : 2098 ≤ Nat.log2 numerator) : magnitudes ≤ nearestRank numerator 1 := by
  have first : runLength ≤ numerator := (Nat.le_log2 nonzero).mp (by omega)
  obtain ⟨significand, rank, -, least, -⟩ := nearestRank_eq_significand first
  calc magnitudes = 2046 * runLength + runLength := by rw [magnitudes]; ring
    _ ≤ (Nat.log2 numerator - 52) * runLength + significand :=
      Nat.add_le_add (Nat.mul_le_mul_right _ (by omega)) least
    _ = nearestRank numerator 1 := rank.symm

/-- A quotient below one half rounds to zero. -/
theorem nearestRank_of_two_mul_lt {numerator denominator : Nat}
    (low : 2 * numerator < denominator) : nearestRank numerator denominator = 0 := by
  have below : numerator / denominator = 0 := Nat.div_eq_of_lt (by omega)
  have rest : numerator % denominator = numerator := Nat.mod_eq_of_lt (by omega)
  have notAbove : ¬ denominator < 2 * numerator := by omega
  simp [nearestRank, nearestWhole, below, rest, notAbove]

end LazyLisp.Number
