import LazyLisp.Number.Arithmetic
import LazyLisp.Proofs.Number.Nearest

/-!
# Whole numbers

The natural numbers up to the 53rd power of two are numbers exactly, and so are their sums as long
as these are no greater.
-/

set_option autoImplicit false

namespace LazyLisp.Number

theorem exists_quanta_eq_mul {number : Nat} (positive : 0 < number) (small : number ≤ 2 ^ 53) :
    ∃ rank < magnitudes, quanta rank = number * quantaOfOne := by
  -- The significand is the number shifted to 53 bits.
  let missing := 52 - Nat.log2 number
  have least : 2 ^ Nat.log2 number ≤ number := Nat.log2_self_le (Nat.ne_of_gt positive)
  have most : number < 2 ^ (Nat.log2 number + 1) := Nat.lt_log2_self
  have low : runLength ≤ number * 2 ^ missing :=
    calc runLength ≤ 2 ^ (Nat.log2 number + missing) :=
          Nat.pow_le_pow_right (by decide) (by omega)
      _ = 2 ^ Nat.log2 number * 2 ^ missing := Nat.pow_add ..
      _ ≤ number * 2 ^ missing := Nat.mul_le_mul_right _ least
  have high : number * 2 ^ missing ≤ 2 * runLength := by
    rcases Nat.le_total 52 (Nat.log2 number) with wide | narrow
    · rw [show missing = 0 by omega, Nat.pow_zero, Nat.mul_one]
      exact small
    · calc number * 2 ^ missing ≤ 2 ^ (Nat.log2 number + 1) * 2 ^ missing :=
            Nat.mul_le_mul_right _ most.le
        _ = 2 ^ 53 := by rw [← Nat.pow_add]; congr 1; omega
  refine ⟨(1074 - missing) * runLength + number * 2 ^ missing, ?_, ?_⟩
  · calc (1074 - missing) * runLength + number * 2 ^ missing
        ≤ 1074 * runLength + 2 * runLength :=
          Nat.add_le_add (Nat.mul_le_mul_right _ (Nat.sub_le ..)) high
      _ = 1076 * runLength := by ring
      _ < magnitudes := Nat.mul_lt_mul_of_pos_right (by decide) (Nat.two_pow_pos 52)
  · have fine : missing ≤ 1074 := by omega
    rw [quanta_of_significand low high, quantaOfOne_eq_mul fine]
    ring

/-- A natural number that is not too great is finite, and it is that many ones. -/
theorem ofNat_eq_finite {number : Nat} (small : number ≤ 2 ^ 53) :
    ∃ rank, ofNat number = .finite false rank ∧ quanta rank = number * quantaOfOne := by
  obtain ⟨rank, isFinite, exact⟩ :
      ∃ rank < magnitudes, quanta rank = number * quantaOfOne := by
    rcases Nat.eq_zero_or_pos number with rfl | positive
    · refine ⟨0, Nat.mul_pos (by decide) (Nat.two_pow_pos 52), ?_⟩
      rw [quanta_of_lt (Nat.two_pow_pos 52), Nat.zero_mul]
    · exact exists_quanta_eq_mul positive small
  refine ⟨⟨rank, isFinite⟩, ?_, exact⟩
  rw [ofNat, ofQuotient, ← exact, nearestRank_quanta, ofRank, dif_pos isFinite]

theorem add_ofNat {first second : Nat} (small : first + second ≤ 2 ^ 53) :
    add (ofNat first) (ofNat second) = ofNat (first + second) := by
  obtain ⟨rank, isFirst, exact⟩ := ofNat_eq_finite (Nat.le_trans (Nat.le_add_right ..) small)
  obtain ⟨rank', isSecond, exact'⟩ := ofNat_eq_finite (Nat.le_trans (Nat.le_add_left ..) small)
  have sum : signedQuanta false rank + signedQuanta false rank' =
      ((first + second) * quantaOfOne : Nat) := by
    simp only [signedQuanta, Bool.false_eq_true, if_false, exact, exact']
    push_cast
    ring
  rw [isFirst, isSecond]
  simp only [add, sum, Bool.and_false]
  split
  next isZero =>
    rw [Int.natCast_eq_zero] at isZero
    rw [ofNat, isZero]
    rfl
  next =>
    have notNegative : ¬ ((first + second) * quantaOfOne : Nat) < (0 : Int) := by omega
    rw [ofNat, decide_eq_false notNegative, Int.natAbs_natCast]

end LazyLisp.Number
