import LazyLisp.Number.Display
import LazyLisp.Proofs.Number.Decimal
import LazyLisp.Proofs.Reader.Literal
import Mathlib.Data.List.DropRight

/-!
# The text of a number as a literal

The text of every number is a literal that denotes the number, bit for bit. Only where a `nan` was
written is not part of its text.
-/

set_option autoImplicit false

namespace LazyLisp

/-- The number as it is read from its text: nothing tells where a `nan` was written. -/
def Number.unmarked : Number → Number
  | .nan _ => .nan .computed
  | number => number

namespace Number

open Reader

/-! ## Digits -/

def asciiValue (char : Char) : Nat := char.toNat - '0'.toNat

theorem digitValue?_of_isDigit {char : Char} (digit : char.isDigit = true) :
    Text.digitValue? char = some (asciiValue char) := by
  simp only [Char.isDigit, Bool.and_eq_true, decide_eq_true_eq, ge_iff_le, UInt32.le_iff_toNat_le]
    at digit
  have least : 48 ≤ char.toNat := digit.1
  have most : char.toNat < 48 + 10 := Nat.lt_succ_of_le digit.2
  simp [Text.digitValue?, Text.zeroCodes, least, most, asciiValue]

theorem digitsText_of_isDigit {text : Text} (digits : ∀ char ∈ text, char.isDigit = true) :
    DigitsText (text.map asciiValue) text := by
  simp only [DigitsText, List.map_map]
  exact List.map_congr_left fun char member => digitValue?_of_isDigit (digits char member)

theorem ofDigits_map_asciiValue (text : Text) :
    Text.ofDigits (text.map asciiValue) = Nat.ofDigitChars 10 text 0 := by
  simp only [Text.ofDigits, List.foldl_map, Nat.ofDigitChars, asciiValue, Nat.mul_comm]

theorem isDigit_of_mem_toDigits {number : Nat} {char : Char}
    (member : char ∈ Nat.toDigits 10 number) : char.isDigit = true :=
  Nat.isDigit_of_mem_toDigits (by decide) (by decide) member

theorem ofDigitChars_zeros_append (count : Nat) (text : Text) :
    Nat.ofDigitChars 10 (List.replicate count '0' ++ text) 0 = Nat.ofDigitChars 10 text 0 := by
  rw [Nat.ofDigitChars_append, Nat.ofDigitChars_replicate_zero, Nat.mul_zero]

/-! ## Decimals without their trailing zeros -/

/-- The digits that are written, without the zeros at their end. -/
def Decimal.kept (decimal : Decimal) : Text :=
  (Nat.toDigits 10 decimal.digits).rdropWhile (· == '0')

/-- How many of the digits stand before the point. -/
def Decimal.point (decimal : Decimal) : Int :=
  (Nat.toDigits 10 decimal.digits).length + decimal.exponent

/-- The decimal of the same value whose digits are the ones that are written. -/
def Decimal.stripped (decimal : Decimal) : Decimal :=
  ⟨Nat.ofDigitChars 10 decimal.kept 0, decimal.point - decimal.kept.length⟩

theorem Decimal.exists_zeros (decimal : Decimal) :
    ∃ count, Nat.toDigits 10 decimal.digits = decimal.kept ++ List.replicate count '0' := by
  refine ⟨((Nat.toDigits 10 decimal.digits).reverse.takeWhile (· == '0')).length, ?_⟩
  have zeros : ((Nat.toDigits 10 decimal.digits).reverse.takeWhile (· == '0')).reverse =
      List.replicate
        ((Nat.toDigits 10 decimal.digits).reverse.takeWhile (· == '0')).length '0' := by
    refine List.eq_replicate_iff.mpr ⟨List.length_reverse, fun char member => ?_⟩
    simpa using List.mem_takeWhile_imp (List.mem_reverse.mp member)
  rw [← zeros, Decimal.kept, List.rdropWhile, ← List.reverse_append,
    List.takeWhile_append_dropWhile, List.reverse_reverse]

theorem Decimal.isDigit_of_mem_kept {decimal : Decimal} {char : Char}
    (member : char ∈ decimal.kept) : char.isDigit = true := by
  obtain ⟨count, split⟩ := decimal.exists_zeros
  exact isDigit_of_mem_toDigits (split ▸ List.mem_append_left _ member)

theorem Decimal.kept_ne_nil {decimal : Decimal} (nonzero : decimal.digits ≠ 0) :
    decimal.kept ≠ [] := by
  intro empty
  obtain ⟨count, split⟩ := decimal.exists_zeros
  have value := Nat.ofDigitChars_ten_toDigits (n := decimal.digits)
  rw [split, empty, List.nil_append, Nat.ofDigitChars_replicate_zero, Nat.mul_zero] at value
  exact nonzero value.symm

theorem Decimal.rank_stripped (decimal : Decimal) : decimal.stripped.rank = decimal.rank := by
  obtain ⟨count, split⟩ := decimal.exists_zeros
  have value : decimal.digits = Nat.ofDigitChars 10 decimal.kept 0 * 10 ^ count := by
    conv_lhs => rw [← Nat.ofDigitChars_ten_toDigits (n := decimal.digits), split]
    rw [Nat.ofDigitChars_append, Nat.ofDigitChars_replicate_zero, Nat.mul_comm]
  have exponent : decimal.point - decimal.kept.length = decimal.exponent + count := by
    have length := congrArg List.length split
    simp only [List.length_append, List.length_replicate] at length
    rw [Decimal.point, length]
    push_cast
    ring
  obtain ⟨digits, power⟩ := decimal
  rw [Decimal.stripped, exponent, ← Decimal.rank_mul_pow, ← value]

/-! ## Literals of decimals -/

/-- The digits of an exponent after its minus sign, two at least. -/
def exponentDigits (size : Nat) : Text :=
  List.replicate (2 - (Nat.toDigits 10 size).length) '0' ++ Nat.toDigits 10 size

theorem digitsText_exponentDigits (size : Nat) :
    DigitsText ((exponentDigits size).map asciiValue) (exponentDigits size) := by
  refine digitsText_of_isDigit fun char member => ?_
  rcases List.mem_append.mp member with zero | digit
  · rw [List.eq_of_mem_replicate zero]
    rfl
  · exact isDigit_of_mem_toDigits digit

theorem exponentText_exponentDigits (size : Nat) :
    ExponentText (-(size : Int)) ('e' :: '-' :: exponentDigits size) := by
  have value : Text.ofDigits ((exponentDigits size).map asciiValue) = size := by
    rw [ofDigits_map_asciiValue, exponentDigits, ofDigitChars_zeros_append,
      Nat.ofDigitChars_ten_toDigits]
  have nonempty : (exponentDigits size).map asciiValue ≠ [] := by
    simp [exponentDigits, Nat.toDigits_ne_nil]
  have text := ExponentText.power (.inl rfl) .minus (digitsText_exponentDigits size) nonempty
  rwa [if_pos rfl, value] at text

theorem signText_withSign (negative : Bool) :
    ∃ signText, SignText negative signText ∧ ∀ text, withSign negative text = signText ++ text := by
  cases negative with
  | false => exact ⟨[], .none, fun _ => rfl⟩
  | true => exact ⟨['-'], .minus, fun _ => rfl⟩

/-- A mantissa and an exponent of ASCII digits denote the decimal of those digits. -/
theorem literal_withSign (negative : Bool) (before after : Text) {mantissa powerText : Text}
    {power : Int} {decimal : Decimal}
    (mantissaText : MantissaText (before.map asciiValue) (after.map asciiValue) mantissa)
    (powerDigits : ExponentText power powerText)
    (digits : decimal.digits = Nat.ofDigitChars 10 (before ++ after) 0)
    (exponent : decimal.exponent = power - after.length) :
    Literal (ofDecimal negative decimal) (withSign negative (mantissa ++ powerText)) := by
  obtain ⟨signText, signed, spelled⟩ := signText_withSign negative
  have literal := Literal.decimal signed mantissaText powerDigits
  rw [← List.map_append, ofDigits_map_asciiValue, List.length_map, ← digits, ← exponent,
    List.append_assoc] at literal
  rw [spelled]
  exact literal

theorem Decimal.digitsText_take (decimal : Decimal) (count : Nat) :
    DigitsText ((decimal.kept.take count).map asciiValue) (decimal.kept.take count) :=
  digitsText_of_isDigit fun _ member => isDigit_of_mem_kept (List.mem_of_mem_take member)

theorem Decimal.digitsText_drop (decimal : Decimal) (count : Nat) :
    DigitsText ((decimal.kept.drop count).map asciiValue) (decimal.kept.drop count) :=
  digitsText_of_isDigit fun _ member => isDigit_of_mem_kept (List.mem_of_mem_drop member)

section

variable {decimal : Decimal} (negative : Bool) (nonempty : decimal.kept ≠ [])

include nonempty

theorem Decimal.map_take_ne_nil {count : Nat} (positive : 0 < count) :
    (decimal.kept.take count).map asciiValue ≠ [] := by
  simp [nonempty, positive.ne']

theorem Decimal.literal_scientific (small : decimal.point < -3) :
    Literal (ofDecimal negative decimal.stripped)
      (withSign negative (decimal.kept.take 1 ++
        (if decimal.kept.length ≤ 1 then [] else '.' :: decimal.kept.drop 1) ++
          'e' :: '-' :: exponentDigits (1 - decimal.point).toNat)) := by
  have power := exponentText_exponentDigits (1 - decimal.point).toNat
  have exponent : decimal.stripped.exponent = decimal.point - decimal.kept.length := rfl
  have positive : 0 < decimal.kept.length := List.length_pos_iff.mpr nonempty
  have first := Decimal.map_take_ne_nil nonempty Nat.one_pos
  split
  next one =>
    have whole : decimal.kept.take 1 = decimal.kept := List.take_of_length_le one
    rw [List.append_nil]
    refine literal_withSign negative _ [] (.whole (decimal.digitsText_take 1) first) power ?_ ?_
    · rw [List.append_nil, whole]
      rfl
    · rw [exponent, List.length_nil]
      omega
  next =>
    refine literal_withSign negative _ _
      (.point (decimal.digitsText_take 1) (decimal.digitsText_drop 1) (.inl first)) power ?_ ?_
    · rw [List.take_append_drop]
      rfl
    · rw [exponent, List.length_drop]
      omega

omit nonempty in
theorem Decimal.literal_below_one (below : decimal.point ≤ 0) :
    Literal (ofDecimal negative decimal.stripped)
      (withSign negative
        ('0' :: '.' :: (List.replicate (-decimal.point).toNat '0' ++ decimal.kept))) := by
  have exponent : decimal.stripped.exponent = decimal.point - decimal.kept.length := rfl
  have digits : DigitsText
      ((List.replicate (-decimal.point).toNat '0' ++ decimal.kept).map asciiValue)
      (List.replicate (-decimal.point).toNat '0' ++ decimal.kept) := by
    refine digitsText_of_isDigit fun char member => ?_
    rcases List.mem_append.mp member with zero | digit
    · rw [List.eq_of_mem_replicate zero]
      rfl
    · exact isDigit_of_mem_kept digit
  have zero : DigitsText (['0'].map asciiValue) ['0'] := rfl
  have mantissa := MantissaText.point zero digits (.inl (List.cons_ne_nil _ _))
  have literal : Literal (ofDecimal negative decimal.stripped) _ :=
    literal_withSign negative _ _ mantissa .none ?_ ?_
  · simpa using literal
  · have zero : ['0'] = List.replicate 1 '0' := rfl
    rw [zero, ofDigitChars_zeros_append, ofDigitChars_zeros_append]
    rfl
  · rw [exponent, List.length_append, List.length_replicate]
    omega

theorem Decimal.literal_around_point (above : 0 < decimal.point)
    (fraction : decimal.stripped.exponent < 0) :
    Literal (ofDecimal negative decimal.stripped)
      (withSign negative
        (decimal.kept.take decimal.point.toNat ++
          '.' :: decimal.kept.drop decimal.point.toNat)) := by
  have exponent : decimal.stripped.exponent = decimal.point - decimal.kept.length := rfl
  have before : 0 < decimal.point.toNat := by omega
  have first := Decimal.map_take_ne_nil nonempty before
  have mantissa := MantissaText.point (decimal.digitsText_take decimal.point.toNat)
    (decimal.digitsText_drop decimal.point.toNat) (.inl first)
  have literal : Literal (ofDecimal negative decimal.stripped) _ :=
    literal_withSign negative _ _ mantissa .none ?_ ?_
  · simpa using literal
  · rw [List.take_append_drop]
    rfl
  · rw [exponent, List.length_drop]
    omega

end

theorem Decimal.render_eq (decimal : Decimal) :
    decimal.render =
      if decimal.point < -3 then
        decimal.kept.take 1 ++
            (if decimal.kept.length ≤ 1 then [] else '.' :: decimal.kept.drop 1) ++
          'e' :: '-' :: exponentDigits (1 - decimal.point).toNat
      else if decimal.point ≤ 0 then
        '0' :: '.' :: (List.replicate (-decimal.point).toNat '0' ++ decimal.kept)
      else decimal.kept.take decimal.point.toNat ++ '.' :: decimal.kept.drop decimal.point.toNat :=
  rfl

/-- The text of a decimal that has digits after its point denotes it. -/
theorem Decimal.literal_render {decimal : Decimal} (negative : Bool) (nonzero : decimal.digits ≠ 0)
    (fraction : decimal.stripped.exponent < 0) :
    Literal (ofDecimal negative decimal.stripped) (withSign negative decimal.render) := by
  have nonempty := Decimal.kept_ne_nil nonzero
  rw [render_eq]
  split
  next small => exact literal_scientific negative nonempty small
  next =>
    split
    next below => exact literal_below_one negative below
    next above => exact literal_around_point negative nonempty (Int.not_le.mp above) fraction

/-! ## Literals of numbers -/

theorem literal_toDigits (negative : Bool) (number : Nat) :
    Literal (ofRank negative (nearestRank (number * quantaOfOne) 1))
      (withSign negative (Nat.toDigits 10 number)) := by
  have digits : DigitsText _ (Nat.toDigits 10 number) :=
    digitsText_of_isDigit fun _ => isDigit_of_mem_toDigits
  have nonempty : (Nat.toDigits 10 number).map asciiValue ≠ [] := by
    simp [Nat.toDigits_ne_nil]
  have literal : Literal (ofDecimal negative ⟨number, 0⟩) _ :=
    literal_withSign negative _ [] (.whole digits nonempty) .none ?_ rfl
  · rw [ofDecimal_eq_ofRank] at literal
    simpa [Decimal.rank] using literal
  · rw [List.append_nil, Nat.ofDigitChars_ten_toDigits]

theorem literal_renderFinite (negative : Bool) {rank : Nat} (finite : rank < magnitudes) :
    Literal (ofRank negative rank) (renderFinite negative rank) := by
  rw [renderFinite]
  split
  next isZero =>
    subst isZero
    cases negative with
    | false =>
        have literal := literal_toDigits false 0
        rwa [Nat.zero_mul] at literal
    | true =>
        have digit : DigitsText [0] ['0'] := rfl
        have value (exponent : Int) : ofDecimal true ⟨Text.ofDigits ([0] ++ [0]), exponent⟩ =
            ofRank true 0 := if_pos rfl
        have literal :=
          Literal.decimal .minus (.point digit digit (.inl (List.cons_ne_nil _ _))) .none
        rwa [value] at literal
  next nonzero =>
    split
    next whole =>
      have literal := literal_toDigits negative (quanta rank / quantaOfOne)
      rwa [Nat.div_mul_cancel (Nat.dvd_of_mod_eq_zero whole), nearestRank_quanta] at literal
    next notWhole =>
      have reads := rank_shortestDecimal finite
      have digits : (shortestDecimal rank).digits ≠ 0 := fun none =>
        nonzero (reads ▸ Decimal.rank_of_digits_eq_zero none)
      have fraction : (shortestDecimal rank).stripped.exponent < 0 := by
        refine Int.not_le.mp fun whole => ?_
        have divides := Decimal.dvd_quanta_rank whole
        rw [Decimal.rank_stripped, reads] at divides
        exact notWhole (Nat.mod_eq_zero_of_dvd divides)
      have literal := Decimal.literal_render negative digits fraction
      rwa [ofDecimal_eq_ofRank, Decimal.rank_stripped, reads] at literal

/-- The text of a number is a literal that denotes it. -/
theorem literal_render (number : Number) : Literal number.unmarked number.render := by
  cases number with
  | nan origin => exact .nan .none
  | infinite negative =>
      obtain ⟨signText, signed, spelled⟩ := signText_withSign negative
      rw [render, spelled]
      exact .infinite signed
  | finite negative rank =>
      have literal := literal_renderFinite negative rank.isLt
      rwa [ofRank, dif_pos rank.isLt] at literal

end Number

end LazyLisp
