import LazyLisp.Proofs.Number.Display
import LazyLisp.Proofs.Reader.Atom

/-!
# Numbers read back from their text

The pattern of a numeral can match the beginning of a text in one way only. Where the text of a
number stands in front of a character that ends a token, this match is the text of the number, and
it is read as the number of the same 64 bits.
-/

set_option autoImplicit false

namespace LazyLisp

namespace Reader

/-- A numeral with its sign, as the number it is read as, in front of a text that does not go on
with it. -/
inductive NumeralMatch : Number → Text → Text → Prop where
  | signed {negative : Bool} {signText unsigned rest : Text} {value : Bool → Number}
      {ends : Text → Prop} :
      SignText negative signText → UnsignedText value unsigned ends → ends rest →
      NumeralMatch (value negative) (signText ++ unsigned) rest

theorem numeral?_eq_some_iff {number : Number} {text rest : Text} :
    numeral? text = some (number, rest) ↔
      ∃ matched, text = matched ++ rest ∧ NumeralMatch number matched rest := by
  constructor
  · intro found
    obtain ⟨negative, signText, value, unsigned, ends, signed, unsignedText, isEnd, rfl, split⟩ :=
      exists_unsignedText found
    exact ⟨signText ++ unsigned, by rw [split, List.append_assoc],
      .signed signed unsignedText isEnd⟩
  · intro ⟨matched, split, isMatch⟩
    subst split
    cases isMatch with
    | signed signed unsignedText isEnd =>
        rw [List.append_assoc]
        exact unsignedText.numeral?_append isEnd signed

/-- No text begins with two different matches. -/
theorem NumeralMatch.unique {number number' : Number} {matched matched' rest rest' : Text}
    (isMatch : NumeralMatch number matched rest) (isMatch' : NumeralMatch number' matched' rest')
    (same : matched' ++ rest' = matched ++ rest) : matched' = matched ∧ number' = number := by
  have found := numeral?_eq_some_iff.mpr ⟨matched, rfl, isMatch⟩
  have found' := numeral?_eq_some_iff.mpr ⟨matched', rfl, isMatch'⟩
  rw [same, found] at found'
  cases found'
  exact ⟨List.append_cancel_right same, rfl⟩

end Reader

namespace Number

/-! ## Words -/

/-- The bits of the word below its sign are those of a finite magnitude or of infinity. -/
def EncodesMagnitude (word : Nat) : Prop := word % signBit ≤ magnitudes

theorem signBit_eq : signBit = 2 ^ 63 := rfl

theorem magnitudes_lt_signBit : magnitudes < signBit := by decide

theorem word_ofRank {negative : Bool} {rank : Nat} (low : rank ≤ magnitudes) :
    (ofRank negative rank).word = (if negative then signBit else 0) + rank := by
  rw [ofRank]
  split
  next => rfl
  next infinite =>
    rw [Nat.le_antisymm low (Nat.not_lt.mp infinite)]
    rfl

theorem ofRank_ne_nan (negative : Bool) (rank : Nat) (origin : NanOrigin) :
    ofRank negative rank ≠ .nan origin := by
  unfold ofRank
  split <;> exact nofun

theorem ofWord_of_magnitude {word : Nat} (isMagnitude : EncodesMagnitude word) :
    ofWord word = ofRank (decide (signBit ≤ word)) (word % signBit) :=
  if_pos isMagnitude

theorem ofWord_of_nan {word : Nat} (isNan : ¬ EncodesMagnitude word) :
    ofWord word = .nan .computed :=
  if_neg isNan

theorem word_ofWord {word : Nat} (isWord : word < 2 ^ 64) (isMagnitude : EncodesMagnitude word) :
    (ofWord word).word = word := by
  rw [ofWord_of_magnitude isMagnitude, word_ofRank isMagnitude, signBit_eq]
  by_cases negative : 2 ^ 63 ≤ word
  · rw [decide_eq_true negative, if_pos rfl]
    omega
  · rw [decide_eq_false negative, if_neg Bool.false_ne_true]
    omega

/-- The sign and the bits below it, taken from a word that is made of them. -/
theorem sign_and_rank {word rank : Nat} (negative : Bool) (low : rank < signBit)
    (made : (if negative then signBit else 0) + rank = word) :
    word < 2 ^ 64 ∧ word % signBit = rank ∧ decide (signBit ≤ word) = negative := by
  subst made
  rw [signBit_eq] at low ⊢
  cases negative with
  | false =>
      simp only [Bool.false_eq_true, if_false, decide_eq_false_iff_not]
      omega
  | true =>
      simp only [if_true, decide_eq_true_eq]
      omega

theorem exists_word_ofRank (negative : Bool) {rank : Nat} (low : rank ≤ magnitudes) :
    ∃ word < 2 ^ 64, ofRank negative rank = ofWord word := by
  obtain ⟨isWord, rest, sign⟩ :=
    sign_and_rank negative (low.trans_lt magnitudes_lt_signBit) rfl
  refine ⟨_, isWord, ?_⟩
  rw [ofWord_of_magnitude (rest.trans_le low), rest, sign]

/-- Every number has a word, which tells everything but where a `nan` was written. -/
theorem exists_word (number : Number) : ∃ word < 2 ^ 64, number.unmarked = ofWord word := by
  cases number with
  | nan origin =>
      have isNan : ¬ EncodesMagnitude (nan .computed).word := by
        rw [EncodesMagnitude]
        decide
      exact ⟨(nan .computed).word, by decide, (ofWord_of_nan isNan).symm⟩
  | infinite negative =>
      have encoded := exists_word_ofRank negative (Nat.le_refl magnitudes)
      rwa [ofRank, dif_neg (Nat.lt_irrefl magnitudes)] at encoded
  | finite negative rank =>
      have encoded := exists_word_ofRank negative rank.isLt.le
      rwa [ofRank, dif_pos rank.isLt] at encoded

/-! ## Reading back -/

/-- Let a word of 64 bits encode a number, and let the text of the number be followed by its end, a
blank, a comment, a bracket or a quote. Then the pattern matches this text as a whole, and nothing
else. The number that is read there has the same 64 bits; the text of a `nan` is read as `nan`. -/
theorem render_rereads {word : Nat} (isWord : word < 2 ^ 64) {number : Number}
    (encoded : number.unmarked = ofWord word) {rest : Text} (ends : Reader.AtTokenEnd rest) :
    ∃ value, Reader.NumeralMatch value number.render rest ∧
      (∀ {value' : Number} {matched behind : Text}, matched ++ behind = number.render ++ rest →
        Reader.NumeralMatch value' matched behind → matched = number.render ∧ value' = value) ∧
      Reader.atom? (number.render ++ rest) = .ok (some (.number value, rest)) ∧
      (EncodesMagnitude word → value = number ∧ value.word = word) ∧
      (¬ EncodesMagnitude word →
        number.render = ['n', 'a', 'n'] ∧ ∃ origin, value = .nan origin) := by
  have literal := literal_render number
  obtain ⟨matched, split, isMatch⟩ :=
    Reader.numeral?_eq_some_iff.mp (literal.numeral?_append ends)
  obtain rfl : number.render = matched := List.append_cancel_right split
  refine ⟨number.unmarked, isMatch, ?_, Reader.atom?_number literal ends, ?_, ?_⟩
  · intro value' matched behind same isMatch'
    exact isMatch.unique isMatch' same
  · intro isMagnitude
    constructor
    · cases number with
      | nan origin =>
          rw [ofWord_of_magnitude isMagnitude] at encoded
          exact absurd encoded.symm (ofRank_ne_nan _ _ _)
      | infinite | finite => rfl
    · rw [encoded]
      exact word_ofWord isWord isMagnitude
  · intro isNan
    rw [encoded, ofWord_of_nan isNan]
    rw [ofWord_of_nan isNan] at encoded
    constructor
    · cases number with
      | nan origin => rfl
      | infinite | finite => cases encoded
    · exact ⟨.computed, rfl⟩

theorem render_rereads_negativeZero :
    signBit < 2 ^ 64 ∧ EncodesMagnitude signBit ∧ (zero true).render = "-0.0".toList ∧
      Reader.AtTokenEnd [')'] ∧
      ∃ value, Reader.atom? "-0.0)".toList = .ok (some (.number value, [')'])) ∧
        value = zero true ∧ value.word = signBit := by
  have ends : Reader.AtTokenEnd [')'] := by
    intro char member
    cases member
    rfl
  have isMagnitude : EncodesMagnitude signBit := Nat.zero_le _
  have encoded : (zero true).unmarked = ofWord signBit := rfl
  obtain ⟨value, -, -, read, ofMagnitude, -⟩ := render_rereads (by decide) encoded ends
  exact ⟨by decide, isMagnitude, rfl, ends, value, read, ofMagnitude isMagnitude⟩

end Number

end LazyLisp
