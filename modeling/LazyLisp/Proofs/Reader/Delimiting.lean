import LazyLisp.Proofs.Number.Reread
import LazyLisp.Proofs.Reader.Seam
import LazyLisp.Reader.Source

/-!
# Where atoms end

The text that is matched as an atom is the same atom when nothing stands behind it. At each place of
a source at most one text is a numeral in front of what follows it, and the number that is read is
this one.
-/

set_option autoImplicit false

namespace LazyLisp

/-- The part of a text between two offsets. -/
def Text.slice (source : Text) (position stop : Nat) : Text :=
  (source.drop position).take (stop - position)

namespace Reader

/-- The atom at the offset of the source, if one begins there, with the offset of its end. -/
def atomAt? (source : Text) (position : Nat) : Except Stop (Option (Nat × Expr)) :=
  match atom? (source.drop position) with
  | .ok (some (atom, rest)) => .ok (some (source.length - rest.length, atom))
  | .ok none => .ok none
  | .error stop => .error stop

/-- The numeral of the number stands between the offsets of the source. -/
structure NumeralAt (source : Text) (position stop : Nat) (number : Number) : Prop where
  le : position ≤ stop
  inside : stop ≤ source.length
  isMatch : NumeralMatch number (source.slice position stop) (source.drop stop)

/-! ## Offsets -/

section

variable {source matched rest : Text} {position stop : Nat}

theorem drop_eq_slice_append (le : position ≤ stop) :
    source.drop position = source.slice position stop ++ source.drop stop := by
  have split := List.take_append_drop (stop - position) (source.drop position)
  rw [List.drop_drop, Nat.add_sub_cancel' le] at split
  exact split.symm

theorem length_slice (inside : stop ≤ source.length) :
    (source.slice position stop).length = stop - position := by
  rw [Text.slice, List.length_take, List.length_drop]
  omega

/-- A text that is split behind an offset is split at the offset of the second part. -/
theorem slice_of_append (split : source.drop position = matched ++ rest)
    (nonempty : matched ≠ []) :
    position < source.length - rest.length ∧
      source.slice position (source.length - rest.length) = matched ∧
      source.drop (source.length - rest.length) = rest := by
  have lengths := congrArg List.length split
  have positive := List.length_pos_iff.mpr nonempty
  rw [List.length_drop, List.length_append] at lengths
  have size : source.length - rest.length = position + matched.length := by omega
  rw [size]
  refine ⟨by omega, ?_, ?_⟩
  · rw [Text.slice, Nat.add_sub_cancel_left, split, List.take_left]
  · rw [← List.drop_drop, split, List.drop_left]

end

/-! ## Matched texts -/

section

variable {text rest : Text} {expr : Expr}

theorem atom?_of_startsGap {char : Char} (starts : startsGap char = true) (text : Text) :
    atom? (char :: text) = .ok none := by
  have ends : AtTokenEnd (char :: text) := by
    intro first member
    cases member
    simp [endsToken, starts]
  have noNumeral : numeral? (char :: text) = none := numeral?_local [] ends
  have noBoolean : boolean? (char :: text) = none := boolean?_local [] ends
  have noOperator : operator? (char :: text) = none := operator?_local [] ends
  have noNil : word? "nil" (char :: text) = none := word?_local (by decide) [] ends
  have noName : name? (char :: text) = none := name?_local [] ends
  have differs {mark : Char} (noGap : startsGap mark = false) : char ≠ mark := by
    rintro rfl
    rw [starts] at noGap
    cases noGap
  have committed : committedAtom? (char :: text) = .ok none := by
    rw [committedAtom?, noName, Option.map_none]
    · intro rest same
      exact differs (by decide) (List.cons.inj same).1
    · intro rest same
      exact differs (by decide) (List.cons.inj same).1
  simp only [atom?, noNumeral, noBoolean, noOperator, noNil, committed]

/-- What is matched is the same atom with nothing behind it. -/
theorem exists_matched (found : atom? text = .ok (some (expr, rest))) :
    ∃ matched, matched ≠ [] ∧ text = matched ++ rest ∧ atom? matched = .ok (some (expr, [])) := by
  cases text with
  | nil => cases found
  | cons char text =>
      have noGap : startsGap char = false := by
        rw [← Bool.not_eq_true]
        intro starts
        rw [atom?_of_startsGap starts] at found
        cases found
      have keeps := @keeps_atom (char :: text) rest expr
      rw [skipGap_cons_of_not_startsGap text noGap] at keeps
      obtain ⟨word, more, split, exchange⟩ := keeps found
      have read := (exchange (Seam.of_lineEnd rest .nil)).2
      cases word with
      | nil => exact absurd rfl more
      | cons first letters =>
          cases (List.cons.inj split).1
          rw [List.append_nil, List.append_nil, skipGap_cons_of_not_startsGap letters noGap] at read
          exact ⟨char :: letters, List.cons_ne_nil _ _, split, read⟩

theorem committedAtom?_ne_number {number : Number} :
    committedAtom? text ≠ .ok (some (.number number, rest)) := by
  intro found
  unfold committedAtom? at found
  split at found
  · split at found <;> cases found
  · split at found <;> cases found
  · obtain ⟨⟨name, behind⟩, -, same⟩ := Option.map_eq_some_iff.mp (Except.ok.inj found)
    cases same

theorem numeral?_of_atom? {number : Number}
    (found : atom? text = .ok (some (.number number, rest))) :
    numeral? text = some (number, rest) := by
  unfold atom? at found
  split at found
  next isNumeral =>
    cases found
    exact isNumeral
  next =>
    split at found
    · cases found
    · split at found
      · cases found
      · split at found
        · cases found
        · exact absurd found committedAtom?_ne_number

end

section

variable {source : Text} {position stop stop' : Nat} {number number' : Number} {atom : Expr}

theorem exists_of_atomAt? (found : atomAt? source position = .ok (some (stop, atom))) :
    ∃ rest, atom? (source.drop position) = .ok (some (atom, rest)) ∧
      stop = source.length - rest.length := by
  unfold atomAt? at found
  split at found
  next rest read =>
    cases found
    exact ⟨rest, read, rfl⟩
  · cases found
  · cases found

theorem readAtom_slice (found : atomAt? source position = .ok (some (stop, atom))) :
    position < stop ∧ stop ≤ source.length ∧
      readAtom (source.slice position stop) = .ok (atom, []) := by
  obtain ⟨rest, read, rfl⟩ := exists_of_atomAt? found
  obtain ⟨matched, nonempty, split, again⟩ := exists_matched read
  obtain ⟨later, same, -⟩ := slice_of_append split nonempty
  refine ⟨later, Nat.sub_le _ _, ?_⟩
  rw [readAtom, same, again]

theorem NumeralAt.numeral? (numeral : NumeralAt source position stop number) :
    numeral? (source.drop position) = some (number, source.drop stop) :=
  numeral?_eq_some_iff.mpr ⟨_, drop_eq_slice_append numeral.le, numeral.isMatch⟩

theorem NumeralAt.unique (numeral : NumeralAt source position stop number)
    (numeral' : NumeralAt source position stop' number') : stop' = stop ∧ number' = number := by
  have split : source.drop position = _ := drop_eq_slice_append numeral.le
  rw [drop_eq_slice_append numeral'.le] at split
  obtain ⟨same, sameNumber⟩ := numeral.isMatch.unique numeral'.isMatch split
  have lengths := congrArg List.length same
  rw [length_slice numeral.inside, length_slice numeral'.inside] at lengths
  have le := numeral.le
  have le' := numeral'.le
  exact ⟨by omega, sameNumber⟩

theorem atomAt?_number_iff : atomAt? source position = .ok (some (stop, .number number)) ↔
    NumeralAt source position stop number := by
  constructor
  · intro found
    obtain ⟨rest, read, rfl⟩ := exists_of_atomAt? found
    have isNumeral := numeral?_of_atom? read
    obtain ⟨matched, split, isMatch⟩ := numeral?_eq_some_iff.mp isNumeral
    have nonempty : matched ≠ [] := by
      rintro rfl
      have shorter := (consumes_of_numeral? isNumeral).shorter
      rw [split] at shorter
      exact Nat.lt_irrefl _ shorter
    obtain ⟨later, same, behind⟩ := slice_of_append split nonempty
    refine ⟨Nat.le_of_lt later, Nat.sub_le _ _, ?_⟩
    rw [same, behind]
    exact isMatch
  · intro numeral
    have read := numeral.numeral?
    have inside := numeral.inside
    have size : source.length - (source.drop stop).length = stop := by
      rw [List.length_drop]
      omega
    simp only [atomAt?, atom?, read, size]

end

/-- Where an atom is read, it is not empty, and the text up to its end alone is read as the same
atom with nothing left. A place has at most one end of a numeral behind it, and one number up to
there; a number is read where there is such an end, and it is read up to this end. -/
theorem atomAt?_delimits (source : Text) (position : Nat) :
    (∀ stop atom, atomAt? source position = .ok (some (stop, atom)) →
      position < stop ∧ stop ≤ source.length ∧
        readAtom (source.slice position stop) = .ok (atom, [])) ∧
      (∀ stop stop' number number', NumeralAt source position stop number →
        NumeralAt source position stop' number' → stop' = stop ∧ number' = number) ∧
      ∀ stop number, atomAt? source position = .ok (some (stop, .number number)) ↔
        NumeralAt source position stop number := by
  refine ⟨?_, ?_, ?_⟩
  · intro stop atom found
    exact readAtom_slice found
  · intro stop stop' number number' numeral numeral'
    exact numeral.unique numeral'
  · intro stop number
    exact atomAt?_number_iff

theorem atomAt?_delimits_infinite :
    let source := "(f -inf nan?)".toList
    let infinite := Number.infinite true
    atomAt? source 3 = .ok (some (7, .number infinite)) ∧
      readAtom "-inf".toList = .ok (.number infinite, []) ∧
      NumeralAt source 3 7 infinite ∧
      ∀ stop number, NumeralAt source 3 stop number → stop = 7 ∧ number = infinite := by
  intro source infinite
  have found : atomAt? source 3 = .ok (some (7, .number infinite)) := rfl
  obtain ⟨delimits, unique, numbers⟩ := atomAt?_delimits source 3
  have numeral := (numbers 7 infinite).mp found
  refine ⟨found, (delimits 7 _ found).2.2, numeral, ?_⟩
  intro stop number numeral'
  exact unique 7 stop infinite number numeral numeral'

end Reader

end LazyLisp
