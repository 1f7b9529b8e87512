import LazyLisp.Proofs.Reader.Seam
import LazyLisp.Proofs.Reader.Spelling

/-!
# What a reading step has read

A reading step reads the same wherever its text is exchanged behind what it has read. Where it
fails, what it has read up to there can be completed: with some text behind it the step succeeds.
Steps in a row have this property if each of them has it.
-/

set_option autoImplicit false

namespace LazyLisp.Reader

variable {α β : Type}

/-- The text is read as the value up to the rest, with every budget that is not less than the number
of characters read. -/
def Gives (read : Nat → Text → Except Stop (α × Text)) (value : α) (text rest : Text) : Prop :=
  ∀ budget, text.length ≤ budget + rest.length → read budget text = .ok (value, rest)

/-- A text of which some is read is never read with no budget. -/
theorem Gives.of_succ {read : Nat → Text → Except Stop (α × Text)} {value : α} {text rest : Text}
    (shorter : rest.length < text.length)
    (gives : ∀ budget, text.length ≤ budget + 1 + rest.length →
      read (budget + 1) text = .ok (value, rest)) : Gives read value text rest := by
  intro budget enough
  cases budget with
  | zero => omega
  | succ budget => exact gives budget enough

/-- Nothing but the gap in front has been read. -/
def AtStart (text rest : Text) : Prop := rest = text ∨ rest = skipGap text

theorem AtStart.of_skipGap {text rest : Text} (atStart : AtStart (skipGap text) rest) :
    AtStart text rest := by
  rcases atStart with rfl | rfl
  · exact .inr rfl
  · exact .inr (skipGap_skipGap text)

/-- A line feed may stand in place of the rest: it ends what has been skipped. -/
theorem AtStart.exists_gap {text rest : Text} (atStart : AtStart text rest) :
    ∃ gap, text = gap ++ rest ∧ ∀ behind, Seam text (gap ++ '\n' :: behind) ∧
      skipGap (gap ++ '\n' :: behind) = skipGap behind := by
  rcases atStart with rfl | rfl
  · exact ⟨[], rfl, fun behind => ⟨.of_lineEnd _ (.lineFeed _), skipGap_lineFeed behind⟩⟩
  by_cases atEnd : skipGap text = []
  · refine ⟨text, by rw [atEnd, List.append_nil], fun behind => ⟨?_, ?_⟩⟩
    · exact .append_lineEnd text (.lineFeed behind)
    · rw [skipGap_append text (.lineFeed behind), if_pos atEnd, skipGap_lineFeed]
  · obtain ⟨gap, isGap, split⟩ := Reader.exists_gap atEnd
    refine ⟨gap, split, fun behind => ⟨?_, ?_⟩⟩
    · rw [split]
      exact (Seam.of_lineEnd _ (.lineFeed behind)).gap_append isGap
    · rw [isGap.skipGap_append, skipGap_lineFeed]

/-- What has been read of the text with this result: a value stays, whatever is put in place of the
rest, and in front of a fault stands a word that can be completed. -/
structure Completable (read : Nat → Text → Except Stop (α × Text)) (text : Text)
    (result : Except Stop (α × Text)) : Prop where
  keeps {value : α} {rest : Text} :
    result = .ok (value, rest) → Keeps (Gives read value) text rest
  completes {stop : Stop} : result = .error stop →
    AtStart text stop.rest ∨ ∃ more value, Severs more LineEnd (Gives read value) text stop.rest

/-- A reading step, for any budget, and how it reads with a given one: gaps in front are skipped,
there is a text that it reads, and what it has read can be completed. -/
structure Viable (step : Text → Except Stop (α × Text))
    (read : Nat → Text → Except Stop (α × Text)) : Prop where
  skips (budget : Nat) (text : Text) : read (budget + 1) (skipGap text) = read (budget + 1) text
  fills : ∃ more value, ∀ ⦃tail : Text⦄, LineEnd tail → Gives read value (more ++ tail) tail
  completable (text : Text) : Completable read text (step text)

/-! ## Results -/

section

variable {read : Nat → Text → Except Stop (α × Text)} {text rest : Text} {value : α} {stop : Stop}

theorem Completable.ok (kept : Keeps (Gives read value) text rest) :
    Completable read text (.ok (value, rest)) where
  keeps same := by
    cases same
    exact kept
  completes := nofun

theorem Completable.error (atStart : AtStart text stop.rest) :
    Completable read text (.error stop) where
  keeps := nofun
  completes same := by
    cases same
    exact .inl atStart

theorem Completable.unfinished {more : Text}
    (severs : Severs more LineEnd (Gives read value) text stop.rest) :
    Completable read text (.error stop) where
  keeps := nofun
  completes same := by
    cases same
    exact .inr ⟨more, value, severs⟩

theorem Completable.imp {read' : Nat → Text → Except Stop (α × Text)}
    {result : Except Stop (α × Text)} (completable : Completable read text result)
    (gives : ∀ {value text' left}, Gives read value text' left → Gives read' value text' left) :
    Completable read' text result := by
  refine ⟨fun found => ?_, fun failed => ?_⟩
  · exact (completable.keeps found).imp fun _ _ _ _ => gives
  · refine (completable.completes failed).imp id ?_
    rintro ⟨more, value, severs⟩
    exact ⟨more, value, severs.imp fun _ _ _ _ => gives⟩

/-- A token is a value of its own. -/
theorem Severs.gives {part : Text} {may : Text → Prop} {reads : Text → Text → Prop}
    (token : Severs part may reads text rest)
    (agrees : ∀ {text' left} budget, reads text' left →
      read (budget + 1) text' = .ok (value, left)) :
    Severs part may (Gives read value) text rest :=
  token.imp fun _ _ _ shorter reads => .of_succ shorter fun budget _ => agrees budget reads

/-- The step reads what another one reads behind the gap, as far as the first character tells. -/
theorem Completable.of_skipGap {read' : Nat → Text → Except Stop (α × Text)}
    {result : Except Stop (α × Text)} (completable : Completable read' (skipGap text) result)
    (agrees : ∀ {text'} budget, (skipGap text').head? = (skipGap text).head? →
      read (budget + 1) text' = read' (budget + 1) (skipGap text')) :
    Completable read text result := by
  have delegates {part rest : Text} {may : Text → Prop} {value : α}
      (severs : Severs part may (Gives read' value) (skipGap text) rest) :
      Severs part may (Gives read value) text rest := by
    refine severs.of_skipGap.imp fun text' left head shorter gives => ?_
    have shrinks := (skipGap_suffix text').length_le
    refine .of_succ shorter fun budget enough => ?_
    rw [agrees budget head, gives _ (by omega)]
  refine ⟨fun found => delegates (completable.keeps found), fun failed => ?_⟩
  rcases completable.completes failed with atStart | ⟨more, value, severs⟩
  · exact .inl atStart.of_skipGap
  · exact .inr ⟨more, value, delegates severs⟩

end

/-! ## Completing -/

section

variable {step : Text → Except Stop (α × Text)} {read : Nat → Text → Except Stop (α × Text)}

/-- Behind a gap in front of the end of a line the step reads what it can read. -/
theorem Viable.gives_behind_gap (viable : Viable step read) {gap more tail : Text} {value : α}
    (fills : Gives read value (more ++ tail) tail)
    (skipped : skipGap (gap ++ '\n' :: (more ++ tail)) = skipGap (more ++ tail)) :
    Gives read value (gap ++ '\n' :: (more ++ tail)) tail := by
  have shorter : tail.length < (gap ++ '\n' :: (more ++ tail)).length := by
    simp only [List.length_append, List.length_cons]
    omega
  refine .of_succ shorter fun budget enough => ?_
  rw [← viable.skips, skipped, viable.skips]
  simp only [List.length_append, List.length_cons] at enough
  exact fills _ (by simp only [List.length_append]; omega)

/-- On a line of its own the step reads what it can read. -/
theorem Viable.gives_line (viable : Viable step read) {more tail : Text} {value : α}
    (fills : Gives read value (more ++ tail) tail) :
    Gives read value ('\n' :: (more ++ tail)) tail := by
  refine @Viable.gives_behind_gap _ _ _ viable [] _ _ _ fills ?_
  rw [List.nil_append, skipGap_lineFeed]

/-- Wherever a step fails, what is in front of that place can be completed. -/
theorem Viable.exists_completion (viable : Viable step read) {text : Text} {stop : Stop}
    (failed : step text = .error stop) :
    ∃ more value, Splits more LineEnd (Gives read value) text stop.rest := by
  rcases (viable.completable text).completes failed with atStart | ⟨more, value, severs⟩
  · obtain ⟨more, value, fills⟩ := viable.fills
    obtain ⟨gap, split, skipped⟩ := atStart.exists_gap
    refine ⟨'\n' :: more, value, gap, split, fun tail lineEnd => ?_⟩
    obtain ⟨seam, same⟩ := skipped (more ++ tail)
    exact ⟨seam, viable.gives_behind_gap (fills lineEnd) same⟩
  · exact ⟨more, value, severs.splits⟩

/-- A larger budget does as well. -/
theorem Viable.more (viable : Viable step read) :
    Viable step fun budget => read (budget + 1) where
  skips budget := viable.skips (budget + 1)
  fills := by
    obtain ⟨more, value, fills⟩ := viable.fills
    exact ⟨more, value, fun _ lineEnd budget enough => fills lineEnd _ (by omega)⟩
  completable text :=
    (viable.completable text).imp fun gives budget enough => gives _ (by omega)

end

/-! ## Steps one after another -/

theorem eq_error_of_bind_eq_error {first : Except Stop α} {next : α → Except Stop β} {stop : Stop}
    (failed : first >>= next = .error stop) :
    first = .error stop ∨ ∃ value, first = .ok value ∧ next value = .error stop := by
  cases first with
  | error stop' =>
      cases failed
      exact .inl rfl
  | ok value => exact .inr ⟨value, rfl, failed⟩

theorem Gives.map {read : Nat → Text → Except Stop (α × Text)} {value : α} {text rest : Text}
    (gives : Gives read value text rest) (make : α → β) :
    Gives (fun budget text => read budget text >>= fun found => .ok (make found.1, found.2))
      (make value) text rest := by
  intro budget enough
  dsimp only
  rw [gives budget enough, bind_ok]

/-- What a step makes of a value is kept like the value. -/
theorem Viable.map {step : Text → Except Stop (α × Text)}
    {read : Nat → Text → Except Stop (α × Text)} (viable : Viable step read) (make : α → β) :
    Viable (fun text => step text >>= fun found => .ok (make found.1, found.2))
      (fun budget text => read budget text >>= fun found => .ok (make found.1, found.2)) where
  skips budget text := by rw [viable.skips]
  fills := by
    obtain ⟨more, value, fills⟩ := viable.fills
    exact ⟨more, make value, fun tail lineEnd => (fills lineEnd).map make⟩
  completable text := by
    refine ⟨fun made => ?_, fun failed => ?_⟩
    · obtain ⟨⟨value, rest⟩, found, same⟩ := exists_of_bind_eq_ok made
      cases same
      exact ((viable.completable text).keeps found).imp fun _ _ _ _ gives => gives.map make
    · rcases eq_error_of_bind_eq_error failed with failed | ⟨_, -, never⟩
      · refine ((viable.completable text).completes failed).imp id ?_
        rintro ⟨more, value, severs⟩
        exact ⟨more, make value, severs.imp fun _ _ _ _ gives => gives.map make⟩
      · cases never

section

variable {less : Nat → Nat} (enough : ∀ budget, budget ≤ less budget + 1)

include enough

/-- Behind a token the step reads what another one reads there. The budget may be less by one, since
the token is a character at least. -/
theorem Completable.behind {read : Nat → Text → Except Stop (α × Text)}
    {step' : Text → Except Stop (α × Text)} {read' : Nat → Text → Except Stop (α × Text)}
    {reads : Text → Text → Prop} {text inner : Text} (token : Keeps reads text inner)
    (viable : Viable step' read')
    (agrees : ∀ {text' inner' found} budget, reads text' inner' →
      read' (less (budget + 1)) inner' = .ok found → read (budget + 1) text' = .ok found) :
    Completable read text (step' inner) := by
  have behind {part rest : Text} {may : Text → Prop} {value : α}
      (splits : Splits part may (Gives read' value) inner rest) :
      Severs part may (Gives read value) text rest := by
    refine (token.trans splits).imp fun text' left _ shorter reads => ?_
    obtain ⟨inner', shorterInner, shorterLeft, reads, gives⟩ := reads
    refine .of_succ shorter fun budget enoughFor => agrees budget reads (gives _ ?_)
    have almost := enough (budget + 1)
    omega
  refine ⟨fun found => behind ((viable.completable inner).keeps found).splits, fun failed => ?_⟩
  obtain ⟨more, value, splits⟩ := viable.exists_completion failed
  exact .inr ⟨more, value, behind splits⟩

variable {step : Text → Except Stop (α × Text)} {read : Nat → Text → Except Stop (α × Text)}
  {step' : α → Text → Except Stop (β × Text)} {read' : α → Nat → Text → Except Stop (β × Text)}

theorem Gives.andThen {value : α} {value' : β} {text middle rest : Text}
    (gives : Gives read value text middle) (gives' : Gives (read' value) value' middle rest)
    (shorter : middle.length < text.length) (shorter' : rest.length ≤ middle.length) :
    Gives (fun budget text => read budget text >>= fun found => read' found.1 (less budget) found.2)
      value' text rest := by
  intro budget enoughFor
  have almost := enough budget
  dsimp only
  rw [gives budget (by omega), bind_ok, gives' (less budget) (by omega)]

/-- Behind what the first step reads, the second one completes what it reads. -/
theorem Severs.andThen {part text middle rest : Text} {may : Text → Prop} {value : α} {value' : β}
    (first : Keeps (Gives read value) text middle)
    (second : Splits part may (Gives (read' value) value') middle rest) :
    Severs part may
      (Gives (fun budget text => read budget text >>= fun found =>
        read' found.1 (less budget) found.2) value') text rest := by
  refine (Severs.trans first second).imp fun text' left _ _ reads => ?_
  obtain ⟨middle', shorter, shorter', gives, gives'⟩ := reads
  exact gives.andThen enough gives' shorter shorter'

/-- Two viable steps one after the other. The second one may do with a budget that is less by one,
since the first one reads a character at least. -/
theorem Viable.andThen (first : Viable step read)
    (second : ∀ value, Viable (step' value) (read' value)) :
    Viable (fun text => step text >>= fun found => step' found.1 found.2)
      (fun budget text => read budget text >>= fun found =>
        read' found.1 (less budget) found.2) where
  skips budget text := by rw [first.skips]
  fills := by
    obtain ⟨more, value, fills⟩ := first.fills
    obtain ⟨more', value', fills'⟩ := (second value).fills
    refine ⟨'\n' :: (more ++ '\n' :: more'), value', fun tail lineEnd => ?_⟩
    have gives := first.gives_line (fills (LineEnd.lineFeed (more' ++ tail)))
    have gives' := (second value).gives_line (fills' lineEnd)
    rw [List.cons_append, List.append_assoc, List.cons_append]
    exact gives.andThen enough gives' (by simp only [List.length_cons, List.length_append]; omega)
      (by simp only [List.length_cons, List.length_append]; omega)
  completable text := by
    refine ⟨fun found => ?_, fun failed => ?_⟩
    · obtain ⟨⟨value, middle⟩, found, found'⟩ := exists_of_bind_eq_ok found
      exact ((first.completable text).keeps found).andThen enough
        (((second value).completable middle).keeps found').splits
    · rcases eq_error_of_bind_eq_error failed with failed | ⟨⟨value, middle⟩, found, failed⟩
      · refine ((first.completable text).completes failed).imp id ?_
        rintro ⟨more, value, word, nonempty, split, exchange⟩
        obtain ⟨more', value', fills'⟩ := (second value).fills
        refine ⟨more ++ '\n' :: more', value', word, nonempty, split, fun tail lineEnd => ?_⟩
        obtain ⟨seam, gives⟩ := exchange (LineEnd.lineFeed (more' ++ tail))
        have positive := length_pos_of_skipGap nonempty
        rw [List.append_assoc more, List.cons_append]
        exact ⟨seam, gives.andThen enough ((second value).gives_line (fills' lineEnd))
          (by simp only [List.length_append]; omega)
          (by simp only [List.length_cons, List.length_append]; omega)⟩
      · obtain ⟨more, value', splits⟩ := (second value).exists_completion failed
        exact .inr ⟨more, value',
          ((first.completable text).keeps found).andThen enough splits⟩

end

end LazyLisp.Reader
