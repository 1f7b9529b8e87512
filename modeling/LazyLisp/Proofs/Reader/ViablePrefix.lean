import LazyLisp.Proofs.Reader.Forms

/-!
# Viable prefixes

What stands in front of the place of an error begins a source that is read to its end.
-/

set_option autoImplicit false

namespace LazyLisp.Reader

variable {text source : Text} {exprs : List Expr}

/-- Wherever a text fails to be read, what is in front of that place can be completed. The seam
carries the induction: behind a form stands what is put in place of the other forms. -/
theorem ReadsUpTo.exists_completion {ended : Option Stop} (reads : ReadsUpTo text exprs ended)
    {stop : Stop} (same : ended = some stop) :
    ∃ word completion more, text = word ++ stop.rest ∧ Seam text (word ++ completion) ∧
      ReadsAs (word ++ completion) (exprs ++ more) := by
  induction reads with
  | finished => cases same
  | failed _ failed =>
      cases same
      obtain ⟨word, completion, expr, split, seam, read⟩ := exists_form failed
      exact ⟨word, completion, [expr], split, seam, .form read (.finished rfl)⟩
  | form read _ ih =>
      obtain ⟨word', completion, more, rfl, seam', reads'⟩ := ih same
      obtain ⟨word, -, rfl, exchange⟩ := keeps_form read
      obtain ⟨seam, read'⟩ := exchange seam'
      refine ⟨word ++ word', completion, more, (List.append_assoc _ _ _).symm, ?_, ?_⟩
      · rwa [List.append_assoc]
      · rw [List.append_assoc]
        exact .form read' reads'

/-- The offset of an error is the end of a viable prefix: some text behind the prefix makes it a
source that is read to its end, and its first expressions are those that were read before the
error. -/
theorem readAll_take_offset {error : SyntaxError} (failed : readAll source = (exprs, some error)) :
    ∃ completion more,
      readAll (source.take error.offset ++ completion) = (exprs ++ more, none) := by
  obtain ⟨ended, reads, located⟩ := readAll_eq_iff_readsUpTo.mp failed
  obtain ⟨stop, rfl, rfl⟩ := Option.map_eq_some_iff.mp located.symm
  obtain ⟨word, completion, more, split, -, reads'⟩ := reads.exists_completion rfl
  have prefixed : source.take (stop.locate source).offset = word := by
    rw [split, Stop.locate, List.length_append, Nat.add_sub_cancel, List.take_left]
  exact ⟨completion, more, by rw [prefixed, readAll_eq_iff]; exact reads'⟩

/-- A formal parameter is repeated where brackets are open, behind a form and a comment. -/
theorem readAll_take_offset_formal :
    let viable := "a ; (\n[(fn [x ".toList
    let source := viable ++ "x] x)]".toList
    readAll source = ([.identifier "a"], some ⟨.duplicateFormal "x", viable.length, ⟨1, 8⟩⟩) ∧
      ∃ completion more, readAll (viable ++ completion) = (.identifier "a" :: more, none) := by
  intro viable source
  have failed : readAll source =
      ([.identifier "a"], some ⟨.duplicateFormal "x", viable.length, ⟨1, 8⟩⟩) := rfl
  exact ⟨failed, readAll_take_offset failed⟩

end LazyLisp.Reader
