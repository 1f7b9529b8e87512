import LazyLisp.Proofs.Reader.Completion

/-!
# The forms of a text

How a text is read form by form. What a form reads does not depend on the budget, so reading a whole
text is a matter of its forms alone.
-/

set_option autoImplicit false

namespace LazyLisp.Reader

variable {text text' rest : Text} {expr : Expr} {exprs : List Expr}

/-! ## One form -/

/-- What is read with one budget is read with every budget that is not less than the number of
characters read. -/
theorem gives_of_readWithin {count : Nat} (read : readWithin count text = .ok (expr, rest)) :
    Gives readWithin expr text rest :=
  (((viable_readWithin count).completable text).keeps read).self

theorem readForm_of_gives (gives : Gives readWithin expr text rest) :
    readForm (skipGap text) = .ok (expr, rest) := by
  have read := gives (text.length + 1) (by omega)
  rw [← readWithin_skipGap] at read
  exact gives_of_readWithin read _ (by omega)

/-- Gaps in front of a form are skipped before it is read as well as while it is read. -/
theorem readForm_skipGap_iff :
    readForm (skipGap text) = .ok (expr, rest) ↔ readForm text = .ok (expr, rest) := by
  constructor
  · intro read
    rw [readForm, readWithin_skipGap] at read
    exact gives_of_readWithin read _ (by omega)
  · intro read
    exact readForm_of_gives (gives_of_readWithin read)

theorem readForm_shorter (read : readForm text = .ok (expr, rest)) : rest.length < text.length :=
  (((viable_readWithin _).completable text).keeps read).length_lt

/-- A form is read in front of all that may stand in place of what it stood in front of. -/
theorem keeps_form (read : readForm (skipGap text) = .ok (expr, rest)) :
    Keeps (fun text' left => readForm (skipGap text') = .ok (expr, left)) text rest := by
  have read' : readWithin ((skipGap text).length + 1) text = .ok (expr, rest) := by
    rwa [← readWithin_skipGap]
  exact (((viable_readWithin _).completable text).keeps read').imp
    fun _ _ _ _ => readForm_of_gives

/-- Where a form fails to be read, what is in front of that place can be completed to a form. -/
theorem exists_form {stop : Stop} (failed : readForm (skipGap text) = .error stop) :
    ∃ word more expr, text = word ++ stop.rest ∧ Seam text (word ++ more) ∧
      readForm (skipGap (word ++ more)) = .ok (expr, []) := by
  have failed' : readWithin ((skipGap text).length + 1) text = .error stop := by
    rwa [← readWithin_skipGap]
  obtain ⟨more, expr, word, split, exchange⟩ := (viable_readWithin _).exists_completion failed'
  obtain ⟨seam, gives⟩ := exchange LineEnd.nil
  rw [List.append_nil] at seam gives
  exact ⟨word, more, expr, split, seam, readForm_of_gives gives⟩

/-! ## All forms -/

/-- The text holds these expressions and nothing else. -/
inductive ReadsAs : Text → List Expr → Prop where
  | finished {text : Text} : skipGap text = [] → ReadsAs text []
  | form {text rest : Text} {expr : Expr} {exprs : List Expr} :
      readForm (skipGap text) = .ok (expr, rest) → ReadsAs rest exprs → ReadsAs text (expr :: exprs)

/-- Only what stands behind the gap counts. -/
theorem ReadsAs.congr (reads : ReadsAs text exprs) (same : skipGap text' = skipGap text) :
    ReadsAs text' exprs := by
  cases reads with
  | finished atEnd => exact .finished (same.trans atEnd)
  | form read reads => exact .form (by rwa [same]) reads

/-- The text holds these expressions up to its end, or up to this stop. -/
inductive ReadsUpTo : Text → List Expr → Option Stop → Prop where
  | finished {text : Text} : skipGap text = [] → ReadsUpTo text [] none
  | failed {text : Text} {stop : Stop} :
      skipGap text ≠ [] → readForm (skipGap text) = .error stop → ReadsUpTo text [] (some stop)
  | form {text rest : Text} {expr : Expr} {exprs : List Expr} {stop : Option Stop} :
      readForm (skipGap text) = .ok (expr, rest) → ReadsUpTo rest exprs stop →
      ReadsUpTo text (expr :: exprs) stop

theorem readsUpTo_none_iff : ReadsUpTo text exprs none ↔ ReadsAs text exprs := by
  constructor
  · generalize ended : (none : Option Stop) = stop
    intro reads
    induction reads with
    | finished atEnd => exact .finished atEnd
    | failed => cases ended
    | form read _ ih => exact .form read (ih ended)
  · intro reads
    induction reads with
    | finished atEnd => exact .finished atEnd
    | form read _ ih => exact .form read ih

theorem ReadsUpTo.congr {stop : Option Stop} (reads : ReadsUpTo text exprs stop)
    (same : skipGap text' = skipGap text) : ReadsUpTo text' exprs stop := by
  cases reads with
  | finished atEnd => exact .finished (same.trans atEnd)
  | failed more failed => exact .failed (by rwa [same]) (by rwa [same])
  | form read reads => exact .form (by rwa [same]) reads

/-- The forms of a text, read with a budget of more than the number of its characters. -/
theorem readsUpTo_formsWithin {budget : Nat} (enough : text.length < budget) :
    ReadsUpTo text ((formsWithin budget text).1.map Prod.fst) (formsWithin budget text).2 := by
  induction budget generalizing text with
  | zero => cases enough
  | succ budget ih =>
      rw [formsWithin]
      split
      next atEnd => exact .finished atEnd
      next more =>
        split
        next failed => exact .failed more failed
        next expr rest read =>
          have shorter := readForm_shorter read
          have shrinks := (skipGap_suffix text).length_le
          exact .form read (ih (by omega))

theorem ReadsUpTo.unique {exprs' : List Expr} {stop stop' : Option Stop}
    (reads : ReadsUpTo text exprs stop) (reads' : ReadsUpTo text exprs' stop') :
    exprs = exprs' ∧ stop = stop' := by
  induction reads generalizing exprs' with
  | finished atEnd =>
      cases reads' with
      | finished => exact ⟨rfl, rfl⟩
      | failed more => exact absurd atEnd more
      | form read =>
          rw [atEnd] at read
          cases read
  | failed more failed =>
      cases reads' with
      | finished atEnd => exact absurd atEnd more
      | failed _ failed' =>
          cases failed.symm.trans failed'
          exact ⟨rfl, rfl⟩
      | form read => cases failed.symm.trans read
  | form read _ ih =>
      cases reads' with
      | finished atEnd =>
          rw [atEnd] at read
          cases read
      | failed _ failed => cases read.symm.trans failed
      | form read' reads' =>
          cases read.symm.trans read'
          obtain ⟨rfl, rfl⟩ := ih reads'
          exact ⟨rfl, rfl⟩

theorem readAll_eq_iff_readsUpTo {error : Option SyntaxError} : readAll text = (exprs, error) ↔
    ∃ stop, ReadsUpTo text exprs stop ∧ error = stop.map (·.locate text) := by
  have reads := readsUpTo_formsWithin (Nat.lt_succ_self text.length)
  constructor
  · rintro ⟨⟩
    exact ⟨_, reads, rfl⟩
  · rintro ⟨stop, reads', rfl⟩
    obtain ⟨rfl, rfl⟩ := reads'.unique reads
    rfl

theorem readAll_eq_iff : readAll text = (exprs, none) ↔ ReadsAs text exprs := by
  rw [readAll_eq_iff_readsUpTo, ← readsUpTo_none_iff]
  constructor
  · rintro ⟨stop, reads, ended⟩
    cases stop with
    | none => exact reads
    | some => cases ended
  · exact fun reads => ⟨none, reads, rfl⟩

/-! ## Forms with their texts -/

/-- The forms of a source, each with the text from it on. -/
def sourceForms (source : Text) : List (Expr × Text) :=
  (formsWithin (source.length + 1) source).1

theorem map_fst_sourceForms (source : Text) :
    (sourceForms source).map Prod.fst = (readAll source).1 := rfl

/-- Each form of a text is read at a part of it from which on nothing is skipped. -/
theorem read_of_mem_formsWithin {budget : Nat} {form : Expr × Text}
    (member : form ∈ (formsWithin budget text).1) :
    form.2 <:+ text ∧ skipGap form.2 = form.2 ∧ ∃ rest, readForm form.2 = .ok (form.1, rest) := by
  induction budget generalizing text with
  | zero => cases member
  | succ budget ih =>
      rw [formsWithin] at member
      split at member
      · cases member
      · split at member
        · cases member
        next expr rest read =>
          rcases List.mem_cons.mp member with rfl | later
          · exact ⟨skipGap_suffix text, skipGap_skipGap text, rest, read⟩
          · obtain ⟨isPart, reads⟩ := ih later
            obtain ⟨word, -, split, -⟩ := keeps_form read
            exact ⟨isPart.trans ⟨word, split.symm⟩, reads⟩

end LazyLisp.Reader
