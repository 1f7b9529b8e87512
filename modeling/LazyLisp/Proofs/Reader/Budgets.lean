import LazyLisp.Proofs.Reader.Mentions

/-!
# Budgets of the reader

Each step of the reader reads one character at least. So no budget is used up that is greater than
the number of characters, and all such budgets lead to the same end.
-/

set_option autoImplicit false

namespace LazyLisp.Reader

/-- Two budgets that are enough for a text: each round takes one from both, and leaves a shorter
text. -/
theorem budgets_induction {motive : Nat → Nat → Text → Prop}
    (round : ∀ budget budget' text, text.length ≤ budget → text.length ≤ budget' →
      (∀ rest : Text, rest.length < text.length → motive budget budget' rest) →
      motive (budget + 1) (budget' + 1) text)
    {budget budget' : Nat} {text : Text} (enough : text.length < budget)
    (enough' : text.length < budget') : motive budget budget' text := by
  induction budget generalizing budget' text with
  | zero => cases enough
  | succ budget ih =>
      cases budget' with
      | zero => cases enough'
      | succ budget' =>
          refine round budget budget' text (Nat.le_of_lt_succ enough) (Nat.le_of_lt_succ enough')
            fun rest shorter => ?_
          exact ih (by omega) (by omega)

/-- Both times the step ends in the same way: with a value in front of a shorter rest, or with a
fault other than that a budget is used up. -/
inductive SameEnd {α : Type} (text : Text) :
    Except Stop (α × Text) → Except Stop (α × Text) → Prop where
  | value {value : α} {rest : Text} :
      rest.length < text.length → SameEnd text (.ok (value, rest)) (.ok (value, rest))
  | fault {stop : Stop} : stop.fault ≠ .exhausted → SameEnd text (.error stop) (.error stop)

namespace SameEnd

variable {α β : Type} {text part : Text} {result result' : Except Stop (α × Text)}

theorem eq (ends : SameEnd text result result') : result = result' := by
  cases ends <;> rfl

theorem fault_ne {stop : Stop} (ends : SameEnd text result result')
    (failed : result = .error stop) : stop.fault ≠ .exhausted := by
  cases ends with
  | value => cases failed
  | fault other =>
      cases failed
      exact other

theorem mono (ends : SameEnd part result result') (inside : part.length ≤ text.length) :
    SameEnd text result result' := by
  cases ends with
  | value shorter => exact .value (Nat.lt_of_lt_of_le shorter inside)
  | fault other => exact .fault other

theorem map (ends : SameEnd text result result') (make : α → β) :
    SameEnd text (result >>= fun found => .ok (make found.1, found.2))
      (result' >>= fun found => .ok (make found.1, found.2)) := by
  cases ends with
  | value shorter => exact .value shorter
  | fault other => exact .fault other

theorem andThen {next next' : α × Text → Except Stop (β × Text)}
    (ends : SameEnd text result result')
    (follows : ∀ value rest, rest.length < text.length →
      SameEnd rest (next (value, rest)) (next' (value, rest))) :
    SameEnd text (result >>= next) (result' >>= next') := by
  cases ends with
  | @value value rest shorter => exact (follows value rest shorter).mono (Nat.le_of_lt shorter)
  | fault other => exact .fault other

end SameEnd

/-! ## Steps without parts -/

theorem stop_of_atom? {text : Text} {stop : Stop} (failed : atom? text = .error stop) :
    stop.rest <:+ text ∧ stop.fault ≠ .exhausted := by
  have committed (failed : committedAtom? text = .error stop) :
      stop.rest <:+ text ∧ stop.fault ≠ .exhausted := by
    unfold committedAtom? at failed
    split at failed
    · split at failed
      · cases failed
      · cases failed
        exact ⟨List.suffix_cons ':' _, by simp⟩
    · split at failed
      · cases failed
      · cases failed
        exact ⟨List.suffix_refl _, by simp⟩
    · cases failed
  unfold atom? at failed
  split at failed
  · cases failed
  · split at failed
    · cases failed
    · split at failed
      · cases failed
      · split at failed
        · cases failed
        · exact committed failed

theorem length_lt_of_stripCloser? {closer : Closer} {text rest : Text}
    (closed : stripCloser? closer (skipGap text) = some rest) : rest.length < text.length := by
  have shrinks := (skipGap_suffix text).length_le
  rw [eq_of_stripCloser? closed] at shrinks
  exact shrinks

theorem sameEnd_close (closer : Closer) (text : Text) (expr : Expr) :
    SameEnd text (close closer text >>= fun rest => .ok (expr, rest))
      (close closer text >>= fun rest => .ok (expr, rest)) := by
  unfold close
  dsimp only
  split
  next closed => exact .value (length_lt_of_stripCloser? closed)
  next => exact .fault (by simp)

theorem sameEnd_formals {budget budget' : Nat} {names : List String} {text : Text}
    (enough : text.length < budget) (enough' : text.length < budget') :
    SameEnd text (formals budget names text) (formals budget' names text) := by
  refine budgets_induction (motive := fun budget budget' text => ∀ names,
    SameEnd text (formals budget names text) (formals budget' names text))
    (fun budget budget' text _ _ ih names => ?_) enough enough' names
  simp only [formals]
  split
  next closed => exact .value (length_lt_of_stripCloser? closed)
  next =>
    split
    next => exact .fault (by simp)
    next isName =>
      have shorter := (consumes_of_name? isName).shorter
      have shrinks := (skipGap_suffix text).length_le
      split
      · exact .fault (by simp)
      · exact (ih _ (by omega) _).mono (by omega)

/-! ## Steps with parts -/

section

variable {read read' : Text → Except Stop (Expr × Text)} {size : Nat}
  (ends : ∀ text, text.length < size → SameEnd text (read text) (read' text))

include ends

theorem sameEnd_required (part : RequiredPart) {text : Text} (below : text.length < size) :
    SameEnd text (required read part text) (required read' part text) := by
  have shrinks := (skipGap_suffix text).length_le
  unfold required
  dsimp only
  split
  · exact .fault (by simp)
  · exact (ends _ (by omega)).mono shrinks

theorem sameEnd_sequence (closer : Closer) {budget budget' : Nat} {text : Text}
    (below : text.length < size) (enough : text.length < budget)
    (enough' : text.length < budget') :
    SameEnd text (sequence read closer budget text) (sequence read' closer budget' text) := by
  refine budgets_induction (motive := fun budget budget' text => text.length < size →
    SameEnd text (sequence read closer budget text) (sequence read' closer budget' text))
    (fun budget budget' text _ _ ih below => ?_) enough enough' below
  have shrinks := (skipGap_suffix text).length_le
  simp only [sequence]
  split
  next closed => exact .value (length_lt_of_stripCloser? closed)
  next =>
    split
    · exact .fault (by simp)
    · refine SameEnd.mono ?_ shrinks
      refine (ends _ (by omega)).andThen fun expr rest shorter => ?_
      exact (ih rest (by omega) (by omega)).map (expr :: ·)

theorem sameEnd_conditional {text : Text} (below : text.length < size) :
    SameEnd text (conditional read text) (conditional read' text) := by
  refine (sameEnd_required ends .condition below).andThen fun condition text' shorter => ?_
  have below' : text'.length < size := by omega
  refine (sameEnd_required ends .consequent below').andThen fun consequent text'' shorter' => ?_
  have shrinks := (skipGap_suffix text'').length_le
  dsimp only
  split
  next closed => exact .value (length_lt_of_stripCloser? closed)
  next =>
    refine SameEnd.mono ?_ shrinks
    exact (sameEnd_required ends .alternative (by omega)).andThen fun _ _ _ => sameEnd_close _ _ _

theorem sameEnd_binding {text : Text} (below : text.length < size) :
    SameEnd text (binding read text) (binding read' text) := by
  unfold binding
  dsimp only
  split
  next => exact .fault (by simp)
  next isName =>
    have shorter := (consumes_of_name? isName).shorter
    have shrinks := (skipGap_suffix text).length_le
    refine SameEnd.mono ?_ (Nat.le_trans (Nat.le_of_lt shorter) shrinks)
    exact (sameEnd_required ends .value (by omega)).andThen fun _ _ _ => sameEnd_close _ _ _

theorem sameEnd_lambda {budget budget' : Nat} {text : Text} (below : text.length < size)
    (enough : text.length < budget) (enough' : text.length < budget') :
    SameEnd text (lambda read budget text) (lambda read' budget' text) := by
  have shrinks := (skipGap_suffix text).length_le
  unfold lambda
  split
  next names opened =>
    rw [opened, List.length_cons] at shrinks
    refine SameEnd.mono ?_ (Nat.le_of_lt shrinks)
    refine (sameEnd_formals (by omega) (by omega)).andThen fun formals rest shorter => ?_
    exact (sameEnd_required ends .body (by omega)).andThen fun _ _ _ => sameEnd_close _ _ _
  next => exact .fault (by simp)

theorem sameEnd_function {text : Text} (below : text.length < size) :
    SameEnd text (function read text) (function read' text) := by
  unfold function
  split
  · exact ends _ below
  · split
    next isFunction => exact .value (consumes_of_functionName? isFunction).shorter
    next => exact .fault (by simp)

theorem sameEnd_application {budget budget' : Nat} {text : Text} (below : text.length < size)
    (enough : text.length < budget) (enough' : text.length < budget') :
    SameEnd text (application read budget text) (application read' budget' text) := by
  refine (sameEnd_function ends below).andThen fun head rest shorter => ?_
  exact (sameEnd_sequence ends .parenthesis (by omega) (by omega) (by omega)).map
    (Expr.application head)

theorem sameEnd_parenthesized {budget budget' : Nat} {text : Text} (below : text.length < size)
    (enough : text.length < budget) (enough' : text.length < budget') :
    SameEnd text (parenthesized read budget text) (parenthesized read' budget' text) := by
  have shrinks := (skipGap_suffix text).length_le
  refine SameEnd.mono ?_ shrinks
  unfold parenthesized
  dsimp only
  split
  next isIf =>
    have inside := (suffix_of_word? isIf).length_le
    exact (sameEnd_conditional ends (by omega)).mono inside
  next =>
    split
    next isDef =>
      have inside := (suffix_of_word? isDef).length_le
      exact (sameEnd_binding ends (by omega)).mono inside
    next =>
      split
      next isFn =>
        have inside := (suffix_of_word? isFn).length_le
        exact (sameEnd_lambda ends (by omega) (by omega) (by omega)).mono inside
      next =>
        split
        next isCond =>
          have inside := (suffix_of_word? isCond).length_le
          have clauses := sameEnd_sequence ends .parenthesis (by omega)
            (Nat.lt_of_le_of_lt (Nat.le_trans inside shrinks) enough)
            (Nat.lt_of_le_of_lt (Nat.le_trans inside shrinks) enough')
          exact (clauses.map Expr.cond).mono inside
        next => exact sameEnd_application ends (by omega) (by omega) (by omega)

theorem sameEnd_compound {budget budget' : Nat} {text : Text} (below : text.length ≤ size)
    (enough : text.length ≤ budget) (enough' : text.length ≤ budget') :
    SameEnd text (compound read budget text) (compound read' budget' text) := by
  unfold compound
  split
  next inner =>
    rw [List.length_cons] at below enough enough'
    exact (sameEnd_parenthesized ends below enough enough').mono (Nat.le_succ _)
  next inner =>
    rw [List.length_cons] at below enough enough'
    exact ((sameEnd_sequence ends .bracket below enough enough').map Expr.list).mono
      (Nat.le_succ _)
  next inner =>
    simp only [List.length_cons] at below enough enough'
    have elements := sameEnd_sequence ends .parenthesis (show inner.length < size by omega)
      (show inner.length < budget by omega) (show inner.length < budget' by omega)
    exact (elements.map Expr.list).mono (by simp only [List.length_cons]; omega)
  next => exact .fault (by simp)

theorem sameEnd_expression {budget budget' : Nat} {text : Text} (below : text.length ≤ size)
    (enough : text.length ≤ budget) (enough' : text.length ≤ budget') :
    SameEnd text (expression read budget text) (expression read' budget' text) := by
  have shrinks := (skipGap_suffix text).length_le
  simp only [expression]
  cases atom : atom? (skipGap text) with
  | error stop => exact .fault (stop_of_atom? atom).2
  | ok found =>
      cases found with
      | some found => exact .value (keeps_atom atom).length_lt
      | none =>
          exact (sameEnd_compound ends (by omega) (by omega) (by omega)).mono shrinks

end

/-! ## Expressions and forms -/

variable {text : Text} {budget budget' : Nat}

theorem sameEnd_readWithin (enough : text.length < budget) (enough' : text.length < budget') :
    SameEnd text (readWithin budget text) (readWithin budget' text) := by
  refine budgets_induction (motive := fun budget budget' text =>
    SameEnd text (readWithin budget text) (readWithin budget' text)) ?_ enough enough'
  -- The parts of an expression are shorter than its text.
  intro budget budget' text below below' ih
  exact sameEnd_expression ih (Nat.le_refl _) below below'

theorem stop_of_readForm {stop : Stop} (failed : readForm text = .error stop) :
    stop.rest <:+ text ∧ stop.fault ≠ .exhausted := by
  obtain ⟨more, expr, word, split, -⟩ := (viable_readWithin _).exists_completion failed
  have ends := sameEnd_readWithin (Nat.lt_succ_self text.length) (Nat.lt_succ_self text.length)
  exact ⟨⟨word, split.symm⟩, ends.fault_ne failed⟩

theorem formsWithin_eq (enough : text.length < budget) (enough' : text.length < budget') :
    formsWithin budget text = formsWithin budget' text := by
  refine budgets_induction (motive := fun budget budget' text =>
    formsWithin budget text = formsWithin budget' text) ?_ enough enough'
  intro budget budget' text _ _ ih
  have shrinks := (skipGap_suffix text).length_le
  rw [formsWithin, formsWithin]
  split
  next => rfl
  next =>
    split
    next => rfl
    next read =>
      have shorter := readForm_shorter read
      rw [ih _ (by omega)]

theorem ReadsUpTo.fault_ne {exprs : List Expr} {ended : Option Stop}
    (reads : ReadsUpTo text exprs ended) {stop : Stop} (same : ended = some stop) :
    stop.fault ≠ .exhausted := by
  induction reads with
  | finished => cases same
  | failed _ failed =>
      cases same
      exact (stop_of_readForm failed).2
  | form _ _ ih => exact ih same

end LazyLisp.Reader
