import LazyLisp.Proofs.Outline
import LazyLisp.Proofs.Reader.Steps
import LazyLisp.Proofs.Text.Lines

/-!
# Places of definitions

A definition is placed by a search in the text of its form, which knows blanks but no comments,
while the reader skips both. So a definition is placed at its name as long as no comment stands in
front of the name. Otherwise its place is that of such a comment, or of the form itself.
-/

set_option autoImplicit false

namespace LazyLisp

namespace Reader

/-! ## Names of definitions in the text -/

/-- The text is that of a definition, and its name is read where the rest of the text begins. -/
structure NamedAt (name : String) (lead fromName text : Text) : Prop where
  text_eq : text = lead ++ fromName
  lead_eq : ∃ gap gap', Gap gap ∧ Gap gap' ∧ gap' ≠ [] ∧
    lead = '(' :: (gap ++ ("def".toList ++ gap'))
  read : ∃ rest, name? fromName = some (name, rest)

theorem exists_gap_of_name? {text rest : Text} {name : String}
    (found : name? (skipGap text) = some (name, rest)) :
    ∃ gap, Gap gap ∧ text = gap ++ skipGap text := by
  apply exists_gap
  intro atEnd
  rw [atEnd] at found
  cases found

theorem exists_namedAt {text rest : Text} {name : String} {value : Expr}
    (atForm : skipGap text = text) (read : readForm text = .ok (.binding name value, rest)) :
    ∃ lead fromName, NamedAt name lead fromName text := by
  have parses := parses_of_expression read
  rw [atForm] at parses
  cases parses with
  | atom isAtom => cases isAtom_of_atom? isAtom
  | @binding inner behind _ _ _ _ _ _ isDef isName _ _ =>
      obtain ⟨spelled, ends⟩ := word?_eq_some_iff.mp isDef
      obtain ⟨gap, isGap, split⟩ : ∃ gap, Gap gap ∧ inner = gap ++ skipGap inner := by
        apply exists_gap
        rw [spelled]
        exact List.cons_ne_nil _ _
      obtain ⟨gap', isGap', split'⟩ := exists_gap_of_name? isName
      refine ⟨'(' :: (gap ++ ("def".toList ++ gap')), skipGap behind, ?_,
        ⟨gap, gap', isGap, isGap', ?_, rfl⟩, _, isName⟩
      · rw [split, spelled]
        conv => lhs; rw [split']
        simp only [List.cons_append, List.append_assoc]
      · -- A name character directly behind the keyword would belong to it.
        intro noGap
        rw [noGap, List.nil_append] at split'
        rw [split'] at ends
        obtain ⟨char, _, letters, -, begins, isNameChar⟩ := exists_cons_of_name? isName
        rw [begins] at ends
        simp [isNameChar] at ends

/-! ## The search for the name -/

/-- Without comments a gap is dropped with the blanks, and otherwise the first comment stays. -/
theorem Gap.dropWhile_append {gap rest : Text} (isGap : Gap gap)
    (begins : ∀ char ∈ rest.head?, Text.isBlank char = false) :
    (';' ∉ gap → (gap ++ rest).dropWhile Text.isBlank = rest) ∧
      (';' ∈ gap → ((gap ++ rest).dropWhile Text.isBlank).head? = some ';') := by
  induction isGap with
  | empty =>
      refine ⟨fun _ => ?_, nofun⟩
      cases rest with
      | nil => rfl
      | cons char rest => exact List.dropWhile_cons_of_neg (by simpa using begins)
  | @blank char gap isBlank _ ih =>
      have notSemicolon : ';' ≠ char := by
        intro same
        subst same
        cases isBlank
      rw [List.cons_append, List.dropWhile_cons_of_pos isBlank]
      simpa only [List.mem_cons, notSemicolon, false_or] using ih
  | comment => exact ⟨fun absent => absurd List.mem_cons_self absent, fun _ => rfl⟩

end Reader

open Reader

namespace Outline

theorem nameIn?_lead {gap rest : Text} (isGap : Gap gap) :
    nameIn? ('(' :: (gap ++ ("def".toList ++ rest))) =
      if ';' ∈ gap then none
      else if rest.head?.any Text.isBlank &&
          (rest.dropWhile Text.isBlank).head?.any fun char => !isBracket char then
        some (rest.dropWhile Text.isBlank)
      else none := by
  have dropped := @Gap.dropWhile_append gap ("def".toList ++ rest) isGap
    (by simp [Text.isBlank])
  rw [nameIn?]
  by_cases comment : ';' ∈ gap
  · have stays := dropped.2 comment
    rw [if_pos comment]
    split
    next spelled =>
      rw [spelled] at stays
      cases stays
    next => rfl
  · rw [if_neg comment, dropped.1 comment]
    rfl

theorem placed_suffix (text : Text) : (nameIn? text).getD text <:+ text := by
  unfold nameIn?
  split
  next inner =>
    split
    next rest spelled =>
      dsimp only
      split
      · apply (List.dropWhile_suffix _).trans
        have inside : 'd' :: 'e' :: 'f' :: rest <:+ inner := by
          rw [← spelled]
          exact List.dropWhile_suffix _
        exact ((List.suffix_append ['d', 'e', 'f'] rest).trans inside).trans
          (List.suffix_cons '(' inner)
      · exact List.suffix_refl _
    · exact List.suffix_refl _
  · exact List.suffix_refl _

/-- Where the search places a definition: at the name, unless a comment stands in front of it. Then
it is at a comment or at the opening parenthesis. -/
theorem placed_of_namedAt {name : String} {lead fromName text : Text}
    (named : NamedAt name lead fromName text) :
    (';' ∉ lead → (nameIn? text).getD text = fromName) ∧
      (';' ∈ lead → ((nameIn? text).getD text).head? = some '(' ∨
        ((nameIn? text).getD text).head? = some ';') := by
  obtain ⟨textEq, ⟨gap, gap', isGap, isGap', nonempty, leadEq⟩, rest, isName⟩ := named
  obtain ⟨char, _, letters, -, begins, isNameChar⟩ := exists_cons_of_name? isName
  have notToken := not_endsToken_of_isNameChar isNameChar
  have notBlank : Text.isBlank char = false := by
    simp only [endsToken, startsGap, Bool.or_eq_false_iff] at notToken
    exact notToken.1.1
  have notBracket : isBracket char = false := by
    cases bracket : isBracket char with
    | false => rfl
    | true =>
        simp only [isBracket, List.contains_iff_mem, List.mem_cons, List.not_mem_nil,
          or_false] at bracket
        rcases bracket with rfl | rfl | rfl | rfl <;> cases isNameChar
  have dropped := @Gap.dropWhile_append gap' fromName isGap' (by
    intro char' member
    rw [begins] at member
    cases member
    exact notBlank)
  have whole : text = '(' :: (gap ++ ("def".toList ++ (gap' ++ fromName))) := by
    rw [textEq, leadEq]
    simp only [List.cons_append, List.append_assoc]
  have inLead : ';' ∈ lead ↔ ';' ∈ gap ∨ ';' ∈ gap' := by
    rw [leadEq]
    simp
  rw [inLead, whole, nameIn?_lead isGap]
  constructor
  · intro noComment
    rw [not_or] at noComment
    have startsBlank : (gap' ++ fromName).head?.any Text.isBlank = true := by
      cases isGap' with
      | empty => exact absurd rfl nonempty
      | blank isBlank => exact isBlank
      | comment => exact absurd List.mem_cons_self noComment.2
    rw [if_neg noComment.1, dropped.1 noComment.2, startsBlank, begins]
    simp [notBracket]
  · intro comment
    by_cases first : ';' ∈ gap
    · rw [if_pos first]
      exact .inl rfl
    · rw [if_neg first]
      split
      · exact .inr (dropped.2 (comment.resolve_left first))
      · exact .inl rfl

/-! ## The definitions of an outline -/

/-- The last of the forms that defines the name, with the text from it on. -/
def lastDefinition? (forms : List (Expr × Text)) (name : String) : Option (Expr × Text) :=
  (forms.filter fun form => form.1.definedName? = some name).getLast?

/-- The definitions with that of one more form, if it is one. -/
def collect (source : Text) (definitions : List Definition) (form : Expr × Text) :
    List Definition :=
  match definition? source form.2 form.1 with
  | none => definitions
  | some definition => insert definition definitions

theorem definitions_addWithin (source : Text) (outline : Outline) (budget : Nat) (text : Text) :
    (addWithin source outline budget text).definitions =
      (formsWithin budget text).1.foldl (collect source) outline.definitions := by
  induction budget generalizing outline text with
  | zero => rfl
  | succ budget ih =>
      cases skipped : skipGap text with
      | nil => simp only [addWithin, formsWithin, skipped, List.foldl_nil]
      | cons char text =>
          cases read : readForm (char :: text) with
          | error stop => simp only [addWithin, formsWithin, skipped, read, List.foldl_nil]
          | ok parsed =>
              simp only [addWithin, formsWithin, skipped, read, List.foldl_cons, ih]
              congr 1
              simp only [add, collect]
              cases definition? source (char :: text) parsed.1 <;> rfl

/-- Each name is defined once, as it is defined last among the forms. -/
structure Collects (source : Text) (forms : List (Expr × Text)) (definitions : List Definition) :
    Prop where
  distinct : (definitions.map Definition.name).Nodup
  last {definition : Definition} : definition ∈ definitions →
    ∃ value text, lastDefinition? forms definition.name =
        some (.binding definition.name value, text) ∧
      definition? source text (.binding definition.name value) = some definition

theorem lastDefinition?_concat (forms : List (Expr × Text)) (form : Expr × Text) (name : String) :
    lastDefinition? (forms ++ [form]) name =
      if form.1.definedName? = some name then some form else lastDefinition? forms name := by
  by_cases defines : form.1.definedName? = some name <;>
    simp [lastDefinition?, List.filter_append, defines]

theorem collects_nil (source : Text) : Collects source [] [] :=
  ⟨.nil, fun member => absurd member List.not_mem_nil⟩

theorem Collects.concat {source : Text} {forms : List (Expr × Text)}
    {definitions : List Definition} (collects : Collects source forms definitions)
    (form : Expr × Text) :
    Collects source (forms ++ [form]) (collect source definitions form) := by
  obtain ⟨expr, text⟩ := form
  unfold collect
  cases found : definition? source text expr with
  | none =>
      refine ⟨collects.distinct, fun {definition} member => ?_⟩
      have other : expr.definedName? ≠ some definition.name := by
        cases expr with
        | binding => cases found
        | _ => exact nofun
      rw [lastDefinition?_concat, if_neg other]
      exact collects.last member
  | some added =>
      obtain ⟨value, rfl⟩ : ∃ value, expr = .binding added.name value := by
        cases expr with
        | binding name value =>
            cases found
            exact ⟨value, rfl⟩
        | _ => cases found
      constructor
      · have distinct := collects.distinct
        dsimp only
        rw [names_insert]
        split
        · exact distinct
        next outside =>
          exact List.nodup_append.mpr ⟨distinct, List.nodup_singleton _, by simpa using outside⟩
      · intro definition member
        rw [lastDefinition?_concat]
        rcases mem_insert collects.distinct member with rfl | ⟨inside, different⟩
        · exact ⟨value, text, if_pos rfl, found⟩
        · have other : (Expr.binding added.name value).definedName? ≠ some definition.name :=
            fun same => different (Option.some.inj same).symm
          rw [if_neg other]
          exact collects.last inside

/-- By induction on the forms from the last one on. -/
theorem collects_ofSource (source : Text) :
    Collects source (sourceForms source) (ofSource source).definitions := by
  rw [ofSource, definitions_addWithin]
  change Collects source (sourceForms source) ((sourceForms source).foldl (collect source) [])
  generalize sourceForms source = forms
  induction forms using List.reverseRecOn with
  | nil => exact collects_nil source
  | append_singleton forms form ih =>
      rw [List.foldl_append, List.foldl_cons, List.foldl_nil]
      exact ih.concat form

/-! ## Places -/

theorem mem_of_lastDefinition? {forms : List (Expr × Text)} {name : String} {form : Expr × Text}
    (last : lastDefinition? forms name = some form) : form ∈ forms :=
  List.mem_of_mem_filter (List.mem_of_getLast? last)

theorem lineFeed_notMem_name {text rest : Text} {name : String}
    (found : name? text = some (name, rest)) : '\n' ∉ name.toList := by
  intro member
  cases List.all_eq_true.mp (isName_of_name? found).chars '\n' member

theorem place_of_namedAt {source text lead fromName : Text} {name : String} {value : Expr}
    {definition : Definition} (isPart : text <:+ source) (named : NamedAt name lead fromName text)
    (found : definition? source text (.binding name value) = some definition) :
    (name.toList <+: Text.lineFrom source definition.place ↔ ';' ∉ lead) ∧
      (';' ∉ lead →
        definition.place = Text.Place.ofOffset source (source.length - fromName.length)) := by
  obtain ⟨atName, elsewhere⟩ := placed_of_namedAt named
  obtain ⟨rest, isName⟩ := named.read
  have place : definition.place =
      Text.Place.ofOffset source (source.length - ((nameIn? text).getD text).length) := by
    cases found
    rfl
  obtain ⟨before, split⟩ : (nameIn? text).getD text <:+ source :=
    (placed_suffix text).trans isPart
  have offset : source.length - ((nameIn? text).getD text).length = before.length := by
    rw [← split, List.length_append]
    omega
  rw [place]
  constructor
  · rw [offset, ← split, Text.isPrefix_lineFrom_iff (lineFeed_notMem_name isName)]
    constructor
    · intro starts comment
      obtain ⟨char, letters, _, spelled, -, isNameChar⟩ := exists_cons_of_name? isName
      obtain ⟨behind, whole⟩ := starts
      rw [spelled, List.cons_append] at whole
      have first := elsewhere comment
      rw [← whole] at first
      rcases first with same | same <;> cases same <;> cases isNameChar
    · intro noComment
      rw [atName noComment]
      exact ⟨rest, append_eq_of_name? isName⟩
  · intro noComment
    rw [atName noComment]

/-- Each definition of an outline is the last one of its name at the top level of the source, and
the reader reads its name there. It is placed at the name just if no comment stands between the
opening parenthesis and the name. -/
theorem place_of_definition {source : Text} {definition : Definition}
    (member : definition ∈ (ofSource source).definitions) :
    (∃ value text lead fromName,
      lastDefinition? (sourceForms source) definition.name =
          some (.binding definition.name value, text) ∧
        NamedAt definition.name lead fromName text) ∧
      ∀ {value : Expr} {text lead fromName : Text},
        lastDefinition? (sourceForms source) definition.name =
            some (.binding definition.name value, text) →
        NamedAt definition.name lead fromName text →
        (definition.name.toList <+: Text.lineFrom source definition.place ↔ ';' ∉ lead) ∧
          (';' ∉ lead →
            definition.place = Text.Place.ofOffset source (source.length - fromName.length)) := by
  obtain ⟨value, text, last, found⟩ := (collects_ofSource source).last member
  obtain ⟨isPart, atForm, rest, read⟩ := read_of_mem_formsWithin (mem_of_lastDefinition? last)
  constructor
  · obtain ⟨lead, fromName, named⟩ := exists_namedAt atForm read
    exact ⟨value, text, lead, fromName, last, named⟩
  · intro value' text' lead fromName last' named
    cases last.symm.trans last'
    exact place_of_namedAt isPart named found

/-- A definition over two lines of a name that is defined before, with a comment between the two. -/
theorem place_of_definition_redefined :
    let source := "(def y 0);(def y\n( def\n  y :b)".toList
    let definition : Definition := ⟨"y", false, ⟨2, 2⟩, ":b".toList⟩
    definition ∈ (ofSource source).definitions ∧
      "y".toList <+: Text.lineFrom source definition.place ∧
      definition.place = Text.Place.ofOffset source (source.length - "y :b)".toList.length) := by
  intro source definition
  have member : definition ∈ (ofSource source).definitions := by decide +kernel
  have last : lastDefinition? (sourceForms source) "y" =
      some (.binding "y" (.symbol "b"), "( def\n  y :b)".toList) := rfl
  have named : NamedAt "y" "( def\n  ".toList "y :b)".toList "( def\n  y :b)".toList := {
    text_eq := rfl
    lead_eq := ⟨[' '], "\n  ".toList, .blank (by decide) .empty,
      .blank (by decide) (.blank (by decide) (.blank (by decide) .empty)), by decide, rfl⟩
    read := ⟨" :b)".toList, rfl⟩ }
  obtain ⟨stands, placed⟩ := (place_of_definition member).2 last named
  exact ⟨member, stands.mpr (by decide), placed (by decide)⟩

/-- A comment between the keyword and the name is taken for the name. -/
theorem place_of_commented_definition :
    let source := "(def ;x\n y 1)".toList
    (readAll source).2 = none ∧ ∃ definition ∈ (ofSource source).definitions,
      definition.name = "y" ∧ definition.place = ⟨0, 5⟩ ∧
        ¬ "y".toList <+: Text.lineFrom source definition.place := by
  refine ⟨by decide +kernel, ⟨"y", false, ⟨0, 5⟩, "1".toList⟩, by decide +kernel, rfl, rfl, ?_⟩
  decide +kernel

end Outline

end LazyLisp
