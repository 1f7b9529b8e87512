import LazyLisp.Editor
import LazyLisp.Proofs.Reader.Forms

/-!
# Outlines agree with the reader

An outline is built form by form. It counts the forms that the reader gives and holds their syntax
error. Its names are those that the forms define, in the order in which they are first defined, and
each is described as it is defined last.
-/

set_option autoImplicit false

namespace LazyLisp

open Reader

/-- The name that a form defines, if it is a definition. -/
def Expr.definedName? : Expr → Option String
  | .binding name _ => some name
  | _ => none

/-- The names that forms define, in the order in which they are first defined. -/
def definedNames (exprs : List Expr) : List String :=
  (exprs.filterMap Expr.definedName?).eraseDups

/-- The forms define the name, and this is its value in the last definition. -/
def DefinesLast (exprs : List Expr) (name : String) (value : Expr) : Prop :=
  ∃ before after, exprs = before ++ .binding name value :: after ∧
    ∀ expr ∈ after, expr.definedName? ≠ some name

/-- A lambda makes a function, with the call of it as the detail; any other value makes a variable,
with the value as the detail. -/
def Definition.Describes (definition : Definition) : Expr → Prop
  | .lambda formals _ =>
    definition.isFunction = true ∧
      definition.detail = '(' :: renderNames (definition.name :: formals) ++ [')']
  | value => definition.isFunction = false ∧ definition.detail = value.render

theorem DefinesLast.concat {exprs : List Expr} {name : String} {value expr : Expr}
    (defines : DefinesLast exprs name value) (other : expr.definedName? ≠ some name) :
    DefinesLast (exprs ++ [expr]) name value := by
  obtain ⟨before, after, rfl, later⟩ := defines
  refine ⟨before, after ++ [expr], by simp, fun next member => ?_⟩
  rcases List.mem_append.mp member with inside | last
  · exact later next inside
  · rwa [List.mem_singleton.mp last]

theorem definesLast_concat (exprs : List Expr) (name : String) (value : Expr) :
    DefinesLast (exprs ++ [.binding name value]) name value :=
  ⟨exprs, [], rfl, fun _ member => absurd member List.not_mem_nil⟩

theorem definedNames_concat (exprs : List Expr) (expr : Expr) :
    definedNames (exprs ++ [expr]) = match expr.definedName? with
      | none => definedNames exprs
      | some name =>
        if name ∈ definedNames exprs then definedNames exprs else definedNames exprs ++ [name] := by
  unfold definedNames
  rw [List.filterMap_append]
  cases defined : expr.definedName? with
  | none => simp [defined]
  | some name =>
      rw [List.filterMap_cons_some defined, List.filterMap_nil, List.eraseDups_append]
      generalize exprs.filterMap Expr.definedName? = names
      by_cases inside : name ∈ names
      · simp [List.removeAll, inside]
      · simp [List.removeAll, inside, List.eraseDups_cons]

namespace Outline

/-! ## Definitions in their places -/

variable {definitions : List Definition} {definition : Definition}

theorem names_insert : (insert definition definitions).map Definition.name =
    if definition.name ∈ definitions.map Definition.name then definitions.map Definition.name
    else definitions.map Definition.name ++ [definition.name] := by
  induction definitions with
  | nil => rfl
  | cons first rest ih =>
      rw [insert]
      by_cases same : first.name = definition.name
      · simp [same]
      · simp only [if_neg same, List.map_cons, ih, List.mem_cons, Ne.symm same, false_or]
        split <;> simp

theorem mem_insert (distinct : (definitions.map Definition.name).Nodup) {other : Definition}
    (member : other ∈ insert definition definitions) :
    other = definition ∨ other ∈ definitions ∧ other.name ≠ definition.name := by
  induction definitions with
  | nil => exact .inl (List.mem_singleton.mp member)
  | cons first rest ih =>
      rw [List.map_cons, List.nodup_cons] at distinct
      rw [insert] at member
      split at member
      next same =>
        rcases List.mem_cons.mp member with rfl | inRest
        · exact .inl rfl
        · refine .inr ⟨List.mem_cons_of_mem _ inRest, fun equal => distinct.1 ?_⟩
          rw [same, ← equal]
          exact List.mem_map_of_mem inRest
      next different =>
        rcases List.mem_cons.mp member with rfl | inRest
        · exact .inr ⟨List.mem_cons_self, different⟩
        · rcases ih distinct.2 inRest with rfl | ⟨inside, other⟩
          · exact .inl rfl
          · exact .inr ⟨List.mem_cons_of_mem _ inside, other⟩

theorem describes_describe (name : String) (value : Expr) (place : Text.Place) :
    Definition.Describes ⟨name, (describe name value).1, place, (describe name value).2⟩ value := by
  cases value <;> exact ⟨rfl, rfl⟩

/-! ## Form by form -/

/-- The outline counts the forms, and has each name once that they define, described as it is
defined last. -/
structure Summarizes (exprs : List Expr) (outline : Outline) : Prop where
  forms : outline.forms = exprs.length
  names : outline.definitions.map Definition.name = definedNames exprs
  distinct : (outline.definitions.map Definition.name).Nodup
  described {definition : Definition} : definition ∈ outline.definitions →
    ∃ value, DefinesLast exprs definition.name value ∧ definition.Describes value

theorem summarizes_nil : Summarizes [] { } :=
  ⟨rfl, rfl, .nil, fun member => absurd member List.not_mem_nil⟩

theorem Summarizes.add {exprs : List Expr} {outline : Outline}
    (summarizes : Summarizes exprs outline) (source text : Text) (expr : Expr) :
    Summarizes (exprs ++ [expr]) (outline.add source text expr) := by
  have count : outline.forms + 1 = (exprs ++ [expr]).length := by
    rw [summarizes.forms, List.length_append, List.length_singleton]
  have names := definedNames_concat exprs expr
  rw [← summarizes.names] at names
  cases found : definition? source text expr with
  | none =>
      have undefined : expr.definedName? = none := by
        cases expr <;> first | rfl | cases found
      rw [undefined] at names
      simp only [Outline.add, found]
      refine ⟨count, names.symm, summarizes.distinct, fun member => ?_⟩
      obtain ⟨value, defines, describes⟩ := summarizes.described member
      exact ⟨value, defines.concat (by rw [undefined]; exact nofun), describes⟩
  | some definition =>
      obtain ⟨value, rfl, describes⟩ :
          ∃ value, expr = .binding definition.name value ∧ definition.Describes value := by
        cases expr with
        | binding name value =>
            cases found
            exact ⟨value, rfl, describes_describe name value _⟩
        | _ => cases found
      simp only [Outline.add, found]
      refine ⟨count, names_insert.trans names.symm, ?_, fun {other} member => ?_⟩
      · have distinct := summarizes.distinct
        dsimp only
        rw [names_insert]
        split
        · exact distinct
        next outside =>
          exact List.nodup_append.mpr ⟨distinct, List.nodup_singleton _, by simpa using outside⟩
      · rcases mem_insert summarizes.distinct member with rfl | ⟨inside, different⟩
        · exact ⟨value, definesLast_concat exprs _ value, describes⟩
        · obtain ⟨value', defines, describes'⟩ := summarizes.described inside
          refine ⟨value', defines.concat fun same => different ?_, describes'⟩
          exact (Option.some.inj same).symm

/-- Adding the forms of what is left of the source. -/
theorem Summarizes.addWithin {source text : Text} {exprs : List Expr} {stop : Option Stop}
    (reads : ReadsUpTo text exprs stop) {before : List Expr} {outline : Outline}
    (summarizes : Summarizes before outline) (noError : outline.error = none) {budget : Nat}
    (enough : text.length < budget) :
    Summarizes (before ++ exprs) (Outline.addWithin source outline budget text) ∧
      (Outline.addWithin source outline budget text).error = stop.map (·.locate source) := by
  induction reads generalizing before outline budget with
  | @finished text atEnd =>
      cases budget with
      | zero => cases enough
      | succ budget =>
          simp only [Outline.addWithin, atEnd, List.append_nil]
          exact ⟨summarizes, noError⟩
  | @failed text stop more failed =>
      cases budget with
      | zero => cases enough
      | succ budget =>
          rw [List.append_nil, Outline.addWithin]
          split
          next atEnd => exact absurd atEnd more
          next =>
            rw [failed]
            exact ⟨⟨summarizes.forms, summarizes.names, summarizes.distinct, summarizes.described⟩,
              rfl⟩
  | @form text rest expr exprs stop read reads ih =>
      cases budget with
      | zero => cases enough
      | succ budget =>
          have shorter := readForm_shorter read
          have shrinks := (skipGap_suffix text).length_le
          have added := summarizes.add source (skipGap text) expr
          have noError' : (outline.add source (skipGap text) expr).error = none := by
            unfold Outline.add
            split <;> exact noError
          rw [Outline.addWithin]
          split
          next atEnd =>
            rw [atEnd] at read
            cases read
          next =>
            rw [read]
            have outcome := ih added noError' (show rest.length < budget by omega)
            rwa [List.append_assoc] at outcome

theorem summarizes_ofSource (source : Text) :
    Summarizes (readAll source).1 (ofSource source) := by
  cases read : readAll source with
  | mk exprs error =>
      obtain ⟨stop, reads, -⟩ := readAll_eq_iff_readsUpTo.mp read
      exact (summarizes_nil.addWithin reads rfl (Nat.lt_succ_self source.length)).1

/-- The outline of a source counts the forms that the reader gives before the end or the first
syntax error. The diagnostics are that error alone, whose message counts lines and columns from one.
The names are those that the forms define, in the order in which they are first defined, and each is
described as it is defined last. -/
theorem ofSource_agrees (source : Text) :
    (ofSource source).forms = (readAll source).1.length ∧
      (ofSource source).error = (readAll source).2 ∧
      (match (readAll source).2 with
        | none => Editor.diagnostics (ofSource source) = []
        | some error => ∃ diagnostic, Editor.diagnostics (ofSource source) = [diagnostic] ∧
            error.message = "Parsing error: " ++ diagnostic.message ++
              " (line " ++ toString (diagnostic.span.start.line + 1) ++
              ", column " ++ toString (diagnostic.span.start.column + 1) ++ ")") ∧
      (ofSource source).definitions.map Definition.name = definedNames (readAll source).1 ∧
      ∀ definition ∈ (ofSource source).definitions, ∃ value,
        DefinesLast (readAll source).1 definition.name value ∧ definition.Describes value := by
  cases read : readAll source with
  | mk exprs error =>
      obtain ⟨stop, reads, rfl⟩ := readAll_eq_iff_readsUpTo.mp read
      obtain ⟨summarizes, sameError⟩ :=
        summarizes_nil.addWithin reads rfl (Nat.lt_succ_self source.length)
      rw [List.nil_append] at summarizes
      refine ⟨summarizes.forms, sameError, ?_, summarizes.names,
        fun _ member => summarizes.described member⟩
      have diagnosed : Editor.diagnostics (ofSource source) =
          (stop.map (·.locate source)).toList.map fun error =>
            ⟨Editor.Span.ofLength error.place 1, error.fault.message⟩ := by
        rw [← sameError]
        rfl
      cases stop with
      | none => exact diagnosed
      | some stop => exact ⟨_, diagnosed, rfl⟩

/-- A name that is defined again in front of text that cannot be read. -/
theorem ofSource_agrees_at_redefinition :
    let outline := ofSource "(def f 1) (def g 2) (def f (fn [x] x)) (".toList
    outline.forms = 3 ∧ outline.definitions.map Definition.name = ["f", "g"] ∧
      outline.definitions.map Definition.detail = ["(f x)".toList, "2".toList] := by
  obtain ⟨forms, -, -, names, -⟩ :=
    ofSource_agrees "(def f 1) (def g 2) (def f (fn [x] x)) (".toList
  exact ⟨forms.trans (by decide +kernel), names.trans (by decide +kernel), by decide +kernel⟩

end Outline

end LazyLisp
