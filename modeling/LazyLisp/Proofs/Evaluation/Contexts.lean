import LazyLisp.Proofs.Evaluation.Nested
import LazyLisp.Proofs.Evaluation.Sharing

/-!
# Evaluation in a context

As long as nothing is defined, what an expression evaluates to depends on the session table and on
what the names in the open scopes are bound to, and not on which arguments have been looked up
before. A context holds just that: arguments that have their values, and arguments that are
evaluated anew at each lookup, in the scopes of their callers. Evaluation in a context has no state.
-/

set_option autoImplicit false

namespace LazyLisp

/-! ## Chains of lambdas -/

namespace Expr

/-- The formals of the lambdas around the innermost body. -/
def layers : Expr → List (List String)
  | .lambda formals body => formals :: layers body
  | _ => []

def innermost : Expr → Expr
  | .lambda _ body => innermost body
  | body => body

theorem nested_layers (expr : Expr) : nested expr.layers expr.innermost = expr := by
  induction expr using Expr.body_induction with
  | lambda formals body ih => exact congrArg (lambda formals) ih
  | other body notLambda =>
      cases body with
      | lambda formals body => exact absurd rfl (notLambda formals body)
      | _ => rfl

theorem isInnermost_innermost (expr : Expr) : expr.innermost.IsInnermost := by
  induction expr using Expr.body_induction with
  | lambda formals body ih => exact ih
  | other body notLambda =>
      cases body with
      | lambda formals body => exact absurd rfl (notLambda formals body)
      | _ => exact nofun

end Expr

/-! ## Contexts -/

/-- What a cell stands for: its value, or an expression with the scopes of its caller. -/
inductive Argument where
  | value (expr : Expr)
  | deferred (expr : Expr) (scopes : List (List (String × Argument)))

/-- What names are bound to. -/
structure Context where
  table : Bindings
  scopes : List (Bindings Argument)

namespace Context

open Evaluation

/-- The context within a chain of lambdas that are called with the arguments. -/
def inside (context : Context) (arguments : List Expr) (layers : List (List String)) : Context :=
  let deferred := arguments.map (Argument.deferred · context.scopes)
  { context with
    scopes := (layers.map fun formals => Bindings.ofPairs (formals.zip deferred)).reverse ++
      context.scopes }

section

variable (evaluate : Context → Expr → Action Unit Expr)

def force (table : Bindings) : Argument → Action Unit Expr
  | .value expr => pure expr
  | .deferred expr scopes => evaluate ⟨table, scopes⟩ expr

def lookUp (context : Context) (name : String) : Action Unit Expr :=
  match context.scopes.findSome? (·.find? name) with
  | some argument => force evaluate context.table argument
  | none =>
    match context.table.find? name with
    | some (.expr expr) => pure expr
    | _ => throw (.unknownSymbol name)

def call (context : Context) (formals : List String) (body : Expr) (arguments : List Expr) :
    Action Unit Expr :=
  match misfit? arguments.length (formals :: body.layers) with
  | some mismatching => throw (.exactArity mismatching.length arguments.length)
  | none => evaluate (context.inside arguments (formals :: body.layers)) body.innermost

def rules (context : Context) : NameRules Unit where
  lookUp := lookUp evaluate context
  define _ _ := throw .tooDeep
  call := call evaluate context

end

def evaluateWithin : Nat → Context → Expr → Action Unit Expr
  | 0, _, _ => throw .tooDeep
  | bound + 1, context, expr =>
    form (rules (evaluateWithin bound) context) (evaluateWithin bound context) expr

open Sharing (Converges)

/-! ## Worlds -/

/-- What each cell stands for, as far as it is known. -/
abbrev World := Nat → Option Argument

namespace World

def Extends (world world' : World) : Prop :=
  ∀ ⦃index : Nat⦄ ⦃argument : Argument⦄,
    world index = some argument → world' index = some argument

/-- The name is bound to a cell that stands for the argument. -/
def Denotes (world : World) (slot : Slot) (argument : Argument) : Prop :=
  ∃ index, slot = .deferred index ∧ world index = some argument

abbrev DenotesAll (world : World) : List Bindings → List (Bindings Argument) → Prop :=
  List.Forall₂ (Bindings.Related world.Denotes)

/-- A cell with a value stands for an argument that evaluates to it, and any other cell for its
expression in the scopes that it keeps. -/
inductive Agrees (world : World) (table : Bindings) : Cell → Argument → Prop where
  | forced {cell : Cell} {value : Expr} {argument : Argument} :
      cell.value? = some value →
      Converges (fun bound => force (evaluateWithin bound) table argument) () (.ok value ()) →
      Agrees world table cell argument
  | unforced {cell : Cell} {scopes : List (Bindings Argument)} :
      cell.value? = none → world.DenotesAll cell.scopes scopes →
      Agrees world table cell (.deferred cell.expr scopes)

variable {world world' : World}

theorem Extends.refl (world : World) : world.Extends world := fun _ _ known => known

theorem Extends.trans {world'' : World} (grows : world.Extends world')
    (grows' : world'.Extends world'') : world.Extends world'' :=
  fun _ _ known => grows' (grows known)

theorem DenotesAll.extend (grows : world.Extends world') {scopes : List Bindings}
    {scopes' : List (Bindings Argument)} (denotes : world.DenotesAll scopes scopes') :
    world'.DenotesAll scopes scopes' := by
  refine List.Forall₂.imp (fun _ _ tables => tables.imp ?_) denotes
  rintro slot argument ⟨index, same, known⟩
  exact ⟨index, same, grows known⟩

theorem Agrees.extend (grows : world.Extends world') {table : Bindings} {cell : Cell}
    {argument : Argument} (agrees : world.Agrees table cell argument) :
    world'.Agrees table cell argument := by
  cases agrees with
  | forced valued converges => exact .forced valued converges
  | unforced unvalued denotes => exact .unforced unvalued (DenotesAll.extend grows denotes)

/-- The world that tells of more cells, from the first one that is not known. -/
def add (world : World) (size : Nat) (arguments : List Argument) : World := fun index =>
  if index < size then world index else arguments[index - size]?

theorem add_eq_some {size index : Nat} {arguments : List Argument} {argument : Argument} :
    world.add size arguments index = some argument ↔
      index < size ∧ world index = some argument ∨
        size ≤ index ∧ arguments[index - size]? = some argument := by
  unfold add
  split
  next before => simp [before, Nat.not_le_of_lt before]
  next behind => simp [behind, Nat.le_of_not_lt behind]

theorem add_singleton_eq_some {size index : Nat} {only argument : Argument} :
    world.add size [only] index = some argument ↔
      index < size ∧ world index = some argument ∨ index = size ∧ only = argument := by
  have single : size ≤ index ∧ index - size = 0 ↔ index = size := by omega
  rw [add_eq_some, List.getElem?_singleton, ite_eq_iff, ← single]
  simp [and_assoc]

theorem extends_add {size : Nat} (arguments : List Argument)
    (limit : ∀ {index argument}, world index = some argument → index < size) :
    world.Extends (world.add size arguments) := by
  intro index argument known
  exact add_eq_some.mpr (.inl ⟨limit known, known⟩)

theorem denotes_add (world : World) (size : Nat) (arguments : List Argument) :
    List.Forall₂ (world.add size arguments).Denotes
      ((List.range' size arguments.length).map .deferred) arguments := by
  rw [List.forall₂_iff_get]
  constructor
  · rw [List.length_map, List.length_range']
  · intro position _ inside
    refine ⟨size + position, by simp, add_eq_some.mpr (.inr ⟨Nat.le_add_right _ _, ?_⟩)⟩
    rw [Nat.add_sub_cancel_left]
    exact List.getElem?_eq_getElem inside

theorem exists_forall₂ {α β : Type} {related : α → β → Prop} {elements : List α}
    (each : ∀ element ∈ elements, ∃ other, related element other) :
    ∃ others, List.Forall₂ related elements others := by
  induction elements with
  | nil => exact ⟨[], .nil⟩
  | cons element elements ih =>
      rw [List.forall_mem_cons] at each
      obtain ⟨other, first⟩ := each.1
      obtain ⟨others, rest⟩ := ih each.2
      exact ⟨other :: others, .cons first rest⟩

/-- Scopes that bind names to known cells only stand for scopes of arguments. -/
theorem exists_denotesAll {scopes : List Bindings}
    (known : ∀ scope ∈ scopes, ∀ entry ∈ scope, ∃ argument, world.Denotes entry.2 argument) :
    ∃ scopes', world.DenotesAll scopes scopes' := by
  apply exists_forall₂
  intro scope inScopes
  apply exists_forall₂
  intro entry inScope
  obtain ⟨argument, denotes⟩ := known scope inScopes entry inScope
  exact ⟨(entry.1, argument), rfl, denotes⟩

end World

end Context

end LazyLisp
