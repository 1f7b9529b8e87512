import LazyLisp.Expr.Basic

/-!
# Bindings

A table of names in the order in which they were first bound. In an environment, what a name is
bound to is an expression or a deferred argument.
-/

set_option autoImplicit false

namespace LazyLisp

/-- What a name is bound to: an expression, or the deferred argument in a cell. -/
inductive Slot where
  | expr (expr : Expr)
  | deferred (cell : Nat)

/-- Names with what they are bound to, each name once, in the order of their first binding. -/
abbrev Bindings (α : Type := Slot) := List (String × α)

namespace Bindings

variable {α : Type}

def find? (name : String) : Bindings α → Option α
  | [] => none
  | (bound, slot) :: rest => if bound = name then some slot else find? name rest

def contains (name : String) (bindings : Bindings α) : Bool := (bindings.find? name).isSome

/-- The table with the name bound to something else; a bound name keeps its place, and a new one
comes last. -/
def insert (name : String) (slot : α) : Bindings α → Bindings α
  | [] => [(name, slot)]
  | (bound, old) :: rest =>
    if bound = name then (bound, slot) :: rest else (bound, old) :: insert name slot rest

theorem find?_insert_self (bindings : Bindings α) (name : String) (slot : α) :
    (bindings.insert name slot).find? name = some slot := by
  induction bindings with
  | nil => simp [insert, find?]
  | cons entry rest ih =>
      by_cases same : entry.1 = name
      · simp [insert, find?, same]
      · simp [insert, find?, same, ih]

theorem find?_insert_of_ne (bindings : Bindings α) {name other : String} (different : name ≠ other)
    (slot : α) : (bindings.insert name slot).find? other = bindings.find? other := by
  induction bindings with
  | nil => simp [insert, find?, different]
  | cons entry rest ih =>
      by_cases same : entry.1 = name
      · simp [insert, find?, same, different]
      · simp [insert, find?, same, ih]

/-- Binding a name again changes no place in the order; a new name is appended. -/
theorem names_insert (bindings : Bindings α) (name : String) (slot : α) :
    (bindings.insert name slot).map Prod.fst =
      if name ∈ bindings.map Prod.fst then bindings.map Prod.fst
      else bindings.map Prod.fst ++ [name] := by
  induction bindings with
  | nil => simp [insert]
  | cons entry rest ih =>
      by_cases same : entry.1 = name
      · simp [insert, same]
      · have different : name ≠ entry.1 := fun equal => same equal.symm
        simp only [insert, same, if_false, List.map_cons, ih, List.mem_cons, different, false_or]
        split <;> rfl

/-- The table that binding the pairs one after another gives. -/
def ofPairs (pairs : List (String × α)) : Bindings α :=
  pairs.foldl (fun bindings (name, slot) => bindings.insert name slot) []

end Bindings

end LazyLisp
