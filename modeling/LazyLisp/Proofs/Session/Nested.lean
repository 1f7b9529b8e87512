import LazyLisp.Proofs.Session.Calls
import LazyLisp.Proofs.Session.Visited

/-!
# Chains of lambdas in sessions

Wherever a session calls a chain of lambdas, this is one call with one row of arguments. The lambdas
share the deferred arguments, so each argument is evaluated once at most, however many of their
formals are looked up.
-/

set_option autoImplicit false

namespace LazyLisp

/-- Of distinct names, each is bound to its own thing. -/
theorem Bindings.find?_zip {α : Type} {names : List String} (distinct : names.Nodup)
    {slots : List α} {place : Nat} {name : String} {slot : α} (named : names[place]? = some name)
    (given : slots[place]? = some slot) : find? name (names.zip slots) = some slot := by
  induction names generalizing slots place with
  | nil => cases named
  | cons first names ih =>
      rw [List.nodup_cons] at distinct
      cases slots with
      | nil => cases given
      | cons slot' slots =>
          rw [List.zip_cons_cons, find?]
          cases place with
          | zero =>
              cases named
              cases given
              exact if_pos rfl
          | succ place =>
              rw [List.getElem?_cons_succ] at named given
              have different : first ≠ name :=
                fun same => distinct.1 (same ▸ List.mem_of_getElem? named)
              rw [if_neg different]
              exact ih distinct.2 named given

namespace Evaluation

/-- The formal at a place of a lambda is bound to the argument at that place. -/
theorem find?_frame {cells : List Nat} {formals : List String} (distinct : formals.Nodup)
    (fits : formals.length = cells.length) {place cell : Nat} {formal : String}
    (named : formals[place]? = some formal) (given : cells[place]? = some cell) :
    (frame cells formals).find? formal = some (.deferred cell) := by
  have sameLength : formals.length = (cells.map Slot.deferred).length := by
    rw [List.length_map, fits]
  rw [frame, Bindings.ofPairs_zip distinct sameLength]
  refine Bindings.find?_zip distinct named ?_
  rw [List.getElem?_map, given]
  rfl

/-- A call begins to evaluate no argument twice. -/
theorem begun_once_since {environment : Environment} (inOrder : environment.InOrder) (bound : Nat)
    (formals : List String) (body : Expr) (arguments : List Expr) (index : Nat) :
    (((afterwards (call (evaluateWithin bound) formals body arguments environment)).eventsSince
      environment).filterMap Event.begun?).count index ≤ 1 := by
  have ends := call_keepsOrder (evaluateWithin_keepsOrder bound) formals body arguments
    inOrder.orderly inOrder.ready
  have orderly : (afterwards
      (call (evaluateWithin bound) formals body arguments environment)).Orderly := by
    cases ended : call (evaluateWithin bound) formals body arguments environment with
    | ok value after =>
        rw [ended] at ends
        exact ends.1
    | error failure after =>
        rw [ended] at ends
        exact ends
  refine List.nodup_iff_count_le_one.mp (orderly.trace.begun.sublist ?_) index
  exact (List.drop_sublist _ _).filterMap _

section

variable {environment : Environment} (visited : environment.Visited) (bound : Nat)
  (formals : List String) (layers : List (List String)) {body : Expr}
  (innermost : body.IsInnermost) (arguments : List Expr)

include visited innermost

/-- Where a call of a chain of lambdas begins in a run of a session and all of the lambdas have as
many formals as there are arguments, it ends as the innermost body does behind the scopes of the
caller and one scope for each lambda, the outermost first. At each place, the formals of all lambdas
are bound to one argument, which is deferred over the scopes of the caller, and its evaluation
begins once at most. Otherwise the call fails for the first lambda that has another number of
formals; nothing is evaluated, and the environment is as it was. -/
theorem call_of_chain :
    let result :=
      call (evaluateWithin bound) formals (Expr.nested layers body) arguments environment
    match misfit? arguments.length (formals :: layers) with
    | none =>
      let cells := List.range' environment.cells.size arguments.length
      let inner := environment.inside arguments (formals :: layers) body
      result = leaving environment.scopes (evaluateWithin bound body inner) ∧
        inner.table = environment.table ∧
        inner.scopes = ((formals :: layers).map (frame cells)).reverse ++ environment.scopes ∧
        ∀ {place : Nat} {argument : Expr}, arguments[place]? = some argument →
          let cell := environment.cells.size + place
          inner.cells[cell]? = some ⟨argument, environment.cells.size, environment.scopes, none⟩ ∧
            (∀ layer ∈ formals :: layers, layer.Nodup → ∀ {formal : String},
              layer[place]? = some formal →
              (frame cells layer).find? formal = some (.deferred cell)) ∧
            (((afterwards result).eventsSince environment).filterMap Event.begun?).count cell ≤ 1
    | some mismatching =>
      ∃ after, result = .error (.exactArity mismatching.length arguments.length) after ∧
        environment.AsItWas after := by
  intro result
  split
  next fits =>
    intro cells inner
    have inside := environment.inside_eq arguments (formals :: layers) body
    refine ⟨call_leaves innermost bound fits, by simp only [inner, inside],
      by simp only [inner, inside, cells], ?_⟩
    intro place argument given cell
    refine ⟨?_, ?_, begun_once_since visited.inOrder bound _ _ _ _⟩
    · simp only [inner, inside, cell]
      rw [Array.getElem?_append_right (Nat.le_add_right _ _), Nat.add_sub_cancel_left,
        List.getElem?_toArray, List.getElem?_map, given]
      rfl
    · intro layer member distinct formal named
      have short : place < arguments.length := (List.getElem?_eq_some_iff.mp given).1
      have sameLength : layer.length = cells.length :=
        (misfit?_eq_none.mp fits layer member).trans List.length_range'.symm
      refine find?_frame distinct sameLength named ?_
      rw [List.getElem?_range' short, Nat.one_mul]
  next mismatching found =>
    obtain ⟨after, asItWas, stopped⟩ := call_of_misfit found body environment
    exact ⟨after, stopped _, asItWas⟩

end

/-- The formals of both lambdas are one argument, which is the formal of a caller; with two
arguments the second lambda stops the call. -/
theorem call_of_chain_shadowed :
    let environment := Environment.empty.inside [.boolean true] [["x"]] .nil
    let body := Expr.application (.operator .and) [.identifier "x", .identifier "y"]
    let result := call (evaluateWithin 4) ["x"] (.lambda ["y"] body) [.identifier "x"] environment
    environment.Visited ∧ body.IsInnermost ∧
      misfit? 1 [["x"], ["y"]] = none ∧ outcome result = .ok (.boolean true) ∧
      (((afterwards result).eventsSince environment).filterMap Event.begun?).count 1 ≤ 1 ∧
      ∃ after, call (evaluateWithin 4) ["x", "z"] (.lambda ["y"] body)
          [.identifier "x", .identifier "x"] environment = .error (.exactArity 1 2) after ∧
        environment.AsItWas after := by
  intro environment body result
  have visited : environment.Visited := .entered _ _ _ .empty
  have innermost : body.IsInnermost := nofun
  have fitting := call_of_chain visited 4 ["x"] [["y"]] innermost [.identifier "x"]
  have misfitting :=
    call_of_chain visited 4 ["x", "z"] [["y"]] innermost [.identifier "x", .identifier "x"]
  obtain ⟨-, -, -, shared⟩ := fitting
  obtain ⟨-, -, onceBegun⟩ := @shared 0 (.identifier "x") rfl
  exact ⟨visited, innermost, rfl, rfl, onceBegun, misfitting⟩

end Evaluation

end LazyLisp
