import LazyLisp.Proofs.Evaluation.Calls
import LazyLisp.Proofs.Session

/-!
# Well-formed forms and full scopes

Every form that is read is well-formed, at any depth. So the formals of each lambda that a session
calls are distinct, and as a call has as many arguments as the lambda has formals, the scope that it
opens has an entry for each of them.
-/

set_option autoImplicit false

namespace LazyLisp

/-! ## Tables of distinct names -/

namespace Bindings

variable {α : Type} {bindings pairs : Bindings α}

theorem insert_of_unbound {name : String} (unbound : name ∉ bindings.map Prod.fst) (slot : α) :
    bindings.insert name slot = bindings ++ [(name, slot)] := by
  induction bindings with
  | nil => rfl
  | cons entry rest ih =>
      rw [List.map_cons, List.mem_cons, not_or] at unbound
      rw [insert, if_neg (Ne.symm unbound.1), ih unbound.2]
      rfl

/-- Binding distinct names one after another adds an entry for each. -/
theorem ofPairs_of_nodup (distinct : (pairs.map Prod.fst).Nodup) : ofPairs pairs = pairs := by
  induction pairs using List.reverseRecOn with
  | nil => rfl
  | append_singleton pairs pair ih =>
      rw [List.map_append, List.nodup_append] at distinct
      have unbound : pair.1 ∉ pairs.map Prod.fst := fun member =>
        distinct.2.2 _ member _ (List.mem_singleton.mpr rfl) rfl
      rw [ofPairs, List.foldl_append, ← ofPairs, ih distinct.1]
      exact insert_of_unbound unbound pair.2

/-- Distinct names are bound each to its own thing, in their order. -/
theorem ofPairs_zip {names : List String} (distinct : names.Nodup) {slots : List α}
    (same : names.length = slots.length) : ofPairs (names.zip slots) = names.zip slots := by
  refine ofPairs_of_nodup ?_
  rwa [List.map_fst_zip (Nat.le_of_eq same)]

end Bindings

open Reader Evaluation

/-- In a session, whatever it has done before, the evaluation of a form that is read, to any depth,
only calls well-formed lambdas, with as many arguments as there are formals. -/
theorem Environment.Reached.call_fits {environment start : Environment}
    (reached : environment.Reached) {expr marked : Expr} (read : IsRead expr)
    (adopts : environment.Adopts expr (marked, start)) (bound : Nat) :
    ∀ event ∈ (afterwards (evaluateWithin bound marked start)).eventsSince start,
      event.Fits fun value => value.unmarked.WellFormed := by
  have wellFormed : marked.unmarked.WellFormed := by
    rw [adopts.unmarked_eq, read.wellFormed.unmarked_eq]
    exact read.wellFormed
  have traced : start.Traced (fun value => value.unmarked.WellFormed)
      (·.Only fun expr => expr.unmarked.WellFormed) start :=
    ⟨adopts.only reached.only, [], .refl start, nofun⟩
  have traces := (evaluateWithin_traces Environment.invariant_only Expr.hereditary_wellFormed bound
    wellFormed traced).afterwards
  obtain ⟨-, events, grows, fits⟩ := traces
  rwa [grows.eventsSince_eq]

/-- All forms that are read are well-formed: the first one of any text, and every one of a source.
So the scope that a call opens, whichever form of a session evaluation is at, binds each formal to
its own argument and has exactly as many entries as there are arguments. -/
theorem Session.reads_wellFormed :
    (∀ {source rest : Text} {expr : Expr}, readFirst source = .ok (expr, rest) →
      expr.WellFormed) ∧
    (∀ {source : Text}, ∀ expr ∈ (readAll source).1, expr.WellFormed) ∧
    ∀ {environment start : Environment} {expr marked : Expr} {bound : Nat},
      environment.Reached → IsRead expr → environment.Adopts expr (marked, start) →
      ∀ {formals : List String} {body : Expr} {arguments : Nat},
      .called formals body arguments ∈
        (afterwards (evaluateWithin bound marked start)).eventsSince start →
      ∀ cells : List Nat, cells.length = arguments →
        let scope := Bindings.ofPairs (formals.zip (cells.map Slot.deferred))
        scope = formals.zip (cells.map Slot.deferred) ∧ scope.length = arguments := by
  refine ⟨fun found => wellFormed_of_readFirst found,
    fun expr member => (isRead_of_readAll expr member).wellFormed, ?_⟩
  rintro environment start expr marked bound reached read adopts formals body _ member cells rfl
  obtain ⟨wellFormed, arity⟩ := reached.call_fits read adopts bound _ member _ _ _ rfl
  have sameLength : formals.length = (cells.map Slot.deferred).length := by
    rw [List.length_map, arity]
  have full := Bindings.ofPairs_zip (show formals.Nodup from wellFormed.1) sameLength
  refine ⟨full, ?_⟩
  rw [full, List.length_zip, ← sameLength, Nat.min_self, arity]

/-- A call whose body is a lambda opens two scopes for its argument. -/
theorem Session.reads_wellFormed_nested :
    let inner := Expr.application (.operator .and) [.identifier "x", .identifier "y"]
    let call := Expr.application (.lambda ["x"] (.lambda ["y"] inner)) [.boolean true]
    call.WellFormed ∧
      (Bindings.ofPairs (["x"].zip [Slot.deferred 0])).length = 1 ∧
      (Bindings.ofPairs (["y"].zip [Slot.deferred 0])).length = 1 := by
  intro inner call
  have read : readFirst "((fn [x] (fn [y] (and x y))) true)".toList = .ok (call, []) := rfl
  have isRead : IsRead call := ⟨"((fn [x] (fn [y] (and x y))) true)".toList, [], rfl⟩
  have calls : (afterwards (evaluateWithin 4 call .empty)).eventsSince .empty =
      [.called ["x"] (.lambda ["y"] inner) 1, .called ["y"] inner 1, .lookedUp 0, .forcing 0,
        .forced 0, .lookedUp 0] := rfl
  have outer : .called ["x"] (.lambda ["y"] inner) 1 ∈
      (afterwards (evaluateWithin 4 call .empty)).eventsSince .empty := by simp [calls]
  have nested : .called ["y"] inner 1 ∈
      (afterwards (evaluateWithin 4 call .empty)).eventsSince .empty := by simp [calls]
  obtain ⟨wellFormed, -, scopes⟩ := reads_wellFormed
  have adopts : Environment.empty.Adopts call (call, .empty) := .program
  exact ⟨wellFormed read, (scopes .empty isRead adopts outer [0] rfl).2,
    (scopes .empty isRead adopts nested [0] rfl).2⟩

end LazyLisp
