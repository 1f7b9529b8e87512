import LazyLisp.Proofs.Evaluation.Forcing
import LazyLisp.Proofs.Session.Invariant

/-!
# Forcing in sessions

Between two forms of a source no call is going on, so nothing deferred can be looked up. Each form
is therefore evaluated in order, also behind forms that failed in the middle of an argument.
-/

set_option autoImplicit false

namespace LazyLisp

open Evaluation

theorem Environment.Orderly.empty : Environment.empty.Orderly where
  table := nofun
  group found := by simp [Environment.empty] at found
  scopes found := by simp [Environment.empty] at found
  begun member := by simp [Environment.empty] at member
  trace := .nil

theorem Environment.ready_of_callStacks {environment : Environment}
    (atTopLevel : environment.callStacks = Environment.empty.callStacks) : environment.Ready := by
  simp only [callStacks, Environment.empty, Prod.mk.injEq] at atTopLevel
  obtain ⟨scopes, noGroup, waiting⟩ := atTopLevel
  refine ⟨fun group member => ?_, fun scope member => ?_⟩
  · simp [groupsInUse, groupStacks, noGroup, waiting] at member
  · simp [scopes] at member

/-- In all sessions, no call is going on between two forms, and the environment is in order. -/
theorem Session.invariant_orderly : Session.Invariant fun environment =>
    environment.callStacks = Environment.empty.callStacks ∧ environment.Orderly where
  empty := ⟨rfl, .empty⟩
  record isLine kept :=
    ⟨kept.1, kept.2.record_other (fun _ same => by cases same; cases isLine)
      fun _ same => by cases same; cases isLine⟩
  evaluate {environment start _ marked} kept _ adopts := by
    have keptStart : start.callStacks = Environment.empty.callStacks ∧ start.Orderly := by
      obtain ⟨same, orderly⟩ := kept
      cases adopts <;>
        exact ⟨same, orderly.table, orderly.group, orderly.scopes, orderly.begun, orderly.trace⟩
    rw [Environment.evaluate_snd]
    refine ⟨((evaluateWithin_keepsStacks _ _).afterwards _).trans keptStart.1, ?_⟩
    have ends := evaluateWithin_keepsOrder Environment.depthBound marked keptStart.2
      (Environment.ready_of_callStacks keptStart.1)
    cases ended : evaluateWithin Environment.depthBound marked start with
    | ok value after =>
        rw [ended] at ends
        exact ends.1
    | error failure after =>
        rw [ended] at ends
        exact ends

/-- In a session, whatever sources it has run and however they ended, no deferred argument is looked
up from the beginning of its evaluation to the end, and the evaluation of each begins once at
most. -/
theorem Session.arguments_evaluated_once {strict : Bool} {prelude : Option Text} {session : Session}
    (started : start strict prelude = .ok session) (sources : List Text) :
    let events := (session.runAll sources).environment.events.toList
    (∀ {before cell}, before ++ [.lookedUp cell] <+: events → ¬ Event.Pending before cell) ∧
      (events.filterMap Event.begun?).Nodup := by
  intro events
  have kept := invariant_orderly.runAll (invariant_orderly.start started) sources
  exact ⟨kept.2.trace.lookedUp, kept.2.trace.begun⟩

/-- An argument that is looked up twice is evaluated once. -/
theorem Session.arguments_evaluated_once_disjunction :
    let events := (({ } : Session).runAll
      ["((fn [x] (or x x)) (not true))".toList]).environment.events.toList
    events.filterMap Event.begun? = [0] ∧
      ∀ {before cell}, before ++ [.lookedUp cell] <+: events → ¬ Event.Pending before cell :=
  ⟨by decide +kernel,
    (arguments_evaluated_once (show start false none = .ok { } from rfl) _).1⟩

end LazyLisp
