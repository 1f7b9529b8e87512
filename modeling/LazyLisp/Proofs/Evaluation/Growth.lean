import LazyLisp.Evaluation.ByNeed

/-!
# What evaluation adds

Evaluation adds events to the trace and cells to the environment, and it takes none away.
-/

set_option autoImplicit false

namespace LazyLisp.Environment

/-- The events by which the trace is longer than it was earlier. -/
def eventsSince (environment earlier : Environment) : List Event :=
  environment.events.toList.drop earlier.events.size

/-- The environment later, when these events have happened and there may be more cells. -/
structure Grows (environment : Environment) (events : List Event) (after : Environment) :
    Prop where
  cells : environment.cells.size ≤ after.cells.size
  events : after.events.toList = environment.events.toList ++ events

namespace Grows

variable {environment middle after : Environment} {events events' : List Event}

/-- Nothing has happened, whatever else has changed. -/
theorem silent (cells : environment.cells.size ≤ after.cells.size)
    (same : after.events = environment.events) : environment.Grows [] after :=
  ⟨cells, by rw [same, List.append_nil]⟩

theorem refl (environment : Environment) : environment.Grows [] environment :=
  .silent (Nat.le_refl _) rfl

theorem trans (grows : environment.Grows events middle) (grows' : middle.Grows events' after) :
    environment.Grows (events ++ events') after where
  cells := Nat.le_trans grows.cells grows'.cells
  events := by rw [grows'.events, grows.events, List.append_assoc]

theorem record (environment : Environment) (event : Event) :
    environment.Grows [event] (environment.record event) :=
  ⟨Nat.le_refl _, Array.toList_push⟩

theorem pop {popped : Bindings × Environment} (closed : environment.pop? = some popped) :
    environment.Grows [] popped.2 := by
  unfold pop? at closed
  split at closed
  · cases closed
  · cases closed
    exact .silent (Nat.le_refl _) rfl

theorem exists_define (environment : Environment) (name : String) (slot : Slot) :
    ∃ events, environment.Grows events (environment.define name slot) ∧
      ∀ event ∈ events, event = .rebound name := by
  unfold define
  dsimp only
  split
  · exact ⟨[.rebound name], ⟨Nat.le_refl _, Array.toList_push⟩, fun _ => List.mem_singleton.mp⟩
  · exact ⟨[], .silent (Nat.le_refl _) rfl, nofun⟩

theorem fill (environment : Environment) (index : Nat) (value : Expr) :
    environment.Grows [] (environment.fill index value) :=
  .silent (Nat.le_of_eq Array.size_modify.symm) rfl

theorem deferAll (environment : Environment) (exprs : List Expr) :
    environment.Grows [] (environment.deferAll exprs).2 := by
  rw [Environment.deferAll, deferIn_eq]
  exact .silent (by simp) rfl

theorem eventsSince_eq (grows : environment.Grows events after) :
    after.eventsSince environment = events := by
  rw [eventsSince, grows.events, ← Array.length_toList, List.drop_left]

end Grows

end LazyLisp.Environment
