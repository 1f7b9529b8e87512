import LazyLisp.Trace

/-!
# Traces of forcing

The evaluation of a deferred argument lasts from the event that begins it to the one that tells of
its value. One that fails has no such end, and then it is still taken to go on. In a well-behaved
trace, no argument is looked up while it is evaluated, and none is evaluated twice.
-/

set_option autoImplicit false

namespace LazyLisp

/-- The deferred argument whose evaluation begins. -/
def Event.begun? : Event → Option Nat
  | .forcing cell => some cell
  | .called _ _ _ | .rebound _ | .lookedUp _ | .forced _ | .evaluating _ | .preludeLoaded _
  | .preludeMissing _ | .trailingIgnored _ | .running _ => none

/-- The evaluation of the deferred argument has begun and has not given a value. -/
def Event.Pending (events : List Event) (cell : Nat) : Prop :=
  ∃ before after, events = before ++ .forcing cell :: after ∧ .forced cell ∉ after

/-- No deferred argument is looked up while its evaluation is pending, and the evaluation of each
begins once at most. -/
structure Event.OnceOnly (events : List Event) : Prop where
  lookedUp {before : List Event} {cell : Nat} :
    before ++ [.lookedUp cell] <+: events → ¬ Pending before cell
  begun : (events.filterMap Event.begun?).Nodup

namespace Event

variable {events : List Event} {event : Event} {cell : Nat}

theorem mem_begun : cell ∈ events.filterMap begun? ↔ .forcing cell ∈ events := by
  rw [List.mem_filterMap]
  constructor
  · rintro ⟨event, member, begins⟩
    cases event <;> cases begins
    exact member
  · exact fun member => ⟨_, member, rfl⟩

theorem Pending.forcing_mem (pending : Pending events cell) : .forcing cell ∈ events := by
  obtain ⟨before, after, rfl, -⟩ := pending
  exact List.mem_append_right _ List.mem_cons_self

/-- One more event leaves nothing pending but what it begins. -/
theorem Pending.of_concat (pending : Pending (events ++ [event]) cell) :
    event ≠ .forced cell ∧ (event = .forcing cell ∨ Pending events cell) := by
  obtain ⟨before, after, split, unfinished⟩ := pending
  rcases List.eq_nil_or_concat after with rfl | ⟨after, last, rfl⟩
  · obtain ⟨-, same⟩ := List.append_inj' split rfl
    cases same
    exact ⟨nofun, .inl rfl⟩
  · rw [List.concat_eq_append, ← List.cons_append, ← List.append_assoc] at split
    obtain ⟨rfl, same⟩ := List.append_inj' split rfl
    cases same
    rw [List.concat_eq_append, List.mem_append, List.mem_singleton, not_or] at unfinished
    exact ⟨fun same => unfinished.2 same.symm, .inr ⟨_, _, rfl, unfinished.1⟩⟩

namespace OnceOnly

theorem nil : OnceOnly [] where
  lookedUp isPrefix := by simp at isPrefix
  begun := List.nodup_nil

theorem concat (onceOnly : OnceOnly events)
    (idle : ∀ cell, event = .lookedUp cell → ¬ Pending events cell)
    (fresh : ∀ cell, event = .forcing cell → .forcing cell ∉ events) :
    OnceOnly (events ++ [event]) where
  lookedUp isPrefix := by
    rcases List.prefix_concat_iff.mp isPrefix with whole | earlier
    · obtain ⟨rfl, isLast⟩ := List.append_inj' whole rfl
      exact idle _ (List.singleton_inj.mp isLast).symm
    · exact onceOnly.lookedUp earlier
  begun := by
    rw [List.filterMap_append]
    cases begins : event.begun? with
    | none =>
        rw [List.filterMap_cons_none begins, List.filterMap_nil, List.append_nil]
        exact onceOnly.begun
    | some cell =>
        have isForcing : event = .forcing cell := by
          cases event <;> cases begins
          rfl
        have absent : cell ∉ events.filterMap begun? :=
          fun member => fresh cell isForcing (mem_begun.mp member)
        rw [List.filterMap_cons_some begins, List.filterMap_nil, List.nodup_append]
        refine ⟨onceOnly.begun, List.pairwise_singleton _ _, fun earlier member last isLast => ?_⟩
        rw [List.mem_singleton.mp isLast]
        exact fun same => absent (same ▸ member)

end OnceOnly

end Event

end LazyLisp
