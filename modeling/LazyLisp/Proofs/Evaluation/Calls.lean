import LazyLisp.Proofs.Evaluation.Growth
import LazyLisp.Proofs.Evaluation.Invariant

/-!
# Calls in the trace

The trace tells of each call with the formals and the body of the lambda and the number of the
arguments. A call begins only behind the check of this number, also where a body that is a lambda is
entered with the same arguments, so each call in the trace is one of a lambda with as many formals
as there are arguments.
-/

set_option autoImplicit false

namespace LazyLisp

/-- If the event is a call, the lambda is a good one with as many formals as there are
arguments. -/
def Event.Fits (valued : Expr → Prop) (event : Event) : Prop :=
  ∀ formals body arguments, event = .called formals body arguments →
    valued (.lambda formals body) ∧ formals.length = arguments

/-- The invariant holds, and all calls since the start fit. -/
def Environment.Traced (environment : Environment) (valued : Expr → Prop)
    (holds : Environment → Prop) (start : Environment) : Prop :=
  holds environment ∧ ∃ events, start.Grows events environment ∧ ∀ event ∈ events, event.Fits valued

theorem Environment.Traced.later {valued : Expr → Prop} {holds : Environment → Prop}
    {start environment after : Environment} {events : List Event}
    (traced : environment.Traced valued holds start) (kept : holds after)
    (grows : environment.Grows events after) (fits : ∀ event ∈ events, event.Fits valued) :
    after.Traced valued holds start := by
  obtain ⟨-, earlier, growsEarlier, fitsEarlier⟩ := traced
  refine ⟨kept, earlier ++ events, growsEarlier.trans grows, fun event member => ?_⟩
  exact (List.mem_append.mp member).elim (fitsEarlier event) (fits event)

theorem Environment.Traced.silent {valued : Expr → Prop} {holds : Environment → Prop}
    {start environment after : Environment} (traced : environment.Traced valued holds start)
    (kept : holds after) (grows : environment.Grows [] after) :
    after.Traced valued holds start :=
  traced.later kept grows (List.forall_mem_nil _)

namespace Evaluation

section

variable {valued : Expr → Prop} {holds : Environment → Prop} {start : Environment} {α β : Type}
  {good : α → Prop} {good' : β → Prop}

/-- How an action may end: the invariant holds and all calls since the start fit, and a result is
good. -/
def EndsTraced (valued : Expr → Prop) (holds : Environment → Prop) (start : Environment)
    (good : α → Prop) : EStateM.Result Failure Environment α → Prop
  | .ok result after => after.Traced valued holds start ∧ good result
  | .error _ after => after.Traced valued holds start

/-- Wherever the invariant holds and all calls since the start fit, the action ends so. -/
def Traces (valued : Expr → Prop) (holds : Environment → Prop) (start : Environment)
    (good : α → Prop) (action : Action Environment α) : Prop :=
  ∀ ⦃environment : Environment⦄, environment.Traced valued holds start →
    EndsTraced valued holds start good (action environment)

theorem Traces.bind {first : Action Environment α} {next : α → Action Environment β}
    (traces : Traces valued holds start good first)
    (traces' : ∀ result, good result → Traces valued holds start good' (next result)) :
    Traces valued holds start good' (first >>= next) := by
  intro environment traced
  have ends := traces traced
  cases ended : first environment with
  | ok result middle =>
      rw [ended] at ends
      rw [Action.bind_of_ok ended]
      exact traces' result ends.2 ends.1
  | error failure middle =>
      rw [ended] at ends
      rw [Action.bind_of_error ended]
      exact ends

theorem EndsTraced.afterwards {result : EStateM.Result Failure Environment α}
    (ends : EndsTraced valued holds start good result) :
    (afterwards result).Traced valued holds start := by
  cases result with
  | ok _ _ => exact ends.1
  | error _ _ => exact ends

end

/-- Tracing calls that fit, as a comparison with nothing. -/
def tracing (valued : Expr → Prop) (holds : Environment → Prop) (start : Environment) :
    Comparison valued Environment Environment Unit where
  holds good action _ := Traces valued holds start good action
  pure isGood := fun _ traced => ⟨traced, isGood⟩
  throw _ := fun _ traced => traced
  bind traces traces' := traces.bind traces'

/-- What is behind the check of the number of arguments is only reached if it is the right one. -/
theorem requireExactArity_traces {valued : Expr → Prop} {holds : Environment → Prop}
    {start : Environment} (expected received : Nat) :
    Traces valued holds start (fun _ => expected = received)
      (requireExactArity expected received) := by
  intro environment traced
  unfold requireExactArity
  split
  next same => exact ⟨traced, Int.ofNat_inj.mp same⟩
  next => exact traced

section

variable {property valued : Expr → Prop} {holds : Environment → Prop}
  (invariant : Environment.Invariant property valued holds) {start : Environment}

include invariant

theorem record_traced {environment : Environment} (traced : environment.Traced valued holds start)
    {event : Event} (fits : event.Fits valued) :
    (environment.record event).Traced valued holds start :=
  traced.later (invariant.record event traced.1) (.record environment event)
    (List.forall_mem_singleton.mpr fits)

theorem record_traces {event : Event} (fits : event.Fits valued) :
    Traces valued holds start (fun _ => True) (record event) :=
  fun _ traced => ⟨record_traced invariant traced fits, trivial⟩

theorem define_traces (name : String) {value : Expr} (good : valued value) :
    Traces valued holds start (fun _ => True) (define name value) := by
  intro environment traced
  obtain ⟨events, grows, rebinds⟩ := Environment.Grows.exists_define environment name (.expr value)
  refine ⟨traced.later (invariant.define name good traced.1) grows fun event member => ?_, trivial⟩
  rw [rebinds event member]
  rintro _ _ _ ⟨⟩

theorem inScope_traces {α : Type} {good : α → Prop} {action : Action Environment α}
    (traces : Traces valued holds start good action) (formals : List String) (cells : List Nat) :
    Traces valued holds start good
      (inScope (Bindings.ofPairs (formals.zip (cells.map .deferred))) action) := by
  intro environment traced
  have ends := traces (traced.silent (invariant.push formals cells traced.1)
    (.silent (Nat.le_refl _) rfl))
  have closes {after : Environment} {closed : Bindings × Environment}
      (popped : after.pop? = some closed) (traced : after.Traced valued holds start) :
      closed.2.Traced valued holds start :=
    traced.silent (invariant.pop popped traced.1) (.pop popped)
  cases ended : action (environment.push _) with
  | ok result after =>
      rw [ended] at ends
      cases popped : after.pop? with
      | none =>
          simp only [inScope, ended, popped]
          exact ends.1
      | some closed =>
          rw [inScope_of_ok ended popped]
          exact ⟨closes popped ends.1, ends.2⟩
  | error failure after =>
      rw [ended] at ends
      cases popped : after.pop? with
      | none =>
          simp only [inScope, ended, popped]
          exact ends
      | some closed =>
          rw [inScope_of_error ended popped]
          exact closes popped ends

section

variable {evaluate : Expr → Action Environment Expr}
  (traces : ∀ expr, property expr → Traces valued holds start valued (evaluate expr))

include traces

theorem force_endsTraced {environment : Environment}
    (traced : environment.Traced valued holds start) {index : Nat} {cell : Cell}
    (found : environment.cells[index]? = some cell) :
    EndsTraced valued holds start valued (force evaluate index cell environment) := by
  cases unforced : cell.value? with
  | some value =>
      simp only [force, unforced]
      exact ⟨traced, invariant.value found unforced traced.1⟩
  | none =>
      have begun : (environment.record (.forcing index)).Traced valued holds start :=
        record_traced invariant traced (by rintro _ _ _ ⟨⟩)
      have switched : holds ((environment.record (.forcing index)).switch (some cell.group)
          (environment.scopesOf cell)) :=
        @invariant.switch (environment.record (.forcing index)) index cell found begun.1
      have ends := traces _ (invariant.argument found traced.1)
        (begun.silent switched (.silent (Nat.le_refl _) rfl))
      cases ended : evaluate cell.expr _ with
      | ok value after =>
          rw [ended] at ends
          rw [force_of_ok _ unforced ended]
          have restored := ends.1.silent (invariant.restore traced.1 ends.1.1)
            (.silent (Nat.le_refl _) rfl)
          have filled := restored.silent (invariant.fill index ends.2 restored.1)
            (.fill _ index value)
          exact ⟨record_traced invariant filled (by rintro _ _ _ ⟨⟩), ends.2⟩
      | error failure after =>
          rw [ended] at ends
          rw [force_of_error _ unforced ended]
          exact Environment.Traced.silent ends (invariant.restore traced.1 ends.1)
            (.silent (Nat.le_refl _) rfl)

theorem lookUp_traces (name : String) :
    Traces valued holds start valued (lookUp evaluate name) := by
  intro environment traced
  cases bound : environment.find? name with
  | none =>
      rw [lookUp_of_unbound evaluate bound]
      exact traced
  | some slot =>
      cases slot with
      | expr expr =>
          rw [lookUp_of_expr evaluate bound]
          exact ⟨traced, invariant.found bound traced.1⟩
      | deferred index =>
          cases found : environment.cells[index]? with
          | none =>
              rw [lookUp_of_missing evaluate bound found]
              exact traced
          | some cell =>
              rw [lookUp_of_deferred evaluate bound found]
              have looked : (environment.record (.lookedUp index)).Traced valued holds start :=
                record_traced invariant traced (by rintro _ _ _ ⟨⟩)
              exact force_endsTraced invariant traces looked found

variable (hereditary : Hereditary property valued)

include hereditary

/-- A body that is a lambda is entered behind a check of its own. -/
theorem enter_traces {cells : List Nat} {formals : List String} {body : Expr}
    (good : valued (.lambda formals body)) (arity : formals.length = cells.length) :
    Traces valued holds start valued (enter evaluate cells formals body) := by
  have fits : Event.Fits valued (.called formals body cells.length) := by
    rintro _ _ _ ⟨⟩
    exact ⟨good, arity⟩
  induction body using Expr.body_induction generalizing formals with
  | lambda formals' body ih =>
      have good' := hereditary.value (hereditary.body good) trivial
      refine (record_traces invariant fits).bind fun _ _ =>
        inScope_traces invariant ?_ formals cells
      refine (requireExactArity_traces _ _).bind fun _ arity' => ih good' arity' ?_
      rintro _ _ _ ⟨⟩
      exact ⟨good', arity'⟩
  | other body notLambda =>
      rw [enter_of_not_lambda evaluate notLambda]
      exact (record_traces invariant fits).bind fun _ _ =>
        inScope_traces invariant (traces body (hereditary.body good)) formals cells

theorem call_traces {formals : List String} {body : Expr} {arguments : List Expr}
    (good : valued (.lambda formals body))
    (argumentsGood : ∀ argument ∈ arguments, property argument) :
    Traces valued holds start valued (call evaluate formals body arguments) := by
  refine (requireExactArity_traces _ _).bind fun _ arity => ?_
  intro environment traced
  have length : (environment.deferAll arguments).1.length = arguments.length := by
    rw [Environment.deferAll, Environment.deferIn_eq, List.length_range']
  exact enter_traces invariant traces hereditary good (arity.trans length.symm)
    (traced.silent (invariant.deferAll argumentsGood traced.1) (.deferAll environment arguments))

end

/-- Every evaluation of an expression with the property, to any depth, keeps the invariant and makes
calls that fit. -/
theorem evaluateWithin_traces (hereditary : Hereditary property valued) (bound : Nat) {expr : Expr}
    (good : property expr) : Traces valued holds start valued (evaluateWithin bound expr) := by
  induction bound generalizing expr with
  | zero => exact fun _ traced => traced
  | succ bound ih =>
      have rulesHold : (tracing valued holds start).Rules property (byNeed (evaluateWithin bound))
          fun _ => byNeed (evaluateWithin bound) := {
        lookUp := fun _ => lookUp_traces invariant (fun _ => ih) _
        define := fun _ valueGood => define_traces invariant _ valueGood
        call := fun lambdaGood argumentsGood =>
          call_traces invariant (fun _ => ih) hereditary lambdaGood argumentsGood }
      exact @Comparison.form _ _ _ _ _ (tracing valued holds start) hereditary
        (evaluateWithin bound) (fun _ => evaluateWithin bound) (fun _ => ih) _ _ rulesHold expr good

end

end Evaluation

end LazyLisp
