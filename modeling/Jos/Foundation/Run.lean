import Mathlib.Logic.Function.Basic

/-! Runs of a partial step function. A step that does not succeed ends the run:
no state is described after it. -/

set_option autoImplicit false

namespace Foundation

universe u v w

variable {State : Type u} {Event : Type v}

/-- The state after a list of events, when every one of them succeeds. -/
def run (step : State → Event → Option State) : State → List Event → Option State
  | state, [] => some state
  | state, event :: events => (step state event).bind fun next => run step next events

/-- A run from one state to another, each of whose steps starts from a state and
an event that the guard admits. -/
inductive Along (step : State → Event → Option State) (guard : State → Event → Prop)
    (start : State) : List Event → State → Prop where
  | nil : Along step guard start [] start
  | snoc {events : List Event} {middle final : State} {event : Event} :
      Along step guard start events middle → guard middle event →
      step middle event = some final → Along step guard start (events ++ [event]) final

/-- The states that guarded runs reach from an initial state. -/
def Reachable (initial : State → Prop) (step : State → Event → Option State)
    (guard : State → Event → Prop) (state : State) : Prop :=
  ∃ start events, initial start ∧ Along step guard start events state

section
variable {step : State → Event → Option State} {guard : State → Event → Prop}

theorem run_append (start : State) (first second : List Event) :
    run step start (first ++ second) =
      (run step start first).bind fun middle => run step middle second := by
  induction first generalizing start with
  | nil => rfl
  | cons event first ih =>
    cases stepped : step start event with
    | none => simp [run, stepped]
    | some next => simpa [run, stepped] using ih next

theorem Along.run_eq {start final : State} {events : List Event}
    (along : Along step guard start events final) : run step start events = some final := by
  induction along with
  | nil => rfl
  | snoc _ _ stepped ih => simp [run_append, ih, run, stepped]

/-- What holds at the start and is kept by every admitted step holds throughout. -/
theorem Along.preserves {start final : State} {events : List Event}
    (along : Along step guard start events final) (invariant : State → Prop)
    (holds : invariant start)
    (kept : ∀ before event after, invariant before → guard before event →
      step before event = some after → invariant after) : invariant final := by
  induction along with
  | nil => exact holds
  | snoc _ admitted stepped ih => exact kept _ _ _ ih admitted stepped

theorem Along.of_snoc {start final : State} {events : List Event} {event : Event}
    (along : Along step guard start (events ++ [event]) final) :
    ∃ middle, Along step guard start events middle ∧ guard middle event ∧
      step middle event = some final := by
  generalize whole : events ++ [event] = all at along
  cases along with
  | nil => simp at whole
  | snoc before admitted stepped =>
    obtain ⟨rfl, same⟩ := List.append_inj' whole rfl
    obtain rfl := List.singleton_inj.mp same
    exact ⟨_, before, admitted, stepped⟩

theorem Along.weaken {weaker : State → Event → Prop} {start final : State} {events : List Event}
    (along : Along step guard start events final)
    (implied : ∀ state event, guard state event → weaker state event) :
    Along step weaker start events final := by
  induction along with
  | nil => exact .nil
  | snoc _ admitted stepped ih => exact ih.snoc (implied _ _ admitted) stepped

/-- What holds of the events is a guard of their run, too. -/
theorem Along.with {more : Event → Prop} {start final : State} {events : List Event}
    (along : Along step guard start events final) (holds : ∀ event ∈ events, more event) :
    Along step (fun state event => guard state event ∧ more event) start events final := by
  induction along with
  | nil => exact .nil
  | snoc _ admitted stepped ih =>
    have before := ih fun event member => holds event (List.mem_append_left _ member)
    exact before.snoc ⟨admitted, holds _ (List.mem_append_right _ List.mem_cons_self)⟩ stepped

theorem Along.trans {start middle final : State} {first second : List Event}
    (before : Along step guard start first middle)
    (after : Along step guard middle second final) :
    Along step guard start (first ++ second) final := by
  induction after with
  | nil => simpa using before
  | snoc _ admitted stepped ih =>
    rw [← List.append_assoc]
    exact ih.snoc admitted stepped

/-- A run is guarded where the guard admits each of its events in every state. -/
theorem Along.of_admitted {start final : State} {events : List Event}
    (admitted : ∀ event ∈ events, ∀ state, guard state event)
    (ran : run step start events = some final) : Along step guard start events final := by
  induction events generalizing start with
  | nil =>
    cases ran
    exact .nil
  | cons event events ih =>
    obtain ⟨next, stepped, rest⟩ := Option.bind_eq_some_iff.mp ran
    have first : Along step guard start ([] ++ [event]) next :=
      Along.nil.snoc (admitted event List.mem_cons_self start) stepped
    exact first.trans (ih (fun event later => admitted event (List.mem_cons_of_mem _ later)) rest)

/-- Whether the guard admits every step of a run. -/
def admits (step : State → Event → Option State) (guard : State → Event → Prop)
    [∀ state event, Decidable (guard state event)] : State → List Event → Bool
  | _, [] => true
  | state, event :: events => decide (guard state event) &&
      match step state event with
      | none => true
      | some next => admits step guard next events

theorem Along.of_admits [∀ state event, Decidable (guard state event)] {start final : State}
    {events : List Event} (admitted : admits step guard start events)
    (ran : run step start events = some final) : Along step guard start events final := by
  induction events generalizing start with
  | nil =>
    cases ran
    exact .nil
  | cons event events ih =>
    obtain ⟨next, stepped, rest⟩ := Option.bind_eq_some_iff.mp ran
    rw [admits, stepped, Bool.and_eq_true, decide_eq_true_iff] at admitted
    have first : Along step guard start ([] ++ [event]) next :=
      Along.nil.snoc admitted.1 stepped
    exact first.trans (ih admitted.2 rest)

/-- Every run is one that a guard which admits everything admits. -/
theorem Along.of_run {start final : State} {events : List Event}
    (ran : run step start events = some final) :
    Along step (fun _ _ => True) start events final :=
  .of_admitted (fun _ _ _ => trivial) ran

theorem Reachable.invariant {initial : State → Prop} {state : State}
    (reachable : Reachable initial step guard state) (invariant : State → Prop)
    (starts : ∀ start, initial start → invariant start)
    (kept : ∀ before event after, invariant before → guard before event →
      step before event = some after → invariant after) : invariant state := by
  obtain ⟨start, events, begun, along⟩ := reachable
  exact along.preserves invariant (starts start begun) kept

end

end Foundation
