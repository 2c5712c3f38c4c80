import Mathlib.Data.List.Basic

/-!
# Runs of a step function

A system takes one event after another; what an event does is given by a step function. A
run *meets* a condition when each event meets it in the state it is taken in. An invariant
that every such event keeps then holds in the state reached.
-/

namespace LightKV.Runs

universe u v w

variable {S : Type u} {E : Type v}

/-- The state that a list of events leads to. -/
def run (step : S → E → S) (start : S) (events : List E) : S :=
  events.foldl step start

/-- Each event meets the condition in the state in which it is taken. -/
def Meets (step : S → E → S) (condition : S → E → Prop) : S → List E → Prop
  | _, [] => True
  | state, event :: events =>
      condition state event ∧ Meets step condition (step state event) events

instance (step : S → E → S) (condition : S → E → Prop)
    [decidable : ∀ state event, Decidable (condition state event)] :
    ∀ state events, Decidable (Meets step condition state events)
  | _, [] => .isTrue trivial
  | state, event :: events =>
      have := instDecidableMeets step condition (step state event) events
      inferInstanceAs (Decidable (_ ∧ _))

variable {step : S → E → S} {condition stronger : S → E → Prop} {state : S}

theorem run_append : run step state (first ++ second) = run step (run step state first) second :=
  List.foldl_append ..

theorem Meets.imp {weaker : S → E → Prop} (meets : Meets step condition state events)
    (implies : ∀ state event, condition state event → weaker state event) :
    Meets step weaker state events := by
  induction events generalizing state with
  | nil => trivial
  | cons event _ ih => exact ⟨implies state event meets.1, ih meets.2⟩

theorem meets_of_forall {allowed : E → Prop} (all : ∀ event ∈ events, allowed event) :
    Meets step (fun _ => allowed) state events := by
  induction events generalizing state with
  | nil => trivial
  | cons event _ ih =>
    exact ⟨all event List.mem_cons_self, ih fun other member =>
      all other (List.mem_cons_of_mem _ member)⟩

theorem Meets.and {other : S → E → Prop} (meets : Meets step condition state events)
    (also : Meets step other state events) :
    Meets step (fun state event => condition state event ∧ other state event) state events := by
  induction events generalizing state with
  | nil => trivial
  | cons _ _ ih => exact ⟨⟨meets.1, also.1⟩, ih meets.2 also.2⟩

/-- A run that goes on where another one stops. -/
theorem meets_append :
    Meets step condition state (first ++ second) ↔
      Meets step condition state first ∧ Meets step condition (run step state first) second := by
  induction first generalizing state with
  | nil => simp [Meets, run]
  | cons event _ ih =>
    have tail := @ih (step state event)
    rw [List.cons_append, Meets, Meets, tail, and_assoc]
    rfl

/-- What each event keeps, a run keeps. -/
theorem Meets.invariant {invariant : S → Prop} {events : List E}
    (meets : Meets step condition state events) (holds : invariant state)
    (kept : ∀ state event, invariant state → condition state event → invariant (step state event)) :
    invariant (run step state events) := by
  induction events generalizing state with
  | nil => exact holds
  | cons event _ ih => exact ih meets.2 (kept state event holds meets.1)

/-- What each event relates the next state to, a run relates the reached state to. The
relation may use an invariant of the states in front of the event. -/
theorem Meets.relates {T : Type w} {related : S → T → Prop} {follow : T → E → T}
    {events : List E} (meets : Meets step condition state events) {shadow : T}
    (holds : related state shadow)
    (kept : ∀ state shadow event, related state shadow → condition state event →
      related (step state event) (follow shadow event)) :
    related (run step state events) (run follow shadow events) := by
  induction events generalizing state shadow with
  | nil => exact holds
  | cons event _ ih => exact ih meets.2 (kept state shadow event holds meets.1)

end LightKV.Runs
