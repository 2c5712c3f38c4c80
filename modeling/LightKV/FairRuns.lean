import Mathlib.Data.Set.Finite.Lemmas
import Mathlib.Data.Set.Finite.Powerset
import Mathlib.Order.OrderIsoNat

/-!
# Fair runs

An infinite run of a system of threads: at each moment one thread takes a step, the
surroundings do, or nothing happens. A run is *fair* when a thread that can step again and
again does so again and again. From fairness one rule is needed: if something about a
thread stays as it is until the thread acts, and meanwhile the thread can act again and
again, then it acts.
-/

namespace LightKV.FairRuns

universe u v w x

variable {S : Type u} {E : Type v} {T : Type w}

/-- Again and again. -/
def InfinitelyOften (property : Nat → Prop) : Prop :=
  ∀ moment, ∃ later ≥ moment, property later

/-- The thread has a step it can take. -/
def Enabled (step : S → E → Option S) (actor : E → Option T) (thread : T) (state : S) : Prop :=
  ∃ event, actor event = some thread ∧ (step state event).isSome

/-- An infinite run; `none` is a moment at which nothing happens. -/
structure FairRun (step : S → E → Option S) (actor : E → Option T) where
  state : Nat → S
  event : Nat → Option E
  idle : ∀ moment, event moment = none → state (moment + 1) = state moment
  steps : ∀ moment taken, event moment = some taken →
    step (state moment) taken = some (state (moment + 1))
  fair : ∀ thread, InfinitelyOften (fun moment => Enabled step actor thread (state moment)) →
    InfinitelyOften fun moment => (event moment).bind actor = some thread

namespace FairRun

variable {step : S → E → Option S} {actor : E → Option T} (run : FairRun step actor)

theorem keeps {property : S → Prop}
    (kept : ∀ state event next, step state event = some next → property state → property next)
    (reached : moment ≤ later) (holds : property (run.state moment)) :
    property (run.state later) := by
  induction later, reached using Nat.le_induction with
  | base => exact holds
  | succ later _ ih =>
    cases happens : run.event later with
    | none => exact (run.idle later happens).symm ▸ ih
    | some event => exact kept _ event _ (run.steps later event happens) ih

/-- If something stays until the thread acts, and the thread can act again and again as long as
it stays, then the thread acts while it still holds. -/
theorem acts (property : S → Prop) (holds : property (run.state moment))
    (stays : ∀ state event next, step state event = some next → actor event ≠ some thread →
      property state → property next)
    (ready : (∀ later ≥ moment, property (run.state later)) → InfinitelyOften fun later => Enabled
      step actor thread (run.state later)) :
    ∃ later ≥ moment, ∃ event, run.event later = some event ∧ actor event = some thread ∧
      property (run.state later) := by
  by_contra never
  have always : ∀ later ≥ moment, property (run.state later) := by
    intro later reached
    induction later, reached using Nat.le_induction with
    | base => exact holds
    | succ later reached ih =>
      cases happens : run.event later with
      | none => exact (run.idle later happens).symm ▸ ih
      | some event =>
        refine stays _ event _ (run.steps later event happens) ?_ ih
        intro own
        exact never ⟨later, reached, event, happens, own, ih⟩
  obtain ⟨later, reached, acted⟩ := run.fair thread (ready always) moment
  obtain ⟨event, happens, own⟩ := Option.bind_eq_some_iff.mp acted
  exact never ⟨later, reached, event, happens, own, always later reached⟩

/-- A growing set in a finite type stops growing. -/
theorem settles [Finite D] (done : S → Set D)
    (grows : ∀ state event next, step state event = some next → done state ⊆ done next) :
    ∃ moment, ∀ later ≥ moment, done (run.state later) = done (run.state moment) := by
  let chain : Nat →o Set D :=
    { toFun := fun moment => done (run.state moment)
      monotone' := by
        apply monotone_nat_of_le_succ
        intro moment
        cases happens : run.event moment with
        | none => rw [run.idle moment happens]
        | some event => exact grows _ event _ (run.steps moment event happens) }
  obtain ⟨moment, constant⟩ := WellFoundedGT.monotone_chain_condition chain
  exact ⟨moment, fun later reached => (constant later reached).symm⟩

end FairRun

end LightKV.FairRuns
