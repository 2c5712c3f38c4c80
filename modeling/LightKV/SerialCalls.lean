import Mathlib.Data.List.Pairwise
import Mathlib.Data.List.Nodup
import Mathlib.Data.List.Induction

/-!
# Calls one after another

A trace of the beginnings and ends of calls is *serial* when a call begins only while no other
runs, and the call that ends is the one that runs. `runningAfter` reads a trace that way; it
fails at the first event that does not fit. The calls that began are then those that ended,
followed by the one that runs.
-/

namespace LightKV.SerialCalls

open List Option

universe u

variable {α : Type u}

/-- The beginning or the end of a call. -/
inductive CallEvent (α : Type u) where
  | began (call : α)
  | ended (call : α)
  deriving DecidableEq, Repr

/-- The calls that began. -/
def begun : List (CallEvent α) → List α
  | [] => []
  | .began call :: rest => call :: begun rest
  | .ended _ :: rest => begun rest

/-- The calls that ended. -/
def done : List (CallEvent α) → List α
  | [] => []
  | .began _ :: rest => done rest
  | .ended call :: rest => call :: done rest

theorem begun_append : begun (front ++ rest) = begun front ++ begun rest := by
  induction front with
  | nil => rfl
  | cons event _ ih =>
    cases event with
    | began call => exact congrArg (call :: ·) ih
    | ended _ => exact ih

theorem done_append : done (front ++ rest) = done front ++ done rest := by
  induction front with
  | nil => rfl
  | cons event _ ih =>
    cases event with
    | began _ => exact ih
    | ended call => exact congrArg (call :: ·) ih

variable [DecidableEq α]

theorem count_ended (call : α) :
    trace.count (.ended call) = (done trace).count call := by
  induction trace with
  | nil => rfl
  | cons event _ ih =>
    cases event with
    | began _ => exact ih
    | ended other =>
      by_cases same : other = call
      · rw [done, same, count_cons_self, count_cons_self, ih]
      · have other_event : CallEvent.ended other ≠ CallEvent.ended call := by simp [same]
        rw [done, count_cons_of_ne same, count_cons_of_ne other_event, ih]

/-- The call that runs after an event, if the event fits. -/
def follow : Option α → CallEvent α → Option (Option α)
  | none, .began call => some (some call)
  | some running, .ended call => if running = call then some none else none
  | _, _ => none

/-- The call that runs after a trace, if all events fit. -/
def runningAfter (trace : List (CallEvent α)) : Option (Option α) :=
  trace.foldlM follow none

/-- Calls one after another. -/
def Serial (trace : List (CallEvent α)) : Prop :=
  (runningAfter trace).isSome

theorem runningAfter_concat (after : runningAfter trace = some running) {event : CallEvent α} :
    runningAfter (trace ++ [event]) = follow running event := by
  unfold runningAfter at *
  rw [foldlM_append, after]
  simp

/-- The calls that began are those that ended and the one that runs. -/
theorem begun_eq {trace : List (CallEvent α)}
    (after : runningAfter trace = some running) : begun trace = done trace ++ running.toList := by
  induction trace using reverseRecOn generalizing running with
  | nil =>
    rw [← some.inj after]
    rfl
  | append_singleton trace event ih =>
    cases earlier : runningAfter trace with
    | none =>
      unfold runningAfter at earlier after
      rw [foldlM_append, earlier] at after
      cases after
    | some before =>
      rw [runningAfter_concat earlier] at after
      rw [begun_append, done_append, ih earlier]
      cases before with
      | none =>
        cases event with
        | began _ =>
          rw [← some.inj after]
          simp [begun, done]
        | ended _ => cases after
      | some _ =>
        cases event with
        | began _ => cases after
        | ended _ =>
          rw [follow] at after
          split at after
          · rename_i same
            rw [← some.inj after]
            simp [begun, done, same]
          · cases after

section Ordered

variable {trace : List (CallEvent α)} {running : Option α} {before : α → α → Prop}
  (asymmetric : ∀ first second, before first second → ¬ before second first)
include asymmetric

section

variable (after : runningAfter trace = some running) (ordered : (begun trace).Pairwise before)
include after ordered

/-- No call ends twice. -/
theorem count_ended_le (call : α) : trace.count (.ended call) ≤ 1 := by
  rw [count_ended]
  have distinct : (done trace).Nodup := by
    rw [begun_eq after] at ordered
    refine (pairwise_append.mp ordered).1.imp ?_
    intro first _ earlier same
    have earlier : before first first := same.symm ▸ earlier
    exact asymmetric first first earlier earlier
  exact nodup_iff_count_le_one.mp distinct call

theorem count_ended_of_done (member : call ∈ done trace) : trace.count (.ended call) = 1 := by
  have bound := count_ended_le asymmetric after ordered call
  have positive := count_pos_iff.mpr member
  rw [count_ended] at bound ⊢
  omega

/-- A call in front of another one has ended. -/
theorem count_ended_of_before {first second : α} (member : first ∈ begun trace)
    (also : second ∈ begun trace) (earlier : before first second) :
    trace.count (.ended first) = 1 := by
  refine count_ended_of_done asymmetric after ordered ?_
  rw [begun_eq after] at ordered member also
  obtain ⟨_, _, across⟩ := pairwise_append.mp ordered
  rcases mem_append.mp member with ended | runs
  · exact ended
  rcases mem_append.mp also with other | same
  · exact absurd (across second other first runs) (asymmetric first second earlier)
  · rw [mem_toList] at runs same
    obtain rfl : first = second := some.inj (runs.symm.trans same)
    exact absurd earlier (asymmetric first first earlier)

end

end Ordered

end LightKV.SerialCalls
