import Mathlib.Tactic.IntervalCases
import LightKV.FairRuns
import LightKV.GroupCommit

/-!
# Every sync returns

The phases of a writer follow one another in a fixed way, and its own steps alone move it,
except that it may be woken. A writer that leads a sync is never blocked for good, since a
rotation lets go of the write lock. So every leader returns. Of finitely many writers only
finitely many return one after another, and behind the last return nobody leads and nobody
waits; a writer that is still in its call can then only look at the counters, and that
ends its call or makes it lead.
-/

namespace LightKV

open FairRuns Function

namespace GroupCommit

/-- The phases of a writer, one step of its own after another. -/
inductive Phase.Follows : Phase → Phase → Prop where
  | note : Follows .idle .noted
  | append : Follows .noted .checking
  | finish : Follows .checking .returned
  | wait : Follows .checking .waiting
  | lead : Follows .checking .leading
  | capture (target covered : Nat) : Follows .leading (.registered target covered)
  | beginSync (target covered upto : Nat) :
      Follows (.registered target covered) (.flushing target covered upto)
  | endSync (target covered upto : Nat) :
      Follows (.flushing target covered upto) (.flushed target covered)
  | publish (target covered : Nat) : Follows (.flushed target covered) .published
  | notify : Follows .published .returned

variable {W : Type} [DecidableEq W] {state later : State W} {writer : W}

/-- What a step does to a writer. -/
def Moves (event : Event W) (state later : State W) (writer : W) : Prop :=
  (event.actor = some (.writer writer) ∧ (state.phase writer).Follows (later.phase writer) ∧
      (later.phase writer = .waiting → state.syncing = true)) ∨
    event.actor ≠ some (.writer writer) ∧ (later.phase writer = state.phase writer ∨
      state.phase writer = .waiting ∧ later.phase writer = .checking)

section

variable {event : Event W} (taken : step state event = some later)
include taken

/-- A step moves the writer whose step it is to the next phase. It leaves the others where they
are, or wakes them. -/
theorem phase_step : Moves event state later writer := by
  -- A step that moves one writer is checked for that writer only.
  have single : ∀ mover moved, event.actor = some (.writer mover) →
      later.writer = update state.writer mover moved →
      ∀ {before}, state.phase mover = before → before.Follows moved.phase →
      (moved.phase = .waiting → state.syncing = true) → Moves event state later writer := by
    intro mover moved actor writers _ was follows waits
    rw [Moves, phase_update moved writers]
    by_cases own : writer = mover
    · rw [own, update_self, was]
      exact .inl ⟨actor, follows, waits⟩
    rw [update_of_ne own]
    refine .inr ⟨?_, .inl rfl⟩
    rw [actor]
    intro same
    cases same
    exact own rfl
  have unmoved : event.actor = none ∨ event.actor = some .rotation → later.phase = state.phase →
      Moves event state later writer := by
    intro foreign same
    refine .inr ⟨?_, .inl (by rw [same])⟩
    rcases foreign with none | rotation
    · rw [none]
      nofun
    · rw [rotation]
      nofun
  cases steps_of_step taken with
  | noteSyncRequest idle => exact single _ _ rfl rfl idle .note nofun
  | append ready => exact single _ _ rfl rfl ready.1 .append nofun
  | appendUnsynced | lockRotation | closeImmWal => exact unmoved (.inl rfl) rfl
  | finish checking _ => exact single _ _ rfl rfl checking .finish nofun
  | wait checking running => exact single _ _ rfl rfl checking .wait fun _ => running
  | lead checking _ => exact single _ _ rfl rfl checking .lead nofun
  | @wake mover waiting =>
    refine .inr ⟨nofun, ?_⟩
    rw [phase_update { state.writer mover with phase := .checking }
      (show (state.move mover .checking).writer = update state.writer mover _ from rfl)]
    by_cases own : writer = mover
    · rw [own, update_self]
      exact .inr ⟨waiting, rfl⟩
    · rw [update_of_ne own]
      exact .inl rfl
  | capture ready => exact single _ _ rfl rfl ready.1 (.capture _ _) nofun
  | beginSync registered => exact single _ _ rfl rfl registered (.beginSync _ _ _) nofun
  | endSync flushing => exact single _ _ rfl rfl flushing (.endSync _ _ _) nofun
  | publish flushed => exact single _ _ rfl rfl flushed (.publish _ _) nofun
  | @notifyAll mover published =>
    by_cases own : writer = mover
    · refine .inl ⟨by rw [own]; rfl, ?_⟩
      simp only [State.phase, State.notifyAll, own, published]
      exact ⟨.notify, by rintro ⟨⟩⟩
    refine .inr ⟨fun same => own (by cases same; rfl), ?_⟩
    simp only [State.phase, State.notifyAll, own, if_false]
    split
    · rename_i waiting
      exact .inr ⟨waiting, rfl⟩
    · exact .inl rfl
  | syncOutgoing =>
    refine unmoved (.inr rfl) ?_
    unfold State.syncOutgoing
    split <;> rfl
  | swapWal | keepWal => exact unmoved (.inr rfl) rfl

/-- The steps of others leave a writer where it is, or wake it. -/
theorem phase_stays (foreign : event.actor ≠ some (.writer writer)) :
    later.phase writer = state.phase writer ∨
      state.phase writer = .waiting ∧ later.phase writer = .checking := by
  rcases phase_step taken with ⟨own, _⟩ | ⟨_, stays⟩
  · exact absurd own foreign
  · exact stays

/-- A writer that has called stays behind its append. -/
theorem called_stays (called : state.phase writer ≠ .idle ∧ state.phase writer ≠ .noted) :
    later.phase writer ≠ .idle ∧ later.phase writer ≠ .noted := by
  rcases phase_step taken with ⟨_, follows, _⟩ | ⟨_, same | ⟨_, checking⟩⟩
  · generalize state.phase writer = before, later.phase writer = after at follows called ⊢
    cases follows with
    | note => exact absurd rfl called.1
    | _ => exact ⟨nofun, nofun⟩
  · rw [same]
    exact called
  · rw [checking]
    exact ⟨nofun, nofun⟩

/-- A writer whose call has returned stays there. -/
theorem returned_stays (returned : state.phase writer = .returned) :
    later.phase writer = .returned := by
  rcases phase_step taken with ⟨_, follows, _⟩ | ⟨_, same | ⟨waiting, _⟩⟩
  · rw [returned] at follows
    cases follows
  · rw [same, returned]
  · rw [returned] at waiting
    cases waiting

end

/-- How far a sync that is led still has to go. -/
def Phase.distance : Phase → Option Nat
  | .leading => some 5
  | .registered _ _ => some 4
  | .flushing _ _ _ => some 3
  | .flushed _ _ => some 2
  | .published => some 1
  | .returned => some 0
  | _ => none

theorem Phase.distance_of_leads {phase : Phase} (leads : phase.leads = true) :
    ∃ distance, phase.distance = some (distance + 1) := by
  cases phase with
  | leading => exact ⟨4, rfl⟩
  | registered _ _ => exact ⟨3, rfl⟩
  | flushing _ _ _ => exact ⟨2, rfl⟩
  | flushed _ _ => exact ⟨1, rfl⟩
  | idle | noted | checking | waiting | published | returned => cases leads

/-- A step of the leader brings it closer to its return. -/
theorem Phase.Follows.distance {before after : Phase} (follows : before.Follows after)
    {distance : Nat} (ahead : before.distance = some (distance + 1)) :
    after.distance = some distance := by
  cases follows with
  | note | append | finish | wait | lead => cases ahead
  | capture | beginSync | endSync | publish | notify => cases ahead; rfl

/-- A look at the counters ends the call, or starts a sync, or finds one running. -/
theorem check_cases (taken : step state event = some later)
    (own : event.actor = some (.writer writer)) (checking : state.phase writer = .checking) :
    later.phase writer = .returned ∨ later.phase writer = .leading ∨ state.syncing = true := by
  rcases phase_step taken with ⟨_, follows, waits⟩ | ⟨foreign, _⟩
  · rw [checking] at follows
    generalize later.phase writer = after at follows waits ⊢
    cases follows with
    | finish => exact .inl rfl
    | wait => exact .inr (.inr (waits rfl))
    | lead => exact .inr (.inl rfl)
  · exact absurd own foreign

theorem enabled_of_distance (ahead : (state.phase writer).distance = some (distance + 1))
    (free : state.phase writer = .leading → state.rotation = .free) :
    Enabled step Event.actor (.writer writer) state := by
  unfold State.phase at ahead free
  cases phase_eq : (state.writer writer).phase with
  | leading => exact ⟨.capture writer, rfl, by simp [step, phase_eq, free phase_eq]⟩
  | registered _ _ => exact ⟨.beginSync writer, rfl, by simp [step, phase_eq]⟩
  | flushing _ _ _ => exact ⟨.endSync writer, rfl, by simp [step, phase_eq]⟩
  | flushed _ _ => exact ⟨.publish writer, rfl, by simp [step, phase_eq]⟩
  | published => exact ⟨.notifyAll writer, rfl, by simp [step, phase_eq]⟩
  | idle | noted | checking | waiting | returned => simp [phase_eq, Phase.distance] at ahead

/-- A rotation keeps the write lock until it steps, and a step of it that does not free the lock
syncs the outgoing file. -/
theorem rotation_cases (taken : step state event = some later) (held : state.rotation ≠ .free) :
    (event.actor = some .rotation ∧ (later.rotation = .free ∨
        state.rotation = .locked ∧ later.rotation = .synced)) ∨
      event.actor ≠ some .rotation ∧ later.rotation = state.rotation := by
  cases steps_of_step taken with
  | noteSyncRequest | append | appendUnsynced | finish | wait | lead | wake | capture | beginSync
  | endSync | publish | notifyAll | closeImmWal => exact .inr ⟨nofun, rfl⟩
  | lockRotation ready => exact absurd ready.1 held
  | syncOutgoing locked => exact .inl ⟨rfl, .inr ⟨locked, rfl⟩⟩
  | swapWal | keepWal => exact .inl ⟨rfl, .inl rfl⟩

section Live

variable (run : FairRun (step (W := W)) Event.actor)

/-- The write lock is free again and again. -/
theorem rotation_free : InfinitelyOften fun moment => (run.state moment).rotation = .free := by
  -- A rotation that holds the lock steps, and after at most two steps the lock is free.
  have steps_on : ∀ held, held ≠ Rotation.free → ∀ moment, (run.state moment).rotation = held →
      ∃ later ≥ moment, (run.state later).rotation = .free ∨
        held = .locked ∧ (run.state later).rotation = .synced := by
    intro held not_free moment here
    obtain ⟨later, _, event, happens, own, still⟩ := run.acts
      (fun state => state.rotation = held) here
      (by
        intro _ _ _ taken foreign holds
        rcases rotation_cases taken (holds ▸ not_free) with ⟨own, _⟩ | ⟨_, same⟩
        · exact absurd own foreign
        · exact same.trans holds)
      (by
        intro always start
        have now := always (max start moment) (le_max_right _ _)
        refine ⟨max start moment, le_max_left _ _, ?_⟩
        cases held with
        | free => exact absurd rfl not_free
        | locked => exact ⟨.syncOutgoing, rfl, by simp [step, now]⟩
        | synced => exact ⟨.swapWal, rfl, by simp [step, now]⟩)
    have taken := run.steps later event happens
    refine ⟨later + 1, by omega, ?_⟩
    rcases rotation_cases taken (still ▸ not_free) with ⟨_, free | ⟨locked, synced⟩⟩ | ⟨foreign, _⟩
    · exact .inl free
    · exact .inr ⟨still.symm.trans locked, synced⟩
    · exact absurd own foreign
  intro moment
  cases here : (run.state moment).rotation with
  | free => exact ⟨moment, le_refl _, here⟩
  | synced =>
    obtain ⟨later, reached, free | ⟨impossible, _⟩⟩ := steps_on .synced (by decide) moment here
    · exact ⟨later, reached, free⟩
    · cases impossible
  | locked =>
    obtain ⟨later, reached, free | ⟨_, synced⟩⟩ := steps_on .locked (by decide) moment here
    · exact ⟨later, reached, free⟩
    · obtain ⟨last, behind, free | ⟨impossible, _⟩⟩ := steps_on .synced (by decide) later synced
      · exact ⟨last, le_trans reached behind, free⟩
      · cases impossible

/-- A writer that leads, or has to notify, returns. -/
theorem leader_returns {distance moment : Nat}
    (ahead : ((run.state moment).phase writer).distance = some distance) :
    ∃ later ≥ moment, (run.state later).phase writer = .returned := by
  induction distance generalizing moment with
  | zero =>
    refine ⟨moment, le_refl _, ?_⟩
    cases phase_eq : (run.state moment).phase writer <;> simp_all [Phase.distance]
  | succ _ ih =>
    obtain ⟨later, _, event, happens, own, still⟩ := run.acts
      (fun state => state.phase writer = (run.state moment).phase writer) rfl
      (by
        intro _ _ _ taken foreign holds
        rcases phase_stays taken foreign with same | ⟨waiting, _⟩
        · exact same.trans holds
        · rw [← holds, waiting] at ahead
          cases ahead)
      (by
        intro always start
        obtain ⟨later, reached, free⟩ := rotation_free run (max start moment)
        have now := always later (le_trans (le_max_right _ _) reached)
        refine ⟨later, le_trans (le_max_left _ _) reached, ?_⟩
        exact enabled_of_distance (by rw [now]; exact ahead) fun _ => free)
    rcases phase_step (run.steps later event happens) with ⟨_, follows, _⟩ | ⟨foreign, _⟩
    · obtain ⟨last, _, returned⟩ := ih (follows.distance (by rw [still]; exact ahead))
      exact ⟨last, by omega, returned⟩
    · exact absurd own foreign

/-- With finitely many writers every call returns. -/
theorem call_returns [Finite W] (started : run.state 0 = initial)
    (called : (run.state moment).phase writer ≠ .idle ∧ (run.state moment).phase writer ≠ .noted) :
    ∃ later ≥ moment, (run.state later).phase writer = .returned := by
  by_contra never
  have unreturned : ∀ later ≥ moment, (run.state later).phase writer ≠ .returned :=
    fun later reached returned => never ⟨later, reached, returned⟩
  have inv : ∀ later, Inv (run.state later) := by
    intro later
    refine run.keeps (fun _ _ _ taken inv => Inv.step inv taken) (Nat.zero_le later) ?_
    rw [started]
    exact inv_initial
  -- From some moment on nobody returns any more.
  obtain ⟨settled, constant⟩ := run.settles (fun state => {writer | state.phase writer = .returned})
    fun _ _ _ taken _ returned => returned_stays taken returned
  have none_ahead : ∀ later ≥ settled, ∀ other distance,
      ((run.state later).phase other).distance ≠ some (distance + 1) := by
    intro later reached other _ ahead
    obtain ⟨last, behind, returned⟩ := leader_returns run ahead
    have before : other ∈ {writer | (run.state later).phase writer = .returned} := by
      rw [constant later reached, ← constant last (le_trans reached behind)]
      exact returned
    rw [show (run.state later).phase other = .returned from before] at ahead
    cases ahead
  -- So nobody leads, and nobody waits.
  have quiet : ∀ later ≥ settled, (run.state later).syncing = false := by
    intro later reached
    cases running : (run.state later).syncing with
    | false => rfl
    | true =>
      obtain ⟨other, leads⟩ := (inv later).leadership.leader running
      obtain ⟨distance, ahead⟩ := Phase.distance_of_leads leads
      exact absurd ahead (none_ahead later reached other distance)
  have start_called := run.keeps (fun _ _ _ taken called => called_stays taken called)
    (le_max_right settled moment) called
  have checking : (run.state (max settled moment)).phase writer = .checking := by
    have reached := le_max_left settled moment
    have ahead := none_ahead _ reached writer
    cases phase_eq : (run.state (max settled moment)).phase writer with
    | checking => rfl
    | idle => exact absurd phase_eq start_called.1
    | noted => exact absurd phase_eq start_called.2
    | returned => exact absurd phase_eq (unreturned _ (le_max_right _ _))
    | waiting =>
      rcases (inv _).awaited writer phase_eq with running | ⟨other, published⟩
      · rw [quiet _ reached] at running
        cases running
      · exact absurd (by rw [published]; rfl) (none_ahead _ reached other _)
    | leading | registered _ _
    | flushing _ _ _
    | flushed _ _ | published => exact absurd (by rw [phase_eq]; rfl) (ahead _)
  obtain ⟨later, reached, event, happens, own, still⟩ := run.acts
    (fun state => state.phase writer = .checking) checking
    (by
      intro _ _ _ taken foreign holds
      rcases phase_stays taken foreign with same | ⟨waiting, _⟩
      · exact same.trans holds
      · rw [holds] at waiting
        cases waiting)
    (by
      intro always start
      have now := always (max start (max settled moment)) (le_max_right _ _)
      refine ⟨max start (max settled moment), le_max_left _ _, .check writer, rfl, ?_⟩
      simp only [step]
      rw [if_pos (show (State.writer _ writer).phase = .checking from now)]
      split_ifs <;> rfl)
  have late : settled ≤ later := le_trans (le_max_left _ _) reached
  rcases check_cases (run.steps later event happens) own still with returned | leading | running
  · exact unreturned (later + 1) (by omega) returned
  · exact none_ahead (later + 1) (by omega) writer 4 (by rw [leading]; rfl)
  · rw [quiet later late] at running
    cases running

end Live

/-- One writer that leads its own sync, with a rotation in front of the capture. -/
def loneWrite : List (Event Unit) :=
  [.noteSyncRequest (), .append (), .check (), .lockRotation, .syncOutgoing, .swapWal, .capture (),
    .beginSync (), .endSync (), .publish (), .notifyAll ()]

/-- The state behind the first steps. -/
def loneState (moment : Nat) : State Unit :=
  ((loneWrite.take moment).foldlM step initial).getD initial

theorem loneState_of_ge (late : 11 ≤ moment) : loneState moment = loneState 11 := by
  unfold loneState
  rw [List.take_of_length_le late]
  rfl

/-- The write as an infinite run in which nothing happens behind the last step. -/
def loneRun : FairRun (step (W := Unit)) Event.actor where
  state := loneState
  event moment := loneWrite[moment]?
  idle moment finished := by
    have late : 11 ≤ moment := List.getElem?_eq_none_iff.mp finished
    rw [loneState_of_ge late, loneState_of_ge (Nat.le_succ_of_le late)]
  steps moment taken happens := by
    have early : moment < 11 := (List.getElem?_eq_some_iff.mp happens).1
    interval_cases moment <;> (cases happens; rfl)
  fair thread again := by
    exfalso
    obtain ⟨later, late, event, own, possible⟩ := again 11
    rw [loneState_of_ge late] at possible
    have finished : ((loneState 11).writer ()).phase = .returned := rfl
    have free : (loneState 11).rotation = .free := rfl
    cases event <;> simp [step, finished, free, Event.actor] at possible own

end GroupCommit

end LightKV
