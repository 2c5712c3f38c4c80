import LightKV.AppliedEffects

/-!
# A snapshot is the applied prefix

`TriggerSnapshot` takes its image from the state machine and its index from `last_applied_`. The
index moves before the lock is released for `Apply`, so a snapshot that is taken while an `Apply`
runs stores an image without an entry that its index counts. That is the defect; `Undisturbed`
excludes it.

The node starts fresh and gets no image from a leader, so the committed entries are numbered from
one on, without a gap. The invariant says that the stored image is that of the commands up to
its index.
-/

namespace LightKV.Raft

open List

/-- The section carries an image of a leader. -/
def Section.takesImage : Section → Bool
  | .installSnapshot _ | .installSnapshotChunk _ => true
  | .electionTimeout | .winElection | .stepDown _ | .requestVote _ | .appendEntries _ | .leader _
  | .stop => false

/-- The event carries no image of a leader. -/
def ThreadEvent.TakesNoImage : ThreadEvent → Prop
  | .locked _ taken _ => taken.takesImage = false
  | .finish _ _ | .resume _ | .setServer | .crash => True

namespace Threads

open Node SerialCalls

variable {σ : Type} {machine : StateMachine σ}

/-- No snapshot is taken while an `Apply` runs. -/
def Finished (state : Threads σ) : Change σ → Prop
  | .compact _ => state.unfinished = []
  | .nothing | .push _ _ _ | .merge _ _ | .gap _ | .commit _ | .refuse _ | .install _ _ _ _ => True

/-- Calls are orderly and go through the server, and no snapshot is taken while one runs. -/
def Undisturbed (machine : StateMachine σ) (state : Threads σ) (event : ThreadEvent) : Prop :=
  state.Orderly machine event ∧
    match event with
    | .locked thread taken _ => state.busy thread = false →
        state.Finished (taken.change (some machine) state.node)
    | .finish _ _ => state.served = true
    | .resume _ | .setServer | .crash => True

/-- The committed entries are those at the indices from one on, and the stored image is the state
after the commands up to its index, each applied completely. -/
structure SnapshotOfPrefix (machine : StateMachine σ) (initial : σ) (state : Threads σ) : Prop where
  numbered : state.committed.map (·.index) = range' 1 state.highest
  snapshot_le : state.node.lastSnapshotIndex ≤ state.highest
  image : state.node.snapshotData = [] ∧ state.node.lastSnapshotIndex = 0 ∨
    state.node.snapshotData = machine.takeSnapshot
      (applyAll machine initial (state.commandsIn 0 state.node.lastSnapshotIndex))

/-- With it, the log begins at a committed index, and no image came from outside. -/
structure Grown (machine : StateMachine σ) (initial : σ) (state : Threads σ) : Prop extends
    SnapshotOfPrefix machine initial state where
  based : state.node.log.base ≤ state.highest
  floor_eq : state.floor = 0
  base_eq : state.base = initial

theorem grown_start {machine : StateMachine σ} {opts : RaftOptions} :
    Grown machine initial (start { opts := opts, machineState := initial }) where
  numbered := rfl
  snapshot_le := le_refl _
  image := .inl ⟨rfl, rfl⟩
  based := le_refl _
  floor_eq := rfl
  base_eq := rfl

/-! ## Numbers of committed entries -/

variable {node : Node σ}

/-- A log that holds all indices up to the commit index commits them without a gap. -/
theorem map_index_newlyCommitted {highest : Nat} (based : node.log.base ≤ highest)
    (within : node.commitIndex ≤ node.log.lastLogIndex) :
    (newlyCommitted highest node).map (·.index) =
      range' (highest + 1) (node.commitIndex - highest) := by
  have held : ∀ index ∈ range' (highest + 1) (node.commitIndex - highest),
      (node.log.entryAt index).map (·.index) = some index := by
    intro index member
    rw [mem_range'_1] at member
    have above : node.log.base ≤ index := by omega
    have below : index ≤ node.log.lastLogIndex := by omega
    obtain ⟨_, stored⟩ := node.log.entryAt_isSome above below
    rw [stored, Option.map_some, (node.log.entryAt_some stored).1]
  unfold newlyCommitted
  rw [map_filterMap]
  refine (filterMap_congr held).trans ?_
  exact filterMap_some

theorem commandsIn_record {state : Threads σ} (below : upper ≤ state.highest) :
    (state.record node).commandsIn lower upper = state.commandsIn lower upper := by
  have none_new : ((newlyCommitted state.highest node).filter fun entry =>
      entry.type == .command && decide (lower < entry.index) && decide (entry.index ≤ upper)) =
        [] := by
    refine filter_eq_nil_iff.mpr ?_
    intro _ member chosen
    have above := (mem_newlyCommitted.mp member).2.1
    simp only [Bool.and_eq_true, decide_eq_true_eq] at chosen
    omega
  show ((state.committed ++ newlyCommitted state.highest node).filter _).map _ = _
  rw [filter_append, none_new, append_nil]
  rfl

/-! ## The steps -/

section

variable {initial : σ} {state : Threads σ} (grows : Grown machine initial state)
include grows

/-- A section that takes no snapshot. -/
theorem Grown.record (mid : Mid (state.record node)) (base_eq : node.log.base = state.node.log.base)
    (index_eq : node.lastSnapshotIndex = state.node.lastSnapshotIndex)
    (data_eq : node.snapshotData = state.node.snapshotData) :
    Grown machine initial (state.record node) := by
  have based : node.log.base ≤ state.highest := base_eq ▸ grows.based
  have within : node.commitIndex ≤ node.log.lastLogIndex := le_trans mid.commit_le mid.highest_le
  constructor
  · constructor
    · show (state.committed ++ newlyCommitted state.highest node).map (·.index) =
        range' 1 (max state.highest node.commitIndex)
      have joined : state.highest + (node.commitIndex - state.highest) =
          max state.highest node.commitIndex := by omega
      rw [map_append, grows.numbered, map_index_newlyCommitted based within, ← joined,
        add_comm state.highest 1, range'_append_1]
    · exact index_eq ▸ le_trans grows.snapshot_le (le_max_left _ _)
    · show node.snapshotData = [] ∧ node.lastSnapshotIndex = 0 ∨ node.snapshotData =
        machine.takeSnapshot (applyAll machine initial
          ((state.record node).commandsIn 0 node.lastSnapshotIndex))
      rw [index_eq, data_eq, commandsIn_record grows.snapshot_le]
      exact grows.image
  · exact le_trans based (le_max_left _ _)
  · exact grows.floor_eq
  · exact grows.base_eq

/-- What the state machine has when everything committed is applied. -/
theorem Grown.machineState_eq (inv : Inv state) (effects : Effects machine state)
    (quiet : state.unfinished = []) (applied : state.highest ≤ state.node.lastApplied) :
    state.node.machineState = applyAll machine initial (state.commandsIn 0 state.highest) := by
  have given := effects.given_eq inv quiet fun entry member command => by
    rcases inv.pending entry member command with began | covered | ⟨_, _, _⟩
    · exact .inl began
    · exact .inr covered
    · have := inv.bounded entry member
      omega
  rw [effects.state_eq, given, grows.floor_eq, grows.base_eq]

theorem Grown.locked (inv : Inv state) (effects : Effects machine state)
    (own : taken.takesImage = false)
    (kept : state.Undisplaced grown (taken.change (some machine) state.node))
    (respects : state.Respects (taken.change (some machine) state.node))
    (finished : state.Finished (taken.change (some machine) state.node)) :
    Grown machine initial (state.locked machine taken grown) := by
  have after := inv.toMid.locked kept respects
  have core := Section.core_run (some machine) state.node taken
  have makes := Section.makes_change (some machine) state.node taken
  have log_eq := congrArg Core.log core
  have index_eq := congrArg Core.lastSnapshotIndex core
  have data_eq := congrArg Core.snapshotData core
  have commit_eq := congrArg Core.commitIndex core
  rw [locked_eq kept] at after ⊢
  generalize taken.run (some machine) state.node = node at *
  generalize taken.change (some machine) state.node = change at *
  cases change with
  | nothing | commit _ => exact grows.record after (congrArg RaftLog.base log_eq) index_eq data_eq
  | push term type data =>
    have base_eq := congrArg RaftLog.base log_eq
    exact grows.record after base_eq index_eq data_eq
  | merge _ _ | gap _ =>
    refine grows.record after ((congrArg RaftLog.base log_eq).trans ?_) index_eq data_eq
    exact RaftLog.base_appendEntries _ _
  | refuse _ =>
    rcases makes with ⟨_, rfl⟩ | ⟨_, rfl⟩ <;> cases own
  | install _ _ _ _ =>
    rcases makes.2 with ⟨_, rfl, _⟩ | ⟨_, rfl, _⟩ <;> cases own
  | compact data =>
    have applied_eq : state.node.lastApplied = state.highest :=
      le_antisymm (le_trans inv.applied_le inv.commit_le) respects
    have index_eq : node.lastSnapshotIndex = state.highest := index_eq.trans applied_eq
    have commit_eq : node.commitIndex = state.node.commitIndex := commit_eq
    have low : node.commitIndex ≤ state.highest := commit_eq ▸ inv.commit_le
    have taken_image : machine.takeSnapshot state.node.machineState = data :=
      Option.some.inj makes.2.2
    show Grown machine initial (state.record node)
    rw [record_of_le low]
    refine { grows with snapshot_le := le_of_eq index_eq, image := .inr ?_, based := ?_ }
    · show node.snapshotData = machine.takeSnapshot (applyAll machine initial
        (state.commandsIn 0 node.lastSnapshotIndex))
      rw [index_eq, ← grows.machineState_eq inv effects finished respects, taken_image]
      exact data_eq
    dsimp only [Node.core, Change.apply] at log_eq
    cases found : state.node.log.entryAt state.node.lastApplied with
    | none =>
      rw [log_eq, found]
      exact grows.based
    | some _ =>
      rw [log_eq, found]
      have last_eq := (state.node.log.entryAt_some found).1
      exact le_of_eq (last_eq.trans applied_eq)

theorem Grown.enter : Grown machine initial (state.enter thread) := by
  rcases state.enter_cases with ⟨_, same, _⟩ | ⟨_, same, _⟩
  · rw [same]
    exact { grows with }
  · rw [same]
    exact { grows with }

theorem Grown.step (inv : Inv state) (effects : Effects machine state) (own : event.TakesNoImage)
    (undisturbed : state.Undisturbed machine event) :
    Grown machine initial (state.step machine event) := by
  obtain ⟨orderly, finished⟩ := undisturbed
  generalize stepped : state.step machine event = later
  cases steps_of_step stepped with
  | same => exact grows
  | locked free =>
    obtain ⟨kept, respects, _⟩ := orderly free
    exact grows.locked inv effects own kept respects (finished free)
  | enter free =>
    obtain ⟨kept, respects, _⟩ := orderly free
    exact (grows.locked inv effects own kept respects (finished free)).enter
  | finish | setServer => exact { grows with }
  | @resume thread =>
    have landed : Grown machine initial (state.land thread) := { grows with }
    exact landed.enter
  | restart => exact orderly.elim

end

/-- Without images of a leader the state machine is left to the calls of `Apply`. -/
theorem steadyAt_of_takesNoImage {state : Threads σ} (own : event.TakesNoImage)
    (undisturbed : state.Undisturbed machine event) : state.SteadyAt machine event := by
  cases event with
  | finish _ _ => exact undisturbed.2
  | resume _ | setServer | crash => trivial
  | locked _ taken _ =>
    intro _
    have makes := Section.makes_change (some machine) state.node taken
    generalize taken.change (some machine) state.node = change at *
    cases change with
    | refuse _ =>
      rcases makes with ⟨_, rfl⟩ | ⟨_, rfl⟩ <;> cases own
    | nothing | push _ _ _ | merge _ _ | gap _ | commit _ | install _ _ _ _ | compact _ => trivial

/-- In every run of a fresh node in which no snapshot is taken while an `Apply` runs, the stored
image is the state after exactly the commands up to its index. -/
theorem snapshot_is_applied_prefix (machine : StateMachine σ) (opts : RaftOptions) (initial : σ)
    (events : List ThreadEvent) (own : ∀ event ∈ events, event.TakesNoImage)
    (undisturbed : Runs.Meets (step machine) (Undisturbed machine)
      (start { opts := opts, machineState := initial }) events) :
    SnapshotOfPrefix machine initial
      (Runs.run (step machine) (start { opts := opts, machineState := initial }) events) := by
  have kept : ∀ state event,
      Inv state ∧ Effects machine state ∧ Grown machine initial state →
      state.Undisturbed machine event ∧ event.TakesNoImage →
      Inv (state.step machine event) ∧ Effects machine (state.step machine event) ∧
        Grown machine initial (state.step machine event) := by
    rintro state event ⟨inv, effects, grown⟩ ⟨undisturbed, own⟩
    exact ⟨inv.step undisturbed.1,
      effects.step inv undisturbed.1 (steadyAt_of_takesNoImage own undisturbed),
      grown.step inv effects own undisturbed⟩
  have reached := (undisturbed.and (Runs.meets_of_forall own)).invariant
    ⟨inv_start, effects_start, grown_start⟩ kept
  exact reached.2.2.toSnapshotOfPrefix

instance (state : Threads σ) : ∀ change, Decidable (state.Finished change) := by
  intro change
  induction change using Change.casesOn <;> unfold Finished <;> infer_instance

instance (machine : StateMachine σ) (state : Threads σ) :
    ∀ event, Decidable (state.Undisturbed machine event) := by
  intro event
  induction event using ThreadEvent.casesOn <;> unfold Undisturbed <;> infer_instance

/-- A snapshot behind a command that the state machine is done with. -/
theorem snapshot_is_applied_prefix_finished :
    SnapshotOfPrefix imageMachine [0]
      (Runs.run (step imageMachine) (start { opts := freshVoter.opts, machineState := [0] })
        [.locked 0 (twoCommands 1) true, .setServer, .finish 0 [],
          .locked 1 (.leader (.triggerSnapshot true)) false, .resume 0]) := by
  refine snapshot_is_applied_prefix imageMachine freshVoter.opts [0] _ ?_ (by decide +kernel)
  intro event member
  simp only [mem_cons, not_mem_nil, or_false] at member
  rcases member with rfl | rfl | rfl | rfl | rfl
  · rfl
  · trivial
  · trivial
  · rfl
  · trivial

/-- A snapshot while the first `Apply` runs: the image counts the command and does not hold it. -/
theorem snapshot_misses_running_apply :
    let torn := Runs.run (step imageMachine)
      (start { opts := freshVoter.opts, machineState := [0] })
      [.setServer, .locked 0 (twoCommands 1) true,
        .locked 1 (.leader (.triggerSnapshot true)) false]
    torn.node.lastSnapshotIndex = 1 ∧ torn.node.snapshotData = [0] ∧
      torn.commandsIn 0 1 = [[1]] ∧ ¬ SnapshotOfPrefix imageMachine [0] torn := by
  intro torn
  have index_eq : torn.node.lastSnapshotIndex = 1 := by unfold torn; decide +kernel
  have data_eq : torn.node.snapshotData = [0] := by unfold torn; decide +kernel
  have commands_eq : torn.commandsIn 0 1 = [[1]] := by unfold torn; decide +kernel
  refine ⟨index_eq, data_eq, commands_eq, ?_⟩
  intro grown
  rcases grown.image with ⟨empty, _⟩ | image
  · rw [data_eq] at empty
    cases empty
  · rw [data_eq, index_eq, commands_eq] at image
    cases image

end Threads

end LightKV.Raft
