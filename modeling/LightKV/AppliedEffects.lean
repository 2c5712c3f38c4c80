import LightKV.AppliedOnce
import Mathlib.Data.List.Sort

/-!
# What applied entries leave behind

`effects` lists the commands that the state machine was given since the last image, so its state
is what they make of that image. As long as calls are orderly these are the committed commands
behind the image, each once and in the order of the log.

A start sets `last_applied_` and `commit_index_` to zero, but the database keeps what was applied.
The log is read back from the state file with all its entries, and when a leader announces its
commit index the node applies them again from the beginning. That is the defect; a run at the end
of the module shows it. `Lasting` excludes it: a start finds no command in the saved log for which
`Apply` was called before. It also excludes that a command is applied before `SetServer`, when the
adapter drops most of them.
-/

namespace LightKV.Raft

namespace Threads

open Node SerialCalls List Runs

variable {σ : Type} {machine : StateMachine σ} {state : Threads σ} {grown : Bool} {read : Bytes}

/-! ## The state of the state machine -/

/-- The state after some commands. -/
def applyAll (machine : StateMachine σ) (state : σ) (commands : List Bytes) : σ :=
  commands.foldl (fun state data => machine.apply data state) state

/-- The committed commands at the indices from `lower`, not included, to `upper`. -/
def commandsIn (state : Threads σ) (lower upper : Nat) : List Bytes :=
  (state.committed.filter fun entry =>
    entry.type == .command && decide (lower < entry.index) && decide (entry.index ≤ upper)).map
      (·.data)

/-- The state machine has what it was given since the last image, and that is what it finished
behind the image. -/
structure Effects (machine : StateMachine σ) (state : Threads σ) : Prop where
  state_eq : state.node.machineState = applyAll machine state.base state.effects
  given : state.effects =
    ((done state.trace).filter fun call => decide (state.floor < call.1)).map (·.2)
  running : ∀ flight ∈ state.unfinished, state.floor < flight.index

/-- An image that `ApplySnapshot` refuses leaves the state machine as it is. -/
def Steady (state : Threads σ) : Change σ → Prop
  | .refuse machineState => machineState = state.node.machineState
  | .nothing | .push _ _ _ | .merge _ _ | .gap _ | .commit _ | .install _ _ _ _ | .compact _ => True

theorem effects_start {machine : StateMachine σ} {node : Node σ} :
    Effects machine (start node) where
  state_eq := (restart_fields node).2.2.2
  given := rfl
  running := nofun

section

variable (effects : Effects machine state)
include effects

theorem Effects.locked (inv : Inv state)
    (kept : state.Undisplaced grown (taken.change (some machine) state.node))
    (respects : state.Respects (taken.change (some machine) state.node))
    (steady : state.Steady (taken.change (some machine) state.node)) :
    Effects machine (state.locked machine taken grown) := by
  have core := Section.core_run (some machine) state.node taken
  have machine_eq := congrArg Core.machineState core
  rw [locked_eq kept]
  generalize taken.run (some machine) state.node = node at *
  -- Most changes leave the state machine and the records alone.
  have unchanged : node.machineState = state.node.machineState →
      Effects machine (state.record node) := by
    intro same
    exact ⟨same.trans effects.state_eq, effects.given, effects.running⟩
  generalize taken.change (some machine) state.node = change at *
  cases change with
  | install index _ _ _ =>
    constructor
    · exact machine_eq
    · have covered : ((done state.trace).filter fun call => decide (index < call.1)) = [] := by
        refine filter_eq_nil_iff.mpr ?_
        intro call member
        obtain ⟨running, after, _⟩ := inv.oneCall
        have began : call ∈ begun state.trace := begun_eq after ▸ mem_append_left _ member
        have low := le_trans (inv.begun_le began) respects
        simpa using low
      exact (congrArg (map (·.2)) covered).symm
    · intro flight member
      cases kept flight member
  | refuse _ => exact unchanged (machine_eq.trans steady)
  | nothing | push _ _ data | merge entries _ | gap _ | commit _
  | compact _ => exact unchanged machine_eq

theorem Effects.enter (mid : Mid state) : Effects machine (state.enter thread) := by
  rcases state.enter_cases with ⟨entry, same, _, held, command, behind, _⟩ | ⟨_, same, _⟩
  · rw [same]
    have done_eq : done (state.trace ++ [.began (entry.index, entry.data)]) = done state.trace :=
      done_append.trans (append_nil _)
    constructor
    · exact effects.state_eq
    · exact done_eq.symm ▸ effects.given
    · intro flight member
      obtain ⟨listed, open_⟩ := mem_filter.mp member
      rcases mem_cons.mp listed with rfl | earlier
      · exact mid.above entry held (Nat.zero_lt_of_lt behind) command
      · exact effects.running flight (mem_filter.mpr ⟨earlier, open_⟩)
  · rw [same]
    exact { effects with }

theorem Effects.finish (inv : Inv state) (served : state.served = true)
    (running : flight ∈ state.unfinished) :
    Effects machine (state.finishFlight machine flight read) := by
  have above := effects.running flight running
  rw [finishFlight, served, inv.given_eq running]
  constructor
  · show machine.apply flight.data state.node.machineState =
      applyAll machine state.base (state.effects ++ [flight.data])
    rw [applyAll, foldl_append, effects.state_eq]
    rfl
  · show state.effects ++ [flight.data] =
      ((done (state.trace ++ [.ended (flight.index, flight.data)])).filter fun call =>
        decide (state.floor < call.1)).map (·.2)
    have done_eq : done (state.trace ++ [.ended (flight.index, flight.data)]) =
        done state.trace ++ [(flight.index, flight.data)] := done_append
    have kept : [(flight.index, flight.data)].filter (fun call => decide (state.floor < call.1)) =
        [(flight.index, flight.data)] := filter_eq_self.mpr (by simpa using above)
    rw [done_eq, filter_append, map_append, ← effects.given, kept]
    rfl
  · intro other member
    have member : other ∈ (state.finishFlight machine flight read).unfinished := member
    rw [unfinished_finish (inv.oneCall.only running).1] at member
    cases member

theorem Effects.land (finished : state.runningOf thread = none) :
    Effects machine (state.land thread) where
  state_eq := effects.state_eq
  given := effects.given
  running := by
    rw [unfinished_land finished]
    exact effects.running

/-- Sections leave the state machine's work alone, and it works through the server. -/
def SteadyAt (machine : StateMachine σ) (state : Threads σ) : ThreadEvent → Prop
  | .locked thread taken _ => state.busy thread = false →
      state.Steady (taken.change (some machine) state.node)
  | .finish _ _ => state.served = true
  | .resume _ | .setServer | .crash => True

theorem Effects.step (inv : Inv state) (orderly : state.Orderly machine event)
    (steady : state.SteadyAt machine event) : Effects machine (state.step machine event) := by
  generalize stepped : state.step machine event = later
  cases steps_of_step stepped with
  | same => exact effects
  | locked free =>
    obtain ⟨kept, respects, _⟩ := orderly free
    exact effects.locked inv kept respects (steady free)
  | enter free =>
    obtain ⟨kept, respects, _⟩ := orderly free
    exact (effects.locked inv kept respects (steady free)).enter (inv.toMid.locked kept respects)
  | finish found => exact effects.finish inv steady (mem_unfinished_of_runningOf found)
  | resume _ finished => exact (effects.land finished).enter inv.toMid.land
  | setServer => exact { effects with }
  | restart => exact orderly.elim

/-- With no call running and nothing committed left, the state machine was given the committed
commands behind the image, each once. Both lists are sorted by index and have the same
members. -/
theorem Effects.given_eq (inv : Inv state) (quiet : state.unfinished = [])
    (settled : ∀ entry ∈ state.committed, entry.type = .command →
      (entry.index, entry.data) ∈ begun state.trace ∨ entry.index ≤ state.floor) :
    state.effects = state.commandsIn state.floor state.highest := by
  obtain ⟨_, after, calls⟩ := inv.oneCall
  rw [quiet] at calls
  have done_eq : begun state.trace = done state.trace := by
    rw [begun_eq after, ← calls]
    exact append_nil _
  have same : ((done state.trace).filter fun call => decide (state.floor < call.1)) =
      (state.committed.filter fun entry => entry.type == .command &&
        decide (state.floor < entry.index) && decide (entry.index ≤ state.highest)).map
          fun entry => (entry.index, entry.data) := by
    refine List.Pairwise.eq_of_mem_iff (r := fun first second => first.1 < second.1) ?_ ?_ ?_
    · exact (done_eq ▸ inv.ordered).filter _
    · rw [pairwise_map]
      exact inv.sorted.filter _
    intro call
    rw [mem_filter, decide_eq_true_eq, mem_map, ← done_eq]
    constructor
    · rintro ⟨began, above⟩
      obtain ⟨entry, committed, command, rfl⟩ := inv.known call began
      have below := inv.bounded entry committed
      refine ⟨entry, mem_filter.mpr ⟨committed, ?_⟩, rfl⟩
      simp only [Bool.and_eq_true, beq_iff_eq, decide_eq_true_eq]
      exact ⟨⟨command, above⟩, below⟩
    · rintro ⟨entry, member, rfl⟩
      obtain ⟨committed, facts⟩ := mem_filter.mp member
      simp only [Bool.and_eq_true, beq_iff_eq, decide_eq_true_eq] at facts
      rcases settled entry committed facts.1.1 with began | covered
      · exact ⟨began, facts.1.2⟩
      · exact absurd facts.1.2 (not_lt.mpr covered)
  rw [effects.given, same, map_map]
  rfl

end

/-! ## Restarts -/

/-- A merge in front of a gap, which `HandleAppendEntries` does not save, changes nothing. -/
def Saved (state : Threads σ) : Change σ → Prop
  | .gap entries => (state.node.log.appendEntries entries).1 = state.node.log
  | .nothing | .push _ _ _ | .merge _ _ | .commit _ | .refuse _ | .install _ _ _ _ | .compact _ =>
      True

/-- The log is saved behind every section. -/
def SavedAt (machine : StateMachine σ) (state : Threads σ) : ThreadEvent → Prop
  | .locked thread taken _ => state.busy thread = false →
      state.Saved (taken.change (some machine) state.node)
  | .finish _ _ | .resume _ | .setServer | .crash => True

/-- Calls are orderly and go through the server, the log is saved, and a start finds no command in
the log for which `Apply` was called before. -/
def Lasting (machine : StateMachine σ) (state : Threads σ) : ThreadEvent → Prop
  | .crash => ∀ entry ∈ state.node.restart.log.entries, entry.type = .command →
      ∀ call ∈ begun state.trace, call.1 ≠ entry.index
  | event => state.Orderly machine event ∧ state.SteadyAt machine event ∧
      state.SavedAt machine event

/-- `ApplyCommitted` writes nothing to the files and leaves the log alone. -/
theorem enter_log_disk :
    (state.enter thread).node.log = state.node.log ∧
      (state.enter thread).node.disk = state.node.disk := by
  rcases state.enter_cases with ⟨_, same, _⟩ | ⟨_, same, _⟩
  · rw [same]
    exact ⟨rfl, rfl⟩
  · rw [same]
    exact ⟨rfl, rfl⟩

theorem savesLog_step (saves : state.node.disk.SavesLog state.node.log)
    (saved : state.SavedAt machine event) :
    (state.step machine event).node.disk.SavesLog (state.step machine event).node.log := by
  -- Most sections save the log; a gap leaves it as it is.
  have locked : ∀ {thread taken grown}, event = .locked thread taken grown →
      state.busy thread = false → (state.locked machine taken grown).node.disk.SavesLog
        (state.locked machine taken grown).node.log := by
    rintro _ _ _ rfl free
    refine Section.savesLog_run saves ?_
    intro _ gap
    have whole := saved free
    rw [gap] at whole
    exact whole
  generalize stepped : state.step machine event = later
  cases steps_of_step stepped with
  | same => exact saves
  | locked free => exact locked rfl free
  | enter free =>
    rw [(enter_log_disk).1, enter_log_disk.2]
    exact locked rfl free
  | finish | setServer => exact saves
  | resume =>
    rw [(enter_log_disk).1, enter_log_disk.2]
    exact saves
  | restart =>
    rw [(restart_fields state.node).2.2.1]
    exact savesLog_restart state.node

/-- A log that holds no command for which `Apply` was called leaves nothing to apply. -/
theorem Inv.idle_of_unapplied (inv : Inv state)
    (unapplied : ∀ entry ∈ state.node.log.entries, entry.type = .command →
      ∀ call ∈ begun state.trace, call.1 ≠ entry.index) :
    state.unfinished = [] ∧ state.node.commitIndex ≤ state.node.lastApplied := by
  refine inv.idle.resolve_right ?_
  rintro ⟨_, entry, held, command, began⟩
  exact unapplied entry (RaftLog.mem_entries_of_entryAt held) command _ began rfl

/-- A start that finds no such command in the log keeps the invariant: what lies in the log behind
index zero is behind everything applied. -/
theorem Inv.restart (inv : Inv state) (saves : state.node.disk.SavesLog state.node.log)
    (unapplied : ∀ entry ∈ state.node.restart.log.entries, entry.type = .command →
      ∀ call ∈ begun state.trace, call.1 ≠ entry.index) :
    Inv { state with node := state.node.restart, flights := [], served := false } := by
  obtain ⟨commit_eq, applied_eq, _, _⟩ := restart_fields state.node
  have log_eq := restart_log saves
  have idle := inv.idle_of_unapplied (log_eq ▸ unapplied)
  have beyond : ∀ entry, state.node.log.entryAt entry.index = some entry → 0 < entry.index →
      entry.type = .command → state.highest < entry.index := by
    intro entry held positive command
    by_contra low
    have low := Nat.le_of_not_lt low
    have listed : entry ∈ state.node.restart.log.entries :=
      log_eq.symm ▸ RaftLog.mem_entries_of_entryAt held
    rcases inv.settled idle.2 (inv.recorded entry held positive low command) command with
      began | covered
    · exact unapplied entry listed command _ began rfl
    · exact absurd (inv.above entry held positive command) (not_lt.mpr covered)
  refine { inv with
    applied_le := le_of_eq (applied_eq.trans commit_eq.symm)
    commit_le := commit_eq ▸ Nat.zero_le _
    highest_le := log_eq.symm ▸ inv.highest_le
    recorded := log_eq.symm ▸ inv.recorded
    above := log_eq.symm ▸ inv.above
    ahead := ?_
    pending := ?_
    idle := .inl ⟨rfl, le_of_eq (commit_eq.trans applied_eq.symm)⟩
    oneCall := ?_
    single := Nat.zero_le _
    upToDate := nofun }
  · intro entry held command behind _ member
    rw [log_eq] at held
    exact lt_of_le_of_lt (inv.begun_le member)
      (beyond entry held (Nat.zero_lt_of_lt behind) command)
  · intro _ member command
    rcases inv.settled idle.2 member command with began | covered
    · exact .inl began
    · exact .inr (.inl covered)
  · obtain ⟨running, runs, calls⟩ := inv.oneCall
    rw [idle.1] at calls
    exact ⟨running, runs, calls⟩

/-- What holds between the events of a run with restarts. -/
structure Durably (machine : StateMachine σ) (state : Threads σ) : Prop where
  inv : Inv state
  effects : Effects machine state
  saves : state.node.disk.SavesLog state.node.log

theorem durably_start {machine : StateMachine σ} {node : Node σ} :
    Durably machine (start node) where
  inv := inv_start
  effects := effects_start
  saves := by
    show node.restart.disk.SavesLog node.restart.log
    rw [(restart_fields node).2.2.1]
    exact savesLog_restart node

theorem Durably.step (durably : Durably machine state) (lasting : state.Lasting machine event) :
    Durably machine (state.step machine event) := by
  -- An event of a process that goes on.
  have alive : state.Orderly machine event → state.SteadyAt machine event →
      state.SavedAt machine event → Durably machine (state.step machine event) := by
    intro orderly steady saved
    exact ⟨durably.inv.step orderly, durably.effects.step durably.inv orderly steady,
      savesLog_step durably.saves saved⟩
  cases event with
  | locked _ _ _ | finish _ _ | resume _
  | setServer => exact alive lasting.1 lasting.2.1 lasting.2.2
  | crash =>
    have saves := @savesLog_step _ machine state .crash durably.saves trivial
    refine ⟨durably.inv.restart durably.saves lasting, ?_, saves⟩
    exact ⟨(restart_fields state.node).2.2.2.trans durably.effects.state_eq,
      durably.effects.given, nofun⟩

/-- Every command takes effect once: the calls are in order, and with none under way the state
machine has the image, or the state at the first start, with the committed commands behind it
applied. -/
structure EffectsOnce (machine : StateMachine σ) (state : Threads σ) : Prop where
  inOrder : AppliedInOrder state
  effects : state.flights = [] → state.node.machineState =
    applyAll machine state.base (state.commandsIn state.floor state.highest)

theorem Durably.effectsOnce (durably : Durably machine state) : EffectsOnce machine state where
  inOrder := durably.inv.appliedInOrder
  effects := by
    intro quiet
    have none_running : state.unfinished = [] := by
      rw [unfinished, quiet]
      rfl
    have applied := (durably.inv.idle.resolve_right fun busy => busy.1 quiet).2
    have given := durably.effects.given_eq durably.inv none_running
      fun _ member command => durably.inv.settled applied member command
    rw [durably.effects.state_eq, given]

theorem served_step (completing : Completing event) :
    (state.step machine event).served = state.served := by
  have entered : ∀ (state : Threads σ) thread, (state.enter thread).served = state.served := by
    intro state _
    rcases state.enter_cases with ⟨_, same, _⟩ | ⟨_, same, _⟩
    · rw [same, launch]
    · rw [same]
  generalize stepped : state.step machine event = later
  obtain ⟨_, _, rfl | rfl⟩ := completing
  · cases steps_of_step stepped with
    | same | finish => rfl
  · cases steps_of_step stepped with
    | same => rfl
    | resume => exact entered _ _

/-- The calls under way end through the server once it is set. -/
theorem Durably.complete (durably : Durably machine state) (served : state.served = true)
    (kinds : ∀ event ∈ events, Completing event) :
    Durably machine (run (Threads.step machine) state events) := by
  induction events generalizing state with
  | nil => exact durably
  | cons event _ ih =>
    obtain ⟨kind, kinds⟩ := forall_mem_cons.mp kinds
    refine ih (durably.step ?_) ((served_step kind).trans served) kinds
    obtain ⟨_, _, rfl | rfl⟩ := kind
    · exact ⟨trivial, served, trivial⟩
    · exact ⟨trivial, trivial, trivial⟩

/-- In every run with restarts in which no start finds an applied command in the log, every
committed command takes effect once. Once the server is set the calls under way come to an end. -/
theorem effects_once_across_restarts (machine : StateMachine σ) (node : Node σ)
    (events : List ThreadEvent)
    (lasting : Runs.Meets (step machine) (Lasting machine) (start node) events) :
    EffectsOnce machine (Runs.run (step machine) (start node) events) ∧
      ∃ further, (∀ event ∈ further, Completing event) ∧
        let final := Runs.run (step machine) (start node) (events ++ .setServer :: further)
        EffectsOnce machine final ∧ final.flights = [] := by
  have reached : Durably machine (run (step machine) (start node) events) :=
    lasting.invariant (durably_start) fun _ _ durably meets => durably.step meets
  have ready : Durably machine
      ((run (step machine) (start node) events).step machine .setServer) :=
    reached.step ⟨trivial, trivial, trivial⟩
  obtain ⟨further, kinds, empty⟩ := @Inv.completes _ machine _ ready.inv
  refine ⟨reached.effectsOnce, further, kinds, ?_⟩
  rw [run_append]
  exact ⟨(ready.complete rfl kinds).effectsOnce, empty⟩

instance (state : Threads σ) [DecidableEq σ] : ∀ change, Decidable (state.Steady change) := by
  intro change
  induction change using Change.casesOn <;> unfold Steady <;> infer_instance

instance (state : Threads σ) : ∀ change, Decidable (state.Saved change) := by
  intro change
  induction change using Change.casesOn <;> unfold Saved <;> infer_instance

instance (machine : StateMachine σ) (state : Threads σ) [DecidableEq σ] :
    ∀ event, Decidable (state.Lasting machine event)
  | .crash => inferInstanceAs (Decidable (∀ entry ∈ _, _ → ∀ call ∈ _, _))
  | .locked _ _ _ => inferInstanceAs (Decidable (_ ∧ (_ → _) ∧ (_ → _)))
  | .finish _ _ => inferInstanceAs (Decidable (True ∧ _ = _ ∧ True))
  | .resume _ | .setServer => inferInstanceAs (Decidable (True ∧ True ∧ True))

/-- A command and a no-op of the leader, both committed. -/
def commandAndNoOp : Section :=
  sentBehind 0
    [{ index := 1, term := 1, type := .command, data := [1] },
     { index := 2, term := 1, type := .noOp }] 2

/-- The leader's next command, committed as well. -/
def thirdCommand : Section :=
  sentBehind 2 [{ index := 3, term := 1, type := .command, data := [3] }] 3

/-- A node that takes a snapshot behind its first command is started again, and applies the next. -/
def compactedRun : List ThreadEvent :=
  [.setServer, .locked 0 commandAndNoOp true, .finish 0 [], .resume 0,
    .locked 1 (.leader (.triggerSnapshot true)) false, .crash, .locked 0 thirdCommand true,
    .setServer, .finish 0 [], .resume 0]

theorem effects_once_across_restarts_compacted :
    EffectsOnce imageMachine (Runs.run (step imageMachine) (start freshVoter) compactedRun) :=
  (effects_once_across_restarts imageMachine freshVoter compactedRun (by decide +kernel)).1

/-- A node applies its first command and is started again. The next heartbeat, with the first of two
commands committed, makes it apply the command a second time. -/
theorem restart_applies_again :
    let restarted := run (step imageMachine) (start freshVoter)
      [.setServer, .locked 0 (twoCommands 1) true, .finish 0 [], .resume 0, .crash, .setServer,
        .locked 0 (sentBehind 2 [] 1) false, .finish 0 [], .resume 0]
    restarted.trace = [.began (1, [1]), .ended (1, [1]), .began (1, [1]), .ended (1, [1])] ∧
      restarted.node.machineState = [1, 1] ∧ ¬ EffectsOnce imageMachine restarted := by
  intro restarted
  have trace_eq : restarted.trace =
      [.began (1, [1]), .ended (1, [1]), .began (1, [1]), .ended (1, [1])] := by
    unfold restarted
    decide +kernel
  refine ⟨trace_eq, by unfold restarted; decide +kernel, ?_⟩
  intro once
  have bound := once.inOrder.atMostOnce (1, [1])
  rw [trace_eq] at bound
  revert bound
  decide

end Threads

end LightKV.Raft
