import LightKV.RaftFiles
import LightKV.Runs

/-!
# What a leader does to its own log

Only two kinds of section of a leader touch the log. A proposal pushes one entry. `CompactLog`
keeps the entry at `last_applied_` and drops everything else, the part of the log
above it included; so a snapshot taken while entries are still unapplied removes
them. `keepsTail` is the condition that excludes exactly that.
-/

namespace LightKV.Raft

open Section

namespace Node

variable {σ : Type}

/-- A run of sections. -/
abbrev leaderRun (machine : Option (StateMachine σ)) : Node σ → List LeaderAction → Node σ :=
  Runs.run (leaderStep machine)

/-- `TriggerSnapshot` reaches `CompactLog`, and the log holds the entry to keep. -/
def compacts (machine : Option (StateMachine σ)) (saved : Bool) (node : Node σ) : Prop :=
  node.lastSnapshotIndex < node.lastApplied ∧
    machine.elim [] (fun machine => machine.takeSnapshot node.machineState) ≠ [] ∧
    saved = true ∧ (node.log.entryAt node.lastApplied).isSome

/-- A section that compacts finds every entry of the log applied. -/
def keepsTail (machine : Option (StateMachine σ)) (node : Node σ) : LeaderAction → Prop
  | .triggerSnapshot saved =>
      compacts machine saved node → node.log.lastLogIndex ≤ node.lastApplied
  | .checkAndCompactLog saved =>
      node.role = .leader → node.snapshotThreshold < node.log.entries.length →
        compacts machine saved node → node.log.lastLogIndex ≤ node.lastApplied
  | _ => True

/-- The log of `after` extends the one of `before` above the snapshot of `after`. -/
structure Extends (before after : Node σ) : Prop where
  snapshot : before.lastSnapshotIndex ≤ after.lastSnapshotIndex
  last : before.log.lastLogIndex ≤ after.log.lastLogIndex
  stays : ∀ index entry, before.log.entryAt index = some entry →
    after.lastSnapshotIndex < index → after.log.entryAt index = some entry

namespace Extends

theorem trans (earlier : Extends first second) (later : Extends second third) :
    Extends first third where
  snapshot := le_trans earlier.snapshot later.snapshot
  last := le_trans earlier.last later.last
  stays index entry held above :=
    later.stays index entry
      (earlier.stays index entry held (lt_of_le_of_lt later.snapshot above)) above

/-- A section that leaves log and snapshot index alone. -/
theorem of_same (log_eq : after.log = before.log)
    (snapshot_eq : after.lastSnapshotIndex = before.lastSnapshotIndex) : Extends before after where
  snapshot := le_of_eq snapshot_eq.symm
  last := by rw [log_eq]
  stays index entry held _ := by rw [log_eq, held]

/-- A section that pushes one entry. -/
theorem of_push (log_eq : after.log = before.log.push term type data)
    (snapshot_eq : after.lastSnapshotIndex = before.lastSnapshotIndex) : Extends before after where
  snapshot := le_of_eq snapshot_eq.symm
  last := by
    rw [log_eq, RaftLog.lastLogIndex_push]
    exact Nat.le_succ _
  stays index entry held _ := by
    rw [log_eq]
    exact before.log.entryAt_push_of_some held

end Extends

/-- `CompactLog` at the last index keeps the last entry, and there is nothing above it. -/
theorem Extends.of_compact (core_eq : after.core = (Change.compact data).apply before.core)
    (newer : before.lastSnapshotIndex < before.lastApplied)
    (covered : (before.log.entryAt before.lastApplied).isSome → before.log.lastLogIndex ≤
      before.lastApplied) : Extends before after := by
  have log_eq : after.log =
      ((before.log.entryAt before.lastApplied).map RaftLog.single).getD before.log :=
    congrArg Core.log core_eq
  have snapshot_eq : after.lastSnapshotIndex = before.lastApplied :=
    congrArg Core.lastSnapshotIndex core_eq
  have grows : before.lastSnapshotIndex ≤ after.lastSnapshotIndex := by omega
  cases stored : before.log.entryAt before.lastApplied with
  | none =>
    rw [stored] at log_eq
    exact ⟨grows, by rw [log_eq]; rfl, fun _ _ held _ => by rw [log_eq]; exact held⟩
  | some _ =>
    have reach := covered (by rw [stored]; rfl)
    have here := (before.log.entryAt_some stored).1
    rw [stored] at log_eq
    refine ⟨grows, ?_, ?_⟩
    · rw [log_eq, Option.map_some, Option.getD_some, RaftLog.lastLogIndex_single, here]
      exact reach
    · intro _ _ held _
      have within := (before.log.entryAt_some held).2.2
      omega

theorem compacts_of_triggerChange (change_eq : node.triggerChange machine saved = .compact data)
    (held : (node.log.entryAt node.lastApplied).isSome) : compacts machine saved node := by
  unfold triggerChange at change_eq
  dsimp only at change_eq
  split at change_eq
  · cases change_eq
  · rename_i fresh
    simp only [not_or, not_le, Bool.not_eq_false] at fresh
    exact ⟨fresh.1, fresh.2.1, fresh.2.2, held⟩

/-- A compaction that meets `keepsTail` finds every entry applied. -/
theorem applied_of_keepsTail (covered : keepsTail machine node action)
    (change_eq : Section.change machine node (.leader action) = .compact data)
    (held : (node.log.entryAt node.lastApplied).isSome) :
    node.log.lastLogIndex ≤ node.lastApplied := by
  cases action with
  | triggerSnapshot _ => exact covered (compacts_of_triggerChange change_eq held)
  | checkAndCompactLog _ =>
    rw [change] at change_eq
    split at change_eq
    · rename_i exceeded
      exact covered exceeded.1 exceeded.2 (compacts_of_triggerChange change_eq held)
    · cases change_eq
  | propose _ | addPeer _ | removePeer _ =>
    rw [change] at change_eq
    split at change_eq <;> cases change_eq
  | appendReply | advanceCommitIndex | snapshotReply | chunkRound | chunkReply => cases change_eq

/-- The step lemma: every section that meets `keepsTail` extends the log. -/
theorem leaderStep_extends (covered : keepsTail machine node action) :
    Extends node (leaderStep machine node action) := by
  by_cases advances : action = .advanceCommitIndex
  · rw [advances, leaderStep, advanceCommitIndex_eq]
    obtain ⟨_, applied⟩ := applyCommitted_frame machine node.advanceCommit
    have kept : node.advanceCommit.log = node.log ∧
        node.advanceCommit.lastSnapshotIndex = node.lastSnapshotIndex := by
      unfold advanceCommit
      split <;> exact ⟨rfl, rfl⟩
    split
    · rw [applied]
      exact .of_same kept.1 kept.2
    · exact .of_same kept.1 kept.2
  · have same : run machine node (.leader action) = leaderStep machine node action := by
      cases action with
      | advanceCommitIndex => exact absurd rfl advances
      | _ => rfl
    have core_eq := core_run machine node (.leader action)
    have makes := makes_change machine node (.leader action)
    rw [same] at core_eq
    generalize change_eq : change machine node (.leader action) = change at *
    cases change with
    | nothing | commit _ =>
      exact .of_same (congrArg Core.log core_eq) (congrArg Core.lastSnapshotIndex core_eq)
    | push _ _ _ =>
      exact .of_push (congrArg Core.log core_eq) (congrArg Core.lastSnapshotIndex core_eq)
    | compact _ => exact .of_compact core_eq makes.2.1 (applied_of_keepsTail covered change_eq)
    | merge _ _ | gap _ =>
      obtain ⟨_, impossible, _⟩ := makes
      cases impossible
    | refuse _ => rcases makes with ⟨_, impossible⟩ | ⟨_, impossible⟩ <;> cases impossible
    | install _ _ _ _ =>
      rcases makes.2 with ⟨_, impossible, _⟩ | ⟨_, impossible, _⟩ <;> cases impossible

/-- Leader append-only over whole runs. If every compaction of the run finds all entries
applied, then the last index never goes down and every entry above the snapshot
index reached at the end is still in the log, unchanged. -/
theorem leader_log_append_only (machine : Option (StateMachine σ)) (node : Node σ)
    (actions : List LeaderAction)
    (covered : Runs.Meets (leaderStep machine) (keepsTail machine) node actions) :
    node.log.lastLogIndex ≤ (leaderRun machine node actions).log.lastLogIndex ∧
      ∀ index entry, node.log.entryAt index = some entry →
        (leaderRun machine node actions).lastSnapshotIndex < index →
        (leaderRun machine node actions).log.entryAt index = some entry := by
  have extended : Extends node (leaderRun machine node actions) :=
    covered.invariant (.of_same rfl rfl) fun _ _ before meets =>
      before.trans (leaderStep_extends meets)
  exact ⟨extended.last, extended.stays⟩

/-- Node 1 of three, elected in term one: its log holds the dummy and its no-op. -/
def electedLeader : Node Unit :=
  becomeLeader (becomeCandidate
    { opts := .ofThree 1
      machineState := () })

/-- The no-op as `ReplicateLog` sends it to node 2. -/
def noOpRequest : AppendEntriesRequest where
  term := 1
  leaderId := 1
  prevLogIndex := 0
  prevLogTerm := 0
  entries := [{ index := 1, term := 1, type := .noOp }]
  leaderCommit := 0

/-- The answer of node 2 to the no-op. -/
def noOpReply : LeaderAction :=
  .appendReply 1 noOpRequest { term := 1, success := true }

/-- A snapshot taken when the no-op is the last entry keeps the log's last index. -/
theorem leader_log_append_only_elected :
    electedLeader.log.lastLogIndex ≤
      (leaderRun (some acceptingMachine) electedLeader
        [noOpReply, .advanceCommitIndex, .triggerSnapshot true]).log.lastLogIndex := by
  have applied : (leaderRun (some acceptingMachine) electedLeader
        [noOpReply, .advanceCommitIndex]).log.lastLogIndex ≤
      (leaderRun (some acceptingMachine) electedLeader
        [noOpReply, .advanceCommitIndex]).lastApplied := by decide +kernel
  exact (leader_log_append_only (some acceptingMachine) electedLeader
    [noOpReply, .advanceCommitIndex, .triggerSnapshot true]
    ⟨trivial, trivial, fun _ => applied, trivial⟩).1

/-- The leader after the no-op is committed and a further command is proposed. -/
def leaderWithProposal : Node Unit :=
  leaderRun (some acceptingMachine) electedLeader
    [noOpReply, .advanceCommitIndex, .propose [120]]

/-- That leader after a snapshot. -/
def leaderAfterSnapshot : Node Unit :=
  leaderStep (some acceptingMachine) leaderWithProposal (.triggerSnapshot true)

/-- The proposal is lost by the snapshot: entry two was in the log, the snapshot is taken
at index one, and the last index falls back to it. -/
theorem leader_snapshot_drops_proposal :
    leaderWithProposal.role = .leader ∧ leaderWithProposal.log.lastLogIndex = 2 ∧
      leaderWithProposal.log.entryAt 2 =
        some { index := 2, term := 1, type := .command, data := [120] } ∧
      leaderAfterSnapshot.role = .leader ∧
      leaderAfterSnapshot.currentTerm = leaderWithProposal.currentTerm ∧
      leaderAfterSnapshot.lastSnapshotIndex = 1 ∧
      leaderAfterSnapshot.log.lastLogIndex = 1 ∧ leaderAfterSnapshot.log.entryAt 2 = none := by
  decide +kernel

end Node

end LightKV.Raft
