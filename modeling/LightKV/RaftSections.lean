import LightKV.LogMatching
import LightKV.RaftLeader

/-!
# The locked sections of a node

`mu_` is held while a handler runs and is released in two places only: around an RPC, and
inside `ApplyCommitted` around the call of `Apply`. What happens between two releases is one
section. The sections here are those of the node model, with the two callers of
`ApplyCommitted` cut in front of that call; the loop itself is taken apart elsewhere.

A section changes the term, the vote and the role in many ways, but the log, the indices, the
snapshot and the state machine in only a few. `Change` lists these, and `Section.change` says
which one a section makes.
-/

namespace LightKV.Raft

namespace Node

variable {σ : Type} (machine : Option (StateMachine σ)) (node : Node σ)

/-! ## In front of `ApplyCommitted` -/

/-- Step 5 of `HandleAppendEntries` up to the call of `ApplyCommitted`. -/
def raiseCommit (leaderCommit : Nat) : Node σ :=
  if node.commitIndex < leaderCommit then
    { node with commitIndex := min leaderCommit node.log.lastLogIndex }
  else node

/-- `HandleAppendEntries` behind its checks, up to the call of `ApplyCommitted`. -/
def acceptMerged (req : AppendEntriesRequest) : Node σ :=
  let merged := node.log.appendEntries req.entries
  if merged.2 then (node.storeEntries req.entries).raiseCommit req.leaderCommit
  else { node with log := merged.1 }

/-- `HandleAppendEntries` up to the call of `ApplyCommitted`. -/
def acceptEntries (req : AppendEntriesRequest) : Node σ :=
  if req.term < node.currentTerm then node
  else if node.refuses req then node.followLeader req
  else (node.followLeader req).acceptMerged req

/-- `HandleAppendEntries` calls `ApplyCommitted`. -/
def acceptApplies (req : AppendEntriesRequest) : Bool :=
  !node.refuses req && (node.log.appendEntries req.entries).2 &&
    decide (node.commitIndex < req.leaderCommit)

/-- `AdvanceCommitIndex` up to the call of `ApplyCommitted`. -/
def advanceCommit : Node σ :=
  if node.role ≠ .leader then node
  else
    { node with
      commitIndex := node.advanceLoop (node.log.lastLogIndex - node.commitIndex)
        (node.commitIndex + 1) node.commitIndex }

/-- The commit index of a leader moves within its log. -/
theorem advanceCommit_bounds (within : node.commitIndex ≤ node.log.lastLogIndex) :
    node.commitIndex ≤ node.advanceCommit.commitIndex ∧
      node.advanceCommit.commitIndex ≤ node.log.lastLogIndex := by
  unfold advanceCommit
  split
  · exact ⟨le_refl _, within⟩
  · have bounds := advanceLoop_bounds node (node.log.lastLogIndex - node.commitIndex)
      (node.commitIndex + 1) node.commitIndex (Nat.lt_succ_self _)
    dsimp only
    omega

/-- Steps 4 and 5 are that section, followed by `ApplyCommitted` if it is called. -/
theorem mergeEntries_eq :
    (mergeEntries machine node req resp).1 =
      if (node.log.appendEntries req.entries).2 && decide (node.commitIndex < req.leaderCommit)
      then applyCommitted machine (node.acceptMerged req)
      else node.acceptMerged req := by
  obtain ⟨_, commit_eq⟩ := storeEntries_log_commit node req.entries
  unfold mergeEntries acceptMerged
  dsimp only
  cases (node.log.appendEntries req.entries).2 with
  | false => rfl
  | true =>
    simp only [if_true, Bool.true_and, decide_eq_true_eq]
    unfold followCommit raiseCommit
    rw [commit_eq]
    by_cases raised : node.commitIndex < req.leaderCommit
    · rw [if_pos raised, if_pos raised, if_pos raised]
    · rw [if_neg raised, if_neg raised, if_neg raised]

/-- The handler is that section, followed by `ApplyCommitted` if it is called. -/
theorem handleAppendEntries_eq :
    (handleAppendEntries machine node req).1 =
      if node.acceptApplies req then applyCommitted machine (node.acceptEntries req)
      else node.acceptEntries req := by
  unfold handleAppendEntries acceptEntries acceptApplies
  by_cases stale : req.term < node.currentTerm
  · simp [stale, refuses]
  rw [if_neg stale, if_neg stale]
  by_cases snapshotted : req.prevLogIndex < node.lastSnapshotIndex
  · simp [snapshotted, refuses]
  rw [if_neg snapshotted]
  cases conflict : prevConflict node.log req with
  | some _ => simp [refuses, conflict]
  | none =>
    have accepted : node.refuses req = false := by simp [refuses, stale, snapshotted, conflict]
    rw [accepted]
    exact mergeEntries_eq machine (node.followLeader req)

/-- `AdvanceCommitIndex` is that section, followed by `ApplyCommitted` on a leader. -/
theorem advanceCommitIndex_eq :
    node.advanceCommitIndex machine =
      if node.role = .leader then applyCommitted machine node.advanceCommit
      else node.advanceCommit := by
  unfold advanceCommitIndex advanceCommit
  by_cases leads : node.role = .leader
  · simp [leads]
  · simp [leads]

end Node

/-! ## Sections -/

/-- The sections of a node, with what they take from outside. The tally of an election is left
open: a candidate may win at any time. -/
inductive Section where
  | electionTimeout
  | winElection
  | stepDown (term : Nat)
  | requestVote (req : RequestVoteRequest)
  | appendEntries (req : AppendEntriesRequest)
  | installSnapshot (req : InstallSnapshotRequest)
  | installSnapshotChunk (req : InstallSnapshotChunkRequest)
  | leader (action : Node.LeaderAction)
  | stop

namespace Section

open Node

variable {σ : Type}

/-- The node after a section, with both saves succeeding. -/
def run (machine : Option (StateMachine σ)) (node : Node σ) : Section → Node σ
  | .electionTimeout => if node.role = .leader then node else node.becomeCandidate
  | .winElection => if node.role = .candidate then node.becomeLeader else node
  | .stepDown term => node.observeTerm term
  | .requestVote req => (node.handleRequestVote req).1
  | .appendEntries req => node.acceptEntries req
  | .installSnapshot req => (handleInstallSnapshot machine node req).1
  | .installSnapshotChunk req => (handleInstallSnapshotChunk machine node req).node
  | .leader .advanceCommitIndex => node.advanceCommit
  | .leader action => leaderStep machine node action
  | .stop => node.savePersistentState

/-- The section ends in a call of `ApplyCommitted`. -/
def applies (node : Node σ) : Section → Bool
  | .appendEntries req => node.acceptApplies req
  | .leader .advanceCommitIndex => decide (node.role = .leader)
  | _ => false

end Section

/-! ## What a section changes -/

/-- The fields of a node other than its term, vote, role, peers and files. -/
structure Core (σ : Type) where
  log : RaftLog
  commitIndex : Nat
  lastApplied : Nat
  lastSnapshotIndex : Nat
  lastSnapshotTerm : Nat
  snapshotData : Bytes
  machineState : σ

/-- These fields of a node. -/
def Node.core {σ : Type} (node : Node σ) : Core σ where
  log := node.log
  commitIndex := node.commitIndex
  lastApplied := node.lastApplied
  lastSnapshotIndex := node.lastSnapshotIndex
  lastSnapshotTerm := node.lastSnapshotTerm
  snapshotData := node.snapshotData
  machineState := node.machineState

/-- A change of these fields. -/
inductive Change (σ : Type) where
  /-- Nothing, or terms, votes and roles only. -/
  | nothing
  /-- A new entry at the end of the log. -/
  | push (term : Nat) (type : RaftEntryType) (data : Bytes)
  /-- Entries of the leader, and its commit index. -/
  | merge (entries : List RaftLogEntry) (leaderCommit : Nat)
  /-- Entries in front of a gap, which are not saved. -/
  | gap (entries : List RaftLogEntry)
  /-- A commit index that a majority has reached. -/
  | commit (index : Nat)
  /-- An image that `ApplySnapshot` refused. -/
  | refuse (state : σ)
  /-- An installed image. -/
  | install (index term : Nat) (image : Bytes) (state : σ)
  /-- A snapshot of the node's own. -/
  | compact (data : Bytes)

/-- The fields after a change. -/
def Change.apply {σ : Type} (core : Core σ) : Change σ → Core σ
  | .nothing => core
  | .push term type data => { core with log := core.log.push term type data }
  | .merge entries leaderCommit =>
      let log := (core.log.appendEntries entries).1
      { core with
        log := log
        commitIndex :=
          if core.commitIndex < leaderCommit then min leaderCommit log.lastLogIndex
          else core.commitIndex }
  | .gap entries => { core with log := (core.log.appendEntries entries).1 }
  | .commit index => { core with commitIndex := index }
  | .refuse state => { core with machineState := state }
  | .install index term image state =>
      { log := .single { index := index, term := term, type := .noOp }
        commitIndex := index
        lastApplied := index
        lastSnapshotIndex := index
        lastSnapshotTerm := term
        snapshotData := image
        machineState := state }
  | .compact data =>
      { core with
        log := ((core.log.entryAt core.lastApplied).map RaftLog.single).getD core.log
        lastSnapshotIndex := core.lastApplied
        lastSnapshotTerm := (core.log.getLogEntry core.lastApplied).term
        snapshotData := data }

namespace Node

variable {σ : Type} (machine : Option (StateMachine σ))

/-- What `TriggerSnapshot` changes. -/
def triggerChange (saved : Bool) (node : Node σ) : Change σ :=
  let data := machine.elim [] fun machine => machine.takeSnapshot node.machineState
  if node.lastApplied ≤ node.lastSnapshotIndex ∨ data = [] ∨ saved = false then .nothing
  else .compact data

/-- What a complete image changes. -/
def imageChange (node : Node σ) (index term : Nat) (image : Bytes) : Change σ :=
  let applied := node.applyImage machine image
  if applied.2 then .install index term image applied.1.machineState
  else .refuse applied.1.machineState

end Node

namespace Section

open Node

variable {σ : Type} (machine : Option (StateMachine σ))

/-- What a section changes. -/
def change (node : Node σ) : Section → Change σ
  | .winElection =>
      if node.role = .candidate then .push node.currentTerm .noOp [] else .nothing
  | .appendEntries req =>
      if node.refuses req then .nothing
      else if (node.log.appendEntries req.entries).2 then .merge req.entries req.leaderCommit
      else .gap req.entries
  | .installSnapshot req =>
      if req.term < node.currentTerm ∨ req.data = [] ∨
          req.lastIncludedIndex ≤ node.lastApplied then .nothing
      else node.imageChange machine req.lastIncludedIndex req.lastIncludedTerm req.data
  | .installSnapshotChunk req =>
      if req.term < node.currentTerm ∨ chunkAdmitted node.opts req = false then .nothing
      else
        match node.staging.stageChunk req with
        | .full image =>
            node.imageChange machine req.lastIncludedIndex req.lastIncludedTerm image
        | _ => .nothing
  | .leader (.propose data) =>
      if node.role = .leader then .push node.currentTerm .command data else .nothing
  | .leader (.addPeer peer) =>
      if node.role = .leader then
        .push node.currentTerm .confChange (textBytes ("ADD|" ++ toString peer))
      else .nothing
  | .leader (.removePeer peer) =>
      if node.role = .leader then
        .push node.currentTerm .confChange (textBytes ("REM|" ++ toString peer))
      else .nothing
  | .leader .advanceCommitIndex => .commit node.advanceCommit.commitIndex
  | .leader (.triggerSnapshot saved) => node.triggerChange machine saved
  | .leader (.checkAndCompactLog saved) =>
      if node.role = .leader ∧ node.snapshotThreshold < node.log.entries.length then
        node.triggerChange machine saved
      else .nothing
  | _ => .nothing

/-! ## Which section makes which change -/

/-- What a change says about the section that makes it. -/
def Makes (node : Node σ) (taken : Section) : Change σ → Prop
  | .nothing => True
  | .refuse _ => (∃ req, taken = .installSnapshot req) ∨ ∃ req, taken = .installSnapshotChunk req
  | .push term _ _ => term = node.currentTerm
  | .merge entries leaderCommit => ∃ req, taken = .appendEntries req ∧ entries = req.entries ∧
      leaderCommit = req.leaderCommit ∧ node.refuses req = false ∧
      (node.log.appendEntries entries).2 = true
  | .gap entries => ∃ req, taken = .appendEntries req ∧ entries = req.entries ∧
      node.refuses req = false ∧ (node.log.appendEntries entries).2 = false
  | .commit index => taken = .leader .advanceCommitIndex ∧ index = node.advanceCommit.commitIndex
  | .install index term image _ => image ≠ [] ∧
      ((∃ req, taken = .installSnapshot req ∧ index = req.lastIncludedIndex ∧
          term = req.lastIncludedTerm ∧ node.lastApplied < index) ∨
        ∃ req, taken = .installSnapshotChunk req ∧ index = req.lastIncludedIndex ∧
          term = req.lastIncludedTerm)
  | .compact data => data ≠ [] ∧ node.lastSnapshotIndex < node.lastApplied ∧
      machine.map (fun machine => machine.takeSnapshot node.machineState) = some data

theorem makes_triggerChange {saved : Bool} {node : Node σ} {taken : Section} :
    taken.Makes machine node (node.triggerChange machine saved) := by
  unfold triggerChange
  dsimp only
  split
  · trivial
  rename_i fresh
  simp only [not_or, not_le] at fresh
  refine ⟨fresh.2.1, fresh.1, ?_⟩
  cases machine with
  | none => exact absurd rfl fresh.2.1
  | some _ => rfl

/-- A complete image is not empty, since its last chunk is not. -/
theorem full_nonempty {staging : SnapshotStaging} (nonempty : req.data ≠ [])
    (staged : staging.stageChunk req = .full image) :
    image ≠ [] := by
  unfold SnapshotStaging.stageChunk at staged
  dsimp only at staged
  split at staged
  · cases staged
  split at staged
  · cases staged
  · rw [SnapshotStaging.Outcome.full.injEq] at staged
    rw [← staged]
    simp [nonempty]

/-- Every section makes one of the changes, with what it says. -/
theorem makes_change (node : Node σ) (taken : Section) :
    taken.Makes machine node (taken.change machine node) := by
  cases taken with
  | electionTimeout | stepDown _ | requestVote _ | stop => trivial
  | winElection =>
    rw [change]
    split
    · exact rfl
    · trivial
  | appendEntries req =>
    rw [change]
    cases refused : node.refuses req with
    | true => trivial
    | false =>
      cases merged : (node.log.appendEntries req.entries).2 with
      | false => exact ⟨req, rfl, rfl, refused, merged⟩
      | true => exact ⟨req, rfl, rfl, rfl, refused, merged⟩
  | installSnapshot req =>
    rw [change]
    split
    · trivial
    rename_i fresh
    simp only [not_or, not_le] at fresh
    unfold imageChange
    dsimp only
    split
    · exact ⟨fresh.2.1, .inl ⟨req, rfl, rfl, rfl, fresh.2.2⟩⟩
    · exact .inl ⟨req, rfl⟩
  | installSnapshotChunk req =>
    rw [change]
    split
    · trivial
    rename_i fresh
    simp only [not_or, Bool.not_eq_false] at fresh
    split
    · rename_i staged
      have nonempty : req.data ≠ [] := by
        have admitted := fresh.2
        simp only [chunkAdmitted, Bool.and_eq_true, decide_eq_true_eq] at admitted
        exact admitted.1.1.1
      unfold imageChange
      dsimp only
      split
      · exact ⟨full_nonempty nonempty staged, .inr ⟨req, rfl, rfl, rfl⟩⟩
      · exact .inr ⟨req, rfl⟩
    · trivial
  | leader action =>
    cases action with
    | propose _ | addPeer _ | removePeer _ =>
      rw [change]
      split
      · exact rfl
      · trivial
    | advanceCommitIndex => exact ⟨rfl, rfl⟩
    | triggerSnapshot _ => exact makes_triggerChange machine
    | checkAndCompactLog _ =>
      rw [change]
      split
      · exact makes_triggerChange machine
      · trivial
    | appendReply _ _ _ | snapshotReply _ _ _
    | chunkRound _ _ _ _ _ | chunkReply _ _ _ => trivial

/-! ## Requests of leaders -/

/-- An AppendEntries request is one that `ReplicateLog` builds. -/
def Genuine (σ : Type) : Section → Prop
  | .appendEntries req => ∃ (leader : Node σ) (peer : Nat) (isHeartbeat : Bool) (commit : Nat),
      leader.appendRequest peer isHeartbeat commit = some req
  | _ => True

/-- Its entries follow `prev_log_index` without a gap. -/
theorem Genuine.contiguous (genuine : Genuine σ (.appendEntries req)) :
    RaftLog.Contiguous (req.prevLogIndex + 1) req.entries := by
  obtain ⟨leader, peer, _, _, built⟩ := genuine
  unfold appendRequest at built
  dsimp only at built
  split at built
  · cases built
  rw [← Option.some.inj built]
  have next : leader.nextIndex.getD peer 0 - 1 + 1 = leader.nextIndex.getD peer 0 := by omega
  rw [next]
  split
  · intro _ _ found
    cases found
  · exact RaftLog.contiguous_slice

end Section

namespace RaftLog

theorem base_appendEntry {log merged : RaftLog}
    (accepted : log.appendEntry entry = some merged) : merged.base = log.base := by
  rcases appendEntry_cases accepted with ⟨rfl, _⟩ | ⟨_, _, rfl, _⟩
  · rfl
  · rfl

@[simp] theorem base_appendEntries (log : RaftLog) (slice : List RaftLogEntry) :
    (log.appendEntries slice).1.base = log.base := by
  induction slice generalizing log with
  | nil => rfl
  | cons entry _ ih =>
    rw [appendEntries]
    cases accepted : log.appendEntry entry with
    | none => rfl
    | some merged => exact (ih merged).trans (base_appendEntry accepted)

/-- What is merged in front of a gap is merged without it. -/
theorem appendEntries_front (log : RaftLog) (slice : List RaftLogEntry) :
    ∃ front, (∀ entry ∈ front, entry ∈ slice) ∧
      log.appendEntries front = ((log.appendEntries slice).1, true) := by
  induction slice generalizing log with
  | nil => exact ⟨[], fun _ member => member, rfl⟩
  | cons entry _ ih =>
    cases accepted : log.appendEntry entry with
    | none =>
      refine ⟨[], nofun, ?_⟩
      rw [appendEntries, appendEntries, accepted]
    | some merged =>
      obtain ⟨front, within, same⟩ := ih merged
      refine ⟨entry :: front, ?_, ?_⟩
      · intro other member
        rcases List.mem_cons.mp member with rfl | member
        · exact List.mem_cons_self
        · exact List.mem_cons_of_mem _ (within other member)
      · rw [appendEntries, appendEntries, accepted]
        exact same

/-- A kept index holds its entry after the merge, also in front of a gap. -/
theorem Keeps.merged {log : RaftLog} {slice : List RaftLogEntry} {index : Nat}
    (keeps : log.Keeps slice index) :
    index ≤ (log.appendEntries slice).1.lastLogIndex ∧
      (log.appendEntries slice).1.entryAt index = log.entryAt index := by
  obtain ⟨front, within, same⟩ := appendEntries_front log slice
  have exact := appendEntries_exact log (congrArg Prod.snd same) index
  rw [same] at exact
  exact exact.1 ⟨keeps.1, fun entry member => keeps.2 entry (within entry member)⟩

/-- A slice behind an index that the log holds leaves the entry there alone. -/
theorem keeps_of_contiguous {log : RaftLog} {slice : List RaftLogEntry}
    (contiguous : Contiguous start slice) (before : index < start)
    (within : index ≤ log.lastLogIndex) : log.Keeps slice index := by
  refine ⟨within, ?_⟩
  intro _ member _
  exact absurd (contiguous.index_bounds member).1 (by omega)

end RaftLog

end LightKV.Raft
