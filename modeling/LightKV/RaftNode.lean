import Mathlib.Logic.Function.Iterate
import LightKV.RaftLog

/-!
# One Raft node

The state of `Raft` and the sections of its methods that run while `mu_` is held.
A method that releases the lock around an RPC is cut there: what it does before the
call and what it does with the answer are two functions, and the answer is an
argument. Timers, threads, sockets and the result slots of `ProposeSync` are
outside this model; the state machine is a parameter, and may be absent, as the
source allows a null `state_machine_`.

The state file and the snapshot file are part of the node, since a restart reads
them back. Their byte formats are not modelled: what is saved is what is loaded.
-/

namespace LightKV.Raft

/-- `RaftRole`. -/
inductive RaftRole where
  | follower
  | candidate
  | leader
  deriving DecidableEq, Repr

/-- `RaftPeer`, without its network address. -/
structure RaftPeer where
  id : Nat
  isVoter : Bool := true
  deriving DecidableEq, Repr

/-- The fields of `RaftOptions` that the modelled methods read. -/
structure RaftOptions where
  nodeId : Nat
  peers : List RaftPeer
  maxLogEntriesPerAppend : Nat := 100
  snapshotChunkSize : Nat := 256 * 1024
  snapshotSendBudget : Nat := 1024 * 1024
  maxSnapshotSize : Nat := 256 * 1024 * 1024
  deriving DecidableEq, Repr

/-- The options of one of three voters. -/
def RaftOptions.ofThree (nodeId : Nat) : RaftOptions where
  nodeId := nodeId
  peers := [{ id := 1 }, { id := 2 }, { id := 3 }]

/-- `RaftStateMachine`. `Apply` and `ApplySnapshot` may change its state also when
the latter reports a failure. -/
structure StateMachine (σ : Type) where
  apply : Bytes → σ → σ
  takeSnapshot : σ → Bytes
  applySnapshot : Bytes → σ → Status × σ
  /-- `Apply` before `SetServer` has given the adapter its server. -/
  applyUnserved : Bytes → σ → σ := apply

/-- A state machine whose image is its state. -/
def imageMachine : StateMachine Bytes where
  apply data state := state ++ data
  takeSnapshot state := state
  applySnapshot image _ := (.ok, image)

/-! ## Messages -/

/-- `RequestVoteRequest`. -/
structure RequestVoteRequest where
  term : Nat
  candidateId : Nat
  lastLogIndex : Nat
  lastLogTerm : Nat
  deriving DecidableEq, Repr

/-- `RequestVoteResponse`; the default is what a failed call returns. -/
structure RequestVoteResponse where
  term : Nat := 0
  voteGranted : Bool := false
  deriving DecidableEq, Repr

/-- `AppendEntriesRequest`. -/
structure AppendEntriesRequest where
  term : Nat
  leaderId : Nat
  prevLogIndex : Nat
  prevLogTerm : Nat
  entries : List RaftLogEntry
  leaderCommit : Nat
  deriving DecidableEq, Repr

/-- `AppendEntriesResponse`. -/
structure AppendEntriesResponse where
  term : Nat := 0
  success : Bool := false
  conflictTerm : Nat := 0
  conflictIndex : Nat := 0
  deriving DecidableEq, Repr

/-- `InstallSnapshotRequest`. -/
structure InstallSnapshotRequest where
  term : Nat
  leaderId : Nat
  lastIncludedIndex : Nat
  lastIncludedTerm : Nat
  data : Bytes
  deriving DecidableEq, Repr

/-- `InstallSnapshotResponse`. -/
structure InstallSnapshotResponse where
  term : Nat := 0
  success : Bool := false
  deriving DecidableEq, Repr

/-- `InstallSnapshotChunkRequest`. -/
structure InstallSnapshotChunkRequest where
  term : Nat
  leaderId : Nat
  lastIncludedIndex : Nat
  lastIncludedTerm : Nat
  chunkOffset : Nat
  totalSize : Nat
  isLast : Bool
  data : Bytes
  deriving DecidableEq, Repr

/-- `InstallSnapshotChunkResponse`. -/
structure InstallSnapshotChunkResponse where
  term : Nat := 0
  acceptedLen : Nat := 0
  complete : Bool := false
  rejected : Bool := false
  deriving DecidableEq, Repr

/-! ## State -/

/-- The content of `raft_state.dat`. -/
structure PersistentState where
  currentTerm : Nat
  votedFor : Nat
  lastSnapshotIndex : Nat
  lastSnapshotTerm : Nat
  log : RaftLog
  deriving DecidableEq

/-- The content of `raft_snapshot.dat`. The length field has 32 bits. -/
structure SnapshotFile where
  index : Nat
  term : Nat
  dataLen : Nat
  data : Bytes
  deriving DecidableEq, Repr

/-- `SnapshotStaging`: the follower's buffer for a chunked snapshot. -/
structure SnapshotStaging where
  active : Bool := false
  term : Nat := 0
  leaderId : Nat := 0
  lastIncludedIndex : Nat := 0
  lastIncludedTerm : Nat := 0
  expectedSize : Nat := 0
  buffer : Bytes := []
  deriving DecidableEq, Repr

/-- `SnapshotSendState`: the leader's progress towards one peer. -/
structure SnapshotSendState where
  lastIncludedIndex : Nat := 0
  lastIncludedTerm : Nat := 0
  totalSize : Nat := 0
  sent : Nat := 0
  deriving DecidableEq, Repr

/-- The fields of `Raft` that its methods read and write, with the two files. -/
structure Node (σ : Type) where
  opts : RaftOptions
  currentTerm : Nat := 0
  votedFor : Nat := 0
  log : RaftLog := .initial
  commitIndex : Nat := 0
  lastApplied : Nat := 0
  nextIndex : List Nat := List.replicate opts.peers.length 1
  matchIndex : List Nat := List.replicate opts.peers.length 0
  role : RaftRole := .follower
  leaderId : Nat := 0
  lastSnapshotIndex : Nat := 0
  lastSnapshotTerm : Nat := 0
  snapshotData : Bytes := []
  snapshotThreshold : Nat := 10000
  staging : SnapshotStaging := {}
  snapshotSends : List (Nat × SnapshotSendState) := []
  machineState : σ
  stateFile : Option PersistentState := none
  snapshotFile : Option SnapshotFile := none

namespace Node

variable {σ : Type} (node : Node σ)

/-! ## Persistence -/

/-- `SavePersistentState`, when the write succeeds. -/
def savePersistentState : Node σ :=
  { node with
    stateFile := some
      { currentTerm := node.currentTerm
        votedFor := node.votedFor
        lastSnapshotIndex := node.lastSnapshotIndex
        lastSnapshotTerm := node.lastSnapshotTerm
        log := node.log } }

/-- `SaveSnapshotData`, when the write succeeds. An empty payload is not written. -/
def saveSnapshotData : Node σ :=
  if node.snapshotData = [] then node
  else
    { node with
      snapshotFile := some
        { index := node.lastSnapshotIndex
          term := node.lastSnapshotTerm
          dataLen := node.snapshotData.length % 2 ^ 32
          data := node.snapshotData } }

/-- `LoadSnapshotData`: the payload is adopted only if it matches the loaded log. -/
def loadSnapshotData : Node σ :=
  match node.snapshotFile with
  | none => node
  | some file =>
      if file.dataLen = 0 ∨ file.dataLen ≠ file.data.length then node
      else if file.index < node.log.base ∨ node.log.lastLogIndex < file.index ∨
          node.log.getTermForIndex file.index ≠ file.term then node
      else
        { node with
          snapshotData := file.data
          lastSnapshotIndex := file.index
          lastSnapshotTerm := file.term }

/-- The constructor followed by `LoadPersistentState`: what is left of a node after
its process is killed and started again. -/
def restart : Node σ :=
  let fresh : Node σ :=
    { opts := node.opts
      machineState := node.machineState
      stateFile := node.stateFile
      snapshotFile := node.snapshotFile }
  match node.stateFile with
  | none => fresh
  | some file =>
      loadSnapshotData
        { fresh with
          currentTerm := file.currentTerm
          votedFor := file.votedFor
          log := file.log }

/-! ## Roles -/

/-- `BecomeFollower`. The vote is cleared also when `term` is the current term. -/
def becomeFollower (term : Nat) : Node σ :=
  savePersistentState { node with currentTerm := term, role := .follower, votedFor := 0 }

/-- The handlers other than `HandleAppendEntries` step down only for a later term. -/
def observeTerm (term : Nat) : Node σ :=
  if node.currentTerm < term then node.becomeFollower term else node

/-- `BecomeCandidate`. -/
def becomeCandidate : Node σ :=
  savePersistentState
    { node with
      currentTerm := node.currentTerm + 1
      role := .candidate
      votedFor := node.opts.nodeId
      leaderId := 0 }

/-- `BecomeLeader`. The new leader appends a no-op of its own term. -/
def becomeLeader : Node σ :=
  let lastLogIndex := node.log.lastLogIndex
  savePersistentState
    { node with
      role := .leader
      leaderId := node.opts.nodeId
      nextIndex := List.zipWith
        (fun peer next => if peer.id ≠ node.opts.nodeId then lastLogIndex + 1 else next)
        node.opts.peers node.nextIndex
      matchIndex := node.opts.peers.map
        (fun peer => if peer.id ≠ node.opts.nodeId then 0 else lastLogIndex)
      log := node.log.push node.currentTerm .noOp [] }

/-! ## Elections -/

/-- The majority that `StartElection` asks for: more than half of the voters. -/
def electionMajority (opts : RaftOptions) : Nat :=
  (opts.peers.filter (·.isVoter)).length / 2 + 1

/-- The request `StartElection` sends to every other voter. -/
def voteRequest : RequestVoteRequest where
  term := node.currentTerm
  candidateId := node.opts.nodeId
  lastLogIndex := node.log.lastLogIndex
  lastLogTerm := node.log.lastLogTerm

/-- The election restriction of `HandleRequestVote`. -/
def logUpToDate (req : RequestVoteRequest) : Bool :=
  decide (node.log.lastLogTerm < req.lastLogTerm) ||
    (decide (req.lastLogTerm = node.log.lastLogTerm) &&
      decide (node.log.lastLogIndex ≤ req.lastLogIndex))

/-- `HandleRequestVote`. The answer carries the term from before the request. -/
def handleRequestVote (req : RequestVoteRequest) : Node σ × RequestVoteResponse :=
  if req.term < node.currentTerm then (node, { term := node.currentTerm })
  else
    let observed := node.observeTerm req.term
    if observed.votedFor ≠ 0 ∧ observed.votedFor ≠ req.candidateId then
      (observed, { term := node.currentTerm })
    else if observed.logUpToDate req = false then (observed, { term := node.currentTerm })
    else
      (savePersistentState { observed with votedFor := req.candidateId },
        { term := node.currentTerm, voteGranted := true })

/-! ## Applying and committing -/

/-- One round of the loop of `ApplyCommitted`. An index the log no longer holds is
skipped; only commands reach the state machine. -/
def applyNext (machine : Option (StateMachine σ)) (node : Node σ) : Node σ :=
  let next := node.lastApplied + 1
  match node.log.entryAt next, machine with
  | some entry, some machine =>
      if entry.type = .command then
        { node with
          lastApplied := next
          machineState := machine.apply entry.data node.machineState }
      else { node with lastApplied := next }
  | _, _ => { node with lastApplied := next }

/-- `ApplyCommitted`: the loop runs while `last_applied_ < commit_index_`. -/
def applyCommitted (machine : Option (StateMachine σ)) (node : Node σ) : Node σ :=
  Nat.iterate (applyNext machine) (node.commitIndex - node.lastApplied) node

/-- The voters other than this node whose `match_index_` has reached `index`, and
the node itself. -/
def replicatedCount (index : Nat) : Nat :=
  1 + ((node.opts.peers.zip node.matchIndex).filter fun (peer, matched) =>
    peer.id ≠ node.opts.nodeId && peer.isVoter && decide (index ≤ matched)).length

/-- The majority that `AdvanceCommitIndex` asks for. A node that is missing from
its own peer list still counts itself. -/
def commitMajority (opts : RaftOptions) : Nat :=
  let listed := (opts.peers.filter (·.isVoter)).length
  let selfCounted := opts.peers.any fun peer => peer.isVoter && peer.id == opts.nodeId
  let voters := if selfCounted then listed else listed + 1
  let voters := if voters = 0 then 1 else voters
  voters / 2 + 1

/-- The loop of `AdvanceCommitIndex` over `count` indices from `index` on. -/
def advanceLoop (node : Node σ) : Nat → Nat → Nat → Nat
  | 0, _, commit => commit
  | count + 1, index, commit =>
      match node.log.entryAt index with
      | none => advanceLoop node count (index + 1) commit
      | some entry =>
          if entry.term ≠ node.currentTerm then advanceLoop node count (index + 1) commit
          else if commitMajority node.opts ≤ node.replicatedCount index then
            advanceLoop node count (index + 1) index
          else commit

/-- `AdvanceCommitIndex`. -/
def advanceCommitIndex (machine : Option (StateMachine σ)) (node : Node σ) : Node σ :=
  if node.role ≠ .leader then node
  else
    applyCommitted machine
      { node with
        commitIndex := node.advanceLoop (node.log.lastLogIndex - node.commitIndex)
          (node.commitIndex + 1) node.commitIndex }

/-! ## What the steps leave alone -/

section Frame

variable (machine : Option (StateMachine σ)) (node : Node σ)

/-- Observing a term may make the node a follower, and touches no log, snapshot or
staging state. -/
theorem observeTerm_frame (term : Nat) :
    (node.observeTerm term).log = node.log ∧ (node.observeTerm term).staging = node.staging ∧
      (node.observeTerm term).opts = node.opts ∧
      (node.observeTerm term).lastApplied = node.lastApplied ∧
      (node.observeTerm term).machineState = node.machineState := by
  unfold observeTerm
  split
  · exact ⟨rfl, rfl, rfl, rfl, rfl⟩
  · exact ⟨rfl, rfl, rfl, rfl, rfl⟩

/-- Applying entries changes `last_applied_` and the state machine only. -/
theorem applyNext_frame : ∃ state,
    applyNext machine node =
      { node with lastApplied := node.lastApplied + 1, machineState := state } := by
  unfold applyNext
  dsimp only
  split
  · split
    · exact ⟨_, rfl⟩
    · exact ⟨_, rfl⟩
  · exact ⟨_, rfl⟩

/-- `ApplyCommitted` brings `last_applied_` up to `commit_index_` and changes nothing
else but the state machine. -/
theorem applyCommitted_frame : ∃ state,
    applyCommitted machine node =
      { node with
        lastApplied := max node.lastApplied node.commitIndex
        machineState := state } := by
  have rounds : ∀ (count : Nat) (node : Node σ), ∃ state,
      Nat.iterate (applyNext machine) count node =
        { node with lastApplied := node.lastApplied + count, machineState := state } := by
    intro count
    induction count with
    | zero => exact fun node => ⟨node.machineState, rfl⟩
    | succ count ih =>
      intro node
      obtain ⟨_, applied⟩ := applyNext_frame machine node
      obtain ⟨last, repeated⟩ := ih (applyNext machine node)
      refine ⟨last, ?_⟩
      rw [Function.iterate_succ_apply, repeated, applied]
      simp only [add_assoc, add_comm 1 count]
  obtain ⟨state, applied⟩ := rounds (node.commitIndex - node.lastApplied) node
  refine ⟨state, ?_⟩
  rw [applyCommitted, applied]
  congr 1
  omega

/-- The loop of `AdvanceCommitIndex` never moves down, and not past the indices it looks at. -/
theorem advanceLoop_bounds (count index commit : Nat) (above : commit < index) :
    commit ≤ node.advanceLoop count index commit ∧
      (node.advanceLoop count index commit = commit ∨
        node.advanceLoop count index commit < index + count) := by
  induction count generalizing index commit with
  | zero => exact ⟨le_refl _, .inl rfl⟩
  | succ _ ih =>
    have later := ih (index + 1) commit (by omega)
    have raised := ih (index + 1) index (by omega)
    rw [advanceLoop]
    split
    · omega
    split
    · omega
    · split
      · omega
      · exact ⟨le_refl _, .inl rfl⟩

end Frame

end Node

end LightKV.Raft
