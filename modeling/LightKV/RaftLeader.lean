import LightKV.RaftSnapshot

/-!
# The sections of a leader

The locked sections a leader runs: proposals and membership entries, the answers of
`ReplicateLog` and `SendSnapshotToFollower`, commit advancement, and compaction. The
answers of the peers are arbitrary here.
-/

namespace LightKV.Raft

namespace Node

variable {σ : Type}

/-- `Propose`: the index of the new entry, or `none` for the `-1` of a non-leader. -/
def propose (node : Node σ) (data : Bytes) : Node σ × Option Nat :=
  if node.role ≠ .leader then (node, none)
  else
    let log := node.log.push node.currentTerm .command data
    (savePersistentState { node with log := log }, some log.lastLogIndex)

/-- The shared body of `AddPeer` and `RemovePeer`. -/
def proposeConfChange (node : Node σ) (data : Bytes) : Node σ × Bool :=
  if node.role ≠ .leader then (node, false)
  else
    (savePersistentState { node with log := node.log.push node.currentTerm .confChange data }, true)

/-- The bytes of a text. -/
def textBytes (text : String) : Bytes := text.toUTF8.toList

/-- `AddPeer`. -/
def addPeer (node : Node σ) (peer : Nat) : Node σ × Bool :=
  node.proposeConfChange (textBytes ("ADD|" ++ toString peer))

/-- `RemovePeer`. -/
def removePeer (node : Node σ) (peer : Nat) : Node σ × Bool :=
  node.proposeConfChange (textBytes ("REM|" ++ toString peer))

/-- The sections of a leader, with what they take from outside. -/
inductive LeaderAction where
  | propose (data : Bytes)
  | addPeer (peer : Nat)
  | removePeer (peer : Nat)
  | appendReply (peer : Nat) (req : AppendEntriesRequest) (resp : AppendEntriesResponse)
  | advanceCommitIndex
  | triggerSnapshot (saved : Bool)
  | checkAndCompactLog (saved : Bool)
  | snapshotReply (follower : Nat) (req : InstallSnapshotRequest) (resp : InstallSnapshotResponse)
  | chunkRound (follower term snapIndex snapTerm : Nat) (data : Bytes)
  | chunkReply (follower : Nat) (req : InstallSnapshotChunkRequest)
      (resp : InstallSnapshotChunkResponse)

/-- One section. -/
def leaderStep (machine : Option (StateMachine σ)) (node : Node σ) : LeaderAction → Node σ
  | .propose data => (node.propose data).1
  | .addPeer peer => (node.addPeer peer).1
  | .removePeer peer => (node.removePeer peer).1
  | .appendReply peer req resp => node.onAppendReply peer req resp
  | .advanceCommitIndex => node.advanceCommitIndex machine
  | .triggerSnapshot saved => (node.triggerSnapshot machine saved).1
  | .checkAndCompactLog saved => node.checkAndCompactLog machine saved
  | .snapshotReply follower req resp => node.onSnapshotReply follower req resp
  | .chunkRound follower term snapIndex snapTerm data =>
      (node.chunkRequest follower term snapIndex snapTerm data).1
  | .chunkReply follower req resp => node.onChunkReply follower req resp

/-! ## What the answers of the peers change -/

/-- Nothing but the notes about the peers changes. -/
def Tracks (node after : Node σ) : Prop :=
  ∃ next matched sends,
    after = { node with nextIndex := next, matchIndex := matched, snapshotSends := sends }

/-- An answer of term `term` makes a leader step down or change its notes, unless the call that it
belongs to has ended. -/
def Answered (node : Node σ) (ended : Prop) [Decidable ended] (term : Nat) (after : Node σ) :
    Prop :=
  ∃ noted, Tracks node noted ∧
    after = if ended then node
      else if node.currentTerm < term then node.becomeFollower term else noted

variable (node : Node σ)

theorem Tracks.refl : Tracks node node := ⟨_, _, _, rfl⟩

theorem markInstalled_tracks : Tracks node (node.markInstalled follower snapIndex) := by
  unfold markInstalled
  split
  · exact ⟨_, _, _, rfl⟩
  · exact ⟨_, _, _, rfl⟩

theorem chunkRequest_tracks (follower term snapIndex snapTerm : Nat) (data : Bytes) :
    Tracks node (node.chunkRequest follower term snapIndex snapTerm data).1 := by
  unfold chunkRequest
  split
  · exact .refl node
  dsimp only
  split
  · obtain ⟨next, matched, sends, installed⟩ := markInstalled_tracks (node.setProgress follower
      (node.sendProgress follower snapIndex snapTerm data.length))
    exact ⟨next, matched, sends, installed⟩
  · exact ⟨_, _, _, rfl⟩

/-- An answer to `AppendEntries` is noted for the peer. -/
theorem onAppendReply_answered :
    Answered node (node.role ≠ .leader ∨ node.currentTerm ≠ req.term) resp.term
      (node.onAppendReply peer req resp) := by
  refine ⟨_, ?_, rfl⟩
  split
  · split
    · exact .refl node
    · exact ⟨_, _, _, rfl⟩
  · exact ⟨_, _, _, rfl⟩

theorem onSnapshotReply_answered :
    Answered node (node.role ≠ .leader) resp.term (node.onSnapshotReply follower req resp) := by
  refine ⟨_, ?_, rfl⟩
  split
  · exact .refl node
  · exact markInstalled_tracks node

theorem onChunkReply_answered :
    Answered node (node.role ≠ .leader) resp.term (node.onChunkReply follower req resp) := by
  refine ⟨_, ?_, rfl⟩
  split
  · exact ⟨_, _, _, rfl⟩
  split
  · exact ⟨_, _, _, rfl⟩
  · split
    · exact .refl node
    · exact ⟨_, _, _, rfl⟩

end Node

end LightKV.Raft
