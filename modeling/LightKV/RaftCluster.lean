import LightKV.RaftLeader
import LightKV.Runs
import Mathlib.Logic.Function.Basic

/-!
# A cluster of Raft nodes

The nodes share one peer list and run the sections of the node model in any order.
Every request ever sent stays available, so it can be lost, delayed, reordered or
delivered many times. The answer to a vote request is either the failure default or
one the addressed peer really gave to that request; the answers to the other calls
are left arbitrary. A crash keeps the two files of a node and nothing else.

An election is cut at its RPCs, since `StartElection` releases the lock there:
`Election` is what the method keeps in local variables while it waits. `ballots` is
not part of the program. It records every vote ever given, and no step reads it.
-/

namespace LightKV.Raft

/-- A request on the network. -/
inductive Message where
  | requestVote (req : RequestVoteRequest)
  | appendEntries (req : AppendEntriesRequest)
  | installSnapshot (req : InstallSnapshotRequest)
  | installSnapshotChunk (req : InstallSnapshotChunkRequest)
  deriving DecidableEq, Repr

/-- The local state of `StartElection` while it waits for the peer at position `pos`. -/
structure Election where
  req : RequestVoteRequest
  votes : Nat
  pos : Nat
  deriving DecidableEq, Repr

/-- One vote: `voter` gave its vote of `term` to `candidate`. -/
structure Ballot where
  voter : Nat
  term : Nat
  candidate : Nat
  deriving DecidableEq, Repr

/-- The answer of a peer to a vote request. -/
structure VoteReply where
  peer : Nat
  req : RequestVoteRequest
  resp : RequestVoteResponse
  deriving DecidableEq, Repr

/-- The state of the whole system. -/
structure Cluster (σ : Type) where
  peers : List RaftPeer
  nodes : Nat → Node σ
  elections : Nat → Option Election
  sent : List (Nat × Message)
  replies : List VoteReply
  ballots : List Ballot

namespace Cluster

variable {σ : Type} (cluster : Cluster σ)

/-- All nodes freshly constructed. `limits` supplies the options other than the node
id and the peer list. -/
def initial (peers : List RaftPeer) (limits : Nat → RaftOptions) (state : Nat → σ) : Cluster σ where
  peers := peers
  nodes id :=
    { opts := { limits id with nodeId := id, peers := peers }
      machineState := state id }
  elections _ := none
  sent := []
  replies := []
  ballots := []

/-- `Initialize` refuses a node id that is zero or not in the peer list. -/
def runs (id : Nat) : Bool :=
  id ≠ 0 && cluster.peers.any fun peer => peer.id == id

/-- Replace the state of one node. -/
def setNode (id : Nat) (node : Node σ) : Cluster σ :=
  { cluster with nodes := Function.update cluster.nodes id node }

/-- Replace the election state of one node. -/
def setElection (id : Nat) (election : Option Election) : Cluster σ :=
  { cluster with elections := Function.update cluster.elections id election }

/-- Put a request on the network. -/
def send (target : Nat) (message : Message) : Cluster σ :=
  { cluster with sent := (target, message) :: cluster.sent }

/-- Record a vote. -/
def castBallot (ballot : Ballot) : Cluster σ :=
  { cluster with ballots := ballot :: cluster.ballots }

/-- The first position from `pos` on whose peer `StartElection` asks: another voter. -/
def nextVoter (peers : List RaftPeer) (self pos : Nat) : Option Nat :=
  ((peers.drop pos).findIdx? fun peer => peer.id ≠ self && peer.isVoter).map (pos + ·)

/-- The loop of `StartElection` from position `pos` on, up to the next call or to the
tally after the loop. -/
def continueElection (id : Nat) (election : Election) (pos : Nat) : Cluster σ :=
  match nextVoter cluster.peers id pos with
  | some next =>
      let peer := (cluster.peers[next]?.map (·.id)).getD 0
      (cluster.setElection id (some { election with pos := next })).send peer
        (.requestVote election.req)
  | none =>
      if Node.electionMajority (cluster.nodes id).opts ≤ election.votes then
        (cluster.setNode id (cluster.nodes id).becomeLeader).setElection id none
      else cluster.setElection id none

/-- `BecomeCandidate`, with the vote the candidate gives itself. -/
def campaign (id : Nat) : Cluster σ :=
  (cluster.setNode id (cluster.nodes id).becomeCandidate).castBallot
    { voter := id, term := (cluster.nodes id).currentTerm + 1, candidate := id }

/-- `HandleElectionTimeout`: become a candidate and start asking for votes. -/
def electionTimeout (id : Nat) : Cluster σ :=
  (cluster.campaign id).continueElection id
    { req := (cluster.nodes id).becomeCandidate.voteRequest, votes := 1, pos := 0 } 0

/-- What `StartElection` does with the answer of the peer it waits for. -/
def onVoteReply (id : Nat) (election : Election) (resp : RequestVoteResponse) : Cluster σ :=
  let node := cluster.nodes id
  if node.role ≠ .candidate ∨ node.currentTerm ≠ election.req.term then
    cluster.setElection id none
  else if node.currentTerm < resp.term then
    (cluster.setNode id (node.becomeFollower resp.term)).setElection id none
  else if resp.voteGranted then
    let counted := { election with votes := election.votes + 1 }
    if Node.electionMajority node.opts ≤ counted.votes then
      (cluster.setNode id node.becomeLeader).setElection id none
    else cluster.continueElection id counted (election.pos + 1)
  else cluster.continueElection id election (election.pos + 1)

/-- A vote request reaches a node; a granted vote is recorded as a ballot. -/
def deliverVote (target : Nat) (req : RequestVoteRequest) : Cluster σ :=
  let result := (cluster.nodes target).handleRequestVote req
  let answered : Cluster σ :=
    { cluster.setNode target result.1 with
      replies := ⟨target, req, result.2⟩ :: cluster.replies }
  if result.2.voteGranted then
    answered.castBallot { voter := target, term := req.term, candidate := req.candidateId }
  else answered

/-- A request reaches a node. -/
def deliver (machine : Option (StateMachine σ)) (cluster : Cluster σ) (target : Nat) :
    Message → Cluster σ
  | .requestVote req => cluster.deliverVote target req
  | .appendEntries req =>
      cluster.setNode target (Node.handleAppendEntries machine (cluster.nodes target) req).1
  | .installSnapshot req =>
      cluster.setNode target (Node.handleInstallSnapshot machine (cluster.nodes target) req).1
  | .installSnapshotChunk req =>
      cluster.setNode target
        (Node.handleInstallSnapshotChunk machine (cluster.nodes target) req).node

/-- What can happen next. -/
inductive Action where
  | electionTimeout (id : Nat)
  | voteReply (id : Nat) (resp : RequestVoteResponse)
  | deliver (target : Nat) (message : Message)
  | leader (id : Nat) (action : Node.LeaderAction)
  | sendAppend (id peer : Nat) (isHeartbeat : Bool) (leaderCommit : Nat)
  | sendSnapshot (id target : Nat)
  | sendChunk (id target term snapIndex snapTerm : Nat) (data : Bytes)
  | crash (id : Nat)

/-- The answer may be given to the waiting election: the default of a failed call, or
an answer of that peer to that request. -/
def answers (election : Election) (resp : RequestVoteResponse) : Bool :=
  resp = {} ||
    decide (({ peer := (cluster.peers[election.pos]?.map (·.id)).getD 0
               req := election.req
               resp := resp } : VoteReply) ∈ cluster.replies)

/-- `ReplicateLog` serves the other voters. -/
def replicatesTo (id target : Nat) : Bool :=
  target ≠ id && cluster.peers.any fun peer => peer.id == target && peer.isVoter

/-- One step. An action that is not possible in the state changes nothing. -/
def step (machine : Option (StateMachine σ)) (cluster : Cluster σ) : Action → Cluster σ
  | .electionTimeout id =>
      if cluster.runs id && decide ((cluster.nodes id).role ≠ .leader) &&
          (cluster.elections id).isNone then
        cluster.electionTimeout id
      else cluster
  | .voteReply id resp =>
      match cluster.elections id with
      | none => cluster
      | some election =>
          if cluster.answers election resp then cluster.onVoteReply id election resp
          else cluster
  | .deliver target message =>
      if cluster.runs target && decide ((target, message) ∈ cluster.sent) then
        cluster.deliver machine target message
      else cluster
  | .leader id action =>
      if cluster.runs id then
        cluster.setNode id (Node.leaderStep machine (cluster.nodes id) action)
      else cluster
  | .sendAppend id peer isHeartbeat leaderCommit =>
      let target := (cluster.peers[peer]?.map (·.id)).getD 0
      if cluster.runs id && decide ((cluster.nodes id).role = .leader) &&
          cluster.replicatesTo id target &&
          decide (leaderCommit ≤ (cluster.nodes id).commitIndex) then
        match (cluster.nodes id).appendRequest peer isHeartbeat leaderCommit with
        | none => cluster
        | some req => cluster.send target (.appendEntries req)
      else cluster
  | .sendSnapshot id target =>
      if cluster.runs id && cluster.replicatesTo id target then
        match (cluster.nodes id).snapshotRequest with
        | none => cluster
        | some req => cluster.send target (.installSnapshot req)
      else cluster
  | .sendChunk id target term snapIndex snapTerm data =>
      if cluster.runs id && cluster.replicatesTo id target then
        let result := (cluster.nodes id).chunkRequest target term snapIndex snapTerm data
        match result.2 with
        | none => cluster.setNode id result.1
        | some req => (cluster.setNode id result.1).send target (.installSnapshotChunk req)
      else cluster
  | .crash id => (cluster.setNode id (cluster.nodes id).restart).setElection id none

/-- A run: any sequence of actions. -/
abbrev run (machine : Option (StateMachine σ)) (cluster : Cluster σ) (actions : List Action) :
    Cluster σ :=
  Runs.run (step machine) cluster actions

end Cluster

end LightKV.Raft
