import LightKV.Quorum
import LightKV.RaftCluster
import LightKV.RaftSections

/-!
# Election safety

Two nodes that lead in one term were both elected by majorities of one peer list, so
some node voted for both. A node votes again only for the candidate in `voted_for_`,
and a restart reads that field back; but `HandleAppendEntries` runs `BecomeFollower`
also for its own current term, and that clears the field. A node whose vote was cleared
this way can vote for somebody else in the same term, and a second leader of the term
is then possible: the run at the end of the module elects one.

`VoteStands` is the condition under which it cannot happen. The invariant ties the
ballots of a node to its term and its `voted_for_`, the tally of a running election to
the ballots, and each leader to a majority of ballots.
-/

namespace LightKV.Raft

open Function Option Node Cluster
open List hiding after

namespace Node

variable {σ : Type} (machine : Option (StateMachine σ)) (node : Node σ)

/-! ## What the sections do to term, vote and role -/

/-- The term and vote in the state file. -/
def savedBallot (node : Node σ) : Option (Nat × Nat) :=
  node.stateFile.map fun file => (file.currentTerm, file.votedFor)

/-- The state file holds the current term and vote; a missing file stands for zeros. -/
def Durable (node : Node σ) : Prop :=
  node.savedBallot.getD (0, 0) = (node.currentTerm, node.votedFor)

/-- The section keeps term and vote, and at most gives up a role. What it saved, if
anything, is that term and vote. -/
structure Quiet (before after : Node σ) : Prop where
  opts : after.opts = before.opts
  term : after.currentTerm = before.currentTerm
  vote : after.votedFor = before.votedFor
  role : after.role = before.role ∨ after.role = .follower
  saved : after.savedBallot = before.savedBallot ∨
    after.savedBallot = some (after.currentTerm, after.votedFor)

/-- The section ends as a follower of the same or a later term without a vote. -/
structure StepsDown (before after : Node σ) : Prop where
  opts : after.opts = before.opts
  term : before.currentTerm ≤ after.currentTerm
  vote : after.votedFor = 0
  role : after.role = .follower
  saved : after.savedBallot = some (after.currentTerm, after.votedFor)

/-- What every section but the vote itself does. -/
def Mild (before after : Node σ) : Prop :=
  Quiet before after ∨ StepsDown before after

theorem Quiet.refl : Quiet node node := ⟨rfl, rfl, rfl, .inl rfl, .inl rfl⟩

theorem Quiet.trans (earlier : Quiet first second) (later : Quiet second third) :
    Quiet first third where
  opts := later.opts.trans earlier.opts
  term := later.term.trans earlier.term
  vote := later.vote.trans earlier.vote
  role := by
    rcases later.role with same | down
    · rw [same]
      exact earlier.role
    · exact .inr down
  saved := by
    rcases later.saved with same | fresh
    · rw [same, later.term, later.vote]
      exact earlier.saved
    · exact .inr fresh

theorem Mild.trans_quiet (earlier : Mild first second) (later : Quiet second third) :
    Mild first third := by
  rcases earlier with quiet | down
  · exact .inl (quiet.trans later)
  refine .inr ⟨later.opts.trans down.opts, later.term ▸ down.term, later.vote.trans down.vote,
    ?_, ?_⟩
  · rcases later.role with same | follower
    · exact same.trans down.role
    · exact follower
  · rcases later.saved with same | fresh
    · rw [same, later.term, later.vote]
      exact down.saved
    · exact fresh

/-- What is durable stays durable. -/
theorem Mild.durable (mild : Mild before after) (durable : Durable before) : Durable after := by
  rcases mild with quiet | down
  · unfold Durable at durable ⊢
    rcases quiet.saved with same | fresh
    · rw [same, quiet.term, quiet.vote]
      exact durable
    · rw [fresh]
      rfl
  · unfold Durable
    rw [down.saved]
    rfl

/-- Terms only grow. -/
theorem Mild.term_le (mild : Mild before after) : before.currentTerm ≤ after.currentTerm := by
  rcases mild with quiet | down
  · exact le_of_eq quiet.term.symm
  · exact down.term

theorem Mild.opts_eq (mild : Mild before after) : after.opts = before.opts := by
  rcases mild with quiet | down
  · exact quiet.opts
  · exact down.opts

theorem becomeFollower_stepsDown (later : node.currentTerm ≤ term) :
    StepsDown node (node.becomeFollower term) := ⟨rfl, later, rfl, rfl, rfl⟩

/-- A higher term makes a follower and forgets the vote. -/
theorem observeTerm_mild (term : Nat) : Mild node (node.observeTerm term) := by
  unfold observeTerm
  split
  · rename_i later
    exact .inr (becomeFollower_stepsDown node (le_of_lt later))
  · exact .inl (.refl node)

theorem savePersistentState_quiet : Quiet node node.savePersistentState :=
  ⟨rfl, rfl, rfl, .inl rfl, .inr rfl⟩

theorem saveSnapshotData_quiet : Quiet node node.saveSnapshotData := by
  unfold saveSnapshotData
  split
  · exact .refl node
  · exact ⟨rfl, rfl, rfl, .inl rfl, .inl rfl⟩

theorem applyCommitted_quiet : Quiet node (applyCommitted machine node) := by
  obtain ⟨_, applied⟩ := applyCommitted_frame machine node
  rw [applied]
  exact ⟨rfl, rfl, rfl, .inl rfl, .inl rfl⟩

theorem acceptEntries_mild : Mild node (node.acceptEntries req) := by
  unfold acceptEntries
  by_cases stale : req.term < node.currentTerm
  · rw [if_pos stale]
    exact .inl (.refl node)
  rw [if_neg stale]
  have followed : StepsDown node (node.followLeader req) :=
    ⟨rfl, Nat.le_of_not_lt stale, rfl, rfl, rfl⟩
  have merged : ∀ other : Node σ, Quiet other (other.acceptMerged req) := by
    intro _
    unfold acceptMerged storeEntries raiseCommit
    dsimp only
    repeat' split
    all_goals constructor <;> simp [savedBallot, savePersistentState]
  split
  · exact .inr followed
  · exact Mild.trans_quiet (.inr followed) (merged _)

/-- `AppendEntries` never votes. -/
theorem handleAppendEntries_mild (req : AppendEntriesRequest) :
    Mild node (handleAppendEntries machine node req).1 := by
  rw [handleAppendEntries_eq]
  split
  · exact (acceptEntries_mild node).trans_quiet (applyCommitted_quiet machine _)
  · exact acceptEntries_mild node

theorem applyImage_quiet (image : Bytes) : Quiet node (node.applyImage machine image).1 := by
  cases machine with
  | none => exact .refl node
  | some _ => exact ⟨rfl, rfl, rfl, .inl rfl, .inl rfl⟩

theorem commitInstalledSnapshot_quiet :
    Quiet node (node.commitInstalledSnapshot cutIndex cutTerm data) := by
  refine Quiet.trans ?_ (savePersistentState_quiet _)
  refine Quiet.trans ?_ (saveSnapshotData_quiet _)
  exact ⟨rfl, rfl, rfl, .inl rfl, .inl rfl⟩

theorem takeImage_quiet (index term : Nat) (image : Bytes) :
    Quiet node (node.takeImage machine index term image) := by
  have applied := applyImage_quiet machine node image
  unfold takeImage
  split
  · exact applied
  · exact applied.trans (commitInstalledSnapshot_quiet _)

/-- `InstallSnapshot` never votes. -/
theorem handleInstallSnapshot_mild : Mild node (handleInstallSnapshot machine node req).1 := by
  have observed : Mild node (node.observeLeader req.term req.leaderId) :=
    (observeTerm_mild node req.term).trans_quiet ⟨rfl, rfl, rfl, .inl rfl, .inl rfl⟩
  rcases handleInstallSnapshot_cases machine node req with ⟨_, same⟩ | ⟨_, ⟨_, same⟩ | ⟨_, same⟩⟩
  · rw [same]
    exact .inl (.refl node)
  · exact same ▸ observed
  · exact same ▸ observed.trans_quiet (takeImage_quiet machine _ _ _ _)

theorem handleInstallSnapshotChunk_mild (req : InstallSnapshotChunkRequest) :
    Mild node (handleInstallSnapshotChunk machine node req).node := by
  have observed := observeTerm_mild node req.term
  rcases handleInstallSnapshotChunk_cases machine node req with
    ⟨_, same⟩ | ⟨_, ⟨_, same⟩ | ⟨_, ⟨_, same⟩ | ⟨_, _, same⟩ | ⟨image, _, same⟩⟩⟩
  · rw [same]
    exact .inl (.refl node)
  · exact same ▸ observed
  · exact same ▸ observed.trans_quiet ⟨rfl, rfl, rfl, .inl rfl, .inl rfl⟩
  · exact same ▸ observed.trans_quiet ⟨rfl, rfl, rfl, .inl rfl, .inl rfl⟩
  · rw [same, installImage_node]
    refine observed.trans_quiet (Quiet.trans ?_ (takeImage_quiet machine _ _ _ image))
    exact ⟨rfl, rfl, rfl, .inl rfl, .inl rfl⟩

theorem compactLog_quiet : Quiet node (node.compactLog snapIndex) := by
  unfold compactLog
  split
  · exact .refl node
  · split
    · exact .refl node
    · exact ⟨rfl, rfl, rfl, .inl rfl, .inl rfl⟩

theorem triggerSnapshot_quiet {saved : Bool} {node : Node σ} :
    Quiet node (node.triggerSnapshot machine saved).1 := by
  rcases triggerSnapshot_cases machine saved node with ⟨_, same⟩ | ⟨_, same⟩
  · rw [same]
    exact .refl node
  rw [same]
  refine Quiet.trans ?_ (savePersistentState_quiet _)
  refine Quiet.trans ?_ (compactLog_quiet _)
  refine Quiet.trans ?_ (saveSnapshotData_quiet _)
  exact ⟨rfl, rfl, rfl, .inl rfl, .inl rfl⟩

theorem Tracks.quiet (tracks : Tracks node after) : Quiet node after := by
  obtain ⟨_, _, _, rfl⟩ := tracks
  exact ⟨rfl, rfl, rfl, .inl rfl, .inl rfl⟩

theorem Answered.mild [Decidable ended] (answered : Answered node ended term after) :
    Mild node after := by
  obtain ⟨_, tracks, rfl⟩ := answered
  split
  · exact .inl (.refl node)
  · split
    · rename_i later
      exact .inr (becomeFollower_stepsDown node (le_of_lt later))
    · exact .inl tracks.quiet

/-- The work of a leader never votes. -/
theorem leader_mild (action : LeaderAction) :
    Mild node (Section.run machine node (.leader action)) := by
  have pushed : ∀ data, Quiet node (node.proposeConfChange data).1 := by
    intro _
    unfold proposeConfChange
    split
    · exact .refl node
    · exact ⟨rfl, rfl, rfl, .inl rfl, .inr rfl⟩
  cases action with
  | propose _ =>
    simp only [Section.run, leaderStep, propose]
    split
    · exact .inl (.refl node)
    · exact .inl ⟨rfl, rfl, rfl, .inl rfl, .inr rfl⟩
  | addPeer _ => exact .inl (pushed _)
  | removePeer _ => exact .inl (pushed _)
  | appendReply _ _ _ => exact (onAppendReply_answered node).mild
  | advanceCommitIndex =>
    simp only [Section.run, advanceCommit]
    split
    · exact .inl (.refl node)
    · exact .inl ⟨rfl, rfl, rfl, .inl rfl, .inl rfl⟩
  | triggerSnapshot _ => exact .inl (triggerSnapshot_quiet machine)
  | checkAndCompactLog _ =>
    simp only [Section.run, leaderStep, checkAndCompactLog]
    split
    · exact .inl (.refl node)
    · split
      · exact .inl (triggerSnapshot_quiet machine)
      · exact .inl (.refl node)
  | snapshotReply _ _ _ => exact (onSnapshotReply_answered node).mild
  | chunkRound follower term snapIndex snapTerm data =>
    exact .inl (chunkRequest_tracks node follower term snapIndex snapTerm data).quiet
  | chunkReply _ _ _ => exact (onChunkReply_answered node).mild

theorem leaderStep_mild (action : LeaderAction) : Mild node (leaderStep machine node action) := by
  have mild := leader_mild machine node action
  cases action with
  | advanceCommitIndex =>
    rw [leaderStep, advanceCommitIndex_eq]
    split
    · exact mild.trans_quiet (applyCommitted_quiet machine _)
    · exact mild
  | _ => exact mild

/-- A restart reads back the term and the vote that were saved. -/
theorem restart_quiet {node : Node σ} (durable : Durable node) : Quiet node node.restart := by
  unfold Durable savedBallot at durable
  unfold restart
  cases file_eq : node.stateFile with
  | none =>
    simp only [file_eq, map_none, getD_none, Prod.mk.injEq] at durable
    refine ⟨rfl, durable.1, durable.2, .inr rfl, .inl ?_⟩
    simp only [savedBallot, file_eq]
  | some _ =>
    simp only [file_eq, map_some, getD_some, Prod.mk.injEq] at durable
    have loaded : ∀ node : Node σ, Quiet node node.loadSnapshotData := by
      intro node
      unfold loadSnapshotData
      split
      · exact .refl node
      split
      · exact .refl node
      · split
        · exact .refl node
        · exact ⟨rfl, rfl, rfl, .inl rfl, .inl rfl⟩
    refine Quiet.trans ?_ (loaded _)
    refine ⟨rfl, durable.1, durable.2, .inr rfl, .inl ?_⟩
    simp only [savedBallot, file_eq]

/-- If a node without a vote receives a request of its own term from a candidate whose log is up
to date, everybody it voted for in that term is that candidate. -/
def VoteStands (node : Node σ) (voted : Nat → Prop) (req : RequestVoteRequest) : Prop :=
  node.votedFor = 0 → req.term = node.currentTerm → node.logUpToDate req = true →
    ∀ candidate, voted candidate → candidate = req.candidateId

/-- What a vote request does: nothing but step down, or a vote of the request's term
that no other candidate held. -/
theorem handleRequestVote_cases :
    (Mild node (node.handleRequestVote req).1 ∧
      (node.handleRequestVote req).2.voteGranted = false) ∨
    ((node.handleRequestVote req).2.voteGranted = true ∧ node.currentTerm ≤ req.term ∧
      (node.handleRequestVote req).1.opts = node.opts ∧
      (node.handleRequestVote req).1.currentTerm = req.term ∧
      (node.handleRequestVote req).1.votedFor = req.candidateId ∧
      Durable (node.handleRequestVote req).1 ∧
      ((node.handleRequestVote req).1.role = .follower ∨
        (node.handleRequestVote req).1.role = node.role ∧ req.term = node.currentTerm) ∧
      (req.term = node.currentTerm →
        (node.votedFor = 0 ∨ node.votedFor = req.candidateId) ∧
          node.logUpToDate req = true)) := by
  unfold handleRequestVote
  by_cases stale : req.term < node.currentTerm
  · rw [if_pos stale]
    exact .inl ⟨.inl (.refl node), rfl⟩
  rw [if_neg stale]
  have current : node.currentTerm ≤ req.term := Nat.le_of_not_lt stale
  have mild := observeTerm_mild node req.term
  by_cases taken : (node.observeTerm req.term).votedFor ≠ 0 ∧
      (node.observeTerm req.term).votedFor ≠ req.candidateId
  · rw [if_pos taken]
    exact .inl ⟨mild, rfl⟩
  rw [if_neg taken]
  by_cases behind : (node.observeTerm req.term).logUpToDate req = false
  · rw [if_pos behind]
    exact .inl ⟨mild, rfl⟩
  rw [if_neg behind]
  refine .inr ⟨rfl, current, mild.opts_eq, ?_, rfl, rfl, ?_, ?_⟩
  · unfold observeTerm
    split
    · rfl
    · rename_i reached
      exact le_antisymm current (Nat.le_of_not_lt reached)
  · unfold observeTerm
    split
    · exact .inl rfl
    · exact .inr ⟨rfl, by omega⟩
  · intro _
    have unchanged : node.observeTerm req.term = node := by
      unfold observeTerm
      rw [if_neg (by omega)]
    rw [unchanged] at taken behind
    refine ⟨?_, by simpa using behind⟩
    by_cases empty : node.votedFor = 0
    · exact .inl empty
    · exact .inr (by_contra fun other => taken ⟨empty, other⟩)

end Node

namespace Cluster

variable {σ : Type} {cluster : Cluster σ} {id : Nat} {peers : List RaftPeer} {election : Election}

/-! ## The invariant -/

/-- `voter` gave its vote of `term` to `candidate` at some time. -/
def Voted (ballots : List Ballot) (voter term candidate : Nat) : Prop :=
  { voter := voter, term := term, candidate := candidate : Ballot } ∈ ballots
  deriving Decidable

/-- A majority of the peer list voted for `candidate` in `term`. -/
def Elected (peers : List RaftPeer) (ballots : List Ballot) (candidate term : Nat) : Prop :=
  Quorum.Majority peers fun peer => decide (Voted ballots peer.id term candidate)

/-- The votes counted up to position `pos` are backed by ballots: the candidate's own
and one of another peer in front of `pos` for each further vote. -/
structure Tally (peers : List RaftPeer) (ballots : List Ballot) (id : Nat) (election : Election)
    (pos : Nat) : Prop where
  candidate : election.req.candidateId = id
  own : Voted ballots id election.req.term id
  votes : election.votes ≤ (peers.take pos).countP (fun peer =>
    decide (peer.id ≠ id ∧ Voted ballots peer.id election.req.term id)) + 1

/-- `StartElection` waits for another peer of the list. -/
def Waits (peers : List RaftPeer) (id pos : Nat) : Prop :=
  ∃ peer, peers[pos]? = some peer ∧ peer.id ≠ id

/-- The invariant of election safety. -/
structure Inv (cluster : Cluster σ) : Prop where
  opts : ∀ id, (cluster.nodes id).opts.nodeId = id ∧ (cluster.nodes id).opts.peers = cluster.peers
  durable : ∀ id, (cluster.nodes id).Durable
  ballot_term : ∀ voter term candidate, Voted cluster.ballots voter term candidate →
    term ≤ (cluster.nodes voter).currentTerm
  ballot_vote : ∀ voter candidate, (cluster.nodes voter).votedFor ≠ 0 →
    Voted cluster.ballots voter (cluster.nodes voter).currentTerm candidate →
    candidate = (cluster.nodes voter).votedFor
  ballot_unique : ∀ voter term first second, Voted cluster.ballots voter term first →
    Voted cluster.ballots voter term second → first = second
  replies : ∀ reply ∈ cluster.replies, reply.resp.voteGranted = true →
    Voted cluster.ballots reply.peer reply.req.term reply.req.candidateId
  elections : ∀ id election, cluster.elections id = some election →
    cluster.runs id = true ∧ Waits cluster.peers id election.pos ∧
      Tally cluster.peers cluster.ballots id election election.pos
  leaders : ∀ id, (cluster.nodes id).role = .leader →
    Elected cluster.peers cluster.ballots id (cluster.nodes id).currentTerm

theorem inv_initial (peers : List RaftPeer) (limits : Nat → RaftOptions) (state : Nat → σ) :
    Inv (initial peers limits state) where
  opts _ := ⟨rfl, rfl⟩
  durable _ := rfl
  ballot_term _ _ _ voted := by simp [Voted, initial] at voted
  ballot_vote _ _ _ voted := by simp [Voted, initial] at voted
  ballot_unique _ _ _ _ voted := by simp [Voted, initial] at voted
  replies _ member := by simp [initial] at member
  elections _ _ running := by simp [initial] at running
  leaders _ leading := by simp [initial] at leading

/-- A term has one winner: the majorities share a voter. -/
theorem Inv.elected_unique (inv : Inv cluster)
    (elected : Elected cluster.peers cluster.ballots first term)
    (other : Elected cluster.peers cluster.ballots second term) : first = second := by
  obtain ⟨peer, _, voted, again⟩ := Quorum.exists_common elected other
  exact inv.ballot_unique peer.id _ first second (of_decide_eq_true voted) (of_decide_eq_true again)

/-- Two leaders of one term share a voter, who votes once. -/
theorem Inv.leader_unique (inv : Inv cluster) (leads : (cluster.nodes first).role = .leader)
    (also : (cluster.nodes second).role = .leader)
    (same : (cluster.nodes first).currentTerm = (cluster.nodes second).currentTerm) :
    first = second :=
  inv.elected_unique (inv.leaders first leads) (same ▸ inv.leaders second also)

/-! ## Preservation -/

theorem Elected.mono (elected : Elected peers before candidate term) (more : before ⊆ after) :
    Elected peers after candidate term :=
  Quorum.Majority.mono elected fun _ _ voted => decide_eq_true (more (of_decide_eq_true voted))

theorem Tally.mono {next : Nat} (tally : Tally peers before id election pos) (further : pos ≤ next)
    (more : before ⊆ after) : Tally peers after id election next where
  candidate := tally.candidate
  own := more tally.own
  votes := by
    refine le_trans tally.votes (Nat.add_le_add_right ?_ 1)
    refine le_trans (countP_mono_left ?_)
      ((take_prefix_take_left further).sublist.countP_le)
    intro _ _ counted
    have facts := of_decide_eq_true counted
    exact decide_eq_true ⟨facts.1, more facts.2⟩

section

variable (inv : Inv cluster)
include inv

/-- The general step: one node changes and may add a ballot that carries its new term
and vote. The hypotheses are what the invariant needs of that node. -/
theorem Inv.update {node : Node σ} {ballots : List Ballot} {replies : List VoteReply}
    (more : cluster.ballots ⊆ ballots)
    (fresh : ∀ voter term candidate, Voted ballots voter term candidate → Voted
      cluster.ballots voter term candidate ∨ voter = id ∧ term = node.currentTerm ∧ candidate =
      node.votedFor ∧ ∀ other, Voted cluster.ballots id term other → other = candidate)
    (answered : ∀ reply ∈ replies, reply.resp.voteGranted = true → Voted ballots
      reply.peer reply.req.term reply.req.candidateId)
    (opts_eq : node.opts = (cluster.nodes id).opts) (durable : node.Durable)
    (term_le : (cluster.nodes id).currentTerm ≤ node.currentTerm)
    (vote : node.votedFor ≠ 0 → ∀ candidate, Voted cluster.ballots id node.currentTerm candidate →
      candidate = node.votedFor)
    (leader : node.role = .leader → Elected cluster.peers ballots id node.currentTerm) :
    Inv { cluster with
      nodes := update cluster.nodes id node, replies := replies, ballots := ballots } where
  opts := by
    refine (forall_update_iff cluster.nodes fun id node => node.opts.nodeId = id ∧
      node.opts.peers = cluster.peers).mpr ⟨?_, fun other _ => inv.opts other⟩
    rw [opts_eq]
    exact inv.opts id
  durable := (forall_update_iff cluster.nodes fun _ => Durable).mpr
    ⟨durable, fun other _ => inv.durable other⟩
  ballot_term voter term candidate voted := by
    dsimp only
    rcases fresh voter term candidate voted with old | ⟨rfl, rfl, _⟩
    · have bound := inv.ballot_term voter term candidate old
      by_cases here : voter = id
      · subst here
        rw [update_self]
        exact le_trans bound term_le
      · rw [update_of_ne here]
        exact bound
    · rw [update_self]
  ballot_vote voter candidate := by
    dsimp only
    by_cases here : voter = id
    · subst here
      rw [update_self]
      intro voting voted
      rcases fresh voter _ candidate voted with old | ⟨_, _, same, _⟩
      · exact vote voting candidate old
      · exact same
    · rw [update_of_ne here]
      intro voting voted
      rcases fresh voter _ candidate voted with old | ⟨same, _⟩
      · exact inv.ballot_vote voter candidate voting old
      · exact absurd same here
  ballot_unique voter term first second voted again := by
    rcases fresh voter term first voted with old | ⟨rfl, _, first_eq, first_only⟩
    · rcases fresh voter term second again with also | ⟨rfl, _, _, second_only⟩
      · exact inv.ballot_unique voter term first second old also
      · exact second_only first old
    · rcases fresh voter term second again with also | ⟨_, _, second_eq, _⟩
      · exact (first_only second also).symm
      · exact first_eq.trans second_eq.symm
  replies := answered
  elections other election waiting := by
    obtain ⟨running, waits, tally⟩ := inv.elections other election waiting
    exact ⟨running, waits, tally.mono (le_refl _) more⟩
  leaders := (forall_update_iff cluster.nodes fun other node => node.role = .leader →
    Elected cluster.peers ballots other node.currentTerm).mpr
      ⟨leader, fun other _ leading => (inv.leaders other leading).mono more⟩

/-- Changing one node mildly keeps the invariant. -/
theorem Inv.setNode_mild {node : Node σ}
    (mild : (cluster.nodes id).Mild node) : Inv (cluster.setNode id node) := by
  refine inv.update (List.Subset.refl _) (fun _ _ _ => .inl) inv.replies mild.opts_eq
    (mild.durable (inv.durable id)) mild.term_le ?_ ?_
  · intro voting candidate voted
    rcases mild with quiet | down
    · rw [quiet.vote] at voting ⊢
      rw [quiet.term] at voted
      exact inv.ballot_vote id candidate voting voted
    · exact absurd down.vote voting
  · intro leading
    rcases mild with quiet | down
    · rw [quiet.term]
      rcases quiet.role with same | follower
      · exact inv.leaders id (same ▸ leading)
      · simp [follower] at leading
    · simp [down.role] at leading

/-- An elected node may become the leader. -/
theorem Inv.becomeLeader
    (elected : Elected cluster.peers cluster.ballots id (cluster.nodes id).currentTerm) :
    Inv (cluster.setNode id (cluster.nodes id).becomeLeader) :=
  inv.update (List.Subset.refl _) (fun _ _ _ => .inl) inv.replies rfl rfl (le_refl _)
    (fun voting candidate voted => inv.ballot_vote id candidate voting voted) fun _ => elected

/-- Campaigning opens a new term, in which the candidate has not voted yet. -/
theorem Inv.campaign (id : Nat) : Inv (cluster.campaign id) := by
  have unvoted : ∀ candidate,
      ¬ Voted cluster.ballots id ((cluster.nodes id).currentTerm + 1) candidate := by
    intro candidate voted
    have bound := inv.ballot_term id _ candidate voted
    omega
  have self : (cluster.nodes id).opts.nodeId = id := (inv.opts id).1
  refine inv.update (subset_cons_self _ _) ?_ ?_ rfl rfl (Nat.le_succ _) ?_ ?_
  · intro _ _ _ voted
    rcases mem_cons.mp voted with here | old
    · injection here with voter_eq term_eq candidate_eq
      refine .inr ⟨voter_eq, term_eq, candidate_eq.trans self.symm, ?_⟩
      intro other again
      rw [term_eq] at again
      exact absurd again (unvoted other)
    · exact .inl old
  · intro reply member granted
    exact mem_cons_of_mem _ (inv.replies reply member granted)
  · intro _ candidate voted
    exact absurd voted (unvoted candidate)
  · intro leading
    simp [becomeCandidate, savePersistentState] at leading

theorem Inv.send (target : Nat) (message : Message) :
    Inv (cluster.send target message) := { inv with }

/-- An election may be given up, or replaced by one whose tally is backed. -/
theorem Inv.setElection {election : Option Election}
    (backed : ∀ running, election = some running → cluster.runs id = true ∧ Waits cluster.peers
      id running.pos ∧ Tally cluster.peers cluster.ballots id running running.pos) :
    Inv (cluster.setElection id election) :=
  { inv with
    elections := by
      intro other running waiting
      by_cases here : other = id
      · subst here
        simp only [setElection, update_self] at waiting
        exact backed running waiting
      · simp only [Cluster.setElection, update_of_ne here] at waiting
        exact inv.elections other running waiting }

end

/-- A node of the peer list whose tally reaches the majority is elected. -/
theorem Tally.elected (tally : Tally cluster.peers cluster.ballots id election pos)
    (running : cluster.runs id = true) (enough : cluster.peers.length / 2 + 1 ≤ election.votes) :
    Elected cluster.peers cluster.ballots id election.req.term := by
  obtain ⟨own, inside, own_id⟩ : ∃ peer ∈ cluster.peers, peer.id = id := by
    unfold runs at running
    simp only [Bool.and_eq_true, List.any_eq_true, beq_iff_eq] at running
    exact running.2
  let counted (peer : RaftPeer) : Bool :=
    decide (peer.id ≠ id ∧ Voted cluster.ballots peer.id election.req.term id)
  let chosen (peer : RaftPeer) : Bool := decide (Voted cluster.ballots peer.id election.req.term id)
  have own_chosen : chosen own = true := decide_eq_true (by rw [own_id]; exact tally.own)
  have own_left_out : counted own = false := decide_eq_false fun both => both.1 own_id
  have all : cluster.peers.countP counted + 1 ≤ cluster.peers.countP chosen :=
    Quorum.succ_countP_le inside own_chosen own_left_out
      fun _ _ both => decide_eq_true (of_decide_eq_true both).2
  have front : (cluster.peers.take pos).countP counted ≤ cluster.peers.countP counted :=
    (take_sublist pos cluster.peers).countP_le
  have votes : election.votes ≤ (cluster.peers.take pos).countP counted + 1 := tally.votes
  show cluster.peers.length / 2 + 1 ≤ cluster.peers.countP chosen
  omega

/-- The vote of a further peer is one more ballot. -/
theorem Tally.count {ballots : List Ballot}
    (tally : Tally peers ballots id election pos) (at_pos : peers[pos]? = some peer)
    (other : peer.id ≠ id) (voted : Voted ballots peer.id election.req.term id) :
    Tally peers ballots id { election with votes := election.votes + 1 } (pos + 1) where
  candidate := tally.candidate
  own := tally.own
  votes := by
    have votes := tally.votes
    have counted : decide (peer.id ≠ id ∧ Voted ballots peer.id election.req.term id) = true :=
      decide_eq_true ⟨other, voted⟩
    rw [take_add_one, at_pos, toList_some, countP_append, countP_singleton]
    dsimp only
    rw [counted, if_pos rfl]
    omega

/-- The next peer asked lies ahead and is not the candidate. -/
theorem nextVoter_some {next : Nat} (found : nextVoter peers self pos = some next) :
    pos ≤ next ∧ Waits peers self next := by
  obtain ⟨offset, located, rfl⟩ := map_eq_some_iff.mp found
  obtain ⟨bound, chosen, _⟩ := findIdx?_eq_some_iff_getElem.mp located
  simp only [Bool.and_eq_true, decide_eq_true_eq] at chosen
  refine ⟨Nat.le_add_right _ _, (peers.drop pos)[offset], ?_, chosen.1⟩
  rw [← getElem?_drop, getElem?_eq_getElem bound]

section Voters

variable {cluster : Cluster σ} (voters : ∀ peer ∈ cluster.peers, peer.isVoter = true)
  (inv : Inv cluster)
include voters inv

/-- With voters only, `StartElection` asks for more than half of the peer list. -/
theorem Inv.electionMajority_eq :
    Node.electionMajority (cluster.nodes id).opts = cluster.peers.length / 2 + 1 := by
  unfold electionMajority
  rw [(inv.opts id).2, filter_eq_self.mpr voters]

/-- The rest of the loop of `StartElection` keeps the invariant. -/
theorem Inv.continueElection {id pos : Nat} (running : cluster.runs id = true)
    (tally : Tally cluster.peers cluster.ballots id election pos)
    (same_term : (cluster.nodes id).currentTerm = election.req.term) :
    Inv (cluster.continueElection id election pos) := by
  unfold Cluster.continueElection
  cases found : nextVoter cluster.peers id pos with
  | some _ =>
    obtain ⟨ahead, waits⟩ := nextVoter_some found
    refine Inv.send (inv.setElection ?_) _ _
    intro _ continued_eq
    rw [some.injEq] at continued_eq
    subst continued_eq
    have further := tally.mono ahead (List.Subset.refl cluster.ballots)
    exact ⟨running, waits, further.candidate, further.own, further.votes⟩
  | none =>
    dsimp only
    split
    · rename_i enough
      rw [inv.electionMajority_eq voters] at enough
      have elected := tally.elected running enough
      rw [← same_term] at elected
      exact (inv.becomeLeader elected).setElection (by simp)
    · exact inv.setElection (by simp)

/-- An answer to a vote request keeps the invariant. -/
theorem Inv.onVoteReply {id : Nat} (waiting : cluster.elections id = some election)
    (answered : cluster.answers election resp = true) :
    Inv (cluster.onVoteReply id election resp) := by
  obtain ⟨running, ⟨peer, at_pos, other⟩, tally⟩ := inv.elections id election waiting
  unfold Cluster.onVoteReply
  dsimp only
  split
  · exact inv.setElection (by simp)
  rename_i campaigning
  have same_term : (cluster.nodes id).currentTerm = election.req.term := by
    by_contra different
    exact campaigning (.inr different)
  split
  · rename_i later
    have down : (cluster.nodes id).Mild ((cluster.nodes id).becomeFollower resp.term) :=
      .inr (becomeFollower_stepsDown _ (le_of_lt later))
    exact (inv.setNode_mild down).setElection (by simp)
  split
  · rename_i granted
    -- A granted vote is not the failure default, so the peer really gave it.
    have voted : Voted cluster.ballots peer.id election.req.term id := by
      unfold answers at answered
      simp only [at_pos, Bool.or_eq_true, decide_eq_true_eq] at answered
      rcases answered with failed | given
      · simp [failed] at granted
      · have recorded := inv.replies _ given granted
        rwa [tally.candidate] at recorded
    have counted := tally.count at_pos other voted
    split
    · rename_i enough
      rw [inv.electionMajority_eq voters] at enough
      have elected := counted.elected running enough
      rw [← same_term] at elected
      exact (inv.becomeLeader elected).setElection (by simp)
    · exact inv.continueElection voters running counted same_term
  · exact inv.continueElection voters running
      (tally.mono (Nat.le_succ _) (List.Subset.refl _)) same_term

/-- An election timeout keeps the invariant. -/
theorem Inv.electionTimeout (running : cluster.runs id = true) :
    Inv (cluster.electionTimeout id) := by
  have self : (cluster.nodes id).opts.nodeId = id := (inv.opts id).1
  have still : ∀ peer ∈ (cluster.campaign id).peers, peer.isVoter = true := voters
  refine (inv.campaign id).continueElection still running
    ⟨self, mem_cons_self, Nat.le_add_left 1 _⟩ ?_
  simp only [Cluster.campaign, castBallot, setNode, update_self]
  rfl

end Voters

/-! ## The runs in which votes stand -/

/-- No vote is asked of a node that lost its vote of the current term and gave it to
somebody else before. -/
def VoteStands (cluster : Cluster σ) : Action → Prop
  | .deliver target (.requestVote req) =>
      (cluster.nodes target).VoteStands (Voted cluster.ballots target req.term) req
  | _ => True

/-- Every action of the run meets `VoteStands` in the state it happens in. -/
abbrev VotesStand (machine : Option (StateMachine σ)) (cluster : Cluster σ)
    (actions : List Action) : Prop :=
  Runs.Meets (step machine) VoteStands cluster actions

/-- A vote request keeps the invariant if the vote stands. -/
theorem Inv.deliverVote (inv : Inv cluster)
    (stands : VoteStands cluster (.deliver target (.requestVote req))) :
    Inv (cluster.deliverVote target req) := by
  unfold Cluster.deliverVote
  dsimp only
  rcases handleRequestVote_cases (cluster.nodes target) with
    ⟨mild, refused⟩ | ⟨granted, current, opts_eq, term_eq, vote_eq, durable, role, same⟩
  · rw [refused]
    have kept := inv.setNode_mild mild
    refine { kept with replies := ?_ }
    intro reply member reply_granted
    rcases mem_cons.mp member with here | old
    · rw [here] at reply_granted
      simp [refused] at reply_granted
    · exact inv.replies reply old reply_granted
  · rw [granted]
    -- The new ballot agrees with every older ballot of this node in the term.
    have agrees : ∀ other, Voted cluster.ballots target req.term other →
        other = req.candidateId := by
      intro other voted
      have bound := inv.ballot_term target req.term other voted
      have equal : req.term = (cluster.nodes target).currentTerm := le_antisymm bound current
      obtain ⟨unvoted | voted_for, up_to_date⟩ := same equal
      · exact stands unvoted equal up_to_date other voted
      · by_cases empty : (cluster.nodes target).votedFor = 0
        · exact stands empty equal up_to_date other voted
        · rw [← voted_for]
          exact inv.ballot_vote target other empty (equal ▸ voted)
    refine inv.update (subset_cons_self _ _) ?_ ?_ opts_eq durable
      (by rw [term_eq]; exact current) ?_ ?_
    · intro _ _ _ voted
      rcases mem_cons.mp voted with here | old
      · injection here with voter_eq ballot_term_eq candidate_eq
        refine .inr ⟨voter_eq, ballot_term_eq.trans term_eq.symm,
          candidate_eq.trans vote_eq.symm, ?_⟩
        rw [ballot_term_eq, candidate_eq]
        exact agrees
      · exact .inl old
    · intro reply member reply_granted
      rcases mem_cons.mp member with here | old
      · rw [here]
        exact mem_cons_self
      · exact mem_cons_of_mem _ (inv.replies reply old reply_granted)
    · intro _ candidate voted
      rw [term_eq] at voted
      rw [vote_eq]
      exact agrees candidate voted
    · intro leading
      rcases role with follower | ⟨same_role, equal⟩
      · simp [follower] at leading
      · rw [term_eq, equal]
        rw [same_role] at leading
        exact (inv.leaders target leading).mono (subset_cons_self _ _)

/-- Each action keeps the ballots and the tallies right. -/
theorem Inv.step (machine : Option (StateMachine σ)) {cluster : Cluster σ} (inv : Inv cluster)
    (voters : ∀ peer ∈ cluster.peers, peer.isVoter = true) {action : Action}
    (stands : VoteStands cluster action) : Inv (cluster.step machine action) := by
  cases action with
  | electionTimeout _ =>
    simp only [Cluster.step]
    split
    · rename_i enabled
      simp only [Bool.and_eq_true] at enabled
      exact inv.electionTimeout voters enabled.1.1
    · exact inv
  | voteReply id _ =>
    simp only [Cluster.step]
    cases waiting : cluster.elections id with
    | none => exact inv
    | some _ =>
      dsimp only
      split
      · rename_i answered
        exact inv.onVoteReply voters waiting answered
      · exact inv
  | deliver _ message =>
    simp only [Cluster.step]
    split
    · cases message with
      | requestVote _ => exact inv.deliverVote stands
      | appendEntries req => exact inv.setNode_mild (handleAppendEntries_mild machine _ req)
      | installSnapshot _ => exact inv.setNode_mild (handleInstallSnapshot_mild machine _)
      | installSnapshotChunk req =>
        exact inv.setNode_mild (handleInstallSnapshotChunk_mild machine _ req)
    · exact inv
  | leader _ action =>
    simp only [Cluster.step]
    split
    · exact inv.setNode_mild (leaderStep_mild machine _ action)
    · exact inv
  | sendAppend _ _ _ _ | sendSnapshot _ _ =>
    simp only [Cluster.step]
    split
    · split
      · exact inv
      · exact inv.send _ _
    · exact inv
  | sendChunk id target term snapIndex snapTerm data =>
    have kept := inv.setNode_mild (.inl
      (chunkRequest_tracks (cluster.nodes id) target term snapIndex snapTerm data).quiet)
    simp only [Cluster.step]
    split
    · split
      · exact kept
      · exact kept.send _ _
    · exact inv
  | crash id =>
    exact (inv.setNode_mild (.inl (restart_quiet (inv.durable id)))).setElection (by simp)

variable (machine : Option (StateMachine σ))

/-- The peer list never changes, and no ballot is taken back. -/
theorem step_grows (cluster : Cluster σ) (action : Action) :
    (cluster.step machine action).peers = cluster.peers ∧
      cluster.ballots ⊆ (cluster.step machine action).ballots := by
  cases action with
  | crash _ => exact ⟨rfl, Subset.refl _⟩
  | _ =>
    simp only [step, deliver, electionTimeout, onVoteReply, continueElection, deliverVote]
    repeat' split
    all_goals first | exact ⟨rfl, Subset.refl _⟩ | exact ⟨rfl, subset_cons_self _ _⟩

/-- Ballots are never taken back. -/
theorem run_grows (cluster : Cluster σ) (actions : List Action) :
    (cluster.run machine actions).peers = cluster.peers ∧
      cluster.ballots ⊆ (cluster.run machine actions).ballots := by
  induction actions generalizing cluster with
  | nil => exact ⟨rfl, Subset.refl _⟩
  | cons action _ ih =>
    obtain ⟨peers, ballots⟩ := step_grows machine cluster action
    obtain ⟨same, more⟩ := ih (cluster.step machine action)
    exact ⟨same.trans peers, Subset.trans ballots more⟩

theorem Inv.run (actions : List Action) (inv : Inv cluster)
    (voters : ∀ peer ∈ cluster.peers, peer.isVoter = true)
    (stand : VotesStand machine cluster actions) : Inv (cluster.run machine actions) := by
  induction actions generalizing cluster with
  | nil => exact inv
  | cons _ _ ih =>
    exact ih (inv.step machine voters stand.1) (by rw [(step_grows ..).1]; exact voters) stand.2

/-- Whoever leads a term in the one state and whoever leads it in the other are one node. -/
def OneLeader (early late : Cluster σ) : Prop :=
  ∀ first second, (early.nodes first).role = .leader → (late.nodes second).role = .leader →
    (early.nodes first).currentTerm = (late.nodes second).currentTerm → first = second

/-- No two different nodes are leaders with one current term. -/
abbrev OneLeaderPerTerm (cluster : Cluster σ) : Prop := OneLeader cluster cluster

section Safety

variable (machine : Option (StateMachine σ)) (peers : List RaftPeer) (limits : Nat → RaftOptions)
  (state : Nat → σ) (voters : ∀ peer ∈ peers, peer.isVoter = true) (actions : List Action)
  (stand : VotesStand machine (initial peers limits state) actions)
include voters stand

/-- Election safety of the runs in which votes stand, for a cluster of voters that share
one peer list. -/
theorem election_safety :
    OneLeaderPerTerm ((initial peers limits state).run machine actions) := by
  intro first second leads also same
  exact ((inv_initial peers limits state).run machine actions voters stand).leader_unique
    leads also same

/-- A term has one leader over the whole run, not only at one time. -/
theorem one_leader_over_time (later : List Action)
    (still : VotesStand machine ((initial peers limits state).run machine actions) later) :
    OneLeader ((initial peers limits state).run machine actions)
      (((initial peers limits state).run machine actions).run machine later) := by
  have inv := (inv_initial peers limits state).run machine actions voters stand
  have unchanged := (run_grows machine (initial peers limits state) actions).1
  generalize (initial peers limits state).run machine actions = cluster at *
  obtain ⟨same_peers, ballots⟩ := run_grows machine cluster later
  have after := inv.run machine later (unchanged ▸ voters) still
  intro first second leads also same
  have elected := (inv.leaders first leads).mono ballots
  rw [same, ← same_peers] at elected
  exact after.elected_unique elected (after.leaders second also)

end Safety

/-- Three voters. -/
def threeNodes : Cluster Unit :=
  initial [{ id := 1 }, { id := 2 }, { id := 3 }] (fun _ => { nodeId := 0, peers := [] })
    (fun _ => ())

/-- The vote request of `candidate` in `term` with a given last entry. -/
def ballotRequest (candidate term lastLogIndex lastLogTerm : Nat) : RequestVoteRequest where
  term := term
  candidateId := candidate
  lastLogIndex := lastLogIndex
  lastLogTerm := lastLogTerm

/-- Node 1 is elected in term one by itself and node 2. -/
def firstElection : List Action :=
  [.electionTimeout 1,
    .deliver 2 (.requestVote (ballotRequest 1 1 0 0)),
    .voteReply 1 { term := 0, voteGranted := true }]

/-- The first election is a run in which votes stand, and it elects a leader. -/
theorem election_safety_first_election :
    ((threeNodes.run none firstElection).nodes 1).role = .leader ∧
      OneLeaderPerTerm (threeNodes.run none firstElection) := by
  have stand : VotesStand none threeNodes firstElection := by
    refine ⟨trivial, ?_, trivial, trivial⟩
    intro _ same_term
    exact absurd same_term (by decide +kernel)
  exact ⟨by decide +kernel, election_safety none _ _ _ (by decide) firstElection stand⟩

theorem one_leader_over_time_first_election :
    OneLeader (threeNodes.run none firstElection)
      ((threeNodes.run none firstElection).run none [.leader 1 (.propose [7])]) := by
  refine one_leader_over_time none _ _ _ (by decide) firstElection ⟨trivial, ?_, trivial, trivial⟩
    _ ⟨trivial, trivial⟩
  intro _ same_term
  exact absurd same_term (by decide +kernel)

/-- After its first term node 1 restarts and is elected again in term two by itself and
node 2. Its first request of that term is refused by node 2, whose log is behind,
but clears the vote of node 2. Node 3 campaigns, reaches term two and asks node 2,
which votes again. -/
def secondLeaderRun : List Action :=
  firstElection ++
    [.crash 1,
      .electionTimeout 1,
      .deliver 2 (.requestVote (ballotRequest 1 2 1 1)),
      .voteReply 1 { term := 1, voteGranted := true },
      .sendAppend 1 1 false 0,
      .deliver 2 (.appendEntries
        { term := 2
          leaderId := 1
          prevLogIndex := 1
          prevLogTerm := 1
          entries := [{ index := 2, term := 2, type := .noOp }]
          leaderCommit := 0 }),
      .electionTimeout 3,
      .voteReply 3 {},
      .voteReply 3 {},
      .electionTimeout 3,
      .voteReply 3 {},
      .deliver 2 (.requestVote (ballotRequest 3 2 0 0)),
      .voteReply 3 { term := 2, voteGranted := true }]

/-- Nodes 1 and 3 both lead in term two. -/
theorem two_leaders_in_one_term :
    ((threeNodes.run none secondLeaderRun).nodes 1).role = .leader ∧
      ((threeNodes.run none secondLeaderRun).nodes 1).currentTerm = 2 ∧
      ((threeNodes.run none secondLeaderRun).nodes 3).role = .leader ∧
      ((threeNodes.run none secondLeaderRun).nodes 3).currentTerm = 2 ∧
      ¬ OneLeaderPerTerm (threeNodes.run none secondLeaderRun) := by
  refine ⟨by decide +kernel, by decide +kernel, by decide +kernel, by decide +kernel, ?_⟩
  intro unique
  have same := unique 1 3 (by decide +kernel) (by decide +kernel) (by decide +kernel)
  exact absurd same (by decide)

end Cluster

end LightKV.Raft
