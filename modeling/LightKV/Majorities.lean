import Mathlib.Order.Bounds.Basic
import LightKV.Quorum
import LightKV.RaftNode

/-!
# The two ways to count a majority

`StartElection` counts the voters of the peer list and asks for more than half of them, and
it counts the candidate's own vote whether or not the candidate is a voter. `AdvanceCommitIndex`
counts the voters too, and one more if the node is not among them, and it counts the node's own
copy in any case. For a node that is a voter both countings agree with the notion of a majority
of the voters. For one that is not, an election is won with half of the voters: its own vote
stands for the one that is missing.

A voter that is listed twice counts twice.
-/

namespace LightKV.Raft

open Quorum List

namespace Node

variable {σ : Type} (opts : RaftOptions)

/-- The voters of the peer list. -/
def voters : List RaftPeer :=
  opts.peers.filter (·.isVoter)

/-- The node is one of the voters. -/
def selfVoter : Bool :=
  opts.peers.any fun peer => peer.isVoter && peer.id == opts.nodeId

/-! ## Elections -/

/-- `StartElection` asks the voters other than the node itself. -/
def asked (peer : RaftPeer) : Bool :=
  peer.id ≠ opts.nodeId && peer.isVoter

/-- The loop of `StartElection`, for a candidate that stays one: does it end in
`BecomeLeader`? The tally is looked at behind each vote and once behind the loop. -/
def electionLoop (granted : Nat → Bool) : List RaftPeer → Nat → Bool
  | [], votes => decide (electionMajority opts ≤ votes)
  | peer :: rest, votes =>
      if asked opts peer = false then electionLoop granted rest votes
      else if granted peer.id then
        if electionMajority opts ≤ votes + 1 then true
        else electionLoop granted rest (votes + 1)
      else electionLoop granted rest votes

/-- `StartElection`, with the peers that grant their vote; the candidate begins with its own. -/
def startElection (granted : Nat → Bool) : Bool :=
  electionLoop opts granted opts.peers 1

/-- The nodes whose votes an election counts: the candidate and those that granted theirs. -/
def electedBy (granted : Nat → Bool) (id : Nat) : Bool :=
  id == opts.nodeId || granted id

theorem electionLoop_eq :
    electionLoop opts granted peers votes = decide (electionMajority opts ≤
      votes + peers.countP fun peer => asked opts peer && granted peer.id) := by
  induction peers generalizing votes with
  | nil => rfl
  | cons peer _ ih =>
    rw [electionLoop, countP_cons]
    cases asked opts peer with
    | false => simp [ih]
    | true =>
      cases granted peer.id with
      | false => simp [ih]
      | true =>
        simp only [Bool.true_eq_false, if_false, if_true, Bool.and_self, ih]
        by_cases won : electionMajority opts ≤ votes + 1
        · rw [if_pos won, eq_comm, decide_eq_true_eq]
          omega
        · rw [if_neg won]
          congr 2
          omega

/-! ## Commits -/

/-- The nodes that `AdvanceCommitIndex` counts for an index: the leader and the peers whose
`match_index_` has reached it. -/
def replicas (node : Node σ) (index id : Nat) : Bool :=
  id == node.opts.nodeId ||
    (node.opts.peers.zip node.matchIndex).any fun (peer, matched) =>
      peer.id == id && decide (index ≤ matched)

/-- The log holds an entry of the leader's term at the index. -/
def OwnTerm (node : Node σ) (index : Nat) : Prop :=
  ∃ entry, node.log.entryAt index = some entry ∧ entry.term = node.currentTerm

/-- The loop ends at the last index of the leader's term that enough replicas hold, or at the
commit index it began with. -/
theorem advanceLoop_spec (node : Node σ) (count index commit : Nat) :
    (node.advanceLoop count index commit = commit ∨
      node.OwnTerm (node.advanceLoop count index commit) ∧ commitMajority node.opts ≤
        node.replicatedCount (node.advanceLoop count index commit)) ∧
    ∀ other, index ≤ other → other < index + count → node.OwnTerm other →
      commitMajority node.opts ≤ node.replicatedCount other →
      other ≤ node.advanceLoop count index commit := by
  induction count generalizing index commit with
  | zero => exact ⟨.inl rfl, fun _ _ _ => by omega⟩
  | succ _ ih =>
    rw [advanceLoop]
    split
    · rename_i missing
      refine ⟨(ih (index + 1) commit).1, fun other above _ own => ?_⟩
      refine (ih (index + 1) commit).2 other (lt_of_le_of_ne above ?_) (by omega) own
      rintro rfl
      simp [OwnTerm, missing] at own
    rename_i entry stored
    split
    · rename_i earlier
      refine ⟨(ih (index + 1) commit).1, fun other above _ own => ?_⟩
      refine (ih (index + 1) commit).2 other (lt_of_le_of_ne above ?_) (by omega) own
      rintro rfl
      simp [OwnTerm, stored, earlier] at own
    rename_i current
    split
    · rename_i enough
      obtain ⟨reached, bound⟩ := ih (index + 1) index
      refine ⟨.inr ?_, fun other above _ own held => ?_⟩
      · rcases reached with same | further
        · rw [same]
          exact ⟨⟨entry, stored, not_not.mp current⟩, enough⟩
        · exact further
      · rcases lt_or_eq_of_le above with later | rfl
        · exact bound other later (by omega) own held
        · exact (node.advanceLoop_bounds _ _ _ (Nat.lt_succ_self _)).1
    · rename_i few
      -- A replica that has reached a later index has reached this one.
      refine ⟨.inl rfl, fun _ above _ _ held => absurd (le_trans held ?_) few⟩
      refine Nat.add_le_add_left (Sublist.length_le (monotone_filter_right _ ?_)) 1
      intro _ reached
      simp only [Bool.and_eq_true, decide_eq_true_eq] at reached ⊢
      exact ⟨reached.1, le_trans above reached.2⟩

variable (machine : Option (StateMachine σ))

theorem commitIndex_advanceCommitIndex {node : Node σ} (leads : node.role = .leader) :
    (node.advanceCommitIndex machine).commitIndex =
      node.advanceLoop (node.log.lastLogIndex - node.commitIndex) (node.commitIndex + 1)
        node.commitIndex := by
  unfold advanceCommitIndex
  rw [if_neg (not_not.mpr leads)]
  obtain ⟨_, applied⟩ := applyCommitted_frame machine
    { node with
      commitIndex := node.advanceLoop (node.log.lastLogIndex - node.commitIndex)
        (node.commitIndex + 1) node.commitIndex }
  rw [applied]

/-- A commit index that `AdvanceCommitIndex` raises is one that enough replicas hold. -/
theorem commitMajority_le_of_advanced {node : Node σ}
    (advanced : node.commitIndex < (node.advanceCommitIndex machine).commitIndex) :
    commitMajority node.opts ≤
      node.replicatedCount (node.advanceCommitIndex machine).commitIndex := by
  by_cases leads : node.role = .leader
  · rw [commitIndex_advanceCommitIndex machine leads] at advanced ⊢
    exact ((node.advanceLoop_spec _ _ _).1.resolve_left advanced.ne').2
  · rw [advanceCommitIndex, if_pos leads] at advanced
    exact absurd advanced (lt_irrefl _)

theorem replicatedCount_le (node : Node σ) (index : Nat) :
    node.replicatedCount index ≤ 1 + node.opts.peers.countP fun peer =>
      asked node.opts peer && node.replicas index peer.id := by
  have counted : ∀ (peers : List RaftPeer) (matched : List Nat),
      (∀ pair ∈ peers.zip matched, pair ∈ node.opts.peers.zip node.matchIndex) →
      ((peers.zip matched).filter fun pair =>
          pair.1.id ≠ node.opts.nodeId && pair.1.isVoter && decide (index ≤ pair.2)).length ≤
        peers.countP fun peer => asked node.opts peer && node.replicas index peer.id := by
    intro peers
    induction peers with
    | nil => intro _ _; simp
    | cons peer _ ih =>
      intro matched listed
      cases matched with
      | nil => simp
      | cons value matched =>
        have smaller := ih matched fun pair member => listed pair (mem_cons_of_mem _ member)
        rw [zip_cons_cons, filter_cons, countP_cons]
        split
        · rename_i here
          simp only [Bool.and_eq_true] at here
          have holds : node.replicas index peer.id = true := by
            rw [replicas, Bool.or_eq_true]
            refine .inr (any_eq_true.mpr ⟨(peer, value), listed _ mem_cons_self, ?_⟩)
            simp [here.2]
          have is_asked : asked node.opts peer = true := by simpa [asked] using here.1
          rw [holds, is_asked]
          simp only [length_cons, Bool.and_self, if_true]
          omega
        · exact Nat.le_add_right_of_le smaller
  exact Nat.add_le_add_left (counted node.opts.peers node.matchIndex fun _ member => member) 1

/-! ## Majorities -/

/-- A set of nodes that decides something: the votes that make a candidate leader, or the
replicas that make a leader raise its commit index. -/
inductive Decides (σ : Type) (opts : RaftOptions) : (Nat → Bool) → Prop
  | election (granted : Nat → Bool) (won : startElection opts granted = true) :
      Decides σ opts (electedBy opts granted)
  | commit (machine : Option (StateMachine σ)) (node : Node σ) (same : node.opts = opts)
      (advanced : node.commitIndex < (node.advanceCommitIndex machine).commitIndex) :
      Decides σ opts (node.replicas (node.advanceCommitIndex machine).commitIndex)

/-- The set contains more than half of the voters. -/
def VoterMajority (set : Nat → Bool) : Prop :=
  Majority (voters opts) fun peer => set peer.id

variable {opts}

/-- A voter's tally of the other voters, with its own vote, is a count of voters. -/
theorem succ_countP_asked_le (voter : selfVoter opts = true) {set : Nat → Bool}
    (own : set opts.nodeId = true) :
    opts.peers.countP (fun peer => asked opts peer && set peer.id) + 1 ≤
      (voters opts).countP fun peer => set peer.id := by
  obtain ⟨_, member, is_self⟩ := any_eq_true.mp voter
  simp only [Bool.and_eq_true, beq_iff_eq] at is_self
  rw [voters, countP_filter]
  refine succ_countP_le member ?_ ?_ ?_
  · simp [is_self.1, is_self.2, own]
  · simp [asked, is_self.2]
  · intro _ _ counted
    simp only [asked, Bool.and_eq_true] at counted ⊢
    exact ⟨counted.2, counted.1.2⟩

/-- The sets by which a voter decides contain a majority of the voters. -/
theorem Decides.voterMajority (voter : selfVoter opts = true) {set : Nat → Bool}
    (decides : Decides σ opts set) : VoterMajority opts set := by
  cases decides with
  | election granted won =>
    rw [startElection, electionLoop_eq, decide_eq_true_eq] at won
    have own : electedBy opts granted opts.nodeId = true := by simp [electedBy]
    have tally := succ_countP_asked_le voter own
    have fewer : opts.peers.countP (fun peer => asked opts peer && granted peer.id) ≤
        opts.peers.countP fun peer => asked opts peer && electedBy opts granted peer.id := by
      refine countP_mono_left fun _ _ counted => ?_
      simp only [electedBy, Bool.and_eq_true, Bool.or_eq_true] at counted ⊢
      exact ⟨counted.1, .inr counted.2⟩
    unfold VoterMajority Majority
    unfold electionMajority at won
    unfold voters at tally ⊢
    omega
  | commit machine node same advanced =>
    subst same
    have enough := commitMajority_le_of_advanced machine advanced
    have counted := node.replicatedCount_le (node.advanceCommitIndex machine).commitIndex
    have own : node.replicas (node.advanceCommitIndex machine).commitIndex node.opts.nodeId =
        true := by simp [replicas]
    have tally := succ_countP_asked_le voter own
    have self_counted : node.opts.peers.any (fun peer =>
        peer.isVoter && peer.id == node.opts.nodeId) = true := voter
    unfold VoterMajority Majority
    simp only [commitMajority, self_counted, if_true] at enough
    unfold voters at tally ⊢
    split at enough <;> omega

/-- Half of the voters, as the set of their ids. -/
def halfOfVoters (opts : RaftOptions) (id : Nat) : Bool :=
  (((voters opts).take ((voters opts).length / 2)).map (·.id)).contains id

/-- With distinct ids that set has half of the voters. -/
theorem countP_halfOfVoters (distinct : ((voters opts).map (·.id)).Nodup) :
    (voters opts).countP (fun peer => halfOfVoters opts peer.id) = (voters opts).length / 2 := by
  generalize half_def : (voters opts).length / 2 = half
  have split := take_append_drop half (voters opts)
  have front : ((voters opts).take half).countP (fun peer => halfOfVoters opts peer.id) =
      ((voters opts).take half).length := by
    refine countP_eq_length.mpr fun peer member => ?_
    rw [halfOfVoters, half_def, contains_iff_mem]
    exact mem_map.mpr ⟨peer, member, rfl⟩
  have back : ((voters opts).drop half).countP (fun peer => halfOfVoters opts peer.id) = 0 := by
    refine countP_eq_zero.mpr fun peer member chosen => ?_
    rw [halfOfVoters, half_def, contains_iff_mem] at chosen
    obtain ⟨other, in_front, same⟩ := mem_map.mp chosen
    rw [← split, map_append] at distinct
    exact (nodup_append.mp distinct).2.2 _ (mem_map.mpr ⟨other, in_front, same⟩) _
      (mem_map.mpr ⟨peer, member, rfl⟩) rfl
  calc (voters opts).countP (fun peer => halfOfVoters opts peer.id)
      = ((voters opts).take half ++ (voters opts).drop half).countP
          (fun peer => halfOfVoters opts peer.id) := by rw [split]
    _ = ((voters opts).take half).length + 0 := by rw [countP_append, front, back]
    _ = half := by
        rw [length_take]
        omega

/-- A node that is not a voter wins an election with half of the voters. -/
theorem exists_decides_without_majority (distinct : ((voters opts).map (·.id)).Nodup)
    (nonvoter : selfVoter opts = false) : ∃ set, Decides σ opts set ∧ ¬ VoterMajority opts set := by
  have other : ∀ peer ∈ opts.peers, peer.isVoter = true → peer.id ≠ opts.nodeId := by
    intro peer member voter same
    rw [selfVoter, any_eq_false] at nonvoter
    exact nonvoter peer member (by simp [voter, same])
  have half := countP_halfOfVoters distinct
  refine ⟨electedBy opts (halfOfVoters opts), .election _ ?_, ?_⟩
  · have counted : opts.peers.countP (fun peer => asked opts peer && halfOfVoters opts peer.id) =
        (voters opts).countP fun peer => halfOfVoters opts peer.id := by
      rw [voters, countP_filter]
      refine countP_congr fun peer member => ?_
      simp only [asked, Bool.and_eq_true, decide_eq_true_eq]
      constructor
      · rintro ⟨⟨_, voter⟩, chosen⟩
        exact ⟨chosen, voter⟩
      · rintro ⟨chosen, voter⟩
        exact ⟨⟨other peer member voter, voter⟩, chosen⟩
    rw [startElection, electionLoop_eq, decide_eq_true_eq]
    change (voters opts).length / 2 + 1 ≤ _
    omega
  · have counted : (voters opts).countP (fun peer => electedBy opts (halfOfVoters opts) peer.id) =
        (voters opts).countP fun peer => halfOfVoters opts peer.id := by
      refine countP_congr fun peer member => ?_
      obtain ⟨listed, voter⟩ := mem_filter.mp member
      simp [electedBy, other peer listed voter]
    rw [VoterMajority, Majority]
    omega

/-- Quorums of one peer list. Whenever a node that is a voter becomes leader or raises its
commit index, the votes or replicas it counted contain more than half of the voters, and any
two such sets have a voter in common, whichever nodes they belong to. A node that is not a
voter can become leader without such a majority. -/
theorem quorums_intersect (peers : List RaftPeer) :
    (∀ opts : RaftOptions, opts.peers = peers → selfVoter opts = true →
      ∀ set, Decides σ opts set → VoterMajority opts set) ∧
    (∀ first second : RaftOptions, first.peers = peers → second.peers = peers →
      selfVoter first = true → selfVoter second = true →
        ∀ set other, Decides σ first set → Decides σ second other →
          ∃ peer ∈ peers, peer.isVoter = true ∧ set peer.id = true ∧ other peer.id = true) ∧
    ∀ opts : RaftOptions, opts.peers = peers → ((voters opts).map (·.id)).Nodup →
      selfVoter opts = false → ∃ set, Decides σ opts set ∧ ¬ VoterMajority opts set := by
  refine ⟨fun opts _ voter set decides => decides.voterMajority voter, ?_,
    fun opts _ distinct nonvoter => exists_decides_without_majority distinct nonvoter⟩
  intro first second first_peers second_peers first_voter second_voter set other decides also
  have majority := decides.voterMajority first_voter
  have second_majority := also.voterMajority second_voter
  rw [VoterMajority, voters, first_peers] at majority
  rw [VoterMajority, voters, second_peers] at second_majority
  obtain ⟨peer, member, chosen, also_chosen⟩ := exists_common majority second_majority
  obtain ⟨listed, voter⟩ := mem_filter.mp member
  exact ⟨peer, listed, voter, chosen, also_chosen⟩

/-- Three voters and one node that is none. -/
def threeVoters (nodeId : Nat) : RaftOptions where
  nodeId := nodeId
  peers := [{ id := 1 }, { id := 2 }, { id := 3 }, { id := 4, isVoter := false }]

/-- The votes of one and two, and the votes of two and three, have a voter in common. -/
theorem quorums_intersect_threeVoters : ∃ peer ∈ (threeVoters 1).peers, peer.isVoter = true ∧
    electedBy (threeVoters 1) (· == 2) peer.id = true ∧
    electedBy (threeVoters 3) (· == 2) peer.id = true := by
  have first : Decides Unit (threeVoters 1) (electedBy (threeVoters 1) (· == 2)) :=
    .election _ (by decide)
  have second : Decides Unit (threeVoters 3) (electedBy (threeVoters 3) (· == 2)) :=
    .election _ (by decide)
  exact (quorums_intersect (threeVoters 1).peers).2.1 (threeVoters 1) (threeVoters 3) rfl rfl
    (by decide) (by decide) _ _ first second

/-- A leader that is no voter, with two voters of which one holds its entry. -/
def nonvotingLeader : Node Unit where
  opts := { nodeId := 3, peers := [{ id := 1 }, { id := 2 }, { id := 3, isVoter := false }] }
  currentTerm := 1
  log := RaftLog.initial.push 1 .command [97]
  matchIndex := [1, 0, 0]
  role := .leader
  machineState := ()

/-- Of three voters, node one alone makes the fourth node leader, and nodes two and three can
elect another one. Of two voters, one alone makes the leader commit its entry. -/
theorem nonvoter_decides_without_majority :
    (startElection (threeVoters 4) (· == 1) = true ∧
      ¬ VoterMajority (threeVoters 4) (electedBy (threeVoters 4) (· == 1)) ∧
      startElection (threeVoters 2) (· == 3) = true ∧
      ¬ ∃ peer ∈ (threeVoters 4).peers, peer.isVoter = true ∧
        electedBy (threeVoters 4) (· == 1) peer.id = true ∧
        electedBy (threeVoters 2) (· == 3) peer.id = true) ∧
    nonvotingLeader.commitIndex < (nonvotingLeader.advanceCommitIndex none).commitIndex ∧
      ¬ VoterMajority nonvotingLeader.opts (nonvotingLeader.replicas
        (nonvotingLeader.advanceCommitIndex none).commitIndex) := by
  unfold VoterMajority Majority
  decide

/-! ## The commit point -/

/-- The entry can be committed: it has the leader's term, and more than half of the peers have
reached it, the leader among them. -/
def Committable (node : Node σ) (index : Nat) : Prop :=
  node.OwnTerm index ∧ node.opts.peers.length < 2 * (1 +
    (node.opts.peers.zip node.matchIndex).countP fun pair =>
      pair.1.id ≠ node.opts.nodeId && decide (index ≤ pair.2))

/-- Among voters, the counts of `AdvanceCommitIndex` ask for more than half of the peers. -/
theorem committable_iff {node : Node σ} (voters : ∀ peer ∈ node.opts.peers, peer.isVoter = true)
    (listed : ∃ peer ∈ node.opts.peers, peer.id = node.opts.nodeId) :
    node.Committable index ↔
      node.OwnTerm index ∧ commitMajority node.opts ≤ node.replicatedCount index := by
  obtain ⟨self, member, own⟩ := listed
  have counted : node.opts.peers.any (fun peer =>
      peer.isVoter && peer.id == node.opts.nodeId) = true :=
    any_eq_true.mpr ⟨self, member, by simp [voters self member, own]⟩
  have positive := length_pos_of_mem member
  have same : node.replicatedCount index = 1 + (node.opts.peers.zip node.matchIndex).countP
      fun pair => pair.1.id ≠ node.opts.nodeId && decide (index ≤ pair.2) := by
    rw [replicatedCount, countP_eq_length_filter]
    congr 2
    apply filter_congr
    intro pair inside
    simp [voters pair.1 (of_mem_zip inside).1]
  simp only [commitMajority, counted, filter_eq_self.mpr voters, if_true]
  rw [if_neg positive.ne']
  refine and_congr_right fun _ => ?_
  omega

/-- `AdvanceCommitIndex` of a leader among voters moves to the largest index above the old commit
index that can be committed, and stays where it is if there is none. -/
theorem advanceCommitIndex_commits_largest (machine : Option (StateMachine σ)) (node : Node σ)
    (leads : node.role = .leader) (voters : ∀ peer ∈ node.opts.peers, peer.isVoter = true)
    (listed : ∃ peer ∈ node.opts.peers, peer.id = node.opts.nodeId) :
    let commit := (node.advanceCommitIndex machine).commitIndex
    IsGreatest {index | node.commitIndex < index ∧ node.Committable index} commit ∨
      commit = node.commitIndex ∧ ∀ index, node.commitIndex < index → ¬ node.Committable index := by
  intro commit
  have commit_eq : commit = _ := commitIndex_advanceCommitIndex machine leads
  have spec := node.advanceLoop_spec (node.log.lastLogIndex - node.commitIndex)
    (node.commitIndex + 1) node.commitIndex
  have upward := (node.advanceLoop_bounds (node.log.lastLogIndex - node.commitIndex) _ _
    (Nat.lt_succ_self node.commitIndex)).1
  rw [← commit_eq] at spec upward
  have greatest : ∀ index, node.commitIndex < index → node.Committable index → index ≤ commit := by
    intro index above committable
    obtain ⟨own, held⟩ := (committable_iff voters listed).mp committable
    obtain ⟨_, stored, _⟩ := own
    have within := (node.log.entryAt_some stored).2.2
    exact spec.2 index above (by omega) committable.1 held
  by_cases same : commit = node.commitIndex
  · refine .inr ⟨same, fun index above committable => ?_⟩
    have bound := greatest index above committable
    omega
  · have reached := (committable_iff voters listed).mpr (spec.1.resolve_left same)
    exact .inl ⟨⟨by omega, reached⟩, fun index held => greatest index held.1 held.2⟩

/-- A leader of three voters, one of which holds its last entry. -/
def replicatingLeader : Node Unit where
  opts := .ofThree 1
  currentTerm := 2
  log := (RaftLog.initial.push 1 .command [97]).push 2 .noOp []
  matchIndex := [0, 2, 0]
  role := .leader
  machineState := ()

theorem advanceCommitIndex_commits_largest_replicating :
    let commit := (replicatingLeader.advanceCommitIndex none).commitIndex
    IsGreatest {index | 0 < index ∧ replicatingLeader.Committable index} commit ∨
      commit = 0 ∧ ∀ index, 0 < index → ¬ replicatingLeader.Committable index :=
  advanceCommitIndex_commits_largest none replicatingLeader rfl (by decide) (by decide)

end Node

end LightKV.Raft
