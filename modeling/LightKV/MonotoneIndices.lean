import LightKV.ApplyThreads
import LightKV.DurablePromises

/-!
# Progress indices move forward

`commit_index_`, `last_applied_` and `last_snapshot_index_` say how far a node has come. Most
sections leave them alone or raise them. An installed image sets all three to its cut index, and
only `HandleInstallSnapshot` compares that index with one of them, `last_applied_`; the chunked
path compares nothing, so a delayed duplicate of an old transfer takes a node back. A follower
that is told of a later commit index takes the end of its log instead if that is earlier, and
the end may lie in front of its own commit index.

`Advances` says what a change must not do. The rest of the module is one lemma for each of the
three parts of an event and the run lemma.
-/

namespace LightKV.Raft

open Runs

namespace Node

variable {σ : Type}

/-- The node has come as far as another one. -/
structure IndicesLE (earlier later : Node σ) : Prop where
  commit : earlier.commitIndex ≤ later.commitIndex
  applied : earlier.lastApplied ≤ later.lastApplied
  snapshot : earlier.lastSnapshotIndex ≤ later.lastSnapshotIndex

theorem IndicesLE.refl : IndicesLE node node := ⟨le_refl _, le_refl _, le_refl _⟩

theorem IndicesLE.trans (before : IndicesLE first second) (after : IndicesLE second third) :
    IndicesLE first third :=
  ⟨le_trans before.commit after.commit, le_trans before.applied after.applied,
    le_trans before.snapshot after.snapshot⟩

/-- The change takes no index back: an image reaches the commit index and the last snapshot, and a
later commit index comes with a log that still reaches the node's own. -/
def Advances (node : Node σ) : Change σ → Prop
  | .install index _ _ _ => node.commitIndex ≤ index ∧ node.lastSnapshotIndex ≤ index
  | .merge entries leaderCommit => leaderCommit ≤ node.commitIndex ∨
      (∃ last ∈ entries.getLast?.toList, node.commitIndex ≤ last.index) ∨
      node.log.Keeps entries node.commitIndex
  | .nothing | .push _ _ _ | .gap _ | .commit _ | .refuse _ | .compact _ => True

/-- A merge of which the last entry or the kept part reaches the commit index leaves a log that
does. -/
theorem commit_le_merged {node : Node σ} (merged : (node.log.appendEntries entries).2 = true)
    (reaches : (∃ last ∈ entries.getLast?.toList, node.commitIndex ≤ last.index) ∨
      node.log.Keeps entries node.commitIndex) :
    node.commitIndex ≤ (node.log.appendEntries entries).1.lastLogIndex := by
  rcases reaches with ⟨_, found, below⟩ | keeps
  · rw [Option.mem_toList] at found
    obtain ⟨front, rfl⟩ := List.getLast?_eq_some_iff.mp found
    obtain ⟨_, stored⟩ := RaftLog.appendEntries_stores_last node.log merged
    exact le_trans below (RaftLog.entryAt_some _ stored).2.2
  · exact keeps.merged.1

end Node

theorem Section.indicesLE_run {σ : Type} {machine : Option (StateMachine σ)} {node : Node σ}
    {taken : Section} (applied_le : node.lastApplied ≤ node.commitIndex)
    (advances : node.Advances (taken.change machine node)) :
    node.IndicesLE (taken.run machine node) ∧
      (taken.run machine node).lastApplied ≤ (taken.run machine node).commitIndex := by
  have core := core_run machine node taken
  have makes := makes_change machine node taken
  have commit_eq := congrArg Core.commitIndex core
  have applied_eq := congrArg Core.lastApplied core
  have snapshot_eq := congrArg Core.lastSnapshotIndex core
  generalize taken.run machine node = result at *
  -- All changes but two keep or raise the commit index, and leave the other two alone.
  have raised : node.commitIndex ≤ result.commitIndex →
      result.lastApplied = node.lastApplied →
      result.lastSnapshotIndex = node.lastSnapshotIndex →
      node.IndicesLE result ∧ result.lastApplied ≤ result.commitIndex := by
    intro _ _ _
    refine ⟨⟨?_, ?_, ?_⟩, ?_⟩
    all_goals omega
  generalize taken.change machine node = change at *
  cases change with
  | nothing | push _ _ _ | gap _ | refuse _ =>
    exact raised (le_of_eq commit_eq.symm) applied_eq snapshot_eq
  | merge entries leaderCommit =>
    obtain ⟨_, _, _, _, _, merged⟩ := makes
    dsimp only [Node.core, Change.apply] at commit_eq
    refine raised ?_ applied_eq snapshot_eq
    rw [commit_eq]
    split
    · rename_i later
      rcases advances with _ | reaches
      · omega
      · exact Nat.le_min.mpr ⟨le_of_lt later, Node.commit_le_merged merged reaches⟩
    · exact le_refl _
  | commit index =>
    refine raised ?_ applied_eq snapshot_eq
    have commit_eq : result.commitIndex = index := commit_eq
    rw [commit_eq, makes.2, Node.advanceCommit]
    split
    · exact le_refl _
    · exact (Node.advanceLoop_bounds node _ _ _ (Nat.lt_succ_self _)).1
  | install index _ _ _ =>
    dsimp only [Node.core, Change.apply] at commit_eq applied_eq snapshot_eq
    obtain ⟨_, _⟩ := advances
    refine ⟨⟨?_, ?_, ?_⟩, ?_⟩
    all_goals omega
  | compact _ =>
    dsimp only [Node.core, Change.apply] at commit_eq applied_eq snapshot_eq
    have fresh := makes.2.1
    refine ⟨⟨?_, ?_, ?_⟩, ?_⟩
    all_goals omega

namespace Threads

open Node

variable {σ : Type}

/-- No section takes an index back. -/
def Forward (machine : StateMachine σ) (state : Threads σ) : ThreadEvent → Prop
  | .locked thread taken _ => state.busy thread = false →
      state.node.Advances (taken.change (some machine) state.node)
  | .finish _ _ | .resume _ | .setServer => True
  | .crash => False

/-- `ApplyCommitted` moves `last_applied_` up to the commit index at most. -/
theorem indicesLE_enter {state : Threads σ} (thread : Nat)
    (applied_le : state.node.lastApplied ≤ state.node.commitIndex) :
    state.node.IndicesLE (state.enter thread).node ∧
      (state.enter thread).node.lastApplied ≤ (state.enter thread).node.commitIndex := by
  rcases state.enter_cases with ⟨_, same, _, _, _, behind, below, _⟩ | ⟨index, same, _, last, _⟩
  · rw [same]
    exact ⟨⟨le_refl _, le_of_lt behind, le_refl _⟩, below⟩
  · obtain rfl : index = state.node.commitIndex := last.trans (max_eq_right applied_le)
    rw [same]
    exact ⟨⟨le_refl _, applied_le, le_refl _⟩, le_refl _⟩

theorem indicesLE_step {machine : StateMachine σ} {state : Threads σ} {event : ThreadEvent}
    (applied_le : state.node.lastApplied ≤ state.node.commitIndex)
    (forward : state.Forward machine event) :
    state.node.IndicesLE (state.step machine event).node ∧
      (state.step machine event).node.lastApplied ≤
        (state.step machine event).node.commitIndex := by
  generalize stepped : state.step machine event = later
  cases steps_of_step stepped with
  | same => exact ⟨.refl, applied_le⟩
  | locked free => exact Section.indicesLE_run applied_le (forward free)
  | @enter thread taken grown free =>
    obtain ⟨moved, low⟩ := Section.indicesLE_run applied_le (forward free)
    obtain ⟨entered, below⟩ := @indicesLE_enter _ (state.locked machine taken grown) thread low
    exact ⟨moved.trans entered, below⟩
  | finish | setServer => exact ⟨⟨le_refl _, le_refl _, le_refl _⟩, applied_le⟩
  | @resume thread => exact @indicesLE_enter _ (state.land thread) thread applied_le
  | restart => exact forward.elim

/-- In every run of a process in which no section takes an index back by an old image or a shorter
log, the indices never decrease, and no image ends in front of what is applied. -/
theorem indices_never_decrease (machine : StateMachine σ) (node : Node σ)
    (first second : List ThreadEvent)
    (forward : Runs.Meets (step machine) (Forward machine) (start node) (first ++ second)) :
    let earlier := run (step machine) (start node) first
    earlier.node.IndicesLE (run (step machine) (start node) (first ++ second)).node ∧
      ∀ thread taken grown rest index term image machineState,
        second = .locked thread taken grown :: rest → earlier.busy thread = false →
        taken.change (some machine) earlier.node = .install index term image machineState →
        earlier.node.lastApplied ≤ index := by
  intro earlier
  obtain ⟨before, after⟩ := meets_append.mp forward
  have fresh : (start node).node.lastApplied ≤ (start node).node.commitIndex := by
    obtain ⟨commit_eq, applied_eq, _, _⟩ := restart_fields node
    exact le_of_eq (applied_eq.trans commit_eq.symm)
  have applied_le : earlier.node.lastApplied ≤ earlier.node.commitIndex :=
    before.invariant fresh fun _ _ applied_le forward => (indicesLE_step applied_le forward).2
  constructor
  · rw [run_append]
    have reached := after.invariant
      (⟨.refl, applied_le⟩ : earlier.node.IndicesLE earlier.node ∧
        earlier.node.lastApplied ≤ earlier.node.commitIndex)
      fun state event (kept : earlier.node.IndicesLE state.node ∧
          state.node.lastApplied ≤ state.node.commitIndex) forward => by
        obtain ⟨moved, below⟩ := indicesLE_step kept.2 forward
        exact ⟨kept.1.trans moved, below⟩
    exact reached.1
  · rintro thread taken grown rest index term image machineState rfl free change_eq
    have advances := after.1 free
    rw [change_eq] at advances
    exact le_trans applied_le advances.1

instance (node : Node σ) : ∀ change, Decidable (node.Advances change) := by
  intro change
  induction change using Change.casesOn <;> unfold Advances <;> infer_instance

instance (machine : StateMachine σ) (state : Threads σ) :
    ∀ event, Decidable (state.Forward machine event) := by
  intro event
  induction event using ThreadEvent.casesOn <;> unfold Forward <;> infer_instance

/-- The leader's image up to index five, in one chunk. -/
def imageUpToFive : Section :=
  .installSnapshotChunk
    { term := 1
      leaderId := 2
      lastIncludedIndex := 5
      lastIncludedTerm := 1
      chunkOffset := 0
      totalSize := 1
      isLast := true
      data := [5] }

/-- The command behind the image, committed. -/
def sixthCommand : Section :=
  sentBehind 5 [{ index := 6, term := 1, type := .command, data := [6] }] 6

/-- An image, and a command behind it. -/
theorem indices_never_decrease_image :
    (Runs.run (step imageMachine) (start freshVoter) [.locked 0 imageUpToFive false]).node.IndicesLE
      (Runs.run (step imageMachine) (start freshVoter)
        [.locked 0 imageUpToFive false, .locked 0 sixthCommand true, .finish 0 [],
          .resume 0]).node :=
  (indices_never_decrease imageMachine freshVoter [.locked 0 imageUpToFive false]
    [.locked 0 sixthCommand true, .finish 0 [], .resume 0] (by decide +kernel)).1

/-- The chunk arrives a second time, when the command behind it is applied. -/
theorem duplicate_chunk_rewinds :
    let applied := run (step imageMachine) (start freshVoter)
      [.locked 0 imageUpToFive false, .locked 0 sixthCommand true, .finish 0 [], .resume 0]
    let rewound := applied.step imageMachine (.locked 0 imageUpToFive false)
    applied.node.commitIndex = 6 ∧ applied.node.lastApplied = 6 ∧
      applied.node.machineState = [5, 6] ∧
      rewound.node.commitIndex = 5 ∧ rewound.node.lastApplied = 5 ∧
      rewound.node.machineState = [5] ∧ ¬ applied.node.IndicesLE rewound.node := by
  refine ⟨by decide +kernel, by decide +kernel, by decide +kernel, by decide +kernel,
    by decide +kernel, by decide +kernel, ?_⟩
  intro forward
  exact absurd forward.commit (by decide +kernel)

end Threads

/-! ## Terms and votes -/

namespace Node

/-- The file holds the term and the vote, and whoever stands or leads has its own vote. -/
structure Disciplined (node : Node σ) : Prop where
  named : node.opts.nodeId ≠ 0
  durable : Durable node
  own : node.role ≠ .follower → node.votedFor = node.opts.nodeId

theorem Disciplined.mild (disciplined : Disciplined before) (mild : Mild before after) :
    Disciplined after where
  named := mild.opts_eq ▸ disciplined.named
  durable := mild.durable disciplined.durable
  own stands := by
    rcases mild with quiet | down
    · rcases quiet.role with same | follower
      · rw [quiet.vote, quiet.opts, disciplined.own (same ▸ stands)]
      · exact absurd follower stands
    · exact absurd down.role stands

theorem disciplined_restart {node : Node σ} (named : node.opts.nodeId ≠ 0) :
    Disciplined node.restart := by
  -- The files decide what a restart gives, so the node may as well hold what they say.
  let noted : Node σ :=
    { node with
      currentTerm := (node.savedBallot.getD (0, 0)).1
      votedFor := (node.savedBallot.getD (0, 0)).2
      role := .follower }
  have durable : Durable noted := rfl
  have disciplined : Disciplined noted := ⟨named, durable, fun stands => absurd rfl stands⟩
  exact disciplined.mild (.inl (restart_quiet durable))

/-- A request of a term below the node's own. -/
def Stale (node : Node σ) : Section → Prop
  | .requestVote req => req.term < node.currentTerm
  | .appendEntries req => req.term < node.currentTerm
  | .installSnapshot req => req.term < node.currentTerm
  | .installSnapshotChunk req => req.term < node.currentTerm
  | _ => False

theorem run_of_stale (machine : Option (StateMachine σ)) {node : Node σ}
    (stale : node.Stale taken) : taken.run machine node = node ∧ taken.applies node = false := by
  cases taken with
  | requestVote _ => exact ⟨congrArg Prod.fst (if_pos stale), rfl⟩
  | appendEntries req =>
    have refused : node.refuses req = true := by
      unfold Stale at stale
      simp [refuses, stale]
    refine ⟨if_pos stale, ?_⟩
    rw [Section.applies, acceptApplies, refused]
    rfl
  | installSnapshot _ => exact ⟨congrArg Prod.fst (if_pos stale), rfl⟩
  | installSnapshotChunk _ => exact ⟨congrArg ChunkResult.node (if_pos stale), rfl⟩
  | _ => exact stale.elim

theorem Disciplined.run {node : Node σ} (disciplined : Disciplined node)
    (machine : Option (StateMachine σ)) (taken : Section) : Disciplined (taken.run machine node) ∧
      node.currentTerm ≤ (taken.run machine node).currentTerm := by
  rcases Promises.mild_run machine node taken with mild | same | ⟨stands, same⟩ | ⟨_, rfl⟩
  · exact ⟨disciplined.mild mild, mild.term_le⟩
  · rw [same]
    exact ⟨⟨disciplined.named, rfl, fun _ => rfl⟩, Nat.le_succ _⟩
  · rw [same]
    exact ⟨⟨disciplined.named, rfl, fun _ => disciplined.own (by rw [stands]; nofun)⟩, le_refl _⟩
  · rcases handleRequestVote_cases node with
      ⟨mild, _⟩ | ⟨_, current, opts_eq, term_eq, vote_eq, durable, role, again⟩
    · exact ⟨disciplined.mild mild, mild.term_le⟩
    refine ⟨⟨opts_eq ▸ disciplined.named, durable, fun stands => ?_⟩, term_eq ▸ current⟩
    rcases role with follower | ⟨role_eq, same_term⟩
    · exact absurd follower stands
    · -- A node that stands has its own vote, which is not zero, so the candidate is itself.
      have own := disciplined.own (role_eq ▸ stands)
      have voted := (again same_term).1.resolve_left (own ▸ disciplined.named)
      exact vote_eq.trans (voted.symm.trans (own.trans (congrArg _ opts_eq.symm)))

end Node

namespace Threads
open Node

theorem disciplined_step {machine : StateMachine σ} {state : Threads σ}
    (disciplined : Disciplined state.node) (event : ThreadEvent) :
    Disciplined (state.step machine event).node ∧
      state.node.currentTerm ≤ (state.step machine event).node.currentTerm := by
  have entered : ∀ (other : Threads σ) (thread : Nat),
      Quiet other.node (other.enter thread).node := by
    intro other _
    rcases other.enter_cases with ⟨_, same, _⟩ | ⟨_, same, _⟩
    · rw [same]
      exact ⟨rfl, rfl, rfl, .inl rfl, .inl rfl⟩
    · rw [same]
      exact ⟨rfl, rfl, rfl, .inl rfl, .inl rfl⟩
  generalize stepped : state.step machine event = later
  cases steps_of_step stepped with
  | same => exact ⟨disciplined, le_refl _⟩
  | locked => exact disciplined.run (some machine) _
  | @enter thread taken grown =>
    obtain ⟨kept, term_le⟩ := disciplined.run (some machine) taken
    have quiet := entered (state.locked machine taken grown) thread
    exact ⟨kept.mild (.inl quiet), le_trans term_le quiet.term.ge⟩
  | setServer => exact ⟨disciplined, le_refl _⟩
  | finish => exact ⟨disciplined.mild (.inl ⟨rfl, rfl, rfl, .inl rfl, .inl rfl⟩), le_refl _⟩
  | @resume thread =>
    have quiet := entered (state.land thread) thread
    exact ⟨disciplined.mild (.inl quiet), quiet.term.ge⟩
  | restart =>
    have quiet := restart_quiet disciplined.durable
    exact ⟨disciplined.mild (.inl quiet), quiet.term.ge⟩

/-- In every run of a process the term never decreases, a request of an earlier term changes
nothing, and a candidate or leader has voted for itself. -/
theorem term_discipline (machine : StateMachine σ) (node : Node σ) (named : node.opts.nodeId ≠ 0)
    (first second : List ThreadEvent) :
    let earlier := run (step machine) (start node) first
    earlier.node.currentTerm ≤
        (run (step machine) (start node) (first ++ second)).node.currentTerm ∧
      (∀ thread taken grown, earlier.node.Stale taken →
        (earlier.step machine (.locked thread taken grown)).node = earlier.node) ∧
      (earlier.node.role ≠ .follower → earlier.node.votedFor = earlier.node.opts.nodeId) := by
  intro earlier
  have kept : ∀ events (state : Threads σ), Disciplined state.node →
      Disciplined (run (step machine) state events).node ∧
        state.node.currentTerm ≤ (run (step machine) state events).node.currentTerm := by
    intro events
    induction events with
    | nil => exact fun _ disciplined => ⟨disciplined, le_refl _⟩
    | cons event _ ih =>
      intro _ disciplined
      obtain ⟨after, moved⟩ := disciplined_step disciplined event
      obtain ⟨reached, further⟩ := ih _ after
      exact ⟨reached, le_trans moved further⟩
  have disciplined := (kept first (start node) (disciplined_restart named)).1
  refine ⟨?_, ?_, disciplined.own⟩
  · rw [run_append]
    exact (kept second earlier disciplined).2
  intro _ _ _ stale
  obtain ⟨same, silent⟩ := run_of_stale (some machine) stale
  rw [step]
  split
  · rfl
  · rw [silent]
    exact same

theorem term_discipline_vote :
    (run (step imageMachine) (start freshVoter)
      [.locked 0 .electionTimeout false]).node.votedFor = 1 :=
  (term_discipline imageMachine freshVoter (by decide) [.locked 0 .electionTimeout false] []).2.2
    (by decide)

end Threads

end LightKV.Raft
