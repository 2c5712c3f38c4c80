import LightKV.RaftSections

/-!
# The files of a node

`SavePersistentState` and `SaveSnapshotData` each replace one file, and each replacement is
atomic. A section replaces the files in a fixed order, `Section.writes`. `reaches_run` says that
the sections make their changes and these writes, and is the one place where the handlers are
looked into. A process that is killed inside a section leaves a prefix of the writes on the disk.

The saves in front of the change, `early`, carry the old log. Those behind it are given by the
change: a snapshot is saved first, and the log that goes with it afterwards.
-/

namespace LightKV.Raft

open Option Section
open List hiding after

/-- A replaced file. -/
inductive DiskWrite where
  | state (file : PersistentState)
  | snapshot (file : SnapshotFile)

/-- The two files. -/
structure Disk where
  stateFile : Option PersistentState
  snapshotFile : Option SnapshotFile

namespace Disk

/-- One replacement. -/
def write (disk : Disk) : DiskWrite → Disk
  | .state file => { disk with stateFile := some file }
  | .snapshot file => { disk with snapshotFile := some file }

/-- Several replacements, in their order. -/
def writeAll (disk : Disk) (writes : List DiskWrite) : Disk :=
  writes.foldl write disk

theorem writeAll_append {disk : Disk} :
    disk.writeAll (front ++ rest) = (disk.writeAll front).writeAll rest := foldl_append ..

end Disk

namespace Node

variable {σ : Type} (node : Node σ)

/-- The two files of a node. -/
def disk : Disk := ⟨node.stateFile, node.snapshotFile⟩

/-- The node with other files. -/
def withDisk (disk : Disk) : Node σ :=
  { node with stateFile := disk.stateFile, snapshotFile := disk.snapshotFile }

/-- What `SavePersistentState` writes. -/
def persisted : PersistentState where
  currentTerm := node.currentTerm
  votedFor := node.votedFor
  lastSnapshotIndex := node.lastSnapshotIndex
  lastSnapshotTerm := node.lastSnapshotTerm
  log := node.log

/-- What `SaveSnapshotData` writes. -/
def payload : SnapshotFile where
  index := node.lastSnapshotIndex
  term := node.lastSnapshotTerm
  dataLen := node.snapshotData.length % 2 ^ 32
  data := node.snapshotData

/-- The saves of `SaveSnapshotData`; an empty payload is not written. -/
def payloadWrites : List DiskWrite :=
  if node.snapshotData = [] then [] else [.snapshot node.payload]

/-- The save of a node that learns of a later term. -/
def observeWrites (term : Nat) : List DiskWrite :=
  if node.currentTerm < term then [.state (node.becomeFollower term).persisted] else []

end Node

/-- The saves behind a change that leads to `result`. -/
def Change.writes {σ : Type} (result : Node σ) : Change σ → List DiskWrite
  | .push _ _ _ => [.state result.persisted]
  | .merge entries _ => if entries = [] then [] else [.state result.persisted]
  | .install _ _ _ _ | .compact _ => result.payloadWrites ++ [.state result.persisted]
  | .nothing | .gap _ | .commit _ | .refuse _ => []

namespace Section

open Node

variable {σ : Type}

/-- The saves in front of the change: terms, votes and roles. -/
def early (node : Node σ) : Section → List DiskWrite
  | .electionTimeout =>
      if node.role = .leader then [] else [.state node.becomeCandidate.persisted]
  | .winElection => []
  | .stepDown term => node.observeWrites term
  | .requestVote req =>
      if req.term < node.currentTerm then []
      else
        node.observeWrites req.term ++
          if (node.handleRequestVote req).2.voteGranted then
            [.state (node.handleRequestVote req).1.persisted]
          else []
  | .appendEntries req =>
      if req.term < node.currentTerm then []
      else [.state (node.becomeFollower req.term).persisted]
  | .installSnapshot req =>
      if req.term < node.currentTerm then [] else node.observeWrites req.term
  | .installSnapshotChunk req =>
      if req.term < node.currentTerm then [] else node.observeWrites req.term
  | .leader (.appendReply _ req resp) =>
      if node.role ≠ .leader ∨ node.currentTerm ≠ req.term then []
      else node.observeWrites resp.term
  | .leader (.snapshotReply _ _ resp) =>
      if node.role ≠ .leader then [] else node.observeWrites resp.term
  | .leader (.chunkReply _ _ resp) =>
      if node.role ≠ .leader then [] else node.observeWrites resp.term
  | .leader _ => []
  | .stop => [.state node.persisted]

/-- The saves of a section, in their order. -/
def writes (machine : Option (StateMachine σ)) (node : Node σ) (taken : Section) :
    List DiskWrite :=
  taken.early node ++ (taken.change machine node).writes (taken.run machine node)

end Section

/-! ## What a section does -/

namespace Node

variable {σ : Type}

/-- The fields of a node change by `change`, and its files by the early saves and those of the
change. -/
def Reaches (node : Node σ) (early : List DiskWrite) (change : Change σ) (after : Node σ) : Prop :=
  after.core = change.apply node.core ∧
    after.disk = (node.disk.writeAll early).writeAll (change.writes after)

variable (machine : Option (StateMachine σ)) (node : Node σ)

/-- Terms, votes and roles first, and then the change. -/
theorem Reaches.trans {node observed after : Node σ} {saves : List DiskWrite} {made : Change σ}
    (first : node.Reaches saves .nothing observed) (second : observed.Reaches [] made after) :
    node.Reaches saves made after := by
  obtain ⟨core, disk⟩ := first
  refine ⟨second.1.trans (congrArg made.apply core), second.2.trans ?_⟩
  rw [disk]
  rfl

theorem reaches_observeTerm :
    node.Reaches (node.observeWrites term) .nothing (node.observeTerm term) := by
  unfold observeTerm observeWrites
  split
  · exact ⟨rfl, rfl⟩
  · exact ⟨rfl, rfl⟩

/-- A vote is no change. -/
theorem reaches_handleRequestVote :
    node.Reaches (Section.early node (.requestVote req)) .nothing
      (node.handleRequestVote req).1 := by
  rw [early]
  by_cases stale : req.term < node.currentTerm
  · simp only [handleRequestVote, if_pos stale]
    exact ⟨rfl, rfl⟩
  obtain ⟨core, disk⟩ : node.Reaches _ _ (node.observeTerm req.term) := reaches_observeTerm node
  have disk : _ = node.disk.writeAll (node.observeWrites req.term) := disk
  rw [if_neg stale, Reaches, ← core, Disk.writeAll_append, ← disk]
  unfold handleRequestVote
  simp only [if_neg stale]
  split
  · exact ⟨rfl, rfl⟩
  · split
    · exact ⟨rfl, rfl⟩
    · exact ⟨rfl, rfl⟩

/-- Neither are the notes about the peers. -/
theorem Tracks.reaches (tracks : Tracks node after) : node.Reaches [] .nothing after := by
  obtain ⟨_, _, _, rfl⟩ := tracks
  exact ⟨rfl, rfl⟩

/-- Neither are the answers that a leader gets. -/
theorem Answered.reaches [Decidable ended] (answered : Answered node ended term after) :
    node.Reaches (if ended then [] else node.observeWrites term) .nothing after := by
  obtain ⟨_, tracks, rfl⟩ := answered
  unfold observeWrites
  split
  · exact ⟨rfl, rfl⟩
  · split
    · exact ⟨rfl, rfl⟩
    · exact tracks.reaches

/-- A merged slice and the commit index that comes with it. -/
theorem reaches_acceptMerged :
    node.Reaches []
      (if (node.log.appendEntries req.entries).2 then .merge req.entries req.leaderCommit
       else .gap req.entries) (node.acceptMerged req) := by
  unfold acceptMerged
  dsimp only
  cases (node.log.appendEntries req.entries).2 with
  | false => exact ⟨rfl, rfl⟩
  | true =>
    rw [if_pos rfl, raiseCommit, (storeEntries_log_commit node req.entries).2]
    generalize req.entries = slice
    by_cases raised : node.commitIndex < req.leaderCommit
    · have low : node.core.commitIndex < req.leaderCommit := raised
      rw [if_pos raised, Reaches, Change.apply, if_pos low]
      cases slice <;> exact ⟨rfl, rfl⟩
    · have low : ¬ node.core.commitIndex < req.leaderCommit := raised
      rw [if_neg raised, Reaches, Change.apply, if_neg low]
      cases slice <;> exact ⟨rfl, rfl⟩

theorem reaches_acceptEntries :
    node.Reaches (Section.early node (.appendEntries req))
      (Section.change machine node (.appendEntries req)) (node.acceptEntries req) := by
  rw [early, change, acceptEntries]
  by_cases stale : req.term < node.currentTerm
  · have refused : node.refuses req = true := by simp [refuses, stale]
    rw [if_pos stale, if_pos stale, refused]
    exact ⟨rfl, rfl⟩
  rw [if_neg stale, if_neg stale]
  cases node.refuses req with
  | true => exact ⟨rfl, rfl⟩
  | false =>
    have followed : node.Reaches [.state (node.becomeFollower req.term).persisted] .nothing
        (node.followLeader req) := ⟨rfl, rfl⟩
    exact followed.trans (reaches_acceptMerged (node.followLeader req))

/-- `CommitInstalledSnapshot`. -/
theorem reaches_commitInstalledSnapshot :
    node.Reaches [] (.install cutIndex cutTerm data node.machineState)
      (node.commitInstalledSnapshot cutIndex cutTerm data) := by
  cases data <;> exact ⟨rfl, rfl⟩

theorem imageChange_eq {node other : Node σ} (same : other.machineState = node.machineState) :
    other.imageChange machine index term image = node.imageChange machine index term image := by
  cases machine with
  | none => simp only [imageChange, applyImage, same]
  | some _ =>
    unfold imageChange applyImage
    rw [same]

/-- A complete image is installed or refused. -/
theorem reaches_takeImage :
    node.Reaches [] (node.imageChange machine index term image)
      (node.takeImage machine index term image) := by
  cases machine with
  | none => exact reaches_commitInstalledSnapshot node
  | some machine =>
    unfold imageChange takeImage
    dsimp only
    cases accepted : (node.applyImage (some machine) image).2 with
    | false => exact ⟨rfl, rfl⟩
    | true => exact reaches_commitInstalledSnapshot { node with machineState := _ }

/-- The image is taken by a node that has observed the term of the message. -/
theorem Reaches.takeImage {node observed : Node σ} {saves : List DiskWrite}
    (first : node.Reaches saves .nothing observed) :
    node.Reaches saves (node.imageChange machine index term image)
      (observed.takeImage machine index term image) := by
  rw [← imageChange_eq machine (congrArg Core.machineState first.1)]
  exact first.trans (reaches_takeImage machine observed)

theorem reaches_handleInstallSnapshot :
    node.Reaches (Section.early node (.installSnapshot req))
      (Section.change machine node (.installSnapshot req))
      (handleInstallSnapshot machine node req).1 := by
  have observed : node.Reaches (node.observeWrites req.term) .nothing
      (node.observeLeader req.term req.leaderId) := reaches_observeTerm node
  rw [Section.early, Section.change]
  rcases handleInstallSnapshot_cases machine node req with
    ⟨stale, same⟩ | ⟨current, ⟨ignored, same⟩ | ⟨⟨nonempty, newer⟩, same⟩⟩
  · rw [same, if_pos stale, if_pos (.inl stale)]
    exact ⟨rfl, rfl⟩
  · rw [same, if_neg (not_lt.mpr current), if_pos (.inr ignored)]
    exact observed
  · rw [same, if_neg (not_lt.mpr current), if_neg (by simp [nonempty, newer, current])]
    exact observed.takeImage machine

theorem reaches_handleInstallSnapshotChunk :
    node.Reaches (Section.early node (.installSnapshotChunk req))
      (Section.change machine node (.installSnapshotChunk req))
      (handleInstallSnapshotChunk machine node req).node := by
  have observed : ∀ staging leaderId, node.Reaches (node.observeWrites req.term) .nothing
      { node.observeTerm req.term with staging := staging, leaderId := leaderId } :=
    fun _ _ => reaches_observeTerm node
  rw [early, change]
  rcases handleInstallSnapshotChunk_cases machine node req with ⟨stale, same⟩ | ⟨current, outcome⟩
  · rw [same, if_pos stale, if_pos (.inl stale)]
    exact ⟨rfl, rfl⟩
  rw [if_neg (not_lt.mpr current)]
  rcases outcome with ⟨refused, same⟩ | ⟨admitted, staged⟩
  · rw [same, if_pos (.inr refused)]
    exact reaches_observeTerm node
  rw [if_neg (by simp [current, admitted])]
  rcases staged with ⟨gap, same⟩ | ⟨_, more, same⟩ | ⟨_, full, same⟩
  · rw [same, gap]
    exact observed _ _
  · rw [same, more]
    exact observed _ _
  · rw [same, full, installImage_node]
    exact (observed _ _).takeImage machine

theorem reaches_triggerSnapshot {saved : Bool} {node : Node σ} :
    node.Reaches [] (node.triggerChange machine saved) (node.triggerSnapshot machine saved).1 := by
  unfold triggerChange
  rcases triggerSnapshot_cases machine saved node with ⟨idle, same⟩ | ⟨fresh, same⟩
  · rw [same, if_pos idle]
    exact ⟨rfl, rfl⟩
  rw [same, if_neg fresh]
  generalize (machine.elim [] fun machine => machine.takeSnapshot node.machineState) = data
  have idle : node.lastApplied ≠ 0 := by omega
  have log_eq : ∀ {data}, (node.withSnapshot data).saveSnapshotData.log = node.log := by
    intro data
    cases data <;> rfl
  rw [compactLog, if_neg idle, log_eq, Reaches, Change.apply]
  have stored : node.core.log.entryAt node.core.lastApplied =
      node.log.entryAt node.lastApplied := rfl
  rw [stored]
  cases node.log.entryAt node.lastApplied with
  | none => cases data <;> exact ⟨rfl, rfl⟩
  | some _ => cases data <;> exact ⟨rfl, rfl⟩

end Node

namespace Section

open Node

variable {σ : Type}

section

variable (machine : Option (StateMachine σ)) (node : Node σ) (taken : Section)
include machine node taken

/-- Every section makes its change to the fields, and its saves. -/
theorem reaches_run :
    node.Reaches (taken.early node) (taken.change machine node) (taken.run machine node) := by
  cases taken with
  | electionTimeout =>
    rw [run, early]
    split
    · exact ⟨rfl, rfl⟩
    · exact ⟨rfl, rfl⟩
  | winElection =>
    rw [run, change]
    split
    · exact ⟨rfl, rfl⟩
    · exact ⟨rfl, rfl⟩
  | stepDown _ => exact reaches_observeTerm node
  | requestVote _ => exact reaches_handleRequestVote node
  | appendEntries _ => exact reaches_acceptEntries machine node
  | installSnapshot _ => exact reaches_handleInstallSnapshot machine node
  | installSnapshotChunk _ => exact reaches_handleInstallSnapshotChunk machine node
  | stop => exact ⟨rfl, rfl⟩
  | leader action =>
    cases action with
    | propose _ | addPeer _ | removePeer _ =>
      simp only [run, change, leaderStep, propose, addPeer, removePeer, proposeConfChange]
      by_cases leads : node.role = .leader
      · simp only [leads]
        exact ⟨rfl, rfl⟩
      · simp only [leads, ne_eq]
        exact ⟨rfl, rfl⟩
    | appendReply _ _ _ => exact (onAppendReply_answered node).reaches
    | advanceCommitIndex =>
      simp only [change, run, advanceCommit]
      split
      · exact ⟨rfl, rfl⟩
      · exact ⟨rfl, rfl⟩
    | triggerSnapshot _ => exact reaches_triggerSnapshot machine
    | checkAndCompactLog _ =>
      simp only [run, change, leaderStep, checkAndCompactLog]
      by_cases leads : node.role = .leader
      · by_cases long : node.snapshotThreshold < node.log.entries.length
        · simp only [leads, long]
          exact reaches_triggerSnapshot machine
        · simp only [leads, long]
          exact ⟨rfl, rfl⟩
      · simp only [leads, ne_eq]
        exact ⟨rfl, rfl⟩
    | snapshotReply _ _ _ => exact (onSnapshotReply_answered node).reaches
    | chunkRound follower term snapIndex snapTerm data =>
      exact (chunkRequest_tracks node follower term snapIndex snapTerm data).reaches
    | chunkReply _ _ _ => exact (onChunkReply_answered node).reaches

/-- Every section makes its change to the fields, and nothing else. -/
theorem core_run : (taken.run machine node).core = (taken.change machine node).apply node.core :=
  (reaches_run machine node taken).1

/-- The files after a section are its writes on the files before it. -/
theorem disk_run :
    (taken.run machine node).disk = node.disk.writeAll (taken.writes machine node) := by
  rw [writes, Disk.writeAll_append]
  exact (reaches_run machine node taken).2

end

end Section

/-! ## The early saves carry the old log -/

/-- Saves of the state file that carry one log. -/
def Disk.Carry (writes : List DiskWrite) (log : RaftLog) : Prop :=
  ∀ write ∈ writes, ∃ file, write = .state file ∧ file.log = log

namespace Section

open Node

variable {σ : Type}

theorem mem_observeWrites {node : Node σ} (member : write ∈ node.observeWrites term) :
    node.currentTerm ≤ term ∧ write = .state (node.becomeFollower term).persisted := by
  unfold observeWrites at member
  split at member
  · rename_i later
    exact ⟨le_of_lt later, mem_singleton.mp member⟩
  · cases member

/-- The early saves are those of a node that follows, stands for election, votes or stops. -/
inductive Saves (node : Node σ) (taken : Section) : DiskWrite → Prop where
  | follows (current : node.currentTerm ≤ term) :
      Saves node taken (.state (node.becomeFollower term).persisted)
  | stands : Saves node taken (.state node.becomeCandidate.persisted)
  | votes (asked : taken = .requestVote req) :
      Saves node taken (.state (node.handleRequestVote req).1.persisted)
  | stops : Saves node taken (.state node.persisted)

theorem saves_early {node : Node σ} {taken : Section} (member : write ∈ taken.early node) :
    taken.Saves node write := by
  have observed : ∀ {term}, write ∈ node.observeWrites term → taken.Saves node write := by
    intro _ member
    obtain ⟨current, rfl⟩ := mem_observeWrites member
    exact .follows current
  cases taken with
  | electionTimeout =>
    rw [early] at member
    split at member
    · cases member
    · rw [mem_singleton.mp member]
      exact .stands
  | winElection => cases member
  | stepDown _ => exact observed member
  | requestVote _ =>
    rw [early] at member
    split at member
    · cases member
    rcases mem_append.mp member with old | granted
    · exact observed old
    · split at granted
      · rw [mem_singleton.mp granted]
        exact .votes rfl
      · cases granted
  | appendEntries _ =>
    rw [early] at member
    split at member
    · cases member
    · rename_i current
      rw [mem_singleton.mp member]
      exact .follows (Nat.le_of_not_lt current)
  | installSnapshot _ | installSnapshotChunk _ =>
    rw [early] at member
    split at member
    · cases member
    · exact observed member
  | stop =>
    rw [mem_singleton.mp member]
    exact .stops
  | leader action =>
    cases action with
    | appendReply _ _ _ | snapshotReply _ _ _ | chunkReply _ _ _ =>
      rw [early] at member
      split at member
      · cases member
      · exact observed member
    | _ => cases member

/-- The early saves carry the old log. -/
theorem carry_early (node : Node σ) (taken : Section) : Disk.Carry (taken.early node) node.log := by
  intro _ member
  cases saves_early member with
  | follows _ | stands | stops => exact ⟨_, rfl, rfl⟩
  | votes _ => exact ⟨_, rfl, congrArg Core.log (reaches_handleRequestVote node).1⟩

end Section

/-! ## The state file holds the log -/

namespace Disk

/-- The state file holds the log; a missing one stands for the log of a fresh node. -/
structure SavesLog (disk : Disk) (log : RaftLog) : Prop where
  missing : disk.stateFile = none → log = .initial
  saved : ∀ file, disk.stateFile = some file → file.log = log

/-- Saves that carry the log leave it saved, and touch no snapshot. -/
theorem SavesLog.writeAll {disk : Disk} {log : RaftLog} (saves : disk.SavesLog log)
    {writes : List DiskWrite} (carry : Carry writes log) :
    (disk.writeAll writes).SavesLog log ∧
      (disk.writeAll writes).snapshotFile = disk.snapshotFile := by
  induction writes generalizing disk with
  | nil => exact ⟨saves, rfl⟩
  | cons first _ ih =>
    obtain ⟨file, rfl, log_eq⟩ := carry first mem_cons_self
    have written : (disk.write (.state file)).SavesLog log := by
      constructor
      · exact nofun
      · intro _ found
        rw [← some.inj found]
        exact log_eq
    exact ih written fun write member => carry write (mem_cons_of_mem _ member)

/-- The last save of a log counts. -/
theorem savesLog_write {disk : Disk} : (disk.write (.state file)).SavesLog file.log where
  missing := nofun
  saved _ found := by rw [← some.inj found]

end Disk

namespace Section

open Node

variable {σ : Type} {machine : Option (StateMachine σ)} {node : Node σ} {taken : Section}

/-- A section leaves the log saved, unless it stored entries in front of a gap. -/
theorem savesLog_run (saves : node.disk.SavesLog node.log)
    (whole : ∀ entries, taken.change machine node = .gap entries →
      (node.log.appendEntries entries).1 = node.log) :
    (taken.run machine node).disk.SavesLog (taken.run machine node).log := by
  have log_eq := congrArg Core.log (core_run machine node taken)
  have disk := disk_run machine node taken
  obtain ⟨early, _⟩ := saves.writeAll (carry_early node taken)
  rw [writes, Disk.writeAll_append] at disk
  generalize taken.run machine node = result at *
  generalize node.disk.writeAll (taken.early node) = before at *
  have kept : result.disk = before → result.log = node.log → result.disk.SavesLog result.log := by
    intro disk_eq log_eq
    rw [disk_eq, log_eq]
    exact early
  have saved : ∀ front, result.disk = before.writeAll (front ++ [.state result.persisted]) →
      result.disk.SavesLog result.log := by
    intro _ disk_eq
    rw [disk_eq, Disk.writeAll_append]
    exact Disk.savesLog_write
  generalize taken.change machine node = change at *
  cases change with
  | nothing | commit _ | refuse _ => exact kept disk log_eq
  | gap entries => exact kept disk (log_eq.trans (whole entries rfl))
  | push _ _ _ => exact saved [] disk
  | install _ _ _ _ | compact _ => exact saved _ disk
  | merge entries _ =>
    rw [Change.writes] at disk
    by_cases empty : entries = []
    · rw [if_pos empty] at disk
      have unchanged : result.log = node.log := by
        rw [empty] at log_eq
        exact log_eq
      exact kept disk unchanged
    · rw [if_neg empty] at disk
      exact saved [] disk

end Section

/-! ## A start reads the files -/

namespace Node

variable {σ : Type}

theorem loadSnapshotData_keeps {node : Node σ} :
    node.loadSnapshotData.log = node.log ∧
      node.loadSnapshotData.commitIndex = node.commitIndex ∧
      node.loadSnapshotData.lastApplied = node.lastApplied ∧
      node.loadSnapshotData.disk = node.disk ∧
      node.loadSnapshotData.machineState = node.machineState := by
  unfold loadSnapshotData
  repeat' split
  all_goals exact ⟨rfl, rfl, rfl, rfl, rfl⟩

/-- What a start resets, and what it leaves alone. -/
theorem restart_fields (node : Node σ) :
    node.restart.commitIndex = 0 ∧ node.restart.lastApplied = 0 ∧
      node.restart.disk = node.disk ∧ node.restart.machineState = node.machineState := by
  unfold restart
  split
  · exact ⟨rfl, rfl, rfl, rfl⟩
  · exact ⟨(loadSnapshotData_keeps).2.1.trans rfl, loadSnapshotData_keeps.2.2.1.trans rfl,
      loadSnapshotData_keeps.2.2.2.1.trans rfl, loadSnapshotData_keeps.2.2.2.2.trans rfl⟩

/-- A start reads the log from the state file. -/
theorem savesLog_restart (node : Node σ) : node.disk.SavesLog node.restart.log := by
  unfold restart
  split
  · rename_i missing
    constructor
    · exact fun _ => rfl
    · intro _ found
      cases missing.symm.trans found
  rename_i found
  rw [(loadSnapshotData_keeps).1]
  constructor
  · intro missing
    cases found.symm.trans missing
  · intro _ also
    rw [some.inj (found.symm.trans also)]

/-- A start from files that hold the log leaves the log as it is. -/
theorem restart_log {node : Node σ} (saves : node.disk.SavesLog node.log) :
    node.restart.log = node.log := by
  have loaded := savesLog_restart node
  cases found : node.disk.stateFile with
  | none => rw [loaded.missing found, saves.missing found]
  | some file => rw [← loaded.saved file found, saves.saved file found]

end Node

end LightKV.Raft
