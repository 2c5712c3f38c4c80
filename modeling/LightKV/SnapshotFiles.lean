import LightKV.RaftFiles
import LightKV.Runs

/-!
# The snapshot file goes with the log file

A log that does not begin at index zero needs a snapshot of what was in front of it. The two are
saved one after the other, the snapshot first. `LoadSnapshotData` adopts a snapshot only if the
loaded log holds its index with its term, so a kill between the two saves is harmless as long as
the old log still holds the new snapshot's index. `TriggerSnapshot` takes its snapshot from an
index of the log. `CommitInstalledSnapshot` does not: the image of a leader may end beyond
the old log, and if that log was itself compacted, the kill leaves it without any snapshot.
-/

namespace LightKV.Raft

open List Option RaftLog Disk Raft.Core Section

/-- The file is complete and was taken at an entry of the log. -/
structure SnapshotFile.Backs (file : SnapshotFile) (log : RaftLog) : Prop where
  whole : file.dataLen = file.data.length
  short : file.data.length < 2 ^ 32
  nonempty : file.data ≠ []
  held : ∃ entry, log.entryAt file.index = some entry ∧ entry.term = file.term

namespace Disk

/-- A log that does not begin at index zero is backed by the snapshot file. -/
def Backed (disk : Disk) (log : RaftLog) : Prop :=
  0 < log.base → ∃ file, disk.snapshotFile = some file ∧ file.Backs log

end Disk

namespace Node

variable {σ : Type}

/-- Both files go with the log in memory, and the snapshot in memory is the saved one. -/
structure Kept (node : Node σ) : Prop where
  saves : node.disk.SavesLog node.log
  backed : 0 < node.log.base → node.snapshotFile = some node.payload ∧ node.payload.Backs node.log

/-- Every index in front of the log is covered by a snapshot that the node can send. -/
structure Covered (node : Node σ) : Prop where
  nonempty : 0 < node.log.base → node.snapshotData ≠ []
  reaches : 0 < node.log.base → node.log.base ≤ node.lastSnapshotIndex
  matching : 0 < node.log.base → ∃ entry,
    node.log.entryAt node.lastSnapshotIndex = some entry ∧ entry.term = node.lastSnapshotTerm

theorem Kept.covered (kept : Kept node) : Covered node where
  nonempty based := (kept.backed based).2.nonempty
  reaches based := by
    obtain ⟨_, held, _⟩ := (kept.backed based).2.held
    exact (node.log.entryAt_some held).2.1
  matching based := (kept.backed based).2.held

theorem kept_fresh {opts : RaftOptions} : Kept { opts := opts, machineState := state } where
  saves := ⟨fun _ => rfl, nofun⟩
  backed based := absurd based (lt_irrefl 0)

/-- A complete snapshot of an entry of the log is adopted. -/
theorem loadSnapshotData_of_backs {node : Node σ} {file : SnapshotFile}
    (found : node.snapshotFile = some file) (backs : file.Backs node.log) :
    node.loadSnapshotData =
      { node with
        snapshotData := file.data
        lastSnapshotIndex := file.index
        lastSnapshotTerm := file.term } := by
  obtain ⟨_, held, term_eq⟩ := backs.held
  obtain ⟨_, _, _⟩ := node.log.entryAt_some held
  have same : node.log.getTermForIndex file.index = file.term := by
    rw [getTermForIndex, held]
    exact term_eq
  have whole : ¬ (file.dataLen = 0 ∨ file.dataLen ≠ file.data.length) := by
    simp [backs.whole, backs.nonempty]
  rw [loadSnapshotData, found]
  dsimp only
  rw [if_neg whole, if_neg (by omega)]

/-- Loading a pair of files that go together. -/
theorem kept_restart {node : Node σ}
    (backed : ∀ file, node.stateFile = some file → node.disk.Backed file.log) :
    Kept node.restart := by
  refine ⟨(restart_fields node).2.2.1 ▸ savesLog_restart node, ?_⟩
  unfold restart
  cases state : node.stateFile with
  | none => exact fun based => absurd based (lt_irrefl 0)
  | some file =>
    dsimp only
    intro based
    rw [(loadSnapshotData_keeps).1] at based
    obtain ⟨payload, found, backs⟩ := backed file state based
    have same : payload = { payload with dataLen := payload.data.length % 2 ^ 32 } := by
      rw [Nat.mod_eq_of_lt backs.short, ← backs.whole]
    rw [@loadSnapshotData_of_backs _ _ payload]
    · refine ⟨found.trans (congrArg some same), ?_⟩
      exact ⟨Nat.mod_eq_of_lt backs.short, backs.short, backs.nonempty, backs.held⟩
    · exact found
    · exact backs

/-! ## A section that completes -/

variable {machine : Option (StateMachine σ)} {node result : Node σ}

theorem payload_congr (index_eq : result.lastSnapshotIndex = node.lastSnapshotIndex)
    (term_eq : result.lastSnapshotTerm = node.lastSnapshotTerm)
    (data_eq : result.snapshotData = node.snapshotData) : result.payload = node.payload := by
  rw [payload, payload, index_eq, term_eq, data_eq]

/-- A section that takes no snapshot keeps the pair if it keeps the entry of the snapshot. -/
theorem Kept.keep (kept : Kept node) (payload_eq : result.payload = node.payload)
    (snapshot_eq : result.snapshotFile = node.snapshotFile)
    (base_eq : result.log.base = node.log.base) (saves : result.disk.SavesLog result.log)
    (held : ∀ entry, node.log.entryAt node.lastSnapshotIndex = some entry →
      node.log.base ≤ node.lastSnapshotIndex → 0 < node.log.base →
        result.log.entryAt node.lastSnapshotIndex = some entry) : Kept result where
  saves := saves
  backed based := by
    rw [base_eq] at based
    obtain ⟨stored, backs⟩ := kept.backed based
    obtain ⟨entry, found, term_eq⟩ := backs.held
    have above := (node.log.entryAt_some found).2.1
    rw [snapshot_eq, payload_eq]
    exact ⟨stored, backs.whole, backs.short, backs.nonempty, entry, held entry found above based,
      term_eq⟩

/-- The snapshot file after a snapshot and the log that goes with it are saved. -/
theorem saved_snapshot {disk : Disk} (nonempty : result.snapshotData ≠ [])
    (disk_eq : result.disk = disk.writeAll (result.payloadWrites ++ [.state result.persisted])) :
    result.snapshotFile = some result.payload := by
  rw [payloadWrites, if_neg nonempty] at disk_eq
  exact congrArg Disk.snapshotFile disk_eq

theorem backs_of_held {log : RaftLog} (short : result.snapshotData.length < 2 ^ 32)
    (nonempty : result.snapshotData ≠ [])
    (held : ∃ entry, log.entryAt result.lastSnapshotIndex = some entry ∧
      entry.term = result.lastSnapshotTerm) : result.payload.Backs log where
  whole := Nat.mod_eq_of_lt short
  short := short
  nonempty := nonempty
  held := held

/-- A saved image is shorter than its length field can say, and a compaction of a log that is
already compacted finds the last applied entry in it. -/
def SaveFits (node : Node σ) : Change σ → Prop
  | .install _ _ image _ => image.length < 2 ^ 32
  | .compact data => data.length < 2 ^ 32 ∧
      (node.log.base = 0 ∨ node.lastApplied ≤ node.log.lastLogIndex)
  | _ => True

theorem Kept.held_of_compact (kept : Kept node) (fits : node.SaveFits (.compact data))
    (fresh : node.lastSnapshotIndex < node.lastApplied) (based : 0 < node.log.base) :
    ∃ entry, node.log.entryAt node.lastApplied = some entry := by
  have above := kept.covered.reaches based
  rcases fits.2 with zero | within
  · exact absurd zero (ne_of_gt based)
  · exact node.log.entryAt_isSome (by omega) within

section

variable (covered : Covered node) (accepted : node.refuses req = false)
  (contiguous : RaftLog.Contiguous (req.prevLogIndex + 1) req.entries)
include covered accepted contiguous

theorem Covered.keeps
    (based : 0 < node.log.base) : node.log.Keeps req.entries node.lastSnapshotIndex := by
  simp only [refuses, Bool.or_eq_false_iff, decide_eq_false_iff_not, not_lt] at accepted
  obtain ⟨_, held, _⟩ := covered.matching based
  exact keeps_of_contiguous contiguous (Nat.lt_succ_of_le accepted.1.2)
    (node.log.entryAt_some held).2.2

/-- An accepted request has no gap to the log. -/
theorem Covered.merges : (node.log.appendEntries req.entries).2 = true := by
  simp only [refuses, Bool.or_eq_false_iff, decide_eq_false_iff_not,
    isSome_eq_false_iff, isNone_iff_eq_none] at accepted
  obtain ⟨⟨_, _⟩, passed⟩ := accepted
  have place : node.log.base ≤ req.prevLogIndex ∧ req.prevLogIndex ≤ node.log.lastLogIndex := by
    rcases Nat.eq_zero_or_pos req.prevLogIndex with _ | positive
    · have unbased : node.log.base = 0 := by
        by_contra based
        have reaches := covered.reaches (Nat.pos_of_ne_zero based)
        omega
      omega
    · obtain ⟨_, held, _⟩ := held_of_prevConflict passed positive
      exact (node.log.entryAt_some held).2
  exact (appendEntries_contiguous node.log contiguous (by omega) (by omega)).1

end

end Node

namespace Section

open Node

variable {σ : Type} {machine : Option (StateMachine σ)} {node : Node σ} {taken : Section}

theorem Kept.run (kept : Kept node) (genuine : taken.Genuine σ)
    (fits : node.SaveFits (taken.change machine node)) : Kept (taken.run machine node) := by
  have core := core_run machine node taken
  have disk := disk_run machine node taken
  have makes := makes_change machine node taken
  have whole : ∀ entries, taken.change machine node ≠ .gap entries := by
    intro _ change_eq
    rw [change_eq] at makes
    obtain ⟨_, rfl, rfl, accepted, gap⟩ := makes
    rw [kept.covered.merges accepted genuine.contiguous] at gap
    cases gap
  have saves := savesLog_run kept.saves fun entries gap => absurd gap (whole entries)
  obtain ⟨_, snapshot_eq⟩ := kept.saves.writeAll (carry_early node taken)
  rw [writes, writeAll_append] at disk
  generalize taken.run machine node = result at *
  generalize node.disk.writeAll (taken.early node) = early at *
  have index_eq := congrArg Core.lastSnapshotIndex core
  have term_eq := congrArg Core.lastSnapshotTerm core
  have data_eq := congrArg Core.snapshotData core
  have log_eq := congrArg Core.log core
  have quiet : result.disk = early → result.log = node.log → result.payload = node.payload →
      Kept result := by
    intro disk log_eq payload_eq
    refine kept.keep payload_eq ((congrArg Disk.snapshotFile disk).trans snapshot_eq)
      (congrArg base log_eq) saves ?_
    intro _ found _ _
    rw [log_eq]
    exact found
  generalize taken.change machine node = change at *
  cases change with
  | nothing | commit _ | refuse _ =>
    exact quiet disk log_eq (payload_congr index_eq term_eq data_eq)
  | push term type data =>
    have log_eq : result.log = node.log.push term type data := log_eq
    refine kept.keep (payload_congr index_eq term_eq data_eq)
      ((congrArg Disk.snapshotFile disk).trans snapshot_eq) (by rw [log_eq]; rfl) saves ?_
    intro _ found _ _
    rw [log_eq]
    exact node.log.entryAt_push_of_some found
  | merge _ _ =>
    obtain ⟨req, rfl, rfl, rfl, accepted, merged⟩ := makes
    have log_eq : result.log = (node.log.appendEntries req.entries).1 := log_eq
    have snapshot : result.snapshotFile = early.snapshotFile := by
      rw [Change.writes] at disk
      split at disk
      · exact congrArg Disk.snapshotFile disk
      · exact congrArg Disk.snapshotFile disk
    refine kept.keep (payload_congr index_eq term_eq data_eq) (snapshot.trans snapshot_eq)
      ((congrArg base log_eq).trans (base_appendEntries _ _)) saves ?_
    intro _ found _ based
    rw [log_eq, ((appendEntries_exact node.log merged _).1
      (kept.covered.keeps accepted genuine.contiguous based)).2]
    exact found
  | gap entries => exact absurd rfl (whole entries)
  | install index term image _ =>
    dsimp only [Node.core, Change.apply] at data_eq index_eq log_eq
    have stored := saved_snapshot (data_eq ▸ makes.1) disk
    refine ⟨saves, fun _ => ⟨stored, backs_of_held (data_eq ▸ fits) (data_eq ▸ makes.1) ?_⟩⟩
    refine ⟨{ index := index, term := term, type := .noOp }, ?_, term_eq.symm⟩
    rw [log_eq, index_eq, entryAt_single, if_pos rfl]
  | compact data =>
    dsimp only [Node.core, Change.apply] at data_eq index_eq term_eq log_eq
    have stored := saved_snapshot (data_eq ▸ makes.1) disk
    refine ⟨saves, fun based => ⟨stored, backs_of_held (data_eq ▸ fits.1) (data_eq ▸ makes.1) ?_⟩⟩
    have held : ∃ entry, node.log.entryAt node.lastApplied = some entry := by
      cases missing : node.log.entryAt node.lastApplied with
      | some entry => exact ⟨entry, rfl⟩
      | none =>
        rw [missing] at log_eq
        rw [log_eq] at based
        obtain ⟨_, found⟩ := kept.held_of_compact fits makes.2.1 based
        rw [missing] at found
        cases found
    obtain ⟨entry, found⟩ := held
    rw [getLogEntry, found] at term_eq
    rw [found] at log_eq
    have log_eq : result.log = .single entry := log_eq
    refine ⟨entry, ?_, term_eq.symm⟩
    rw [log_eq, index_eq, entryAt_single, if_pos (node.log.entryAt_some found).1.symm]

end Section

/-! ## A section that is killed -/

/-- What can happen to a node. -/
inductive FileEvent (σ : Type) where
  /-- A section completes. -/
  | run (taken : Section)
  /-- The process is killed after `count` saves of a section and started again. -/
  | kill (taken : Section) (count : Nat)
  /-- `ApplyCommitted` moves `last_applied_` and the state machine. -/
  | applied (index : Nat) (state : σ)

namespace Node

variable {σ : Type} (machine : Option (StateMachine σ)) {node : Node σ}

/-- The node after a kill and a new start. -/
def killed (node : Node σ) (taken : Section) (count : Nat) : Node σ :=
  (node.withDisk (node.disk.writeAll ((taken.writes machine node).take count))).restart

/-- One event. -/
def fileStep (node : Node σ) : FileEvent σ → Node σ
  | .run taken => taken.run machine node
  | .kill taken count => node.killed machine taken count
  | .applied index state => { node with lastApplied := index, machineState := state }

/-- The place of an image to install is an entry of the log, or the log begins at index zero. -/
def HoldsCut (node : Node σ) : Change σ → Prop
  | .install index term _ _ => node.log.base = 0 ∨
      (node.log.entryAt index).map (·.term) = some term
  | _ => True

instance (node : Node σ) : ∀ change, Decidable (node.SaveFits change) := by
  intro change
  induction change using Change.casesOn <;> unfold SaveFits <;> infer_instance

instance (node : Node σ) : ∀ change, Decidable (node.HoldsCut change) := by
  intro change
  induction change using Change.casesOn <;> unfold HoldsCut <;> infer_instance

/-- The saved images fit their length field, compactions find the last applied entry, and an
installation killed between its two saves finds the place of its image in the old log. -/
def FilesFit (node : Node σ) : FileEvent σ → Prop
  | .run taken => node.SaveFits (taken.change machine node)
  | .kill taken count => (taken.early node).length < count →
      node.SaveFits (taken.change machine node) ∧
        (count + 1 = (taken.writes machine node).length →
          node.HoldsCut (taken.change machine node))
  | .applied _ _ => True

instance (node : Node σ) : ∀ event, Decidable (node.FilesFit machine event) := by
  intro event
  unfold FilesFit
  split <;> infer_instance

variable {machine}

/-- The snapshot that a section saves belongs to the old log. -/
theorem Kept.backs_old (kept : Kept node) {taken : Section}
    (fits : node.SaveFits (taken.change machine node))
    (holds : node.HoldsCut (taken.change machine node))
    (saves : 2 ≤ ((taken.change machine node).writes (taken.run machine node)).length)
    (based : 0 < node.log.base) : (taken.run machine node).payload.Backs node.log := by
  have core := core_run machine node taken
  have makes := makes_change machine node taken
  generalize taken.run machine node = result at *
  have index_eq := congrArg Core.lastSnapshotIndex core
  have term_eq := congrArg Core.lastSnapshotTerm core
  have data_eq := congrArg Core.snapshotData core
  generalize taken.change machine node = change at *
  cases change with
  | install _ _ image _ =>
    have data_eq : result.snapshotData = image := data_eq
    rcases holds with zero | held
    · exact absurd zero (ne_of_gt based)
    · obtain ⟨entry, held, same⟩ := map_eq_some_iff.mp held
      refine backs_of_held (data_eq ▸ fits) (data_eq ▸ makes.1) ⟨entry, ?_, same.trans term_eq.symm⟩
      exact (congrArg node.log.entryAt index_eq).trans held
  | compact data =>
    dsimp only [Node.core, Change.apply] at data_eq term_eq
    obtain ⟨entry, held⟩ := kept.held_of_compact fits makes.2.1 based
    rw [getLogEntry, held] at term_eq
    refine backs_of_held (data_eq ▸ fits.1) (data_eq ▸ makes.1) ⟨entry, ?_, term_eq.symm⟩
    exact (congrArg node.log.entryAt index_eq).trans held
  | nothing | commit _ | refuse _
  | gap _ | push _ _ _ => simp [Change.writes] at saves
  | merge _ _ =>
    rw [Change.writes] at saves
    split at saves
    · simp at saves
    · simp at saves

/-- Of two saves behind a change, the first is that of the snapshot. -/
theorem writes_of_two {result : Node σ} {change : Change σ}
    (two : 2 ≤ (change.writes result).length) :
    change.writes result = [.snapshot result.payload, .state result.persisted] := by
  have whole : 2 ≤ (result.payloadWrites ++ [DiskWrite.state result.persisted]).length →
      result.payloadWrites ++ [DiskWrite.state result.persisted] =
        [.snapshot result.payload, .state result.persisted] := by
    unfold payloadWrites
    split
    · intro short
      simp at short
    · exact fun _ => rfl
  cases change with
  | install _ _ _ _ => exact whole two
  | compact _ => exact whole two
  | merge _ _ =>
    rw [Change.writes] at two
    split at two
    · simp at two
    · simp at two
  | nothing | commit _ | refuse _ | gap _
  | push _ _ _ => simp [Change.writes] at two

/-- A section that is killed leaves a pair of files as well. -/
theorem Kept.kill (kept : Kept node) {taken : Section} {count : Nat}
    (genuine : taken.Genuine σ) (fits : node.FilesFit machine (.kill taken count)) :
    Kept (node.killed machine taken count) := by
  obtain ⟨early_saves, _⟩ := kept.saves.writeAll (carry_early node taken)
  refine kept_restart ?_
  intro file found based
  rcases lt_or_ge (taken.early node).length count with beyond | within
  · obtain ⟨fits, holds⟩ := fits beyond
    rcases lt_or_ge count (taken.writes machine node).length with _ | complete
    · -- Only the snapshot is saved.
      have length_eq : (taken.writes machine node).length = (taken.early node).length +
          ((taken.change machine node).writes (taken.run machine node)).length := length_append
      have two : 2 ≤ ((taken.change machine node).writes (taken.run machine node)).length := by
        omega
      have pair := writes_of_two two
      rw [pair, length_cons, length_singleton] at length_eq
      have count_eq : count = (taken.early node).length + 1 := by omega
      have taken_writes : (taken.writes machine node).take count =
          taken.early node ++ [.snapshot (taken.run machine node).payload] := by
        rw [writes, pair, count_eq, take_length_add_append]
        rfl
      have disk_eq : (node.withDisk (node.disk.writeAll
          ((taken.writes machine node).take count))).disk =
          (node.disk.writeAll (taken.early node)).write
            (.snapshot (taken.run machine node).payload) := by
        rw [taken_writes, writeAll_append]
        rfl
      have found : (node.disk.writeAll (taken.early node)).stateFile = some file :=
        (congrArg Disk.stateFile disk_eq).symm.trans found
      have log_eq := early_saves.saved file found
      rw [log_eq] at based ⊢
      rw [disk_eq]
      exact ⟨_, rfl, kept.backs_old fits (holds (by omega)) two based⟩
    · have kept_run := Section.Kept.run kept genuine fits
      have disk_eq : (node.withDisk (node.disk.writeAll
          ((taken.writes machine node).take count))).disk = (taken.run machine node).disk := by
        rw [take_of_length_le complete, disk_run]
        rfl
      have found : (taken.run machine node).disk.stateFile = some file :=
        (congrArg Disk.stateFile disk_eq).symm.trans found
      have log_eq := kept_run.saves.saved file found
      rw [log_eq] at based ⊢
      rw [disk_eq]
      exact ⟨_, kept_run.backed based⟩
  · have taken_writes : (taken.writes machine node).take count = (taken.early node).take count := by
      rw [writes, take_append_of_le_length within]
    have carry : Disk.Carry ((taken.early node).take count) node.log := fun write member =>
      carry_early node taken write (mem_of_mem_take member)
    obtain ⟨saves, snapshot⟩ := kept.saves.writeAll carry
    rw [← taken_writes] at saves snapshot
    have log_eq := saves.saved file found
    rw [log_eq] at based ⊢
    obtain ⟨stored, backs⟩ := kept.backed based
    exact ⟨_, snapshot.trans stored, backs⟩

end Node

/-- The requests among the events are ones that `ReplicateLog` builds. -/
def FileEvent.Genuine {σ : Type} : FileEvent σ → Prop
  | .run taken | .kill taken _ => taken.Genuine σ
  | .applied _ _ => True

namespace Node

open Runs

variable {σ : Type}

/-- Every event keeps the files a pair. -/
theorem Kept.fileStep (kept : Kept node) (genuine : event.Genuine)
    (fits : node.FilesFit machine event) : Kept (node.fileStep machine event) := by
  cases event with
  | run _ => exact Section.Kept.run kept genuine fits
  | kill _ _ => exact kept.kill genuine fits
  | applied _ _ => exact ⟨kept.saves, kept.backed⟩

/-- In every run whose saves fit, killed and started again at any save, a log that does not
begin at index zero is covered by a snapshot. -/
theorem snapshot_covers_log (machine : Option (StateMachine σ)) (opts : RaftOptions) (state : σ)
    (events : List (FileEvent σ)) (genuine : ∀ event ∈ events, event.Genuine)
    (fits : Meets (fileStep machine) (FilesFit machine)
      { opts := opts, machineState := state } events) :
    Covered (run (fileStep machine) { opts := opts, machineState := state } events) := by
  have both := fits.and (meets_of_forall genuine)
  exact (both.invariant kept_fresh fun node event kept allowed =>
    kept.fileStep allowed.2 allowed.1).covered

/-- A snapshot of one byte that a leader of term one sends. -/
def snapshotUpTo (index : Nat) : Section :=
  .installSnapshot
    { term := 1, leaderId := 1, lastIncludedIndex := index, lastIncludedTerm := 1, data := [7] }

/-- A follower installs a snapshot, and is killed behind some saves of the next. -/
abbrev killedBehind (saves : Nat) : Node Unit :=
  run (fileStep none) idleNode [.run (snapshotUpTo 5), .kill (snapshotUpTo 10) saves]

/-- Behind both saves it has the second snapshot. -/
theorem snapshot_covers_log_twoInstalls :
    (killedBehind 2).log.base = 10 ∧ Covered (killedBehind 2) := by
  refine ⟨by decide +kernel, snapshot_covers_log none _ _ _ ?_ (by decide +kernel)⟩
  intro event member
  simp only [mem_cons, not_mem_nil, or_false] at member
  rcases member with rfl | rfl
  · trivial
  · trivial

/-- Between the two saves it is left with the log of the first snapshot and no snapshot. -/
theorem snapshot_lost_between_saves :
    (killedBehind 1).log.base = 5 ∧ (killedBehind 1).snapshotData = [] ∧
      ¬ Covered (killedBehind 1) := by
  have based : (killedBehind 1).log.base = 5 := by decide +kernel
  have empty : (killedBehind 1).snapshotData = [] := by decide +kernel
  exact ⟨based, empty, fun covered => covered.nonempty (by rw [based]; decide) empty⟩

end Node

end LightKV.Raft
