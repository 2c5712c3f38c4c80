import LightKV.MapRefinement

/-!
# Where acknowledged records are

Writers append records, memtables are rotated, and flushes are attempted and retried. A
rotation may fail to open the next log; the memtable is swapped nevertheless, and the
current log goes on to take the records of the new memtable. A flush may fail while the
table is built, finished or opened, or when the manifest is updated; in the last case the
directory may or may not name the table, which is then removed.

At every moment each record is in a log that still exists, or in a table that the manifest
on disk names. The records of the active log are in the active memtable, in the immutable
one, or already in a table, and those of the log that is waiting to be dropped are not in
the active memtable. So that log is dropped only when its records are in tables.
-/

namespace LightKV

open Versions Runs List Disk

/-! ## Records in memtables, logs and tables -/

/-- The versions of a record, its range tombstones among them. -/
def WALRecord.entries (record : WALRecord) : List Entry :=
  record.points ++ record.tombstones.map SSTable.tombstoneEntry

/-- What a flush of a memtable writes, before it is sorted. -/
def MemTable.entries (mem : MemTable) : List Entry :=
  mem.nodes ++ mem.rangeTombstones.map SSTable.tombstoneEntry

/-- The table holds the versions of the record, in the form in which tables store them. -/
def SSTable.Stores (table : SSTable) (record : WALRecord) : Prop :=
  ∀ entry ∈ record.entries, entry.pack.unpack ∈ table.entries

/-- An inserted record is in the memtable, with what was there before. -/
theorem MemTable.entries_replayRecord (mem : MemTable) :
    record.entries ⊆ (mem.replayRecord record).entries ∧
      mem.entries ⊆ (mem.replayRecord record).entries := by
  have nodes : ∀ {entry}, entry ∈ (mem.replayRecord record).nodes ↔
      entry ∈ record.points ∨ entry ∈ mem.nodes := by
    intro _
    rw [replayRecord_eq, mem_nodes_applyAll]
    rfl
  have tombstones : (mem.replayRecord record).rangeTombstones =
      mem.rangeTombstones ++ record.tombstones := by
    rw [replayRecord_eq, rangeTombstones_applyAll]
    rfl
  unfold MemTable.entries WALRecord.entries
  rw [tombstones, map_append]
  constructor
  · intro _ member
    rcases mem_append.mp member with point | tombstone
    · exact mem_append_left _ (nodes.mpr (.inl point))
    · exact mem_append_right _ (mem_append_right _ tombstone)
  · intro _ member
    rcases mem_append.mp member with point | tombstone
    · exact mem_append_left _ (nodes.mpr (.inr point))
    · exact mem_append_right _ (mem_append_left _ tombstone)

/-- The table of a flush stores what the memtable holds. -/
theorem stores_build
    (held : record.entries ⊆ mem.entries) :
    (TableBuilder.build options fileId (Database.flushEntries sorter mem)).Stores record := by
  intro _ member
  rw [TableBuilder.entries_build]
  apply mem_map_of_mem
  exact sorter.mem_sort.mpr (mem_map_of_mem (held member))

namespace Disk

/-- The log with the name exists. -/
def HasWal (disk : Disk) (name : Bytes) : Prop :=
  ∃ file ∈ disk.wals, file.name = name

/-- The log with the name exists and has the record. -/
def Logs (disk : Disk) (name : Bytes) (record : WALRecord) : Prop :=
  ∃ file ∈ disk.wals, file.name = name ∧ record ∈ file.records

/-- The table with the number is on disk and stores the record. -/
def Keeps (disk : Disk) (fileId : Nat) (record : WALRecord) : Prop :=
  ∃ table, disk.table? fileId = some table ∧ table.Stores record

variable {disk : Disk} {name other : Bytes} {record added : WALRecord}

theorem hasWal_appendWal : (disk.appendWal name added).HasWal other ↔ disk.HasWal other := by
  unfold HasWal appendWal
  simp only [mem_map]
  grind

theorem hasWal_createWal : (disk.createWal name).HasWal name :=
  ⟨⟨name, []⟩, mem_append_right _ mem_cons_self, rfl⟩

theorem logs_appendWal :
    (disk.appendWal name added).Logs other record ↔
      disk.Logs other record ∨ other = name ∧ record = added ∧ disk.HasWal name := by
  unfold Logs HasWal appendWal
  simp only [mem_map]
  grind

theorem logs_removeWal :
    (disk.removeWal name).Logs other record ↔ other ≠ name ∧ disk.Logs other record := by
  unfold Logs removeWal
  grind

theorem logs_createWal :
    (disk.createWal name).Logs other record ↔ other ≠ name ∧ disk.Logs other record := by
  rw [← logs_removeWal]
  unfold Logs createWal
  grind

end Disk

/-- The manifest names the table. -/
def Manifest.Names (manifest : Manifest) (fileId : Nat) : Prop :=
  ∃ level, ∃ data ∈ manifest.files level, data.fileId = fileId

/-- The manifest on disk names a table that is there and stores the record. -/
def Disk.Named (disk : Disk) (record : WALRecord) : Prop :=
  ∃ manifest, disk.manifest = some manifest ∧
    ∃ fileId, manifest.Names fileId ∧ disk.Keeps fileId record

theorem Manifest.names_addFile (manifest : Manifest) :
    (manifest.addFile 0 data).Names fileId ↔ manifest.Names fileId ∨ data.fileId = fileId := by
  unfold Names addFile
  rw [if_neg (by decide)]
  dsimp only
  constructor
  · rintro ⟨level, found, member, rfl⟩
    rcases mem_update_append.mp member with old | ⟨_, new⟩
    · exact .inl ⟨level, found, old, rfl⟩
    · exact .inr (by rw [mem_singleton.mp new])
  · rintro (⟨level, found, member, rfl⟩ | rfl)
    · exact ⟨level, found, mem_update_append.mpr (.inl member), rfl⟩
    · exact ⟨0, data, mem_update_append.mpr (.inr ⟨rfl, mem_cons_self⟩), rfl⟩

theorem Manifest.Names.removeFile {manifest : Manifest}
    (named : manifest.Names fileId) (different : fileId ≠ removed) :
    (manifest.removeFile 0 removed).Names fileId := by
  obtain ⟨level, data, member, rfl⟩ := named
  unfold Names Manifest.removeFile
  rw [if_neg (by decide)]
  dsimp only
  refine ⟨level, data, ?_, rfl⟩
  by_cases first : level = 0
  · subst first
    exact mem_filter.mpr ⟨member, by simpa using different⟩
  · rwa [Function.update_of_ne first]

/-! ## Writers, rotations and flush attempts -/

/-- How far an attempt to flush has come. -/
inductive FlushStage where
  | idle
  /-- The table is written and can be opened. -/
  | built (table : SSTable)
  /-- The table is in level 0 and in the manifest in memory; the last argument is
  `prev_flushed_seq`. -/
  | listed (table : SSTable) (previous : Nat)
  /-- The manifest could not be updated. -/
  | failed (table : SSTable) (previous : Nat)
  deriving DecidableEq, Repr

/-- The number of the table an attempt is about. -/
def FlushStage.fileId? : FlushStage → Option Nat
  | .idle => none
  | .built table | .listed table _ | .failed table _ => some table.fileId

/-- The database with the stage of the current attempt. -/
structure Engine where
  db : Database
  stage : FlushStage

/-- What happens: writes of any threads, rotations and the steps of flush attempts. -/
inductive EngineEvent where
  /-- A writer takes a sequence number. -/
  | claim
  /-- A writer appends and inserts its record. -/
  | write (record : WALRecord)
  | triggerFlush
  /-- A rotation that cannot open the next log. -/
  | triggerFlushKeepingWal
  | buildTable
  /-- `Add`, `Finish` or the opening of the table fails. -/
  | buildFails
  | listTable
  | updateManifest
  /-- The update fails; the manifest on disk may still be the new one. -/
  | updateManifestFails (installed : Bool)
  | abandonTable
  | flushRelease

namespace Database

/-- `DBImpl::TriggerFlush` when the next log cannot be opened: the memtables are swapped and the
current log stays. -/
def triggerFlushKeepingWal (db : Database) : Database :=
  if db.imm.isSome then db
  else { db with mem := .new, imm := some db.mem, nextWalId := db.nextWalId + 1 }

/-- `WriteLevel0Table` in front of the manifest: the table is installed. -/
def installTable (db : Database) (table : SSTable) (maxSeq : Nat) : Database :=
  { db with
    levels := Function.update db.levels 0 (db.levels 0 ++ [table])
    flushedSeq := maxSeq
    manifest := { db.manifest.addFile 0 table.metaData with flushedSeq := maxSeq } }

/-- The cleanup of `WriteLevel0Table` when the manifest could not be updated. -/
def uninstallTable (db : Database) (fileId previous : Nat) : Database :=
  { db with
    flushedSeq := previous
    levels := Function.update db.levels 0
      ((db.levels 0).filter fun table => decide (table.fileId ≠ fileId))
    manifest := db.manifest.removeFile 0 fileId
    disk := db.disk.removeTable fileId }

end Database

namespace Engine

/-- The engine on an empty directory. -/
def fresh (options : Options) : Engine :=
  ⟨.fresh options, .idle⟩

/-- One event; an event that does not fit the stage does nothing. -/
def step (sorter : StdSort internalKeyLess) (engine : Engine) : EngineEvent → Engine
  | .claim => { engine with db := engine.db.claim }
  | .write record => { engine with db := engine.db.commit record }
  | .triggerFlush => { engine with db := engine.db.triggerFlush }
  | .triggerFlushKeepingWal => { engine with db := engine.db.triggerFlushKeepingWal }
  | .buildTable =>
      match engine.db.imm, engine.stage with
      | some mem, .idle =>
          if engine.db.flushing then engine
          else
            let table := TableBuilder.build engine.db.options engine.db.nextFileId
              (Database.flushEntries sorter mem)
            { db :=
                { engine.db with
                  nextFileId := engine.db.nextFileId + 1
                  disk := engine.db.disk.writeTable table }
              stage := .built table }
      | _, _ => engine
  | .buildFails =>
      match engine.stage with
      | .idle =>
          { engine with
            db :=
              { engine.db with
                nextFileId := engine.db.nextFileId + 1
                disk := engine.db.disk.removeTable engine.db.nextFileId } }
      | _ => engine
  | .listTable =>
      match engine.db.imm, engine.stage with
      | some mem, .built table =>
          ⟨engine.db.installTable table mem.maxSeq, .listed table engine.db.flushedSeq⟩
      | _, _ => engine
  | .updateManifest =>
      match engine.stage with
      | .listed _ _ => ⟨{ engine.db.updateManifest with flushing := true }, .idle⟩
      | _ => engine
  | .updateManifestFails installed =>
      match engine.stage with
      | .listed table previous =>
          ⟨if installed then engine.db.updateManifest
            else { engine.db with manifest := engine.db.updateManifest.manifest },
            .failed table previous⟩
      | _ => engine
  | .abandonTable =>
      match engine.stage with
      | .failed table previous => ⟨engine.db.uninstallTable table.fileId previous, .idle⟩
      | _ => engine
  | .flushRelease => { engine with db := engine.db.flushRelease }

/-- The records acknowledged in a run: every append that was made. -/
def acknowledged (events : List EngineEvent) : List WALRecord :=
  events.filterMap fun
    | .write record => some record
    | _ => none

/-! ## The invariant -/

/-- The record is in a table that both manifests name and that no attempt is about. -/
structure Settled (engine : Engine) (record : WALRecord) (fileId : Nat) : Prop where
  numbered : fileId < engine.db.nextFileId
  kept : engine.db.disk.Keeps fileId record
  onDisk : ∃ manifest, engine.db.disk.manifest = some manifest ∧ manifest.Names fileId
  inMemory : engine.db.manifest.Names fileId
  apart : engine.stage.fileId? ≠ some fileId

/-- The record is in some settled table. -/
def SettledIn (engine : Engine) (record : WALRecord) : Prop :=
  ∃ fileId, Settled engine record fileId

/-- The immutable memtable holds the record. -/
def ImmHolds (engine : Engine) (record : WALRecord) : Prop :=
  ∃ imm, engine.db.imm = some imm ∧ record.entries ⊆ imm.entries

/-- What is known of the table of an attempt: it is on disk and has everything of the immutable
memtable; once it is listed, the manifest in memory names it. -/
def StageSound (engine : Engine) : Prop :=
  match engine.stage with
  | .idle => True
  | .built table =>
      table.fileId < engine.db.nextFileId ∧
        engine.db.disk.table? table.fileId = some table ∧
        ∀ record, ImmHolds engine record → table.Stores record
  | .listed table _ =>
      table.fileId < engine.db.nextFileId ∧
        engine.db.disk.table? table.fileId = some table ∧
        (∀ record, ImmHolds engine record → table.Stores record) ∧
        engine.db.manifest.Names table.fileId
  | .failed table _ => table.fileId < engine.db.nextFileId

/-- Where the records of the logs are. -/
structure Placed (engine : Engine) (records : List WALRecord) : Prop where
  present : engine.db.disk.HasWal engine.db.walPath
  walPath : ∃ number < engine.db.nextWalId, engine.db.walPath = walName number
  immWalPath : engine.db.immWalPath ≠ [] →
    ∃ number < engine.db.nextWalId, engine.db.immWalPath = walName number
  apart : engine.db.immWalPath ≠ engine.db.walPath
  quiet : engine.db.imm = none →
    engine.db.immWalPath = [] ∧ engine.db.flushing = false ∧ engine.stage = .idle
  active : ∀ record, engine.db.disk.Logs engine.db.walPath record →
    record.entries ⊆ engine.db.mem.entries ∨ ImmHolds engine record ∨ SettledIn engine record
  waiting : engine.db.immWalPath ≠ [] →
    ∀ record, engine.db.disk.Logs engine.db.immWalPath record →
    ImmHolds engine record ∨ SettledIn engine record
  flushed : engine.db.flushing = true → engine.stage = .idle ∧
    ∀ record, ImmHolds engine record → SettledIn engine record
  stage : StageSound engine
  covered : ∀ record ∈ records, engine.db.disk.Logs engine.db.walPath record ∨
    engine.db.immWalPath ≠ [] ∧ engine.db.disk.Logs engine.db.immWalPath record ∨
    SettledIn engine record

theorem walName_ne_nil : walName number ≠ [] := by
  simp [walName]

theorem placed_fresh (options : Options) : Placed (fresh options) [] where
  present := hasWal_createWal
  walPath := ⟨1, Nat.lt_succ_self 1, rfl⟩
  immWalPath named := absurd rfl named
  apart := walName_ne_nil.symm
  quiet _ := ⟨rfl, rfl, rfl⟩
  active record logged := absurd rfl (logs_createWal.mp logged).1
  waiting named := absurd rfl named
  flushed impossible := by cases impossible
  stage := trivial
  covered record member := by cases member

variable {engine later : Engine} {record : WALRecord}

/-- What a step has to leave alone for the settled records to stay settled. -/
structure Preserves (engine later : Engine) : Prop where
  numbers : engine.db.nextFileId ≤ later.db.nextFileId
  tables : ∀ fileId < engine.db.nextFileId, engine.stage.fileId? ≠ some fileId →
    later.db.disk.table? fileId = engine.db.disk.table? fileId
  onDisk : ∀ fileId, engine.stage.fileId? ≠ some fileId → engine.db.manifest.Names fileId →
    (∃ manifest, engine.db.disk.manifest = some manifest ∧ manifest.Names fileId) →
    ∃ manifest, later.db.disk.manifest = some manifest ∧ manifest.Names fileId
  inMemory : ∀ fileId, engine.stage.fileId? ≠ some fileId → engine.db.manifest.Names fileId →
    later.db.manifest.Names fileId
  stage : ∀ fileId < engine.db.nextFileId, engine.stage.fileId? ≠ some fileId →
    later.stage.fileId? ≠ some fileId

theorem SettledIn.preserved (settled : SettledIn engine record)
    (preserves : Preserves engine later) : SettledIn later record := by
  obtain ⟨fileId, settled⟩ := settled
  obtain ⟨table, present, stores⟩ := settled.kept
  refine ⟨fileId, ?_, ⟨table, ?_, stores⟩, ?_, ?_, ?_⟩
  · exact lt_of_lt_of_le settled.numbered preserves.numbers
  · rw [preserves.tables fileId settled.numbered settled.apart, present]
  · exact preserves.onDisk fileId settled.apart settled.inMemory settled.onDisk
  · exact preserves.inMemory fileId settled.apart settled.inMemory
  · exact preserves.stage fileId settled.numbered settled.apart

theorem preserves_of_same (numbers : later.db.nextFileId = engine.db.nextFileId)
    (tables : later.db.disk.tables = engine.db.disk.tables)
    (onDisk : later.db.disk.manifest = engine.db.disk.manifest)
    (inMemory : later.db.manifest = engine.db.manifest) (stage : later.stage = engine.stage) :
    Preserves engine later where
  numbers := le_of_eq numbers.symm
  tables _ _ _ := by rw [Disk.table?, tables]; rfl
  onDisk _ _ _ named := by rwa [onDisk]
  inMemory _ _ named := by rwa [inMemory]
  stage _ _ apart := by rwa [stage]

/-- The table of an attempt is not touched by steps that leave the immutable memtable, the tables
and the manifest in memory alone. -/
theorem stageSound_of_same (sound : StageSound engine)
    (numbers : later.db.nextFileId = engine.db.nextFileId)
    (tables : later.db.disk.tables = engine.db.disk.tables)
    (inMemory : later.db.manifest = engine.db.manifest) (stage : later.stage = engine.stage)
    (imm : later.db.imm = engine.db.imm) : StageSound later := by
  unfold StageSound ImmHolds Disk.table? at *
  rw [stage, numbers, tables, inMemory, imm]
  exact sound

theorem stageSound_of_idle (idle : engine.stage = .idle) : StageSound engine := by
  rw [StageSound, idle]
  trivial

variable {records : List WALRecord}

section

variable (placed : Placed engine records)
include placed

theorem Placed.of_preserves (mem : later.db.mem = engine.db.mem)
    (imm : later.db.imm = engine.db.imm) (wals : later.db.disk.wals = engine.db.disk.wals)
    (walPath : later.db.walPath = engine.db.walPath)
    (immWalPath : later.db.immWalPath = engine.db.immWalPath)
    (nextWalId : later.db.nextWalId = engine.db.nextWalId) (preserves : Preserves engine later)
    (quiet : engine.db.imm = none → later.db.flushing = false ∧ later.stage = .idle)
    (flushed : later.db.flushing = true →
      later.stage = .idle ∧ ∀ record, ImmHolds engine record → SettledIn later record)
    (stage : StageSound later) : Placed later records := by
  have holds : ∀ record, ImmHolds later record ↔ ImmHolds engine record := by
    intro _
    unfold ImmHolds
    rw [imm]
  have logs : ∀ name record, later.db.disk.Logs name record ↔ engine.db.disk.Logs name record := by
    intro _ _
    unfold Disk.Logs
    rw [wals]
  refine ⟨?_, ?_, ?_, ?_, ?_, ?_, ?_, ?_, stage, ?_⟩
  · rw [walPath, Disk.HasWal, wals]
    exact placed.present
  · rw [walPath, nextWalId]
    exact placed.walPath
  · rw [immWalPath, nextWalId]
    exact placed.immWalPath
  · rw [walPath, immWalPath]
    exact placed.apart
  · rw [imm, immWalPath]
    exact fun none => ⟨(placed.quiet none).1, quiet none⟩
  · intro record logged
    rw [walPath, logs] at logged
    rw [mem, holds]
    exact (placed.active record logged).imp_right
      (.imp_right fun settled => settled.preserved preserves)
  · intro named record logged
    rw [immWalPath] at named
    rw [immWalPath, logs] at logged
    rw [holds]
    exact (placed.waiting named record logged).imp_right fun settled => settled.preserved preserves
  · intro flushing
    obtain ⟨idle, settled⟩ := flushed flushing
    exact ⟨idle, fun record held => settled record ((holds record).mp held)⟩
  · intro record member
    rw [walPath, immWalPath, logs, logs]
    exact (placed.covered record member).imp_right
      (.imp_right fun settled => settled.preserved preserves)

theorem Placed.flushed_preserved (preserves : Preserves engine later)
    (flushing : engine.db.flushing = true) :
    engine.stage = .idle ∧ ∀ record, ImmHolds engine record → SettledIn later record := by
  obtain ⟨idle, settled⟩ := placed.flushed flushing
  exact ⟨idle, fun record held => (settled record held).preserved preserves⟩

/-- What is known of the table at the stage of the attempt. -/
theorem Placed.sound_at {at_stage : FlushStage} (reached : engine.stage = at_stage) :
    StageSound { engine with stage := at_stage } :=
  reached ▸ placed.stage

theorem Placed.claim : Placed { engine with db := engine.db.claim } records := by
  have preserves : Preserves engine { engine with db := engine.db.claim } :=
    preserves_of_same rfl rfl rfl rfl rfl
  exact placed.of_preserves rfl rfl rfl rfl rfl rfl preserves (fun none => (placed.quiet none).2)
    (placed.flushed_preserved preserves) (stageSound_of_same placed.stage rfl rfl rfl rfl rfl)

/-- A write is in the active log and in the active memtable. -/
theorem Placed.write :
    Placed { engine with db := engine.db.commit added } (records ++ [added]) := by
  have preserves : Preserves engine { engine with db := engine.db.commit added } :=
    preserves_of_same rfl rfl rfl rfl rfl
  obtain ⟨holds, grows⟩ := engine.db.mem.entries_replayRecord
  refine ⟨hasWal_appendWal.mpr placed.present, placed.walPath, placed.immWalPath, placed.apart,
    placed.quiet, ?_, ?_, placed.flushed_preserved preserves, ?_, ?_⟩
  · intro record logged
    rcases logs_appendWal.mp logged with old | ⟨_, rfl, _⟩
    · rcases placed.active record old with held | imm | settled
      · exact .inl (List.Subset.trans held grows)
      · exact .inr (.inl imm)
      · exact .inr (.inr (settled.preserved preserves))
    · exact .inl holds
  · intro named record logged
    rcases logs_appendWal.mp logged with old | ⟨same, _⟩
    · exact (placed.waiting named record old).imp_right fun settled => settled.preserved preserves
    · exact absurd same placed.apart
  · exact stageSound_of_same placed.stage rfl rfl rfl rfl rfl
  · intro record member
    rcases mem_append.mp member with old | new
    · rcases placed.covered record old with active | ⟨named, waiting⟩ | settled
      · exact .inl (logs_appendWal.mpr (.inl active))
      · exact .inr (.inl ⟨named, logs_appendWal.mpr (.inl waiting)⟩)
      · exact .inr (.inr (settled.preserved preserves))
    · rw [mem_singleton.mp new]
      exact .inl (logs_appendWal.mpr (.inr ⟨rfl, rfl, placed.present⟩))

/-- A rotation turns the active log into the waiting one. -/
theorem Placed.triggerFlush : Placed { engine with db := engine.db.triggerFlush } records := by
  cases pending : engine.db.imm with
  | some _ =>
    rw [Database.triggerFlush_of_some pending]
    exact placed
  | none =>
    obtain ⟨no_path, not_flushing, idle⟩ := placed.quiet pending
    obtain ⟨number, below, walPath⟩ := placed.walPath
    rw [Database.triggerFlush_of_none pending]
    have preserves : Preserves engine { engine with db := engine.db.rotate } :=
      preserves_of_same rfl rfl rfl rfl rfl
    have fresh_name : engine.db.walPath ≠ walName engine.db.nextWalId := by
      rw [walPath]
      intro same
      exact absurd (walName_injective same) (ne_of_lt below)
    refine
      { present := hasWal_createWal
        walPath := ⟨engine.db.nextWalId, Nat.lt_succ_self _, rfl⟩
        immWalPath := fun _ => ⟨number, Nat.lt_succ_of_lt below, walPath⟩
        apart := fresh_name
        quiet := nofun
        active := fun _ logged => absurd rfl (logs_createWal.mp logged).1
        waiting := ?_
        flushed := fun flushing => absurd (not_flushing.symm.trans flushing) nofun
        stage := stageSound_of_idle idle
        covered := ?_ }
    · intro _ record logged
      rcases placed.active record (logs_createWal.mp logged).2 with
        held | ⟨_, impossible, _⟩ | settled
      · exact .inl ⟨engine.db.mem, rfl, held⟩
      · rw [pending] at impossible
        cases impossible
      · exact .inr (settled.preserved preserves)
    · intro record member
      rcases placed.covered record member with active | ⟨named, _⟩ | settled
      · have named : engine.db.walPath ≠ [] := walPath ▸ walName_ne_nil
        exact .inr (.inl ⟨named, logs_createWal.mpr ⟨fresh_name, active⟩⟩)
      · exact absurd no_path named
      · exact .inr (.inr (settled.preserved preserves))

/-- A rotation without a new log: the active log keeps the records of both memtables. -/
theorem Placed.triggerFlushKeepingWal :
    Placed { engine with db := engine.db.triggerFlushKeepingWal } records := by
  unfold Database.triggerFlushKeepingWal
  cases pending : engine.db.imm with
  | some _ => exact placed
  | none =>
    obtain ⟨no_path, not_flushing, idle⟩ := placed.quiet pending
    obtain ⟨number, below, walPath⟩ := placed.walPath
    have preserves : Preserves engine { engine with
        db := { engine.db with
          mem := .new, imm := some engine.db.mem, nextWalId := engine.db.nextWalId + 1 } } :=
      preserves_of_same rfl rfl rfl rfl rfl
    refine
      { present := placed.present
        walPath := ⟨number, Nat.lt_succ_of_lt below, walPath⟩
        immWalPath := fun named => absurd no_path named
        apart := placed.apart
        quiet := nofun
        active := ?_
        waiting := fun named => absurd no_path named
        flushed := fun flushing => absurd (not_flushing.symm.trans flushing) nofun
        stage := stageSound_of_idle idle
        covered := ?_ }
    · intro record logged
      rcases placed.active record logged with held | ⟨_, impossible, _⟩ | settled
      · exact .inr (.inl ⟨engine.db.mem, rfl, held⟩)
      · rw [pending] at impossible
        cases impossible
      · exact .inr (.inr (settled.preserved preserves))
    · intro record member
      rcases placed.covered record member with active | ⟨named, _⟩ | settled
      · exact .inl active
      · exact absurd no_path named
      · exact .inr (.inr (settled.preserved preserves))

variable (sorter : StdSort internalKeyLess)

/-- A table is built under a number that no table has. -/
theorem Placed.buildTable : Placed (engine.step sorter .buildTable) records := by
  simp only [step]
  split
  · rename_i mem held idle
    split
    · exact placed
    rename_i not_flushing
    generalize built : TableBuilder.build engine.db.options engine.db.nextFileId
      (Database.flushEntries sorter mem) = table
    have number : table.fileId = engine.db.nextFileId := by rw [← built]; rfl
    refine placed.of_preserves rfl rfl rfl rfl rfl rfl ?_ ?_ ?_ ?_
    · refine ⟨Nat.le_succ _, ?_, fun _ _ _ named => named, fun _ _ named => named, ?_⟩
      · intro _ below _
        exact (Disk.table?_writeTable ..).trans (if_neg (number ▸ ne_of_lt below))
      · intro _ below _ same
        exact absurd (number.symm.trans (Option.some.inj same)) (ne_of_gt below)
    · intro none
      rw [held] at none
      cases none
    · exact fun flushing => absurd flushing not_flushing
    · refine ⟨number ▸ Nat.lt_succ_self _, ?_, ?_⟩
      · exact (Disk.table?_writeTable ..).trans (if_pos rfl)
      · rintro _ ⟨imm, same, inside⟩
        rw [show engine.db.imm = some imm from same] at held
        rw [← built, ← Option.some.inj held]
        exact stores_build inside
  · exact placed

/-- An attempt that fails before its table is listed only leaves a number unused. -/
theorem Placed.buildFails : Placed (engine.step sorter .buildFails) records := by
  simp only [step]
  split
  · rename_i idle
    have preserves : Preserves engine { engine with
        db := { engine.db with
          nextFileId := engine.db.nextFileId + 1
          disk := engine.db.disk.removeTable engine.db.nextFileId } } := by
      refine ⟨Nat.le_succ _, ?_, fun _ _ _ named => named, fun _ _ named => named, ?_⟩
      · intro _ below _
        exact (Disk.table?_removeTable ..).trans (if_neg (ne_of_lt below))
      · exact fun _ _ apart => apart
    exact placed.of_preserves rfl rfl rfl rfl rfl rfl preserves
      (fun none => (placed.quiet none).2) (placed.flushed_preserved preserves)
      (stageSound_of_idle idle)
  · exact placed

/-- Outside the idle stage a memtable waits and is not flushed. -/
theorem Placed.busy (busy : engine.stage ≠ .idle) :
    engine.db.imm ≠ none ∧ engine.db.flushing ≠ true :=
  ⟨fun none => busy (placed.quiet none).2.2, fun flushing => busy (placed.flushed flushing).1⟩

theorem Placed.listTable : Placed (engine.step sorter .listTable) records := by
  simp only [step]
  split
  · rename_i mem table held stage
    obtain ⟨pending, not_flushing⟩ := placed.busy (by rw [stage]; nofun)
    obtain ⟨number, present, stores⟩ := placed.sound_at stage
    have names : ∀ fileId, (engine.db.installTable table mem.maxSeq).manifest.Names fileId ↔
        engine.db.manifest.Names fileId ∨ table.fileId = fileId :=
      fun _ => engine.db.manifest.names_addFile
    refine placed.of_preserves rfl rfl rfl rfl rfl rfl ?_ (fun none => absurd none pending)
      (fun flushing => absurd flushing not_flushing) ?_
    · refine ⟨le_refl _, fun _ _ _ => rfl, fun _ _ _ named => named, ?_, ?_⟩
      · exact fun fileId _ named => (names fileId).mpr (.inl named)
      · intro _ _ apart
        rw [stage] at apart
        exact apart
    · exact ⟨number, present, stores, (names _).mpr (.inr rfl)⟩
  · exact placed

/-- The updated manifest names what the manifest in memory names, so the table is settled. -/
theorem Placed.updateManifest : Placed (engine.step sorter .updateManifest) records := by
  simp only [step]
  split
  · rename_i table previous stage
    obtain ⟨pending, _⟩ := placed.busy (by rw [stage]; nofun)
    obtain ⟨number, present, stores, named⟩ := placed.sound_at stage
    refine placed.of_preserves rfl rfl rfl rfl rfl rfl ?_ (fun none => absurd none pending) ?_
      trivial
    · refine ⟨le_refl _, fun _ _ _ => rfl, ?_, fun _ _ named => named, fun _ _ _ => nofun⟩
      exact fun _ _ inMemory _ => ⟨_, rfl, inMemory⟩
    · intro _
      refine ⟨rfl, fun record held => ⟨table.fileId, number, ?_, ⟨_, rfl, named⟩, named, nofun⟩⟩
      exact ⟨table, present, stores record held⟩
  · exact placed

/-- Whether the manifest was replaced or not, the settled tables stay named. -/
theorem Placed.updateManifestFails :
    Placed (engine.step sorter (.updateManifestFails installed)) records := by
  simp only [step]
  split
  · rename_i table previous stage
    obtain ⟨pending, not_flushing⟩ := placed.busy (by rw [stage]; nofun)
    obtain ⟨number, _⟩ := placed.sound_at stage
    have apart : ∀ fileId, engine.stage.fileId? ≠ some fileId →
        (FlushStage.failed table previous).fileId? ≠ some fileId := by
      rw [stage]
      exact fun _ apart => apart
    cases installed <;>
      refine placed.of_preserves rfl rfl rfl rfl rfl rfl ⟨le_refl _, fun _ _ _ => rfl, ?_,
        fun _ _ named => named, fun id _ => apart id⟩ (fun none => absurd none pending)
        (fun flushing => absurd flushing not_flushing) number
    case false => exact fun _ _ _ named => named
    case true => exact fun _ _ inMemory _ => ⟨_, rfl, inMemory⟩
  · exact placed

/-- The cleanup only touches the table of the failed attempt. -/
theorem Placed.abandonTable : Placed (engine.step sorter .abandonTable) records := by
  simp only [step]
  split
  · rename_i table previous stage
    obtain ⟨pending, not_flushing⟩ := placed.busy (by rw [stage]; nofun)
    refine placed.of_preserves rfl rfl rfl rfl rfl rfl ?_ (fun none => absurd none pending)
      (fun flushing => absurd flushing not_flushing) trivial
    have different : ∀ fileId, engine.stage.fileId? ≠ some fileId → fileId ≠ table.fileId := by
      rw [stage]
      rintro _ apart rfl
      exact apart rfl
    refine ⟨le_refl _, ?_, fun _ _ _ named => named, ?_, fun _ _ _ => nofun⟩
    · exact fun fileId _ apart =>
        (Disk.table?_removeTable ..).trans (if_neg (different fileId apart))
    · exact fun fileId apart named => named.removeFile (different fileId apart)
  · exact placed

/-- The log that a flush removes has only settled records. -/
theorem Placed.flushRelease : Placed { engine with db := engine.db.flushRelease } records := by
  by_cases flushing : engine.db.flushing = true
  · obtain ⟨idle, settled⟩ := placed.flushed flushing
    have released : engine.db.flushRelease =
        { engine.db with
          imm := none
          flushing := false
          immWalPath := []
          disk := if engine.db.immWalPath = [] then engine.db.disk
            else engine.db.disk.removeWal engine.db.immWalPath } := if_pos flushing
    rw [released]
    generalize disk_def : (if engine.db.immWalPath = [] then engine.db.disk
      else engine.db.disk.removeWal engine.db.immWalPath) = disk
    have tables : disk.tables = engine.db.disk.tables := by
      rw [← disk_def]
      split <;> rfl
    have onDisk : disk.manifest = engine.db.disk.manifest := by
      rw [← disk_def]
      split <;> rfl
    have logs : ∀ {name record}, disk.Logs name record → engine.db.disk.Logs name record := by
      intro _ _ logged
      rw [← disk_def] at logged
      split at logged
      · exact logged
      · exact (logs_removeWal.mp logged).2
    have still : ∀ {record}, engine.db.disk.Logs engine.db.walPath record →
        disk.Logs engine.db.walPath record := by
      intro _ logged
      rw [← disk_def]
      split
      · exact logged
      · exact logs_removeWal.mpr ⟨placed.apart.symm, logged⟩
    have preserves : Preserves engine { engine with
        db := { engine.db with imm := none, flushing := false, immWalPath := [], disk := disk } } :=
      preserves_of_same rfl tables onDisk rfl rfl
    obtain ⟨_, _, walPath⟩ := placed.walPath
    refine
      { present := ?_
        walPath := placed.walPath
        immWalPath := fun named => absurd rfl named
        apart := fun same => walName_ne_nil (walPath.symm.trans same.symm)
        quiet := fun _ => ⟨rfl, rfl, idle⟩
        active := ?_
        waiting := fun named => absurd rfl named
        flushed := nofun
        stage := stageSound_of_idle idle
        covered := ?_ }
    · obtain ⟨file, member, named⟩ := placed.present
      refine ⟨file, ?_, named⟩
      rw [← disk_def]
      split
      · exact member
      · exact mem_filter.mpr ⟨member, by simpa [named] using placed.apart.symm⟩
    · intro record logged
      rcases placed.active record (logs logged) with held | imm | already
      · exact .inl held
      · exact .inr (.inr ((settled record imm).preserved preserves))
      · exact .inr (.inr (already.preserved preserves))
    · intro record member
      rcases placed.covered record member with active | ⟨named, waiting⟩ | already
      · exact .inl (still active)
      · rcases placed.waiting named record waiting with imm | already
        · exact .inr (.inr ((settled record imm).preserved preserves))
        · exact .inr (.inr (already.preserved preserves))
      · exact .inr (.inr (already.preserved preserves))
  · have same : engine.db.flushRelease = engine.db := if_neg flushing
    rw [same]
    exact placed

/-- Every event keeps the records where the logs and the tables need them. -/
theorem Placed.step :
    Placed (engine.step sorter event) (records ++ acknowledged [event]) := by
  cases event with
  | write record => exact placed.write
  | claim => exact (append_nil records).symm ▸ placed.claim
  | triggerFlush => exact (append_nil records).symm ▸ placed.triggerFlush
  | triggerFlushKeepingWal => exact (append_nil records).symm ▸ placed.triggerFlushKeepingWal
  | buildTable => exact (append_nil records).symm ▸ placed.buildTable sorter
  | buildFails => exact (append_nil records).symm ▸ placed.buildFails sorter
  | listTable => exact (append_nil records).symm ▸ placed.listTable sorter
  | updateManifest => exact (append_nil records).symm ▸ placed.updateManifest sorter
  | updateManifestFails installed =>
    exact (append_nil records).symm ▸ placed.updateManifestFails sorter
  | abandonTable => exact (append_nil records).symm ▸ placed.abandonTable sorter
  | flushRelease => exact (append_nil records).symm ▸ placed.flushRelease

theorem Placed.run (events : List EngineEvent) :
    Placed (Runs.run (Engine.step sorter) engine events) (records ++ acknowledged events) := by
  induction events generalizing engine records with
  | nil =>
    rw [acknowledged, filterMap_nil, append_nil]
    exact placed
  | cons event events ih =>
    have split : acknowledged (event :: events) = acknowledged [event] ++ acknowledged events :=
      filterMap_append (l := [event])
    rw [split, ← append_assoc]
    exact ih (placed.step sorter)

end

/-- At every moment of every run of writes, rotations and flush attempts with any failures, every
acknowledged record is in a log that exists or in a table that the manifest on disk names. -/
theorem acknowledged_covered (sorter : StdSort internalKeyLess) (options : Options)
    (events : List EngineEvent) (record : WALRecord) (member : record ∈ acknowledged events) :
    (∃ name, (Runs.run (step sorter) (fresh options) events).db.disk.Logs name record) ∨
      (Runs.run (step sorter) (fresh options) events).db.disk.Named record := by
  have placed := (placed_fresh options).run sorter events
  rcases placed.covered record member with active | ⟨_, waiting⟩ | ⟨fileId, settled⟩
  · exact .inl ⟨_, active⟩
  · exact .inl ⟨_, waiting⟩
  · obtain ⟨manifest, onDisk, named⟩ := settled.onDisk
    exact .inr ⟨manifest, onDisk, fileId, named, settled.kept⟩

/-- A put whose first flush fails at the manifest and whose second flush succeeds. -/
def retriedFlush : List EngineEvent :=
  [.claim, .write (.value 0 [107] [0, 118]), .triggerFlush, .buildTable, .listTable,
    .updateManifestFails true, .abandonTable, .buildFails, .buildTable, .listTable,
    .updateManifest, .flushRelease]

theorem acknowledged_covered_retriedFlush :
    WALRecord.value 0 [107] [0, 118] ∈ acknowledged retriedFlush ∧
      ((∃ name, (Runs.run (step Database.insertionSorter) (fresh {}) retriedFlush).db.disk.Logs
          name (.value 0 [107] [0, 118])) ∨
        (Runs.run (step Database.insertionSorter) (fresh {}) retriedFlush).db.disk.Named
          (.value 0 [107] [0, 118])) :=
  ⟨by decide, acknowledged_covered Database.insertionSorter {} retriedFlush _ (by decide)⟩

end Engine

end LightKV
