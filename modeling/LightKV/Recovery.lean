import LightKV.LevelCompaction
import LightKV.PointRead

/-!
# Opening a directory

`DBImpl::Initialize` replays the logs in the order of their names into one memtable,
removes them, starts a new log and a new value-log file, and loads the tables that the
manifest names. Range tombstones are registered from the logs and from the tables.

What a database answers right after it was opened can be read off the directory: the last
logged version of a key decides, and without one the tables do (`Disk.answer`).
-/

namespace LightKV

open Versions Levels List MemTable

/-! ## Logs -/

/-- The order of log files by name. -/
def nameLe (first second : WalFile) : Prop :=
  ¬ second.name < first.name
  deriving Decidable

/-- The logs that `Initialize` replays, sorted by name. -/
def Disk.walFiles (disk : Disk) : List WalFile :=
  (disk.wals.filter fun file => isWalName file.name).insertionSort nameLe

namespace Disk

variable {disk : Disk}

theorem mem_walFiles : file ∈ disk.walFiles ↔ file ∈ disk.wals ∧ isWalName file.name = true := by
  unfold walFiles
  rw [mem_insertionSort, mem_filter]

/-- The names of the replayed logs increase. -/
theorem walFiles_increasing :
    disk.walFiles.Pairwise fun first second => first.name < second.name := by
  have : IsTrans WalFile nameLe := ⟨fun _ _ _ first second =>
    not_lt_of_ge (le_trans (le_of_not_gt first) (le_of_not_gt second))⟩
  have : Std.Total nameLe := ⟨fun first second =>
    (le_total first.name second.name).imp not_lt_of_ge not_lt_of_ge⟩
  have sorted : disk.walFiles.Pairwise nameLe := pairwise_insertionSort _ _
  have distinct : (disk.walFiles.map WalFile.name).Nodup := by
    have rearranged := (perm_insertionSort nameLe
      (disk.wals.filter fun file => isWalName file.name)).map WalFile.name
    exact rearranged.nodup_iff.mpr (distinct_filter disk.distinct)
  have apart := pairwise_map.mp distinct
  refine (sorted.and apart).imp ?_
  rintro _ _ ⟨ordered, different⟩
  exact lt_of_le_of_ne (le_of_not_gt ordered) different

/-- A list of the same logs with increasing names is the list of the replayed logs. -/
theorem walFiles_eq (increasing : files.Pairwise fun first second => first.name < second.name)
    (same : ∀ file, file ∈ files ↔ file ∈ disk.wals ∧ isWalName file.name = true) :
    disk.walFiles = files :=
  eq_of_increasing disk.walFiles_increasing increasing fun file =>
    mem_walFiles.trans (same file).symm

end Disk

/-- The sequence number behind all records. -/
def nextSeq (records : List WALRecord) : Nat :=
  records.foldl (fun seen record => max seen (record.seq + 1)) 0

/-! ## Tables -/

section Tables

-- The table files by their numbers.
variable (table? : Nat → Option SSTable)

/-- Load the files that the manifest names for one level. -/
def loadLevel (level : Nat) :
    List FileMetaData → (Nat → List SSTable) → Except Status (Nat → List SSTable)
  | [], levels => .ok levels
  | data :: files, levels =>
      match table? data.fileId with
      | none => .error (.ioError "cannot open sstable file")
      | some table => loadLevel level files (insertIntoLevel levels level table)

/-- Load the files of the levels. -/
def loadLevels (files : Nat → List FileMetaData) :
    List Nat → (Nat → List SSTable) → Except Status (Nat → List SSTable)
  | [], levels => .ok levels
  | level :: rest, levels =>
      match loadLevel table? level (files level) levels with
      | .error status => .error status
      | .ok loaded => loadLevels files rest loaded

/-- The scan of a directory without manifest: table files numbered from zero on. -/
def scanTables : Nat → Nat → List SSTable
  | 0, _ => []
  | fuel + 1, fileId =>
      match table? fileId with
      | none => []
      | some table => table :: scanTables fuel (fileId + 1)

end Tables

/-- What the manifest, or the scan, says about the tables: the levels, and the manifest to
go on with. -/
def Disk.metadata (disk : Disk) : Except Status ((Nat → List SSTable) × Manifest) :=
  match disk.manifest with
  | some manifest =>
      match loadLevels disk.table? manifest.files (List.range numLevels) fun _ => [] with
      | .error status => .error status
      | .ok levels => .ok (levels, manifest)
  | none =>
      -- A directory has finitely many tables, so the scan comes to a missing number.
      let scanned := scanTables disk.table? (disk.tables.length + 1) 0
      .ok (Function.update (fun _ => []) 0 scanned,
        { Manifest.new with nextFileId := max 1 scanned.length })

/-- `LoadRangeTombstonesFromSSTables`. -/
def loadTombstones (levels : Nat → List SSTable) : List RangeTombstone :=
  (List.range numLevels).flatMap fun level => (levels level).flatMap SSTable.rangeTombstones

/-! ## Initialize -/

/-- The directory when the replayed logs are removed. -/
def Disk.withoutWals (disk : Disk) (names : List Bytes) : Disk :=
  names.foldl Disk.removeWal disk

/-- The name of the new log. -/
def Disk.freshWal (disk : Disk) : Bytes :=
  walName (disk.walFiles.length + 1)

/-- The directory when the new log is there. -/
def Disk.withFreshWal (disk : Disk) : Disk :=
  (disk.withoutWals (disk.walFiles.map WalFile.name)).createWal disk.freshWal

/-- The directory when the new value-log file is there too. -/
def Disk.opened (disk : Disk) : Disk :=
  { disk.withFreshWal with vlogs := (VLogManager.initializeVLog disk.vlogs).2 }

/-- The records of the logs, in the order in which an opening replays them. -/
def Disk.logged (disk : Disk) : List WALRecord :=
  disk.walFiles.flatMap WalFile.records

/-- The database that an opening makes of the levels and the manifest it has loaded. -/
def Database.openedWith (options : Options) (killed : Disk) (levels : Nat → List SSTable)
    (manifest : Manifest) : Database where
  options := options
  lastSeq := max manifest.lastSeq (nextSeq killed.logged)
  nextFileId := manifest.nextFileId
  flushedSeq := manifest.flushedSeq
  mem := MemTable.new.replay killed.logged
  imm := none
  flushing := false
  levels := levels
  rangeTombstones := loggedTombstones killed.logged ++ loadTombstones levels
  manifest := manifest
  nextWalId := killed.walFiles.length + 2
  walPath := killed.freshWal
  immWalPath := []
  vlog := (VLogManager.initializeVLog killed.vlogs).1
  disk := killed.opened

/-- `DB::Open`, that is `DBImpl::Initialize`. -/
def openDatabase (options : Options) (disk : Disk) : Except Status Database :=
  match disk.metadata with
  | .error status => .error status
  | .ok (levels, manifest) => .ok (.openedWith options disk levels manifest)

/-! ## The answers of a directory -/

/-- What logged records over the tables of a directory answer for a key: the last logged
version, or else the tables, as far as the range tombstones of both allow. -/
def Disk.answer (disk : Disk) (records : List WALRecord) (log : VLogManager × List VLogFile)
    (key : Bytes) : Except Status Bytes :=
  match disk.metadata with
  | .error status => .error status
  | .ok (levels, manifest) =>
      let horizon := max manifest.lastSeq (nextSeq records)
      let tombstones := loggedTombstones records ++ loadTombstones levels
      let version := ((ofKey Entry.key key (loggedPoints records)).getLast?).or
        (searchLevels levels horizon key horizon)
      match version with
      | none => .error (.notFound "")
      | some entry =>
          if entry.type = .deletion ∨ covered tombstones key entry.seq horizon = true then
            .error (.notFound "")
          else log.1.unwrap log.2 entry.value

theorem seq_lt_nextSeq {records : List WALRecord}
    (member : record ∈ records) : record.seq < nextSeq records :=
  le_foldl_max (WALRecord.seq · + 1) member

namespace Disk

theorem withoutWals_eq (disk : Disk) (names : List Bytes) :
    (disk.withoutWals names).wals = disk.wals.filter (fun file => decide (file.name ∉ names)) ∧
      (disk.withoutWals names).tables = disk.tables ∧
      (disk.withoutWals names).manifest = disk.manifest ∧
      (disk.withoutWals names).vlogs = disk.vlogs := by
  induction names generalizing disk with
  | nil => simp [withoutWals]
  | cons name names ih =>
    obtain ⟨wals, tables, manifest, vlogs⟩ := ih (disk.removeWal name)
    have step : disk.withoutWals (name :: names) = (disk.removeWal name).withoutWals names := rfl
    rw [step]
    refine ⟨?_, tables, manifest, vlogs⟩
    rw [wals, removeWal]
    simp [Bool.and_comm]

/-- Removing the first logs leaves the others. -/
theorem walFiles_withoutWals (disk : Disk) (count : Nat) :
    (disk.withoutWals ((disk.walFiles.map WalFile.name).take count)).walFiles =
      disk.walFiles.drop count := by
  have increasing := disk.walFiles_increasing
  apply walFiles_eq (increasing.sublist (drop_sublist count _))
  intro file
  rw [(disk.withoutWals_eq _).1, mem_filter, decide_eq_true_eq, ← map_take]
  conv at increasing => rw [← take_append_drop count disk.walFiles]
  have across := (pairwise_append.mp increasing).2.2
  constructor
  · intro behind
    have listed := mem_walFiles.mp (mem_of_mem_drop behind)
    refine ⟨⟨listed.1, ?_⟩, listed.2⟩
    intro removed
    obtain ⟨other, in_front, same⟩ := mem_map.mp removed
    have below := across other in_front file behind
    rw [same] at below
    exact lt_irrefl _ below
  · rintro ⟨⟨present, kept⟩, named⟩
    have listed := mem_walFiles.mpr ⟨present, named⟩
    rw [← take_append_drop count disk.walFiles, mem_append] at listed
    rcases listed with in_front | behind
    · exact absurd (mem_map_of_mem in_front) kept
    · exact behind

/-- With the new log there is nothing to replay. -/
theorem walFiles_withFreshWal (disk : Disk) :
    disk.withFreshWal.walFiles = [⟨disk.freshWal, []⟩] := by
  apply walFiles_eq (pairwise_singleton _ _)
  intro file
  have removed := disk.walFiles_withoutWals disk.walFiles.length
  rw [take_of_length_le (by simp)] at removed
  unfold withFreshWal createWal
  simp only [mem_append, mem_singleton]
  constructor
  · rintro rfl
    exact ⟨.inr rfl, isWalName_walName⟩
  rintro ⟨old | new, named⟩
  · have listed : file ∈ (disk.withoutWals (disk.walFiles.map WalFile.name)).walFiles :=
      mem_walFiles.mpr ⟨(mem_filter.mp old).1, named⟩
    rw [removed] at listed
    exact absurd listed (by simp)
  · exact new

/-- A directory whose tables and manifest are those of another one has its metadata. -/
theorem metadata_congr {disk other : Disk} (tables : other.tables = disk.tables)
    (manifest : other.manifest = disk.manifest) : other.metadata = disk.metadata := by
  unfold metadata table?
  rw [tables, manifest]

theorem answer_congr {disk other : Disk} (tables : other.tables = disk.tables)
    (manifest : other.manifest = disk.manifest) :
    other.answer records log key = disk.answer records log key := by
  unfold answer
  rw [metadata_congr tables manifest]

end Disk

theorem openDatabase_ok_iff :
    (∃ db, openDatabase options disk = .ok db) ↔ ∃ found, disk.metadata = .ok found := by
  unfold openDatabase
  cases disk.metadata with
  | error _ => simp
  | ok _ => simp

/-- Right after it was opened a database answers what its directory says. -/
theorem get_openDatabase (opened : openDatabase options disk = .ok db) :
    db.get key = disk.answer disk.logged
      (VLogManager.initializeVLog disk.vlogs) key := by
  unfold openDatabase at opened
  unfold Disk.answer
  cases found : disk.metadata with
  | error _ => simp [found] at opened
  | ok pair =>
    obtain ⟨levels, manifest⟩ := pair
    simp only [found, Except.ok.injEq] at opened
    subst opened
    unfold Database.openedWith
    generalize disk.logged = records
    have older : ∀ entry ∈ (new.replay records).nodes,
        entry.seq < max manifest.lastSeq (nextSeq records) := by
      intro _ member
      rcases mem_nodes_replay.mp member with logged | impossible
      · obtain ⟨_, in_records, point⟩ := mem_flatMap.mp logged
        have bound := seq_lt_nextSeq in_records
        rw [← WALRecord.seq_of_mem_points point] at bound
        omega
      · exact absurd impossible (by simp [new])
    have registered : (new.replay records).rangeTombstones ⊆
        loggedTombstones records ++ loadTombstones levels := by
      rw [rangeTombstones_replay]
      intro _ member
      exact mem_append_left _ (by simpa [new] using member)
    rw [Database.get_eq older (fun _ impossible => absurd impossible (by simp)) registered
      (fun _ impossible => absurd impossible (by simp))]
    rw [versions_replay, versions_new, append_nil, head?_reverse]
    cases logged : (ofKey Entry.key key (loggedPoints records)).getLast? with
    | some entry =>
      have same := (mem_ofKey.mp (mem_of_getLast? logged)).2
      simp only [Option.some_or, Database.resolve, Database.resolveAt, same]
      by_cases deleted : entry.type = .deletion
      · simp [deleted]
      · simp only [deleted, false_or]
        rfl
    | none =>
      simp only [Option.none_or, Database.readTables]
      cases searchLevels levels (max manifest.lastSeq (nextSeq records)) key
          (max manifest.lastSeq (nextSeq records)) with
      | none => rfl
      | some entry =>
        by_cases deleted : entry.type = .deletion
        · simp [deleted]
        · simp only [deleted, false_or]
          rfl

end LightKV
