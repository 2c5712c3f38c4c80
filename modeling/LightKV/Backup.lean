import LightKV.FlushedNumbers
import LightKV.ReusedNumber

/-!
# Backups

`Backup` flushes the memtable, copies the tables and the value log, and writes a manifest
whose counter is the flushed sequence number. That is the number of the last write in the
copy, and not the one behind it. A database opened from the copy answers as the source does,
but it hands the number of the last write out again: a range deletion that is its first call
leaves the last key written alive, and a deletion of that key is undone by a merge. If the
first call does not touch a version with that number, the opened copy goes on as the
abstract map does.
-/

namespace LightKV

open Versions Levels Runs List Option

namespace Database

/-! ## FlushForBackup -/

/-- The rounds of `FlushForBackup`. Each of them waits for what the background thread does
until the flush has settled. A memtable with content is rotated, unless another one is
pending; then the next round has to do it. -/
def flushRounds (sorter : StdSort internalKeyLess) (flushError : String) :
    List (List Maintenance) → Database → Except Status Database
  | [], db =>
      .error (.ioError ("backup: memtable flush did not complete after 3 rounds (wanted seq " ++
        toString db.mem.maxSeq ++ ", durable up to " ++ toString db.flushedSeq ++ ")"))
  | wait :: waits, db =>
      if db.imm.isNone && !db.mem.hasContent then .ok db
      else
        let settled := wait.foldl (maintain sorter) db.triggerFlush
        if settled.imm.isSome then
          .error (.ioError ("backup: memtable flush failed: " ++ flushError))
        else if db.imm.isNone then .ok settled
        else flushRounds sorter flushError waits settled

/-- The background steps in these rounds, with the rotations that they make. -/
def flushSteps (sorter : StdSort internalKeyLess) :
    List (List Maintenance) → Database → List Maintenance
  | [], _ => []
  | wait :: waits, db =>
      if db.imm.isNone && !db.mem.hasContent then []
      else if db.imm.isNone then .triggerFlush :: wait
      else (.triggerFlush :: wait) ++
        flushSteps sorter waits (wait.foldl (maintain sorter) db.triggerFlush)

/-! ## The copy -/

/-- `copy_one` for the tables. -/
def copyTables (disk : Disk) : List SSTable → Except Status (List SSTable)
  | [] => .ok []
  | table :: tables =>
      match disk.table? table.fileId with
      | none => .error (.ioError ("backup: cannot copy " ++ toString table.fileId ++ ".sst"))
      | some copied =>
          match copyTables disk tables with
          | .error status => .error status
          | .ok rest => .ok (copied :: rest)

/-- The manifest of the copy. -/
def backupManifest (db : Database) : Manifest :=
  (List.range numLevels).foldl
    (fun manifest level => (db.manifest.files level).foldl
      (fun manifest data => manifest.addFile level data) manifest)
    { Manifest.new with
      lastSeq := db.flushedSeq
      flushedSeq := db.flushedSeq
      nextFileId := db.nextFileId }

/-- The tables that the manifest names can be opened. -/
def verified (copied : Disk) (manifest : Manifest) : Bool :=
  (List.range numLevels).all fun level =>
    (manifest.files level).all fun data => (copied.table? data.fileId).isSome

/-- The part of `Backup` under the lock. -/
def copy (db : Database) : Except Status Disk :=
  match copyTables db.disk db.tables with
  | .error status => .error status
  | .ok tables =>
      let copied : Disk := ⟨[], tables, some db.backupManifest, db.disk.vlogs, List.nodup_nil⟩
      if verified copied db.backupManifest then .ok copied
      else .error (.corruption
        "backup verification failed: IOError: cannot open sstable file")

/-- `DBImpl::Backup`: the database behind the flush, and the directory of the copy. -/
def backup (sorter : StdSort internalKeyLess) (flushError : String)
    (waits : Fin 3 → List Maintenance) (db : Database) : Except Status (Database × Disk) :=
  match db.flushRounds sorter flushError (List.ofFn waits) with
  | .error status => .error status
  | .ok flushed =>
      match flushed.copy with
      | .error status => .error status
      | .ok copied => .ok (flushed, copied)

/-- A history, and the background steps of a backup behind it. -/
def upToBackup (sorter : StdSort internalKeyLess) (options : Options)
    (waits : Fin 3 → List Maintenance) (events : List Event) : List Event :=
  events ++ (flushSteps sorter (List.ofFn waits)
    (run (step sorter) (fresh options) events)).map .maintain

variable {db : Database}

/-! ## The flush -/

/-- Rotations and the other background steps leave an empty memtable empty. -/
theorem hasContent_maintain {sorter : StdSort internalKeyLess} {step : Maintenance}
    (empty : db.mem.hasContent = false) : (db.maintain sorter step).mem.hasContent = false := by
  rcases db.maintain_cases sorter step with rotated | released | only
  · rw [rotated]
    unfold triggerFlush
    split
    · exact empty
    · rfl
  · rw [released]
    unfold flushRelease
    split <;> exact empty
  · rw [only.mem]
    exact empty

/-- A successful flush is the run of its steps, and leaves nothing in the memtables. -/
theorem flushRounds_ok (finished : db.flushRounds sorter flushError waits = .ok flushed) :
    flushed = (flushSteps sorter waits db).foldl (maintain sorter) db ∧
      flushed.mem.hasContent = false ∧ flushed.imm = none := by
  induction waits generalizing db with
  | nil => cases finished
  | cons wait _ ih =>
    rw [flushRounds] at finished
    rw [flushSteps]
    split at finished
    · rename_i idle
      obtain rfl := Except.ok.inj finished
      rw [if_pos idle]
      simp only [Bool.and_eq_true, isNone_iff_eq_none, Bool.not_eq_true'] at idle
      exact ⟨rfl, idle.2, idle.1⟩
    rename_i filled
    rw [if_neg filled]
    dsimp only at finished
    split at finished
    · cases finished
    rename_i released
    rw [not_isSome_iff_eq_none] at released
    split at finished
    · rename_i first
      obtain rfl := Except.ok.inj finished
      rw [if_pos first]
      have rotated : db.triggerFlush.mem.hasContent = false := by
        rw [(rotated_triggerFlush (isNone_iff_eq_none.mp first)).mem]
        rfl
      refine ⟨rfl, ?_, released⟩
      exact foldlRecOn (motive := fun db : Database => db.mem.hasContent = false) wait _
        rotated fun _ empty _ _ => hasContent_maintain empty
    · rename_i behind
      rw [if_neg behind, foldl_append]
      exact ih finished

/-! ## The directory of the copy -/

theorem Archived.backupManifest_eq (archived : Archived db) :
    db.backupManifest =
      { lastSeq := db.flushedSeq
        flushedSeq := db.flushedSeq
        nextFileId := db.nextFileId
        files := db.manifest.files } := by
  rw [backupManifest, Manifest.foldl_addFiles_eq (fun _ => mem_range.mp) nodup_range]
  congr 1
  funext level
  split
  · rfl
  rename_i beyond
  obtain ⟨order, files_eq, level_eq⟩ := archived.listed level
  rw [archived.deep level (by simpa using beyond)] at level_eq
  have nothing : order = [] := eq_nil_iff_forall_not_mem.mpr fun table member => by
    have placed : table ∈ arranged level order := mem_arranged.mpr member
    rw [← level_eq] at placed
    cases placed
  rw [files_eq, nothing]
  rfl

theorem copyTables_eq {disk : Disk} {tables : List SSTable}
    (present : ∀ table ∈ tables, disk.table? table.fileId = some table) :
    copyTables disk tables = .ok tables := by
  induction tables with
  | nil => rfl
  | cons table _ ih =>
    rw [copyTables, present table mem_cons_self,
      ih fun other member => present other (mem_cons_of_mem _ member)]

/-- The directory of a copy. -/
def copied (db : Database) : Disk :=
  ⟨[], db.tables, some db.backupManifest, db.disk.vlogs, List.nodup_nil⟩

theorem Numbered.table?_copied (numbered : Numbered db) (archived : Archived db)
    (member : table ∈ db.levels level) : db.copied.table? table.fileId = some table := by
  have inner : level < numLevels := by
    by_contra beyond
    rw [archived.deep level (Nat.le_of_not_lt beyond)] at member
    cases member
  have listed : table ∈ db.tables := mem_tables.mpr ⟨level, inner, member⟩
  cases found : db.copied.table? table.fileId with
  | none =>
    have missing := find?_eq_none.mp found table listed
    simp at missing
  | some other =>
    have same : other.fileId = table.fileId := by simpa using find?_some found
    obtain ⟨place, _, inside⟩ := mem_tables.mp (mem_of_find?_eq_some found)
    rw [(numbered.unique place level other inside table member same).2]

theorem Archived.copy_eq (archived : Archived db) (numbered : Numbered db) :
    db.copy = .ok db.copied ∧ db.copied.metadata = .ok (db.levels, db.backupManifest) := by
  have tables : copyTables db.disk db.tables = .ok db.tables := copyTables_eq fun table member => by
    obtain ⟨level, _, inside⟩ := mem_tables.mp member
    exact archived.kept level table inside
  have files : db.backupManifest.files = db.manifest.files := by rw [archived.backupManifest_eq]
  have passes : verified db.copied db.backupManifest = true := by
    rw [verified, files, List.all_eq_true]
    intro level _
    obtain ⟨_, files_eq, level_eq⟩ := archived.listed level
    rw [files_eq, List.all_map, List.all_eq_true]
    intro table member
    have placed : table ∈ db.levels level := by rw [level_eq]; exact mem_arranged.mpr member
    change (db.copied.table? table.fileId).isSome = true
    rw [numbered.table?_copied archived placed]
    rfl
  constructor
  · rw [copy, tables]
    exact if_pos passes
  have loads := archived.loads fun _ _ member => numbered.table?_copied archived member
  rw [← files] at loads
  rw [Disk.metadata, show db.copied.manifest = some _ from rfl]
  dsimp only
  rw [loads]

/-! ## The opened copy -/

/-- The database that is opened from the copy. -/
def restored (opening : Options) (db : Database) : Database :=
  openedWith opening db.copied db.levels db.backupManifest

/-- With a counter above what the tables hold, it is what a restart makes of the source. -/
theorem Consistent.rebuilt_restored (consistent : Consistent db) (opening : Options)
    (flushed : db.mem.nodes = []) (noTombstones : db.mem.rangeTombstones = [])
    (alone : db.imm = none) (counter_le : counter ≤ db.lastSeq)
    (older : ∀ table ∈ db.tables, ∀ entry ∈ table.entries, entry.seq < counter) :
    Rebuilt db { restored opening db with lastSeq := counter } where
  levels := rfl
  versions key := by
    rw [immVersions_of_none alone, MemTable.versions, MemTable.versions, flushed]
    rfl
  imm := rfl
  flushing := rfl
  tombstones tombstone := by
    rw [Holds, noTombstones, alone, ← mem_loadTombstones consistent.toHoused]
    have stored : (restored opening db).rangeTombstones = loadTombstones db.levels := rfl
    simp [stored]
  active tombstone := by
    have fresh : (restored opening db).mem.rangeTombstones = [] := rfl
    simp [noTombstones, alone, fresh]
  claimed := nofun
  tablesClaimed table present entry inside := older table present entry inside
  past tombstone member := by
    obtain ⟨table, present, stored⟩ := (mem_loadTombstones consistent.toHoused).mp member
    exact older table present _ stored
  lastSeq := counter_le
  sound := (VLogManager.sound_initializeVLog _).1
  extended := (VLogManager.sound_initializeVLog _).2

variable {store : Store}

/-- The opened copy serves the map, with its counter raised by one if there are writes. -/
theorem Answers.resumes_restored (answers : Answers db store) (floored : Floored db)
    (unnamed : store [] = none) (flushed : db.mem.hasContent = false) (alone : db.imm = none) :
    ∃ later, (later = restored opening db ∨ later = (restored opening db).claim) ∧
      Rebuilt db later ∧ Serving later store := by
  obtain ⟨⟨consistent, numbered, archived, _, remembered⟩, answers⟩ := answers
  have counter : (restored opening db).lastSeq = db.flushedSeq := by
    change max db.backupManifest.lastSeq 0 = db.flushedSeq
    rw [archived.backupManifest_eq]
    exact max_zero _
  have empty : db.mem.nodes = [] ∧ db.mem.rangeTombstones = [] := by
    have none : ¬ db.mem.hasContent = true := by simp [flushed]
    rw [MemTable.hasContent_iff, not_or] at none
    exact ⟨eq_nil_iff_forall_not_mem.mpr fun entry member => none.1 ⟨entry, member⟩,
      eq_nil_iff_forall_not_mem.mpr fun tombstone member => none.2 ⟨tombstone, member⟩⟩
  have serving : ∀ counter, Rebuilt db { restored opening db with lastSeq := counter } →
      Serving { restored opening db with lastSeq := counter } store := by
    intro _ rebuilt
    refine ⟨rebuilt.consistent consistent, numbered.congr rfl ?_, ?_, unnamed⟩
    · change db.nextFileId ≤ db.backupManifest.nextFileId
      rw [archived.backupManifest_eq]
    · intro key user
      rw [rebuilt.answers consistent remembered user, answers key user]
  have below := floored.flushedSeq_lt archived
  rcases eq_zero_or_pos db.lastSeq with _ | _
  · have rebuilt := consistent.rebuilt_restored opening empty.1 empty.2 alone (le_refl db.lastSeq)
      consistent.tablesClaimed
    have same : db.lastSeq = (restored opening db).lastSeq := by omega
    exact ⟨_, .inl (by rw [same]), rebuilt, serving _ rebuilt⟩
  · have rebuilt := consistent.rebuilt_restored opening empty.1 empty.2 alone
      (show db.flushedSeq + 1 ≤ db.lastSeq by omega) fun table present entry inside =>
        Nat.lt_succ_of_le (floored.tables table present entry inside)
    exact ⟨_, .inr (by rw [← counter]; rfl), rebuilt, serving _ rebuilt⟩

theorem Scanning.of_rebuilt (scanning : Scanning db) (rebuilt : Rebuilt db later) :
    Scanning later where
  unmixed := by
    unfold Unmixed
    rw [rebuilt.points_eq]
    exact scanning.unmixed
  stacked := scanning.stacked.rebuilt rebuilt
  plain := scanning.plain.subset (le_of_eq rebuilt.points_eq)

/-! ## Backups of a history -/

section History

variable {sorter : StdSort internalKeyLess} {options : Options} {events : List Event}

theorem replay_nil_of_lawful (lawful : Meets (step sorter) Lawful (fresh options) events) :
    Store.replay events [] = none := by
  refine @Meets.relates _ _ _ _ _ _ (fun _ (store : Store) => store [] = none)
    _ _ lawful _ rfl ?_
  intro _ _ event unnamed lawful
  cases event with
  | call _ => exact applyAll_nil lawful.keys unnamed
  | maintain _ => exact unnamed
  | crash _ => exact unnamed

variable {waits : Fin 3 → List Maintenance}

theorem replay_upToBackup : Store.replay (upToBackup sorter options waits events) =
    Store.replay events := by
  rw [Store.replay, upToBackup, run_append]
  refine replay_of_background ?_ _
  intro _ member
  obtain ⟨_, _, rfl⟩ := mem_map.mp member
  rfl

/-- What a successful backup says about the source and the copy. -/
theorem backup_ok {flushError : String} {source : Database} {copied : Disk}
    (backed : (run (step sorter) (fresh options) events).backup sorter flushError waits =
      .ok (source, copied)) :
    source = run (step sorter) (fresh options) (upToBackup sorter options waits events) ∧
      source.mem.hasContent = false ∧ source.imm = none ∧ source.copy = .ok copied := by
  unfold backup at backed
  split at backed
  · cases backed
  rename_i finished
  split at backed
  · cases backed
  rename_i made
  obtain ⟨rfl, rfl⟩ := Prod.mk.inj (Except.ok.inj backed)
  obtain ⟨ran, empty, alone⟩ := flushRounds_ok finished
  refine ⟨?_, empty, alone, made⟩
  rw [ran, upToBackup, run_append, run, run, foldl_map]
  rfl

end History

/-- A flush that is finished in every round. -/
def flushAtOnce : Fin 3 → List Maintenance :=
  fun _ => [.flushWrite, .flushRelease]

/-- The database opened from the copy that a backup makes behind a history. -/
def restore (opening : Options) (events : List Event) : Option Database :=
  match (eagerRun events).backup insertionSorter "" flushAtOnce with
  | .error _ => none
  | .ok (_, copied) => (openDatabase opening copied).toOption

/-- A single key. -/
def onePut : List Event :=
  [.call (.put [107] [1])]

/-- Four tables, the last of them with the key. -/
def fourTables : List Event :=
  flushedPut [97] [0] ++ flushedPut [98] [0] ++ flushedPut [99] [0] ++ onePut

/-- The deletion of the key, its flush, and two rounds: the first one takes the four tables. -/
def deletionMerged : List Event :=
  .call (.delete [107]) :: rotateAndFlush ++
    [.maintain .level0Compaction, .maintain .level0Compaction]

end Database

end LightKV
