import LightKV.Recovery

/-!
# A kill while a directory is opened

`Initialize` replays the logs into memory and unlinks them at once, before anything they
hold is in a table. A kill from then on leaves a directory with fewer logs, or with none.
Opening that directory gives the same map exactly when the removed logs held nothing that
the tables do not hold as well.
-/

namespace LightKV

open Versions List

/-! ## What logs hold against tables -/

/-- The tables that a manifest names, its counter, and the value log that they point into. -/
structure TableSet where
  levels : Nat → List SSTable
  lastSeq : Nat
  log : VLogManager × List VLogFile

namespace TableSet

variable (tables : TableSet) (records : List WALRecord)

/-- The counter when records were replayed over the tables. -/
def horizon : Nat := max tables.lastSeq (nextSeq records)

/-- A version of a key is seen with a value: it is a put, no range tombstone of the records or of
the tables hides it, and its value can be read. -/
def Shows (key : Bytes) (entry : Entry) (value : Bytes) : Prop :=
  entry.type ≠ .deletion ∧ covered (loggedTombstones records ++ loadTombstones tables.levels) key
      entry.seq (tables.horizon records) = false ∧
    tables.log.1.unwrap tables.log.2 entry.value = .ok value

/-- The newest version of a key in the tables is seen with a value. -/
def Holds (key value : Bytes) : Prop :=
  ∃ entry, searchLevels tables.levels (tables.horizon records) key (tables.horizon records) =
    some entry ∧ tables.Shows records key entry value

end TableSet

/-- Tables make the records of logs redundant: the last logged version of a key is seen with the
value that the tables hold for it, and no tombstone and no number of the logs changes what is
seen of the other keys. -/
structure Redundant (records : List WALRecord) (tables left : TableSet) : Prop where
  logged : ∀ key entry, (ofKey Entry.key key (loggedPoints records)).getLast? = some entry →
    ∀ value, tables.Shows records key entry value ↔ left.Holds [] key value
  unlogged : ∀ key, (ofKey Entry.key key (loggedPoints records)).getLast? = none →
    ∀ value, tables.Holds records key value ↔ left.Holds [] key value

namespace Disk

variable {disk other : Disk} {options : Options} {levels others : Nat → List SSTable}
  {manifest : Manifest} {records : List WALRecord} {log later : VLogManager × List VLogFile}

/-- A directory answers with a value if the last logged version shows it, or the tables do. -/
theorem answer_eq_ok_iff (found : disk.metadata = .ok (levels, manifest)) :
    disk.answer records log key = .ok value ↔
      match (ofKey Entry.key key (loggedPoints records)).getLast? with
      | some entry => TableSet.Shows ⟨levels, manifest.lastSeq, log⟩ records key entry value
      | none => TableSet.Holds ⟨levels, manifest.lastSeq, log⟩ records key value := by
  -- A version answers with the value that it shows.
  have shown : ∀ entry : Entry, (if entry.type = .deletion ∨ covered (loggedTombstones records ++
      loadTombstones levels) key entry.seq (max manifest.lastSeq (nextSeq records)) = true then
        .error (.notFound "") else log.1.unwrap log.2 entry.value) = Except.ok value ↔
      TableSet.Shows ⟨levels, manifest.lastSeq, log⟩ records key entry value := by
    intro entry
    unfold TableSet.Shows TableSet.horizon
    split
    · rename_i hidden
      refine iff_of_false nofun fun shows => ?_
      rcases hidden with deletion | hidden
      · exact shows.1 deletion
      · exact absurd (hidden.symm.trans shows.2.1) nofun
    · simp_all
  unfold answer
  rw [found]
  dsimp only
  cases (ofKey Entry.key key (loggedPoints records)).getLast? with
  | some entry => exact shown entry
  | none =>
    unfold TableSet.Holds TableSet.horizon
    rw [Option.none_or]
    cases searchLevels levels (max manifest.lastSeq (nextSeq records)) key
        (max manifest.lastSeq (nextSeq records)) with
    | none => simp
    | some entry => simpa using shown entry

/-- The logs of a directory are redundant exactly if tables alone answer with the same values. -/
theorem redundant_iff (found : disk.metadata = .ok (levels, manifest))
    (also : other.metadata = .ok (others, counters)) :
    Redundant records ⟨levels, manifest.lastSeq, log⟩ ⟨others, counters.lastSeq, later⟩ ↔
      ∀ key value, disk.answer records log key = .ok value ↔
        other.answer [] later key = .ok value := by
  have alone : ∀ key value, other.answer [] later key = .ok value ↔
      TableSet.Holds ⟨others, counters.lastSeq, later⟩ [] key value := fun _ _ =>
    answer_eq_ok_iff also
  simp only [alone, answer_eq_ok_iff found]
  constructor
  · rintro ⟨logged, unlogged⟩ key value
    split
    · rename_i entry last
      exact logged key entry last value
    · rename_i last
      exact unlogged key last value
  · intro same
    refine ⟨fun key entry last value => ?_, fun key last value => ?_⟩
    · simpa only [last] using same key value
    · simpa only [last] using same key value

/-! ## Kills during an opening -/

/-- The directories that a kill can leave during an opening or after it, as long as nothing
was written: some logs removed, then the new log, then the new value-log file. -/
def openingDisks (disk : Disk) : List Disk :=
  ((List.range (disk.walFiles.length + 1)).map fun count =>
      disk.withoutWals ((disk.walFiles.map WalFile.name).take count)) ++
    [disk.withFreshWal, disk.opened]

/-- The records of the logs behind the first `count`. -/
def recordsFrom (disk : Disk) (count : Nat) : List WALRecord :=
  (disk.walFiles.drop count).flatMap WalFile.records

/-- The logs can go: however many of them are removed, the tables make the others redundant, also
when they are read through the value-log file that an opening adds. -/
def LogsRedundant (disk : Disk) : Prop :=
  ∀ levels manifest, disk.metadata = .ok (levels, manifest) →
    let log := VLogManager.initializeVLog disk.vlogs
    let tables : TableSet := ⟨levels, manifest.lastSeq, log⟩
    (∀ count ≤ disk.walFiles.length, Redundant (disk.recordsFrom count) tables tables) ∧
      Redundant [] tables { tables with log := VLogManager.initializeVLog log.2 }

/-- Opening the directory again succeeds and finds the same map. -/
def Reopens (options : Options) (killed : Disk) (db : Database) : Prop :=
  ∃ again, openDatabase options killed = .ok again ∧
    ∀ key value, again.get key = .ok value ↔ db.get key = .ok value

/-- Records over the tables of a directory answer with the values that its own logs give. -/
def SameValues (disk : Disk) (records : List WALRecord) (log : VLogManager × List VLogFile) :
    Prop :=
  ∀ key value, disk.answer records log key = .ok value ↔
    disk.answer (disk.recordsFrom 0) (VLogManager.initializeVLog disk.vlogs) key = .ok value

theorem walFiles_opened : disk.opened.walFiles = [⟨disk.freshWal, []⟩] := disk.walFiles_withFreshWal

section

variable {db : Database} (opened : openDatabase options disk = .ok db)
include opened

/-- A directory with the same tables and manifest can be opened as well. It has the same map if
its own logs answer with the same values. -/
theorem reopen_iff (tables : killed.tables = disk.tables)
    (manifest : killed.manifest = disk.manifest) :
    Reopens options killed db ↔
      disk.SameValues killed.logged (VLogManager.initializeVLog killed.vlogs) := by
  have readable := openDatabase_ok_iff.mp ⟨db, opened⟩
  rw [← metadata_congr tables manifest] at readable
  obtain ⟨again, reopened⟩ := openDatabase_ok_iff.mpr readable
  have first : ∀ key, db.get key =
      disk.answer (disk.recordsFrom 0) (VLogManager.initializeVLog disk.vlogs) key :=
    fun key => get_openDatabase opened
  have second : ∀ key, again.get key = disk.answer killed.logged
      (VLogManager.initializeVLog killed.vlogs) key := fun key => by
    rw [get_openDatabase reopened, answer_congr tables manifest]
  simp only [SameValues, ← first, ← second]
  constructor
  · rintro ⟨other, again_opened, same⟩
    obtain rfl := Except.ok.inj (reopened.symm.trans again_opened)
    exact same
  · exact fun same => ⟨again, reopened, same⟩

/-- With some logs removed the remaining ones answer. -/
theorem reopen_withoutWals_iff (count : Nat) :
    Reopens options (disk.withoutWals ((disk.walFiles.map WalFile.name).take count)) db ↔
      disk.SameValues (disk.recordsFrom count) (VLogManager.initializeVLog disk.vlogs) := by
  obtain ⟨_, tables, manifest, vlogs⟩ :=
    disk.withoutWals_eq ((disk.walFiles.map WalFile.name).take count)
  rw [reopen_iff opened tables manifest, logged, walFiles_withoutWals, vlogs]
  rfl

/-- With the new log, whose records are none, the tables answer. -/
theorem reopen_fresh_iff (fresh : killed.walFiles = [⟨disk.freshWal, []⟩])
    (tables : killed.tables = disk.tables) (manifest : killed.manifest = disk.manifest) :
    Reopens options killed db ↔
      disk.SameValues [] (VLogManager.initializeVLog killed.vlogs) := by
  rw [reopen_iff opened tables manifest, logged, fresh]
  rfl

end

/-- A directory with one log that holds one put. -/
def onePut : Disk where
  wals := [⟨walName 1, [.value 0 [107] [0, 118]]⟩]
  tables := []
  manifest := none
  vlogs := []
  distinct := by decide

/-- The answer of an opened directory, if it can be opened. -/
def openedAnswer (disk : Disk) (key : Bytes) : Option (Except Status Bytes) :=
  match openDatabase {} disk with
  | .ok db => some (db.get key)
  | .error _ => none

theorem exists_opened (answered : disk.openedAnswer key ≠ none) :
    ∃ db, openDatabase {} disk = .ok db := by
  unfold openedAnswer at answered
  cases opened : openDatabase {} disk with
  | ok db => exact ⟨db, rfl⟩
  | error _ => exact absurd (by rw [opened]) answered

end Disk

end LightKV
