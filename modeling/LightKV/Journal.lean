import LightKV.Operation

/-!
# Logs and memtables

A directory has one log for the active memtable and, while a memtable waits to be flushed,
one for that memtable. Their names are taken from one counter. A write appends to the
active log what it inserts into the active memtable, a rotation turns both over together,
and a flush drops the immutable memtable with its log. So both memtables are replays of
their logs, as long as the directory was not opened with logs in it: `Initialize` replays
and removes them, and the memtable it begins with is in no log.
-/

namespace LightKV

open Versions Levels List Option Disk

namespace Disk

/-- The records of the log with a name. -/
def log (disk : Disk) (name : Bytes) : List WALRecord :=
  ((disk.wals.find? fun file => decide (file.name = name)).map WalFile.records).getD []

theorem log_of_mem {disk : Disk} (member : file ∈ disk.wals) :
    disk.log file.name = file.records := by
  have found : (disk.wals.find? fun other => decide (other.name = file.name)).isSome = true :=
    find?_isSome.mpr ⟨file, member, decide_eq_true rfl⟩
  obtain ⟨other, other_found⟩ := isSome_iff_exists.mp found
  have same_name : other.name = file.name := by simpa using find?_some other_found
  have same : other = file :=
    inj_on_of_nodup_map disk.distinct (mem_of_find?_eq_some other_found) member same_name
  unfold log
  rw [other_found, same]
  rfl

end Disk

namespace Database

variable {db later : Database}

/-! ## Steps that leave memtables and logs alone -/

/-- A step that touches tables and manifests only. -/
structure TablesOnly (db later : Database) : Prop where
  options : later.options = db.options
  lastSeq : later.lastSeq = db.lastSeq
  mem : later.mem = db.mem
  imm : later.imm = db.imm
  rangeTombstones : later.rangeTombstones = db.rangeTombstones
  nextWalId : later.nextWalId = db.nextWalId
  walPath : later.walPath = db.walPath
  immWalPath : later.immWalPath = db.immWalPath
  vlog : later.vlog = db.vlog
  wals : later.disk.wals = db.disk.wals
  vlogs : later.disk.vlogs = db.disk.vlogs

theorem TablesOnly.refl : TablesOnly db db :=
  ⟨rfl, rfl, rfl, rfl, rfl, rfl, rfl, rfl, rfl, rfl, rfl⟩

theorem tablesOnly_withOutputs (db : Database) (result : CompactionResult) :
    TablesOnly db (db.withOutputs result) := by
  refine ⟨rfl, rfl, rfl, rfl, rfl, rfl, rfl, rfl, rfl, ?_, ?_⟩
  · unfold withOutputs
    rw [foldl_writeTable_eq]
  · unfold withOutputs
    rw [foldl_writeTable_eq]

theorem tablesOnly_install (db : Database) (outputLevel : Nat) (added : List SSTable)
    (inputs : List InputFile) : TablesOnly db (db.install outputLevel added inputs) := by
  refine ⟨rfl, rfl, rfl, rfl, rfl, rfl, rfl, rfl, rfl, ?_, ?_⟩
  · unfold install
    dsimp only
    rw [foldl_removeTable_eq]
    rfl
  · unfold install
    dsimp only
    rw [foldl_removeTable_eq]
    rfl

/-- The end of a round, with the levels that the removal of the inputs leaves. -/
theorem tablesOnly_round (db : Database) (result : CompactionResult)
    (levels : Nat → List SSTable) (outputLevel : Nat) (added : List SSTable)
    (inputs : List InputFile) :
    TablesOnly db
      ({ db.withOutputs result with levels := levels }.install outputLevel added inputs) := by
  have written := tablesOnly_withOutputs db result
  have installed := tablesOnly_install { db.withOutputs result with levels := levels }
    outputLevel added inputs
  exact ⟨rfl, rfl, rfl, rfl, rfl, rfl, rfl, rfl, rfl, installed.wals.trans written.wals,
    installed.vlogs.trans written.vlogs⟩

theorem tablesOnly_doLevel0Compaction : TablesOnly db db.doLevel0Compaction.2 := by
  unfold doLevel0Compaction
  split
  · exact .refl
  · dsimp only
    split
    · exact tablesOnly_round ..
    · exact tablesOnly_withOutputs ..

theorem tablesOnly_doLevelCompaction : TablesOnly db (db.doLevelCompaction level).2 := by
  unfold doLevelCompaction
  split
  · exact .refl
  split
  · exact .refl
  · dsimp only
    split
    · exact tablesOnly_round ..
    · exact tablesOnly_withOutputs ..

theorem tablesOnly_flushWrite : TablesOnly db (db.flushWrite sorter) := by
  rcases db.flushWrite_cases sorter with same | ⟨_, _, written⟩
  · rw [same]
    exact .refl
  · rw [written]
    exact ⟨rfl, rfl, rfl, rfl, rfl, rfl, rfl, rfl, rfl, rfl, rfl⟩

/-- Rounds and the first half of a flush leave memtables and logs alone. -/
theorem tablesOnly_maintain (db : Database) (sorter : StdSort internalKeyLess)
    {step : Maintenance} (no_rotation : step ≠ .triggerFlush) (no_release : step ≠ .flushRelease) :
    TablesOnly db (db.maintain sorter step) := by
  cases step with
  | triggerFlush => exact absurd rfl no_rotation
  | flushRelease => exact absurd rfl no_release
  | flushWrite => exact tablesOnly_flushWrite
  | level0Compaction => exact tablesOnly_doLevel0Compaction
  | levelCompaction _ => exact tablesOnly_doLevelCompaction
  | compactionError _ => exact ⟨rfl, rfl, rfl, rfl, rfl, rfl, rfl, rfl, rfl, rfl, rfl⟩

/-- A background step rotates, drops the immutable memtable, or touches tables only. -/
theorem maintain_cases (db : Database) (sorter : StdSort internalKeyLess) (step : Maintenance) :
    db.maintain sorter step = db.triggerFlush ∨ db.maintain sorter step = db.flushRelease ∨
      TablesOnly db (db.maintain sorter step) := by
  by_cases rotation : step = .triggerFlush
  · exact .inl (by rw [rotation]; rfl)
  · by_cases release : step = .flushRelease
    · exact .inr (.inl (by rw [release]; rfl))
    · exact .inr (.inr (tablesOnly_maintain db sorter rotation release))

/-! ## The logs of a directory -/

/-- The directory has the active log and, with an immutable memtable, the log of that one.
Their records have claimed sequence numbers. -/
structure Journal (db : Database) (active waiting : List WALRecord) : Prop where
  files : ∀ file, file ∈ db.disk.wals ∧ isWalName file.name = true ↔
    file = ⟨db.walPath, active⟩ ∨ db.imm.isSome = true ∧ file = ⟨db.immWalPath, waiting⟩
  walPath : ∃ number < db.nextWalId, db.walPath = walName number
  immWalPath : db.imm.isSome = true → db.immWalPath ≠ db.walPath ∧
    ∃ number < db.nextWalId, db.immWalPath = walName number
  claimed : ∀ record ∈ active ++ waiting, record.seq < db.lastSeq

variable {active waiting : List WALRecord}

section

variable (journal : Journal db active waiting)
include journal

theorem Journal.log_active : db.disk.log db.walPath = active :=
  log_of_mem ((journal.files ⟨db.walPath, active⟩).mpr (.inl rfl)).1

theorem Journal.log_waiting (pending : db.imm.isSome = true) :
    db.disk.log db.immWalPath = waiting :=
  log_of_mem ((journal.files ⟨db.immWalPath, waiting⟩).mpr (.inr ⟨pending, rfl⟩)).1

theorem Journal.congr (wals : later.disk.wals = db.disk.wals)
    (walPath : later.walPath = db.walPath) (immWalPath : later.immWalPath = db.immWalPath)
    (imm : later.imm = db.imm) (nextWalId : later.nextWalId = db.nextWalId)
    (grows : db.lastSeq ≤ later.lastSeq) : Journal later active waiting := by
  refine ⟨?_, ?_, ?_, fun record member => lt_of_lt_of_le (journal.claimed record member) grows⟩
  · rw [wals, walPath, immWalPath, imm]
    exact journal.files
  · rw [walPath, nextWalId]
    exact journal.walPath
  · rw [walPath, immWalPath, imm, nextWalId]
    exact journal.immWalPath

/-- A committed record is the last one of the active log. -/
theorem Journal.commit (claimed : record.seq < db.lastSeq) :
    Journal (db.commit record) (active ++ [record]) waiting := by
  refine ⟨?_, journal.walPath, journal.immWalPath, ?_⟩
  · intro _
    have appended : (db.commit record).disk.wals = db.disk.wals.map fun file =>
        if file.name = db.walPath then { file with records := file.records ++ [record] }
        else file := rfl
    have here := (journal.files ⟨db.walPath, active⟩).mpr (.inl rfl)
    rw [appended, List.mem_map]
    constructor
    · rintro ⟨⟨old, member, rfl⟩, named⟩
      have old_named : isWalName old.name = true := by split at named <;> exact named
      rcases (journal.files old).mp ⟨member, old_named⟩ with rfl | ⟨pending, rfl⟩
      · exact .inl (if_pos rfl)
      · exact .inr ⟨pending, if_neg (journal.immWalPath pending).1⟩
    · rintro (rfl | ⟨pending, rfl⟩)
      · exact ⟨⟨_, here.1, if_pos rfl⟩, here.2⟩
      · have there := (journal.files ⟨db.immWalPath, waiting⟩).mpr (.inr ⟨pending, rfl⟩)
        exact ⟨⟨_, there.1, if_neg (journal.immWalPath pending).1⟩, there.2⟩
  · intro other member
    rw [append_assoc, mem_append, mem_append, mem_singleton] at member
    rcases member with old | rfl | old
    · exact journal.claimed other (mem_append_left _ old)
    · exact claimed
    · exact journal.claimed other (mem_append_right _ old)

/-- A rotation starts a new log, and the active one waits. -/
theorem Journal.triggerFlush (none : db.imm = none) : Journal db.triggerFlush [] active := by
  obtain ⟨number, below, walPath⟩ := journal.walPath
  have fresh_name : db.walPath ≠ walName db.nextWalId := by
    rw [walPath]
    exact fun same => absurd (walName_injective same) (ne_of_lt below)
  rw [triggerFlush_of_none none]
  refine ⟨?_, ⟨db.nextWalId, Nat.lt_succ_self _, rfl⟩, ?_, ?_⟩
  · intro file
    have created : file ∈ (db.disk.createWal (walName db.nextWalId)).wals ↔
        (file ∈ db.disk.wals ∧ file.name ≠ walName db.nextWalId) ∨
          file = ⟨walName db.nextWalId, []⟩ := by simp [createWal, removeWal]
    have known := journal.files file
    rw [none] at known
    dsimp only [rotate]
    rw [created]
    constructor
    · rintro ⟨⟨old, _⟩ | rfl, named⟩
      · rcases known.mp ⟨old, named⟩ with rfl | ⟨impossible, _⟩
        · exact .inr ⟨rfl, rfl⟩
        · cases impossible
      · exact .inl rfl
    · rintro (rfl | ⟨_, rfl⟩)
      · exact ⟨.inr rfl, isWalName_walName⟩
      · obtain ⟨present, named⟩ := known.mpr (.inl rfl)
        exact ⟨.inl ⟨present, fresh_name⟩, named⟩
  · exact fun _ => ⟨fresh_name, number, Nat.lt_succ_of_lt below, walPath⟩
  · intro record member
    exact journal.claimed record (mem_append_left _ member)

/-- A flush drops the log that waited. -/
theorem Journal.flushRelease (pending : db.imm.isSome = true) (flushing : db.flushing = true) :
    Journal db.flushRelease active [] := by
  obtain ⟨apart, _, _, immWalPath⟩ := journal.immWalPath pending
  have named : db.immWalPath ≠ [] := by
    rw [immWalPath]
    simp [walName]
  have released : db.flushRelease =
      { db with
        imm := none
        flushing := false
        immWalPath := []
        disk := db.disk.removeWal db.immWalPath } := by
    rw [Database.flushRelease, if_pos flushing, if_neg named]
  rw [released]
  refine ⟨?_, journal.walPath, by rintro ⟨⟩, ?_⟩
  · intro file
    have removed : file ∈ (db.disk.removeWal db.immWalPath).wals ↔
        file ∈ db.disk.wals ∧ file.name ≠ db.immWalPath := by simp [removeWal]
    rw [removed]
    constructor
    · rintro ⟨⟨present, other⟩, wal⟩
      rcases (journal.files file).mp ⟨present, wal⟩ with rfl | ⟨_, rfl⟩
      · exact .inl rfl
      · exact absurd rfl other
    · rintro (rfl | ⟨impossible, _⟩)
      · obtain ⟨present, wal⟩ := (journal.files ⟨db.walPath, active⟩).mpr (.inl rfl)
        exact ⟨⟨present, apart.symm⟩, wal⟩
      · cases impossible
  · intro record member
    rw [append_nil] at member
    exact journal.claimed record (mem_append_left _ member)

/-! ## Memtables as replays -/

/-- Both memtables are replays of their logs. -/
def Logged (db : Database) : Prop :=
  db.mem = MemTable.new.replay (db.disk.log db.walPath) ∧
    ∀ imm, db.imm = some imm → imm = MemTable.new.replay (db.disk.log db.immWalPath)

theorem Journal.logged_iff :
    Logged db ↔ db.mem = MemTable.new.replay active ∧
      ∀ imm, db.imm = some imm → imm = MemTable.new.replay waiting := by
  unfold Logged
  rw [journal.log_active]
  refine and_congr_right fun _ => forall_congr' fun _ => ?_
  constructor
  · intro replayed pending
    rw [replayed pending, journal.log_waiting (by rw [pending]; rfl)]
  · intro replayed pending
    rw [replayed pending, journal.log_waiting (by rw [pending]; rfl)]

end

/-- The logs of the directory are described by some records. -/
def Journaled (db : Database) : Prop :=
  ∃ active waiting, Journal db active waiting

section

variable (journaled : Journaled db)
include journaled

theorem Journaled.maintain (consistent : Consistent db) {step : Maintenance} :
    Journaled (db.maintain sorter step) ∧ (Logged db → Logged (db.maintain sorter step)) := by
  obtain ⟨active, waiting, journal⟩ := journaled
  rcases db.maintain_cases sorter step with rotated | released | only
  · rw [rotated]
    cases pending : db.imm with
    | some _ =>
      rw [triggerFlush_of_some pending]
      exact ⟨⟨active, waiting, journal⟩, id⟩
    | none =>
      have after := journal.triggerFlush pending
      refine ⟨⟨_, _, after⟩, fun logged => after.logged_iff.mpr ?_⟩
      obtain ⟨mem, _⟩ := journal.logged_iff.mp logged
      rw [triggerFlush_of_none pending]
      refine ⟨rfl, fun _ swapped => ?_⟩
      rw [← some.inj swapped]
      exact mem
  · rw [released]
    by_cases flushing : db.flushing = true
    · have pending : db.imm.isSome = true := by
        by_contra absent
        rw [consistent.idle (not_isSome_iff_eq_none.mp absent)] at flushing
        cases flushing
      have after := journal.flushRelease pending flushing
      refine ⟨⟨_, _, after⟩, fun logged => after.logged_iff.mpr ?_⟩
      obtain ⟨mem, _⟩ := journal.logged_iff.mp logged
      unfold Database.flushRelease
      rw [if_pos flushing]
      exact ⟨mem, nofun⟩
    · have same : db.flushRelease = db := if_neg flushing
      rw [same]
      exact ⟨⟨active, waiting, journal⟩, id⟩
  · have after := journal.congr only.wals only.walPath only.immWalPath only.imm only.nextWalId
      (le_of_eq only.lastSeq.symm)
    refine ⟨⟨_, _, after⟩, fun logged => after.logged_iff.mpr ?_⟩
    rw [only.mem, only.imm]
    exact journal.logged_iff.mp logged

/-- A record that a writer commits goes to the log and to the memtable. -/
theorem Journaled.commit (claimed : record.seq < db.lastSeq) :
    Journaled (db.commit record) ∧ (Logged db → Logged (db.commit record)) := by
  obtain ⟨_, _, journal⟩ := journaled
  have after := journal.commit claimed
  refine ⟨⟨_, _, after⟩, fun logged => after.logged_iff.mpr ?_⟩
  obtain ⟨mem, imm⟩ := journal.logged_iff.mp logged
  refine ⟨?_, imm⟩
  rw [MemTable.replay_append, ← mem]
  rfl

/-- Claiming a number and writing to the value log leave the logs alone. -/
theorem Journaled.claim_withVLog {log : VLogManager × List VLogFile} :
    Journaled (db.claim.withVLog log) ∧ (Logged db → Logged (db.claim.withVLog log)) := by
  obtain ⟨active, waiting, journal⟩ := journaled
  have after : Journal (db.claim.withVLog log) active waiting :=
    journal.congr rfl rfl rfl rfl rfl (Nat.le_succ _)
  exact ⟨⟨_, _, after⟩, fun logged => after.logged_iff.mpr (journal.logged_iff.mp logged)⟩

theorem Journaled.call {call : Call} :
    Journaled (db.call call) ∧ (Logged db → Logged (db.call call)) := by
  rcases db.call_cases call with ⟨same, _⟩ | ⟨record, seq_eq, _, written⟩
  · rw [same]
    exact ⟨journaled, id⟩
  rw [written]
  obtain ⟨claimed, claimed_logged⟩ := journaled.claim_withVLog
  have below : record.seq < (db.claim.withVLog
      (prepareOps db.options call.ops db.vlog db.disk.vlogs).2).lastSeq :=
    seq_eq ▸ Nat.lt_succ_self db.lastSeq
  obtain ⟨committed, committed_logged⟩ := claimed.commit below
  exact ⟨committed, fun logged => committed_logged (claimed_logged logged)⟩

end

theorem journal_fresh {options : Options} : Journal (fresh options) [] [] := by
  refine ⟨?_, ⟨1, Nat.lt_succ_self 1, rfl⟩, nofun, nofun⟩
  intro _
  have only : (fresh options).disk.wals = [⟨walName 1, []⟩] := rfl
  rw [only, mem_singleton]
  constructor
  · exact fun present => .inl present.1
  · rintro (rfl | ⟨impossible, _⟩)
    · exact ⟨rfl, isWalName_walName⟩
    · cases impossible

end Database

end LightKV
