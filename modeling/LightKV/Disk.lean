import LightKV.SSTable
import LightKV.VLog

/-!
# The database directory

What a process leaves behind when it is killed: the write-ahead logs with the records
appended to them, the tables, the manifest and the value log. Records that were appended
to a mapped log survive a kill; their bytes and checksums are not modelled, since a log
that was not damaged reads back the records that were appended to it.

A log belongs to one memtable. Replaying its records into an empty memtable rebuilds that
memtable, the versions of a key stacked in the order in which they were logged.
-/

namespace LightKV

open Versions List

/-! ## Write-ahead logs -/

/-- `WALRecord`. -/
inductive WALRecord where
  | value (seq : Nat) (key value : Bytes)
  | deletion (seq : Nat) (key : Bytes)
  | rangeDeletion (seq : Nat) (beginKey endKey : Bytes)
  | batch (seq : Nat) (ops : List BatchOp)
  deriving DecidableEq, Repr

namespace WALRecord

/-- The sequence number of a record. -/
def seq : WALRecord → Nat
  | value seq _ _ => seq
  | deletion seq _ => seq
  | rangeDeletion seq _ _ => seq
  | batch seq _ => seq

/-- The operations of a record; all of them share its sequence number. -/
def ops : WALRecord → List BatchOp
  | value _ key stored => [.value key stored]
  | deletion _ key => [.deletion key]
  | rangeDeletion _ beginKey endKey => [.rangeDeletion beginKey endKey]
  | batch _ ops => ops

/-- The point versions of a record, in order. -/
def points (record : WALRecord) : List Entry :=
  record.ops.filterMap (BatchOp.point record.seq)

/-- The range tombstones of a record. -/
def tombstones (record : WALRecord) : List RangeTombstone :=
  record.ops.filterMap (BatchOp.tombstone record.seq)

end WALRecord

theorem WALRecord.seq_of_mem_points {record : WALRecord}
    (member : entry ∈ record.points) : entry.seq = record.seq := by
  obtain ⟨op, _, point⟩ := mem_filterMap.mp member
  cases op with
  | value _ _ | deletion _ => simp [BatchOp.point] at point; rw [← point]
  | rangeDeletion _ _ => simp [BatchOp.point] at point

theorem WALRecord.seq_of_mem_tombstones {record : WALRecord}
    (member : tombstone ∈ record.tombstones) : tombstone.seq = record.seq := by
  obtain ⟨op, _, stored⟩ := mem_filterMap.mp member
  cases op with
  | rangeDeletion _ _ => simp [BatchOp.tombstone] at stored; rw [← stored]
  | value _ _ | deletion _ => simp [BatchOp.tombstone] at stored

/-- The point versions logged by a list of records, in order. -/
def loggedPoints (records : List WALRecord) : List Entry :=
  records.flatMap WALRecord.points

/-- The range tombstones logged by a list of records. -/
def loggedTombstones (records : List WALRecord) : List RangeTombstone :=
  records.flatMap WALRecord.tombstones

namespace MemTable

/-- The replay of one record, as in `DBImpl::Initialize`. -/
def replayRecord (mem : MemTable) : WALRecord → MemTable
  | .deletion seq key => mem.insertDeletion seq key
  | .rangeDeletion seq beginKey endKey => mem.insertRangeDeletion seq beginKey endKey
  | .batch seq ops => mem.applyAll seq ops
  | .value seq key stored => mem.insert seq key stored

/-- The replay of the records of a log. -/
def replay (mem : MemTable) (records : List WALRecord) : MemTable :=
  records.foldl replayRecord mem

variable (mem : MemTable)

theorem replayRecord_eq : mem.replayRecord record = mem.applyAll record.seq record.ops := by
  cases record <;> rfl

/-- The versions of a key come back with the newest record in front. -/
theorem versions_replay :
    (mem.replay records).versions key =
      (ofKey Entry.key key (loggedPoints records)).reverse ++ mem.versions key := by
  induction records generalizing mem with
  | nil => rfl
  | cons record records ih =>
    have step : mem.replay (record :: records) = (mem.replayRecord record).replay records := rfl
    have points : loggedPoints (record :: records) = record.points ++ loggedPoints records := rfl
    rw [step, ih, replayRecord_eq, versions_applyAll, points, ofKey_append, reverse_append,
      append_assoc]
    rfl

/-- Range tombstones come back in the order of the records. -/
theorem rangeTombstones_replay :
    (mem.replay records).rangeTombstones = mem.rangeTombstones ++ loggedTombstones records := by
  induction records generalizing mem with
  | nil => simp [replay, loggedTombstones]
  | cons record records ih =>
    have step : mem.replay (record :: records) = (mem.replayRecord record).replay records := rfl
    rw [step, ih, replayRecord_eq, rangeTombstones_applyAll, append_assoc]
    rfl

theorem mem_nodes_replay {mem : MemTable} {records : List WALRecord} {entry : Entry} :
    entry ∈ (mem.replay records).nodes ↔ entry ∈ loggedPoints records ∨ entry ∈ mem.nodes := by
  rw [mem_nodes_iff, versions_replay, mem_append, mem_versions]
  simp

theorem replay_append :
    mem.replay (first ++ second) = (mem.replay first).replay second := foldl_append ..

end MemTable

/-- A log file: its name and the records appended to it. -/
structure WalFile where
  name : Bytes
  records : List WALRecord
  deriving DecidableEq, Repr

/-- `std::to_string`, with at least as much fuel as there are digits. -/
def decimalUpTo : Nat → Nat → Bytes
  | 0, _ => []
  | fuel + 1, number =>
      if number < 10 then [UInt8.ofNat (48 + number)]
      else decimalUpTo fuel (number / 10) ++ [UInt8.ofNat (48 + number % 10)]

/-- `std::to_string`. -/
def decimal (number : Nat) : Bytes :=
  decimalUpTo (number + 1) number

/-- The name of the log with a number: `wal-`, the number and `.log`. -/
def walName (number : Nat) : Bytes :=
  [119, 97, 108, 45] ++ decimal number ++ [46, 108, 111, 103]

/-- The names `Initialize` takes for logs: they begin with `wal` and end with `.log`. -/
def isWalName (name : Bytes) : Bool :=
  [119, 97, 108].isPrefixOf name && decide (4 < name.length) &&
    decide (name.drop (name.length - 4) = [46, 108, 111, 103])

/-- The number that decimal digits stand for. -/
def digitsValue (digits : Bytes) : Nat :=
  digits.foldl (fun value digit => value * 10 + (digit.toNat - 48)) 0

/-- Reading a printed number back. -/
theorem digitsValue_decimalUpTo (number : Nat) (enough : number < fuel) :
    digitsValue (decimalUpTo fuel number) = number := by
  induction fuel generalizing number with
  | zero => omega
  | succ _ ih =>
    have digit : ∀ value < 10, (UInt8.ofNat (48 + value)).toNat = 48 + value := by
      simp
      omega
    unfold decimalUpTo
    split
    · rename_i small
      simp only [digitsValue, foldl_cons, foldl_nil, digit number small]
      omega
    have front := ih (number / 10) (by omega)
    unfold digitsValue at front ⊢
    rw [foldl_append]
    simp only [foldl_cons, foldl_nil, digit (number % 10) (by omega)]
    omega

/-- Different numbers give different names. -/
theorem walName_injective (same : walName first = walName second) : first = second := by
  have digits : decimal first = decimal second := by simpa [walName] using same
  have values := congrArg digitsValue digits
  rwa [decimal, decimal, digitsValue_decimalUpTo _ (Nat.lt_succ_self _),
    digitsValue_decimalUpTo _ (Nat.lt_succ_self _)] at values

/-- The scan for log files finds what `walName` names. -/
theorem isWalName_walName : isWalName (walName number) = true := by
  have ending : (walName number).drop ((walName number).length - 4) = [46, 108, 111, 103] := by
    unfold walName
    simp
  have long : 4 < (walName number).length := by simp [walName]
  simp only [isWalName, ending, long]
  rfl

/-! ## Manifest -/

/-- `FileMetaData`. -/
structure FileMetaData where
  fileId : Nat
  smallestKey : Bytes
  largestKey : Bytes
  fileSize : Nat
  deriving DecidableEq, Repr

/-- The manifest's record of a table. -/
def SSTable.metaData (table : SSTable) : FileMetaData :=
  ⟨table.fileId, table.smallestKey, table.largestKey, table.fileSize⟩

/-- `kNumLevels`. -/
def numLevels : Nat := 7

/-- `Manifest`: the counters and the files of each level. -/
structure Manifest where
  lastSeq : Nat
  flushedSeq : Nat
  nextFileId : Nat
  files : Nat → List FileMetaData

namespace Manifest

/-- A manifest without files. -/
def new : Manifest := ⟨0, 0, 1, fun _ => []⟩

/-- `Manifest::AddFile`. -/
def addFile (manifest : Manifest) (level : Nat) (data : FileMetaData) : Manifest :=
  if numLevels ≤ level then manifest
  else { manifest with
    files := Function.update manifest.files level (manifest.files level ++ [data]) }

/-- `Manifest::RemoveFile`. -/
def removeFile (manifest : Manifest) (level fileId : Nat) : Manifest :=
  if numLevels ≤ level then manifest
  else { manifest with
    files := Function.update manifest.files level
      ((manifest.files level).filter fun data => decide (data.fileId ≠ fileId)) }

variable {manifest : Manifest}

/-- Adding files one by one appends them to their level. -/
theorem foldl_addFile_eq {level : Nat} (inner : level < numLevels) (added : List FileMetaData) :
    added.foldl (fun manifest data => manifest.addFile level data) manifest =
      { manifest with
        files := Function.update manifest.files level (manifest.files level ++ added) } := by
  induction added generalizing manifest with
  | nil => simp
  | cons _ _ ih =>
    rw [foldl_cons, ih, addFile, if_neg (Nat.not_le_of_lt inner)]
    dsimp only
    rw [Function.update_self, Function.update_idem, append_assoc]
    rfl

theorem foldl_addFiles_eq {files : Nat → List FileMetaData} {order : List Nat}
    (inner : ∀ level ∈ order, level < numLevels) (distinct : order.Nodup) :
    order.foldl (fun manifest level => (files level).foldl
        (fun manifest data => manifest.addFile level data) manifest) manifest =
      { manifest with
        files := fun level =>
          if level ∈ order then manifest.files level ++ files level
            else manifest.files level } := by
  induction order generalizing manifest with
  | nil => simp
  | cons first _ ih =>
    obtain ⟨new, distinct⟩ := nodup_cons.mp distinct
    rw [foldl_cons, foldl_addFile_eq (inner first mem_cons_self),
      ih (fun level member => inner level (mem_cons_of_mem _ member)) distinct]
    congr 1
    funext level
    by_cases here : level = first
    · subst here
      simp [new]
    · simp [here]

/-- Removals take out exactly the files they name. -/
theorem foldl_removeFile_eq {removals : List (Nat × Nat)}
    (inner : ∀ removal ∈ removals, removal.1 < numLevels) :
    removals.foldl (fun manifest removal => manifest.removeFile removal.1 removal.2) manifest =
      { manifest with
        files := fun level => (manifest.files level).filter fun data =>
          decide ((level, data.fileId) ∉ removals) } := by
  induction removals generalizing manifest with
  | nil => simp
  | cons removal _ ih =>
    rw [foldl_cons, ih fun other member => inner other (mem_cons_of_mem _ member), removeFile,
      if_neg (Nat.not_le_of_lt (inner removal mem_cons_self))]
    congr 1
    funext level
    by_cases here : level = removal.1
    · subst here
      simp [Prod.ext_iff, Bool.and_comm]
    · simp [Prod.ext_iff, here]

end Manifest

/-! ## Directory -/

/-- The directory of a database. The names of its logs are distinct. -/
structure Disk where
  wals : List WalFile
  tables : List SSTable
  manifest : Option Manifest
  vlogs : List VLogFile
  distinct : (wals.map WalFile.name).Nodup

namespace Disk

variable (disk : Disk)

/-- A directory without files. -/
def empty : Disk := ⟨[], [], none, [], List.nodup_nil⟩

/-- The table file with a number. -/
def table? (fileId : Nat) : Option SSTable :=
  disk.tables.find? fun table => decide (table.fileId = fileId)

/-- Remove the table file with a number. -/
def removeTable (fileId : Nat) : Disk :=
  { disk with tables := disk.tables.filter fun table => decide (table.fileId ≠ fileId) }

/-- Write a table file; one that has its number is truncated first. -/
def writeTable (table : SSTable) : Disk :=
  { disk with tables := (disk.removeTable table.fileId).tables ++ [table] }

theorem distinct_filter {wals : List WalFile} (distinct : (wals.map WalFile.name).Nodup) :
    ((wals.filter keep).map WalFile.name).Nodup :=
  distinct.sublist (filter_sublist.map _)

/-- Remove the log with a name. -/
def removeWal (name : Bytes) : Disk :=
  { disk with
    wals := disk.wals.filter fun file => decide (file.name ≠ name)
    distinct := distinct_filter disk.distinct }

/-- Open a log for writing; one that has its name is truncated first. -/
def createWal (name : Bytes) : Disk :=
  { disk with
    wals := (disk.removeWal name).wals ++ [⟨name, []⟩]
    distinct := by
      rw [List.map_append]
      refine List.nodup_append.mpr ⟨(disk.removeWal name).distinct, List.nodup_singleton _, ?_⟩
      intro first in_first second in_second
      obtain ⟨file, member, rfl⟩ := List.mem_map.mp in_first
      have other := (List.mem_filter.mp member).2
      rw [List.mem_singleton.mp in_second]
      simpa using other }

/-- Append a record to the log with a name. -/
def appendWal (name : Bytes) (record : WALRecord) : Disk :=
  { disk with
    wals := disk.wals.map fun file =>
      if file.name = name then { file with records := file.records ++ [record] } else file
    distinct := by
      rw [List.map_map]
      have names : (WalFile.name ∘ fun file => if file.name = name then
          { file with records := file.records ++ [record] } else file) = WalFile.name := by
        funext file
        dsimp only [Function.comp]
        split <;> rfl
      rw [names]
      exact disk.distinct }

/-- Other tables survive a removal. -/
theorem table?_removeTable (removed fileId : Nat) :
    (disk.removeTable removed).table? fileId =
      if fileId = removed then none else disk.table? fileId := by
  unfold table? removeTable
  rw [find?_filter]
  split
  · rename_i same
    simp [same]
  rename_i different
  congr 1
  funext table
  by_cases wanted : table.fileId = fileId
  · simp [wanted, different]
  · simp [wanted]

/-- Other tables survive a write. -/
theorem table?_writeTable :
    (disk.writeTable table).table? fileId =
      if fileId = table.fileId then some table else disk.table? fileId := by
  have removed := disk.table?_removeTable table.fileId fileId
  unfold table? at removed ⊢
  unfold writeTable
  rw [find?_append, removed]
  split
  · rename_i same
    simp [same]
  · rename_i different
    simp [Ne.symm different]

theorem foldl_writeTable_eq (tables : List SSTable) :
    tables.foldl writeTable disk =
      { disk with tables := (tables.foldl writeTable disk).tables } := by
  induction tables generalizing disk with
  | nil => rfl
  | cons _ _ ih =>
    rw [foldl_cons, ih]
    rfl

theorem foldl_removeTable_eq (removed : List Nat) :
    removed.foldl removeTable disk =
      { disk with tables := (removed.foldl removeTable disk).tables } := by
  induction removed generalizing disk with
  | nil => rfl
  | cons _ _ ih =>
    rw [foldl_cons, ih]
    rfl

/-- Files that were written one after another, each under its own number. -/
theorem table?_foldl_writeTable {tables : List SSTable}
    (distinct : (tables.map SSTable.fileId).Nodup) (fileId : Nat) :
    (tables.foldl writeTable disk).table? fileId =
      (tables.find? fun table => decide (table.fileId = fileId)).or (disk.table? fileId) := by
  induction tables generalizing disk with
  | nil => rfl
  | cons table tables ih =>
    obtain ⟨fresh, rest⟩ := nodup_cons.mp distinct
    rw [foldl_cons, ih _ rest, table?_writeTable]
    by_cases same : fileId = table.fileId
    · subst same
      have absent : tables.find? (fun other => decide (other.fileId = table.fileId)) = none := by
        apply find?_eq_none.mpr
        intro other member
        have different : other.fileId ≠ table.fileId := fun equal =>
          fresh (equal ▸ mem_map_of_mem member)
        simpa using different
      simp [absent]
    · simp [same, Ne.symm same]

/-- Removing several tables leaves the others. -/
theorem table?_foldl_removeTable {removed : List Nat} :
    (removed.foldl removeTable disk).table? fileId =
      if fileId ∈ removed then none else disk.table? fileId := by
  induction removed generalizing disk with
  | nil => rfl
  | cons head removed ih =>
    rw [foldl_cons, ih, table?_removeTable]
    by_cases first : fileId = head <;> by_cases later : fileId ∈ removed <;> simp [first, later]

end Disk

end LightKV
