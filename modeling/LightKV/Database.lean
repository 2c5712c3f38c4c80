import LightKV.CompactionMerge
import LightKV.Disk

/-!
# The database

The state of `DBImpl` with its directory, the point read and the operations that change
the state: a write claims a sequence number and then, under the write lock, appends its
record to the active log and inserts it into the active memtable; `TriggerFlush` swaps in
a new memtable together with a new log; a flush writes the immutable memtable to a table
of level 0, records it in the manifest and then drops the memtable and its log.

Every operation is one step. The two halves of a flush are two steps, since a reader or a
kill can come between them.
-/

namespace LightKV

open Versions Levels

/-- `DBImpl`, with the directory it works on. `flushing` stands between the two halves of
`FlushMemTable`: the table of the immutable memtable is installed, the memtable is not
yet dropped. -/
structure Database where
  options : Options
  lastSeq : Nat
  nextFileId : Nat
  flushedSeq : Nat
  mem : MemTable
  imm : Option MemTable
  flushing : Bool
  levels : Nat → List SSTable
  rangeTombstones : List RangeTombstone
  manifest : Manifest
  nextWalId : Nat
  walPath : Bytes
  immWalPath : Bytes
  vlog : VLogManager
  disk : Disk

/-! ## Reading -/

/-- A version with a higher sequence number replaces the best one. -/
def better (best found : Option Entry) : Option Entry :=
  match found, best with
  | none, _ => best
  | some entry, none => some entry
  | some entry, some leader => if entry.seq ≤ leader.seq then best else some entry

/-- `consider` in `Get`. -/
def consider (key : Bytes) (snapshot : Nat) (best : Option Entry) (table : SSTable) :
    Option Entry :=
  if table.mayMatch key then better best (table.get key snapshot) else best

/-- The loop over level 0, newest table first. It ends early at the live counter. -/
def searchLevel0 (key : Bytes) (snapshot lastSeq : Nat) : List SSTable → Option Entry → Option Entry
  | [], best => best
  | table :: tables, best =>
      let best := consider key snapshot best table
      if best.any fun entry => decide (entry.seq = lastSeq) then best
      else searchLevel0 key snapshot lastSeq tables best

/-- The search of one deeper level: the first table whose last key reaches the key. -/
def searchLevel (key : Bytes) (snapshot : Nat) (files : List SSTable) (best : Option Entry) :
    Option Entry :=
  match locate SSTable.largestKey key files with
  | none => best
  | some file =>
      if key < file.smallestKey then best else consider key snapshot best file

/-- The part of `Get` that searches the tables. -/
def searchLevels (levels : Nat → List SSTable) (lastSeq : Nat) (key : Bytes) (snapshot : Nat) :
    Option Entry :=
  (List.range' 1 (numLevels - 1)).foldl
    (fun best level => searchLevel key snapshot (levels level) best)
    (searchLevel0 key snapshot lastSeq (levels 0).reverse none)

namespace Database

variable (db : Database)

/-- The answer for a value found at a sequence number: hidden by a range tombstone, or
unwrapped. -/
def answerValue (key : Bytes) (snapshot : Nat) (stored : Bytes) (seq : Nat) : Except Status Bytes :=
  if covered db.rangeTombstones key seq snapshot then .error (.notFound "")
  else db.vlog.unwrap db.disk.vlogs stored

/-- The answer of one memtable, if it has the key. -/
def readMem (key : Bytes) (snapshot : Nat) (mem : MemTable) : Option (Except Status Bytes) :=
  match mem.find key snapshot with
  | .notFound => none
  | .deleted _ => some (.error (.notFound ""))
  | .value stored seq => some (db.answerValue key snapshot stored seq)

/-- The answer of the tables. -/
def readTables (key : Bytes) (snapshot : Nat) : Except Status Bytes :=
  match searchLevels db.levels db.lastSeq key snapshot with
  | none => .error (.notFound "")
  | some best =>
      if best.type = .deletion then .error (.notFound "")
      else db.answerValue key snapshot best.value best.seq

/-- `DBImpl::Get`; the snapshot `0` stands for the latest one. -/
def getAt (snapshotSeq : Nat) (key : Bytes) : Except Status Bytes :=
  let snapshot := if 0 < snapshotSeq then snapshotSeq else db.lastSeq
  match db.readMem key snapshot db.mem with
  | some answer => answer
  | none =>
      match db.imm.bind (db.readMem key snapshot) with
      | some answer => answer
      | none => db.readTables key snapshot

/-- `DBImpl::Get` at the latest snapshot. -/
def get (key : Bytes) : Except Status Bytes :=
  db.getAt 0 key

/-! ## Writing -/

/-- `last_seq_.fetch_add(1)`: the claimed number is the old value. -/
def claim : Database :=
  { db with lastSeq := db.lastSeq + 1 }

/-- The section under the write lock: append the record and insert it; its range
tombstones are registered as well. -/
def commit (record : WALRecord) : Database :=
  { db with
    mem := db.mem.replayRecord record
    rangeTombstones := db.rangeTombstones ++ record.tombstones
    disk := db.disk.appendWal db.walPath record }

/-- Replace the value log. -/
def withVLog (log : VLogManager × List VLogFile) : Database :=
  { db with vlog := log.1, disk := { db.disk with vlogs := log.2 } }

/-- The section of `WriteImpl` under the write lock, with the sequence number it claimed. -/
def writeImpl (seq : Nat) (key value : Bytes) : Database :=
  let stored := db.vlog.storeValue db.disk.vlogs db.options value
  (db.withVLog stored.2).commit (.value seq key stored.1)

/-- `DBImpl::Put`. -/
def put (key value : Bytes) : Database :=
  db.claim.writeImpl db.lastSeq key value

/-- `DBImpl::Delete`. -/
def delete (key : Bytes) : Database :=
  db.claim.commit (.deletion db.lastSeq key)

/-- `DBImpl::DeleteRange`. -/
def deleteRange (beginKey endKey : Bytes) : Status × Database :=
  if beginKey < endKey then (.ok, db.claim.commit (.rangeDeletion db.lastSeq beginKey endKey))
  else (.invalidArgument "begin_key must be less than end_key", db)

end Database

/-- The value separation of `BatchWrite`, one operation after another. -/
def prepareOps (options : Options) :
    List BatchOp → VLogManager → List VLogFile → List BatchOp × VLogManager × List VLogFile
  | [], manager, files => ([], manager, files)
  | .value key value :: ops, manager, files =>
      let stored := manager.storeValue files options value
      let rest := prepareOps options ops stored.2.1 stored.2.2
      (.value key stored.1 :: rest.1, rest.2)
  | op :: ops, manager, files =>
      let rest := prepareOps options ops manager files
      (op :: rest.1, rest.2)

namespace Database

/-- `DBImpl::BatchWrite`: one record, one sequence number. -/
def batchWrite (db : Database) (ops : List BatchOp) : Database :=
  if ops.isEmpty then db
  else
    let prepared := prepareOps db.options ops db.vlog db.disk.vlogs
    (db.claim.withVLog prepared.2).commit (.batch db.lastSeq prepared.1)

/-! ## Flushing -/

/-- A rotation: the memtable becomes the immutable one, and a new memtable gets a new log. -/
def rotate (db : Database) : Database :=
  { db with
    mem := .new
    imm := some db.mem
    nextWalId := db.nextWalId + 1
    walPath := walName db.nextWalId
    immWalPath := db.walPath
    disk := db.disk.createWal (walName db.nextWalId) }

/-- `DBImpl::TriggerFlush`: nothing while a flush is pending, otherwise a rotation. -/
def triggerFlush (db : Database) : Database :=
  if db.imm.isSome then db else db.rotate

theorem triggerFlush_of_some {db : Database} {imm : MemTable} (pending : db.imm = some imm) :
    db.triggerFlush = db := by
  simp [triggerFlush, pending]

theorem triggerFlush_of_none {db : Database} (free : db.imm = none) :
    db.triggerFlush = db.rotate := by
  simp [triggerFlush, free]

/-- `DBImpl::UpdateManifest`: the counters are taken over and the manifest is on disk. -/
def updateManifest (db : Database) : Database :=
  let manifest := { db.manifest with lastSeq := db.lastSeq, nextFileId := db.nextFileId }
  { db with manifest := manifest, disk := { db.disk with manifest := some manifest } }

/-- What a flush of a memtable writes: its versions and its range tombstones, sorted. -/
def flushEntries (sorter : StdSort internalKeyLess) (mem : MemTable) : List Entry :=
  sortEntries sorter (mem.nodes ++ mem.rangeTombstones.map SSTable.tombstoneEntry)

/-- `DBImpl::WriteLevel0Table`. -/
def writeLevel0Table (sorter : StdSort internalKeyLess) (db : Database) (mem : MemTable) :
    Database :=
  let table := TableBuilder.build db.options db.nextFileId (flushEntries sorter mem)
  { db with
    nextFileId := db.nextFileId + 1
    levels := Function.update db.levels 0 (db.levels 0 ++ [table])
    flushedSeq := mem.maxSeq
    manifest := { db.manifest.addFile 0 table.metaData with flushedSeq := mem.maxSeq }
    disk := db.disk.writeTable table }.updateManifest

/-- The first half of `FlushMemTable`. -/
def flushWrite (sorter : StdSort internalKeyLess) (db : Database) : Database :=
  match db.imm with
  | none => db
  | some mem =>
      if db.flushing then db else { db.writeLevel0Table sorter mem with flushing := true }

theorem flushWrite_cases (sorter : StdSort internalKeyLess) (db : Database) :
    db.flushWrite sorter = db ∨ ∃ mem, db.imm = some mem ∧
      db.flushWrite sorter = { db.writeLevel0Table sorter mem with flushing := true } := by
  unfold flushWrite
  split
  · exact .inl rfl
  · rename_i mem rotated
    split
    · exact .inl rfl
    · exact .inr ⟨mem, rotated, rfl⟩

/-- The second half of `FlushMemTable`: the memtable and its log are dropped. -/
def flushRelease (db : Database) : Database :=
  if db.flushing then
    { db with
      imm := none
      flushing := false
      immWalPath := []
      disk := if db.immWalPath = [] then db.disk else db.disk.removeWal db.immWalPath }
  else db

end Database

end LightKV
