import LightKV.CrashRecovery

/-!
# An opening that fails

When `Initialize` returns an error, `DB::Open` destroys the database. By then the logs are
replayed and unlinked. The destructor does not flush the memtable, as the background thread
was never started, and it writes the manifest: with the counters reached, and as a snapshot
of what was read if the manifest was not read to its end. That may fail as well.

So a failure behind the replay loses what the logs held, and one in front of the manifest
loses the tables, unless the tables that are still named hold the same values.
-/

namespace LightKV

open Versions Levels List

/-- Where `Initialize` fails. The error of a parameter is the one that is returned; what an
unfinished step leaves behind is a parameter too. -/
inductive OpenFault where
  /-- The path is no directory. -/
  | directory (status : Status)
  /-- The new log cannot be opened; the empty file may be there. -/
  | log (status : Status) (left : Bool)
  /-- The new value-log file cannot be opened; a file of some size may be there. -/
  | valueLog (status : Status) (left : Option Nat)
  /-- The manifest cannot be read to its end; some of it was read. -/
  | manifest (status : Status) (reached : Manifest)
  /-- A table cannot be opened. -/
  | table (status : Status) (fileId : Nat)

/-- The error that `DB::Open` returns. -/
def OpenFault.status : OpenFault → Status
  | .directory status | .log status _ | .valueLog status _ | .manifest status _
  | .table status _ => status

/-- How `UpdateManifest` ends in the destructor: the manifest is written, the file of before stays,
or a frame that was cut short stands behind it. -/
inductive Closing where
  | written
  | kept
  | torn
  deriving DecidableEq

namespace Disk

variable (disk : Disk) (fault : OpenFault) (closing : Closing)

/-- The file that a failed opening of the value log leaves. -/
def leftVLog (files : List VLogFile) (left : Option Nat) : List VLogFile :=
  match left with
  | none => files
  | some size => files ++ [⟨files.foldl (fun highest file => max highest file.id) 0 + 1, [], size⟩]

/-- The directory that a failed `Initialize` leaves. -/
def filesLeft : OpenFault → Disk
  | .directory _ => disk
  | .log _ left =>
      if left then disk.withFreshWal else disk.withoutWals (disk.walFiles.map WalFile.name)
  | .valueLog _ left => { disk.withFreshWal with vlogs := leftVLog disk.vlogs left }
  | .manifest _ _ | .table _ _ => disk.opened

/-- The manifest of a database whose `Initialize` has failed, with the counters reached. -/
def manifestReached : OpenFault → Manifest
  | .manifest _ reached => { reached with lastSeq := nextSeq disk.logged, nextFileId := 1 }
  | .table _ fileId =>
      match disk.manifest with
      | some manifest => { manifest with lastSeq := max manifest.lastSeq (nextSeq disk.logged) }
      | none =>
          { Manifest.new with lastSeq := nextSeq disk.logged, nextFileId := max 1 fileId }
  | .directory _ | .log _ _ | .valueLog _ _ =>
      { Manifest.new with lastSeq := nextSeq disk.logged }

/-- The manifest that the directory has in the end. Without a directory none can be written. -/
def manifestLeft : Option Manifest :=
  match fault, closing with
  | .directory _, _ | _, .kept | _, .torn => disk.manifest
  | _, .written => some (disk.manifestReached fault)

/-- Only a manifest that was read to its end is appended to; otherwise a new file is renamed over
the old one. -/
def tears : OpenFault → Closing → Bool
  | .table _ _, .torn => disk.manifest.isSome
  | _, _ => false

/-- The directory that a failed `Initialize` and the destructor leave. -/
def leftBy : Disk :=
  { disk.filesLeft fault with manifest := disk.manifestLeft fault closing }

/-- `DB::Open` when `Initialize` fails: the error, and the directory, or what reading its manifest
comes to. -/
def failedOpen : Status × Except Status Disk :=
  (fault.status,
    if disk.tears fault closing then .error (.corruption "truncated MANIFEST")
    else .ok (disk.leftBy fault closing))

/-- Nothing was done yet; or the tables that the manifest still names hold by themselves what the
logs and the tables held. -/
def Unharmed : Prop :=
  (∃ status, fault = .directory status) ∨ disk.tears fault closing = false ∧
    ∃ levels manifest named counters, disk.metadata = .ok (levels, manifest) ∧
      { disk with manifest := disk.manifestLeft fault closing }.metadata = .ok (named, counters) ∧
      Redundant disk.logged
        ⟨levels, manifest.lastSeq, VLogManager.initializeVLog disk.vlogs⟩
        ⟨named, counters.lastSeq, VLogManager.initializeVLog (disk.filesLeft fault).vlogs⟩

/-! ## The next opening -/

variable {disk fault closing} {options : Options}

theorem tables_filesLeft : (disk.filesLeft fault).tables = disk.tables := by
  have tables := (disk.withoutWals_eq (disk.walFiles.map WalFile.name)).2.1
  cases fault with
  | log _ left => cases left <;> exact tables
  | directory _ => rfl
  | valueLog _ _ | manifest _ _ | table _ _ => exact tables

/-- Behind a failure the logs are empty. -/
theorem logged_filesLeft (begun : ∀ status, fault ≠ .directory status) :
    (disk.filesLeft fault).logged = [] := by
  have fresh : disk.withFreshWal.logged = [] :=
    congrArg (flatMap WalFile.records) disk.walFiles_withFreshWal
  cases fault with
  | directory status => exact absurd rfl (begun status)
  | log _ left =>
    cases left with
    | true => exact fresh
    | false =>
      have removed := disk.walFiles_withoutWals disk.walFiles.length
      rw [take_of_length_le (by simp), drop_length] at removed
      exact congrArg (flatMap WalFile.records) removed
  | valueLog _ _ | manifest _ _ | table _ _ => exact fresh

theorem failedOpen_eq_ok_iff : (disk.failedOpen fault closing).2 = .ok left ↔
    disk.tears fault closing = false ∧ disk.leftBy fault closing = left := by
  unfold failedOpen
  cases disk.tears fault closing <;> simp

/-- The directory of a database with one flushed put. -/
def oneTable : Disk :=
  (Database.eagerRun (Database.flushedPut [107] [118])).disk

/-- The answer behind a failed opening, if the directory can be opened again. -/
def answerBehind (disk : Disk) (fault : OpenFault) (closing : Closing) (key : Bytes) :
    Option (Except Status Bytes) :=
  (disk.failedOpen fault closing).2.toOption.bind (·.openedAnswer key)

end Disk

end LightKV
