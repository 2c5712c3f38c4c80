import LightKV.ByteReader
import LightKV.Disk

/-!
# The manifest file

The file holds the counters and the files of each level, as a snapshot with changes appended
behind it. `WriteToFile` replaces the file by a snapshot. `AppendChanges` appends a frame: the
counters, then the removals staged since the last time, then the additions level by level.
`ReadFromFile` replays what follows the magic bytes. A file without them is read as the text
format of an older version.

Reading changes the manifest as it goes. When the bytes end inside a record it stops, and the
manifest stays as far as it has come.
-/

namespace LightKV

open ByteReader

/-- `Manifest` with its staged changes and its counts of records. -/
structure ManifestState extends Manifest where
  formatVersion : Nat
  pendingAdds : Nat → List FileMetaData
  pendingRemovals : List (Nat × Nat)
  appendedRecords : Nat
  replayedRecords : Nat

namespace ManifestState

variable (state : ManifestState)

/-- A manifest without files. -/
def new : ManifestState where
  toManifest := .new
  formatVersion := 2
  pendingAdds := fun _ => []
  pendingRemovals := []
  appendedRecords := 0
  replayedRecords := 0

/-! ## Changes -/

/-- `Manifest::AddFile`. -/
def addFile (level : Nat) (data : FileMetaData) : ManifestState :=
  if numLevels ≤ level then state
  else
    { state with
      toManifest := state.toManifest.addFile level data
      pendingAdds := Function.update state.pendingAdds level (state.pendingAdds level ++ [data]) }

/-- `Manifest::RemoveFile`. -/
def removeFile (level fileId : Nat) : ManifestState :=
  if numLevels ≤ level then state
  else
    { state with
      toManifest := state.toManifest.removeFile level fileId
      pendingRemovals := state.pendingRemovals ++ [(level, fileId)] }

/-- The counters, which are public members. -/
def setCounters (lastSeq flushedSeq nextFileId : Nat) : ManifestState :=
  { state with lastSeq := lastSeq, flushedSeq := flushedSeq, nextFileId := nextFileId }

/-- `Manifest::RemoveFileDirect`. -/
def removeFileDirect (level fileId : Nat) : ManifestState :=
  { state with toManifest := state.toManifest.removeFile level fileId }

/-- A file that is read is not staged either. -/
def pushFile (level : Nat) (data : FileMetaData) : ManifestState :=
  { state with toManifest := state.toManifest.addFile level data }

/-- `Manifest::LiveFileCount`. -/
def liveFileCount : Nat :=
  ((List.range numLevels).map fun level => (state.files level).length).sum

/-- `Manifest::FoldThreshold`. -/
def foldThreshold : Nat :=
  let scaled := state.liveFileCount / 4
  let threshold := if scaled > 64 then scaled else 64
  if threshold > 2 ^ 20 then 2 ^ 20 else threshold

end ManifestState

/-! ## Encodings -/

/-- `kAppendMagic`. -/
def appendMagic : Bytes := [76, 77, 86, 49]

/-- `kTagAdd`. -/
def tagAdd : UInt8 := 1

/-- `kTagDel`. -/
def tagDel : UInt8 := 2

/-- `kTagSeq`. -/
def tagSeq : UInt8 := 3

/-- `kTagSnapshot`. -/
def tagSnapshot : UInt8 := 4

/-- A file as both formats spell it. -/
def FileMetaData.encode (data : FileMetaData) : Bytes :=
  encodeFixed 8 data.fileId ++ encodeFixed 8 data.fileSize ++ encodeBytes data.smallestKey ++
    encodeBytes data.largestKey

/-- The three counters. -/
def Manifest.encodeCounters (manifest : Manifest) : Bytes :=
  encodeFixed 8 manifest.lastSeq ++ encodeFixed 8 manifest.flushedSeq ++
    encodeFixed 8 manifest.nextFileId

/-- A level of a snapshot; one without files is left out. -/
def Manifest.encodeLevel (manifest : Manifest) (level : Nat) : Bytes :=
  if (manifest.files level).isEmpty then []
  else encodeFixed 4 level ++ encodeFixed 4 (manifest.files level).length ++
    (manifest.files level).flatMap FileMetaData.encode

/-- The content that `WriteToFile` writes. -/
def Manifest.snapshot (manifest : Manifest) : Bytes :=
  appendMagic ++ tagSnapshot :: (manifest.encodeCounters ++
    (List.range numLevels).flatMap manifest.encodeLevel ++ encodeFixed 4 0 ++ encodeFixed 4 0)

namespace ManifestState

variable (state : ManifestState)

/-- The frame that `AppendChanges` appends. -/
def frame : Bytes :=
  tagSeq :: state.encodeCounters ++
    (state.pendingRemovals.flatMap fun removal =>
      tagDel :: (encodeFixed 4 removal.1 ++ encodeFixed 8 removal.2)) ++
    (List.range numLevels).flatMap fun level =>
      (state.pendingAdds level).flatMap fun data => tagAdd :: (encodeFixed 4 level ++ data.encode)

/-! ## Writing -/

/-- Nothing is staged any more. -/
def withoutPending : ManifestState :=
  { state with pendingAdds := fun _ => [], pendingRemovals := [] }

/-- What can go wrong when the file is written: it cannot be opened, a write fails with some
bytes written, or the rename fails. -/
inductive Fault where
  | opening
  | writing (written : Nat)
  | renaming (reason : String)
  deriving DecidableEq, Repr

/-- `Manifest::WriteToFile`. The content goes to another file, which takes the place of the
manifest when it is complete. -/
def writeToFile (fault : Option Fault) (state : ManifestState) (file : Option Bytes) :
    Status × ManifestState × Option Bytes :=
  match fault with
  | some .opening => (.ioError "cannot create MANIFEST.tmp", state, file)
  | some (.writing _) => (.ioError "failed to write MANIFEST", state, file)
  | some (.renaming reason) =>
      (.ioError ("failed to rename MANIFEST (" ++ reason ++ ")"), state, file)
  | none => (.ok, { state.withoutPending with appendedRecords := 0 }, some state.snapshot)

/-- The bytes to which a frame is appended: an empty file gets the magic bytes first. -/
def appendBase (file : Option Bytes) : Bytes :=
  match file with
  | none | some [] => appendMagic
  | some content => content

/-- `Manifest::AppendChanges`. -/
def appendChanges (fault : Option Fault) (state : ManifestState) (file : Option Bytes) :
    Status × ManifestState × Option Bytes :=
  if state.foldThreshold ≤ state.appendedRecords then state.writeToFile fault file
  else
    match fault with
    | some .opening => (.ioError "cannot open MANIFEST for append", state, file)
    | some (.writing written) =>
        (.ioError "failed to append to MANIFEST", state, some ((file.getD []) ++
          ((appendBase file ++ state.frame).drop (file.getD []).length).take written))
    | some (.renaming _) | none =>
        (.ok, { state.withoutPending with appendedRecords := state.appendedRecords + 1 },
          some (appendBase file ++ state.frame))

/-! ## Reading the current format -/

/-- Read the counters one after another. -/
def readCounters (bytes : Bytes)
    (next : ManifestState → Bytes → ManifestState × Option Bytes) : ManifestState × Option Bytes :=
  readFixed 8 state bytes fun lastSeq bytes =>
    readFixed 8 { state with lastSeq := lastSeq } bytes fun flushedSeq bytes =>
      readFixed 8 { state with lastSeq := lastSeq, flushedSeq := flushedSeq } bytes
        fun nextFileId bytes => next (state.setCounters lastSeq flushedSeq nextFileId) bytes

/-- Read a file. -/
def readFile (bytes : Bytes)
    (next : FileMetaData → Bytes → ManifestState × Option Bytes) : ManifestState × Option Bytes :=
  readFixed 8 state bytes fun fileId bytes =>
    readFixed 8 state bytes fun fileSize bytes =>
      readBytes state bytes fun smallestKey bytes =>
        readBytes state bytes fun largestKey bytes =>
          next ⟨fileId, smallestKey, largestKey, fileSize⟩ bytes

/-- The files of a level of a snapshot. -/
def readFiles (level : Nat) : Nat → ManifestState → Bytes → ManifestState × Option Bytes
  | 0, state, bytes => (state, some bytes)
  | count + 1, state, bytes =>
      readFile state bytes fun data bytes => readFiles level count (state.pushFile level data) bytes

/-- The levels of a snapshot up to a level without files. Each takes bytes, so that their
number is fuel enough. -/
def readLevels : Nat → ManifestState → Bytes → ManifestState × Option Bytes
  | 0, state, _ => (state, none)
  | fuel + 1, state, bytes =>
      readFixed 4 state bytes fun level bytes =>
        readFixed 4 state bytes fun count bytes =>
          if count = 0 then (state, some bytes)
          else if numLevels ≤ level then (state, none)
          else andThen (readFiles level count) (readLevels fuel) state bytes

/-- One record of the log. -/
def replayRecord : Bytes → ManifestState × Option Bytes
  | [] => (state, none)
  | tag :: bytes =>
      if tag = tagSnapshot then
        readCounters { state with files := fun _ => [] } bytes fun state bytes =>
          readLevels bytes.length state bytes
      else
        let state := { state with replayedRecords := state.replayedRecords + 1 }
        if tag = tagDel then
          readFixed 4 state bytes fun level bytes =>
            readFixed 8 state bytes fun fileId bytes =>
              (if level < numLevels then state.removeFileDirect level fileId else state, some bytes)
        else if tag = tagAdd then
          readFixed 4 state bytes fun level bytes =>
            readFile state bytes fun data bytes =>
              (if level < numLevels then state.pushFile level data else state, some bytes)
        else if tag = tagSeq then
          readCounters state bytes fun state bytes => (state, some bytes)
        else (state, none)

/-- `Manifest::ReplayLog`. -/
def replayLog (log : Bytes) : Bool × ManifestState :=
  readAll replayRecord { state with replayedRecords := 0 } log

end ManifestState

/-! ## Reading the text format -/

namespace ManifestText

/-- `SplitString`: the text behind the last separator counts only if there is some. -/
def splitString (separator : UInt8) (token : Bytes) : Bytes → List Bytes
  | [] => if token.isEmpty then [] else [token]
  | byte :: bytes =>
      if byte = separator then token :: splitString separator [] bytes
      else splitString separator (token ++ [byte]) bytes

/-- A decimal digit. -/
def isDigit (byte : UInt8) : Bool :=
  decide (48 ≤ byte) && decide (byte ≤ 57)

/-- The loop of `ParseU64`. -/
def parseDigits (value : Nat) : Bytes → Option Nat
  | [] => some value
  | byte :: bytes =>
      if !isDigit byte then none
      else if value > (2 ^ 64 - 1 - (byte.toNat - 48)) / 10 then none
      else parseDigits (value * 10 + (byte.toNat - 48)) bytes

/-- `ParseU64`. -/
def parseU64 (text : Bytes) : Option Nat :=
  if text.isEmpty then none else parseDigits 0 text

/-- The loop of `ParseI32`. -/
def parseMagnitude (value : Nat) : Bytes → Option Nat
  | [] => some value
  | byte :: bytes =>
      if !isDigit byte then none
      else if value * 10 + (byte.toNat - 48) > 2147483648 then none
      else parseMagnitude (value * 10 + (byte.toNat - 48)) bytes

/-- `ParseI32`; the largest magnitude becomes the smallest number. -/
def parseI32 (text : Bytes) : Option Int :=
  match text with
  | [] => none
  | 45 :: digits =>
      if digits.isEmpty then none else (parseMagnitude 0 digits).map fun value => -(value : Int)
  | digits => (parseMagnitude 0 digits).map fun value =>
      if value = 2147483648 then -2147483648 else (value : Int)

/-- `find`: the first place at or behind `start` where the pattern occurs. -/
def find (line pattern : Bytes) (start : Nat) : Option Nat :=
  (List.range' start (line.length + 1 - start)).find? fun place =>
    pattern.isPrefixOf (line.drop place)

/-- `file: `. -/
def fileLabel : Bytes := [102, 105, 108, 101, 58, 32]

/-- `size: `. -/
def sizeLabel : Bytes := [115, 105, 122, 101, 58, 32]

/-- `ParseU64After`. -/
def parseU64After (line label : Bytes) : Option Nat :=
  (find line label 0).bind fun place =>
    parseU64 ((line.drop (place + label.length)).takeWhile isDigit)

/-- `ParseLegacyFileLine`. -/
def parseLegacyFileLine (line : Bytes) : Option FileMetaData := do
  let place ← find line fileLabel 0
  let digits := (line.drop (place + 6)).takeWhile isDigit
  let fileId ← parseU64 digits
  let opening ← find line [91] (place + 6 + digits.length)
  let comma ← find line [44] opening
  let closing ← find line [93] comma
  let smallestKey := (line.drop (opening + 1)).take (comma - opening - 1)
  let largest := if (line.drop (comma + 1)).head? = some 32 then comma + 2 else comma + 1
  let largestKey := (line.drop largest).take (closing - largest)
  let fileSize ← parseU64After line sizeLabel
  return ⟨fileId, smallestKey, largestKey, fileSize⟩

/-- `---`. -/
def ruler : Bytes := [45, 45, 45]

/-- `format_version: `. -/
def formatVersionLabel : Bytes :=
  [102, 111, 114, 109, 97, 116, 95, 118, 101, 114, 115, 105, 111, 110, 58, 32]

/-- `last_seq: `. -/
def lastSeqLabel : Bytes := [108, 97, 115, 116, 95, 115, 101, 113, 58, 32]

/-- `flushed_seq: `. -/
def flushedSeqLabel : Bytes := [102, 108, 117, 115, 104, 101, 100, 95, 115, 101, 113, 58, 32]

/-- `next_file_id: `. -/
def nextFileIdLabel : Bytes :=
  [110, 101, 120, 116, 95, 102, 105, 108, 101, 95, 105, 100, 58, 32]

/-- `Level `. -/
def levelLabel : Bytes := [76, 101, 118, 101, 108, 32]

/-- `  file: `. -/
def fileLineLabel : Bytes := [32, 32, 102, 105, 108, 101, 58, 32]

/-- The line is a level header. -/
def isLevelHeader (line : Bytes) : Bool :=
  levelLabel.isPrefixOf line && decide (line.getLast? = some 58)

/-- The lines of the text format, with the state of its loop: whether the ruler was seen, and
the current level. -/
def readLines : ManifestState → Bool → Option Nat → List Bytes → Status × ManifestState
  | state, _, _, [] => (.ok, state)
  | state, inFiles, level, line :: lines =>
      if line.isEmpty then readLines state inFiles level lines
      else if line = ruler then readLines state true level lines
      else if !inFiles then
        if formatVersionLabel.isPrefixOf line then
          match parseU64 (line.drop 16) with
          | none => (.corruption "bad format_version in MANIFEST", state)
          | some value =>
              readLines { state with formatVersion := value % 2 ^ 32 } inFiles level lines
        else if lastSeqLabel.isPrefixOf line then
          match parseU64 (line.drop 10) with
          | none => (.corruption "bad last_seq in MANIFEST", state)
          | some value => readLines { state with lastSeq := value } inFiles level lines
        else if flushedSeqLabel.isPrefixOf line then
          match parseU64 (line.drop 13) with
          | none => (.corruption "bad flushed_seq in MANIFEST", state)
          | some value => readLines { state with flushedSeq := value } inFiles level lines
        else if nextFileIdLabel.isPrefixOf line then
          match parseU64 (line.drop 14) with
          | none => (.corruption "bad next_file_id in MANIFEST", state)
          | some value => readLines { state with nextFileId := value } inFiles level lines
        else readLines state inFiles level lines
      else if isLevelHeader line then
        match parseI32 ((line.drop 6).take (line.length - 7)) with
        | none => (.corruption "bad level header in MANIFEST", state)
        | some value =>
            if value < 0 ∨ (numLevels : Int) ≤ value then (.corruption "level out of range", state)
            else readLines state inFiles (some value.toNat) lines
      else if !fileLineLabel.isPrefixOf line then readLines state inFiles level lines
      else
        match level with
        | none => readLines state inFiles level lines
        | some current =>
            match parseLegacyFileLine line with
            | none => (.corruption "bad file entry in MANIFEST", state)
            | some data => readLines (state.pushFile current data) inFiles level lines

end ManifestText

namespace ManifestState

/-- `Manifest::ReadFromFile`. -/
def readFromFile (state : ManifestState) (file : Option Bytes) : Status × ManifestState :=
  match file with
  | none => (.ioError "cannot open MANIFEST", state)
  | some content =>
      if appendMagic.isPrefixOf content then
        match replayLog { state with files := fun _ => [] } (content.drop 4) with
        | (false, state) => (.corruption "truncated MANIFEST", state)
        | (true, state) => (.ok, { state with appendedRecords := state.replayedRecords })
      else
        ManifestText.readLines { state with files := fun _ => [] } false none
          (ManifestText.splitString 10 [] content)

/-! ## The readers look at what they take -/

theorem local_readCounters
    (steps : Local next) : Local fun state bytes => readCounters state bytes next := by
  have third := local_storeFixed 8
    (fun value (state : ManifestState) => { state with nextFileId := value }) steps
  have second := local_storeFixed 8
    (fun value (state : ManifestState) => { state with flushedSeq := value }) third
  exact local_storeFixed 8 (fun value state => { state with lastSeq := value }) second

theorem local_readFile {next : FileMetaData → ManifestState → Bytes → ManifestState × Option Bytes}
    (steps : ∀ data, Local (next data)) :
    Local fun state bytes => readFile state bytes fun data rest => next data state rest :=
  local_readFixed fun fileId => local_readFixed fun fileSize =>
    local_readBytes fun smallestKey => local_readBytes fun largestKey =>
      steps ⟨fileId, smallestKey, largestKey, fileSize⟩

theorem local_readFiles : Local (readFiles level count) := by
  induction count with
  | zero => exact local_done
  | succ _ ih => exact local_readFile fun data => ih.comp fun state => state.pushFile level data

theorem local_readLevels : Local (readLevels fuel) := by
  induction fuel with
  | zero => exact local_stopped
  | succ _ ih =>
    refine local_readFixed fun level => local_readFixed fun count => ?_
    by_cases last : count = 0
    · simp only [if_pos last]
      exact local_done
    by_cases outside : numLevels ≤ level
    · simp only [if_neg last, if_pos outside]
      exact local_stopped
    · simp only [if_neg last, if_neg outside]
      exact local_readFiles.andThen ih

end ManifestState

end LightKV
