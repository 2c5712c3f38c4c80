import LightKV.Database

/-!
# Compaction rounds

`DoLevel0Compaction` merges the oldest tables of level 0 with the tables of level 1 that
overlap their key range; `DoLevelCompaction` merges the first table of a level with the
overlapping tables of the next one. The merge is the one of `doCompaction`. When it
succeeds, the inputs leave their levels, the outputs are inserted one after another, the
manifest is written and the files of the inputs are removed.

No reader of the source holds a snapshot here, so that the oldest snapshot is the largest
64-bit number.
-/

namespace LightKV

open Versions Levels List Function

/-- `GetOldestSnapshot` without active snapshots. -/
def noSnapshot : Nat := 2 ^ 64 - 1

/-- How many tables of level 0 a round takes: a bounded batch, but at least half. -/
def level0Take (options : Options) (size : Nat) : Nat :=
  let configured := if options.l0CompactionMaxFiles = 0 then options.l0FileNumTrigger * 4
    else options.l0CompactionMaxFiles
  let batch := max 4 configured
  if batch < size then max batch (size / 2) else size

theorem level0Take_pos (options : Options) (positive : 0 < size) : 0 < level0Take options size := by
  unfold level0Take
  dsimp only
  generalize (if options.l0CompactionMaxFiles = 0 then options.l0FileNumTrigger * 4
    else options.l0CompactionMaxFiles) = configured
  split <;> omega

/-- Widen a key range by a table; an empty key of the table does not count. -/
def widen (range : Bytes × Bytes) (table : SSTable) : Bytes × Bytes :=
  (if table.smallestKey ≠ [] ∧ table.smallestKey < range.1 then table.smallestKey else range.1,
    if table.largestKey ≠ [] ∧ range.2 < table.largestKey then table.largestKey else range.2)

/-- `l0_min_key` and `l0_max_key`: the first table counts as it is. -/
def level0Range : List SSTable → Bytes × Bytes
  | [] => ([], [])
  | table :: tables => tables.foldl widen (table.smallestKey, table.largestKey)

/-- `LargestKey() >= min && SmallestKey() <= max`. -/
def overlaps (range : Bytes × Bytes) (table : SSTable) : Bool :=
  !decide (table.largestKey < range.1) && !decide (range.2 < table.smallestKey)

/-- An input of a round with the level it comes from. -/
structure InputFile where
  level : Nat
  table : SSTable
  deriving DecidableEq, Repr

/-- `DBImpl::InsertIntoLevel`. -/
def insertIntoLevel (levels : Nat → List SSTable) (level : Nat) (table : SSTable) :
    Nat → List SSTable :=
  Function.update levels level
    (if level = 0 then levels 0 ++ [table]
      else insertFile SSTable.smallestKey table (levels level))

/-- The manifest edits of a round. -/
def editManifest (manifest : Manifest) (outputLevel : Nat) (added : List SSTable)
    (inputs : List InputFile) : Manifest :=
  inputs.foldl (fun manifest input => manifest.removeFile input.level input.table.fileId)
    (added.foldl (fun manifest table => manifest.addFile outputLevel table.metaData) manifest)

namespace Database

variable (db : Database)

/-- The tables of the next level that overlap a range. -/
def overlapping (level : Nat) (range : Bytes × Bytes) : List SSTable :=
  (db.levels (level + 1)).filter (overlaps range)

/-- The file numbers and files of a merge, whether or not it succeeds. -/
def withOutputs (result : CompactionResult) : Database :=
  { db with
    nextFileId := result.nextFileId
    disk := result.written.foldl Disk.writeTable db.disk }

/-- The end of a successful round, behind the removal of the inputs from their levels. -/
def install (outputLevel : Nat) (added : List SSTable) (inputs : List InputFile) : Database :=
  let edited := { db with
    levels := added.foldl (fun levels table => insertIntoLevel levels outputLevel table) db.levels
    manifest := editManifest db.manifest outputLevel added inputs }.updateManifest
  { edited with
    disk := (inputs.map fun input => input.table.fileId).foldl Disk.removeTable edited.disk }

/-- The tables of level 0 that a round takes. -/
def level0Picked : List SSTable :=
  (db.levels 0).take (level0Take db.options (db.levels 0).length)

/-- The tables of level 1 that a round merges: none if the range begins with the empty
key. -/
def level0Overlapping : List SSTable :=
  let range := level0Range db.level0Picked
  if range.1 = [] then [] else db.overlapping 0 range

/-- `DBImpl::DoLevel0Compaction`. The tables of level 1 are removed by key range. -/
def doLevel0Compaction : Status × Database :=
  if (db.levels 0).isEmpty then (.ok, db)
  else
    let picked := db.level0Picked
    let range := level0Range picked
    let overlapping := db.level0Overlapping
    let result := doCompaction db.options noSnapshot db.nextFileId (picked ++ overlapping) 1
    let merged := db.withOutputs result
    if result.status.isOk then
      let detached := { merged with
        levels := Function.update
          (Function.update merged.levels 0 ((merged.levels 0).drop picked.length))
          1 ((merged.levels 1).filter fun table => !overlaps range table) }
      (.ok, detached.install 1 result.added
        (picked.map (InputFile.mk 0) ++ overlapping.map (InputFile.mk 1)))
    else (result.status, merged)

/-- Remove the tables with the numbers of the inputs from their levels. -/
def detach (levels : Nat → List SSTable) (inputs : List InputFile) : Nat → List SSTable :=
  inputs.foldl
    (fun levels input => Function.update levels input.level
      ((levels input.level).filter fun table => decide (table.fileId ≠ input.table.fileId)))
    levels

/-- `DBImpl::DoLevelCompaction`. The inputs are removed by their numbers. -/
def doLevelCompaction (level : Nat) : Status × Database :=
  if numLevels ≤ level + 1 then (.ok, db)
  else
    match db.levels level with
    | [] => (.ok, db)
    | picked :: _ =>
        let overlapping := db.overlapping level (picked.smallestKey, picked.largestKey)
        let result := doCompaction db.options noSnapshot db.nextFileId (picked :: overlapping)
          (level + 1)
        let merged := db.withOutputs result
        if result.status.isOk then
          let inputs := ⟨level, picked⟩ :: overlapping.map (InputFile.mk (level + 1))
          let detached := { merged with levels := detach merged.levels inputs }
          (.ok, detached.install (level + 1) result.added inputs)
        else (result.status, merged)

/-- A round that returns an error for another reason: it has claimed file numbers and left
nothing else behind. -/
def compactionError (claimed : Nat) : Database :=
  { db with nextFileId := db.nextFileId + claimed }

/-! ## The shape of a round -/

/-- The tables of the next level that stay. -/
def staying (level : Nat) (range : Bytes × Bytes) : List SSTable :=
  (db.levels (level + 1)).filter fun table => !overlaps range table

/-- The merge of a round that picks tables of a level. -/
def roundResult (level : Nat) (picked : List SSTable) (range : Bytes × Bytes) : CompactionResult :=
  doCompaction db.options noSnapshot db.nextFileId (picked ++ db.overlapping level range)
    (level + 1)

/-- The end of a round that picks the front of a level and leaves the rest. -/
def finishRound (level : Nat) (picked rest : List SSTable) (range : Bytes × Bytes) : Database :=
  let merged := db.withOutputs (db.roundResult level picked range)
  { merged with
    levels := Function.update (Function.update merged.levels level rest) (level + 1)
      (db.staying level range) }.install (level + 1) (db.roundResult level picked range).added
      (picked.map (InputFile.mk level) ++
        (db.overlapping level range).map (InputFile.mk (level + 1)))

theorem level0Picked_append :
    db.level0Picked ++ (db.levels 0).drop db.level0Picked.length = db.levels 0 := by
  unfold level0Picked
  rw [length_take]
  conv_rhs => rw [← take_append_drop (level0Take db.options (db.levels 0).length) (db.levels 0)]
  rcases le_total (level0Take db.options (db.levels 0).length) (db.levels 0).length with
    inside | beyond
  · rw [min_eq_left inside]
  · rw [min_eq_right beyond, drop_length, drop_eq_nil_of_le beyond]

/-- A round on level 0 whose range begins with a key, or that has nothing to merge there,
has the shape of a round. -/
theorem doLevel0Compaction_eq (db : Database) (met : (level0Range db.level0Picked).1 = [] →
      db.overlapping 0 (level0Range db.level0Picked) = []) (filled : db.levels 0 ≠ []) :
    db.doLevel0Compaction =
      if (db.roundResult 0 db.level0Picked (level0Range db.level0Picked)).status.isOk then
        (.ok, db.finishRound 0 db.level0Picked ((db.levels 0).drop db.level0Picked.length)
          (level0Range db.level0Picked))
      else ((db.roundResult 0 db.level0Picked (level0Range db.level0Picked)).status,
        db.withOutputs (db.roundResult 0 db.level0Picked (level0Range db.level0Picked))) := by
  have same : db.level0Overlapping = db.overlapping 0 (level0Range db.level0Picked) := by
    unfold level0Overlapping
    dsimp only
    split
    · rename_i begins
      exact (met begins).symm
    · rfl
  unfold doLevel0Compaction
  rw [if_neg (by simpa using filled), same]
  rfl

/-- Removing by numbers removes, from each level, the tables with the numbers of the inputs
of that level. -/
theorem detach_apply {inputs : List InputFile} {levels : Nat → List SSTable} :
    detach levels inputs level = (levels level).filter fun table =>
      decide (∀ input ∈ inputs, input.level = level → table.fileId ≠ input.table.fileId) := by
  induction inputs generalizing levels with
  | nil => simp [detach]
  | cons input inputs ih =>
    have step : detach levels (input :: inputs) = detach (update levels input.level
      ((levels input.level).filter fun table => decide (table.fileId ≠ input.table.fileId)))
      inputs := rfl
    rw [step, ih]
    by_cases here : level = input.level
    · subst here
      rw [update_self, filter_filter]
      congr 1
      funext table
      rw [Bool.eq_iff_iff]
      simp only [Bool.and_eq_true, decide_eq_true_eq, forall_mem_cons, true_implies]
      exact and_comm
    · rw [update_of_ne here]
      simp [Ne.symm here]

end Database

end LightKV
